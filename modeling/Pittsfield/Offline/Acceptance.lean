import Mathlib.Data.Finset.Lattice.Lemmas
import Pittsfield.Offline.Pointers

/-!
# What the main loop of `verify.pl` accepts

A row that does not straddle the end of a chunk takes the loop on without a complaint if
its opcode is known, `check_insn` lets it through, and neither its operands nor its flags
meet a weakening. The results of `check_insn` for the masks, transfers and stores that a
rewriter adds are collected behind.
-/

namespace Pittsfield.Offline

open Pittsfield.Foundation
open Pittsfield.Region
open Pittsfield.Machine
open Offline.Flag

section Loop

variable {L : Layout} {st st' t : VState} {rows rest : List Row} {addr size : Nat} {i : Insn} {flags : Flags}

theorem verifyRows_append (h : verifyRows L st rows = .ok ([], st')) (hrest : verifyRows L st' rest = .ok ([], t)) :
    verifyRows L st (rows ++ rest) = .ok ([], t) := by
  induction rows generalizing st with
  | nil =>
    obtain ⟨-, rfl⟩ := Prod.mk.inj (Except.ok.inj h)
    exact hrest
  | cons row rows ih =>
    cases row with
    | other a n => exact ih h
    | insn a i =>
      obtain ⟨st₁, hrow, hrows⟩ := verifyRows_insn h
      rw [List.cons_append, verifyRows, hrow]
      simp only [ih hrows, List.append_nil]

/-- The next chunk start that the loop waits for is the first one from the address on. -/
structure Ahead (L : Layout) (st : VState) (addr : Nat) : Prop where
  aligned : L.chunk_size ∣ st.next_aligned
  ahead : addr ≤ st.next_aligned
  near : st.next_aligned < addr + L.chunk_size

theorem ahead_first : Ahead L (initialState L) L.code_start where
  aligned := L.code_aligned
  ahead := Nat.le_refl _
  near := Nat.lt_add_of_pos_right L.chunk_pos

/-- Within a chunk the loop waits for the next one. -/
theorem Ahead.ne_of_same (h : Ahead L st addr) {a : Nat} (hlt : a < addr)
    (hsame : a / L.chunk_size = addr / L.chunk_size) : addr ≠ st.next_aligned := by
  intro heq
  obtain ⟨k, hk⟩ := heq ▸ h.aligned
  have hdiv : addr / L.chunk_size = k := by rw [hk, Nat.mul_div_cancel_left _ L.chunk_pos]
  have hle : k * L.chunk_size ≤ a := (Nat.le_div_iff_mul_le L.chunk_pos).mp (hsame.trans hdiv).ge
  rw [Nat.mul_comm] at hle
  omega

variable (L st addr i flags) in
/-- Nothing is complained about, and the instruction has the flags. -/
structure Accepts : Prop where
  known : i.op ∈ knownOpcodes
  checked : check_insn L i.op i.args (st.safetyAt addr) st.unsafety = .ok flags
  used : useReports L st.unsafety addr i = []
  silent : flagReports (st.safetyAt addr) st.unsafety flags addr i = []

/-- The state behind an accepted row, with the next chunk start. -/
def VState.next (st : VState) (addr : Nat) (op : String) (flags : Flags) (next_aligned : Nat) : VState :=
  { updateState st (st.safetyAt addr) op flags with next_aligned := next_aligned }

theorem VState.next_weak (op : String) (n : Nat) :
    (st.next addr op flags n).weak = st.weak.after (post flags) :=
  weak_updateState st (st.safetyAt addr) op flags

/-- One more row. -/
theorem Ahead.insn (h : Ahead L st addr) (hpos : 0 < i.size)
    (hfit : addr % L.chunk_size + i.size ≤ L.chunk_size) (haccepts : Accepts L st addr i flags) :
    ∃ n, verifyRows L st [.insn addr i] = .ok ([], st.next addr i.op flags n) ∧
      Ahead L (st.next addr i.op flags n) (addr + i.size) := by
  obtain ⟨hknown, hchecked, hused, hsilent⟩ := haccepts
  obtain ⟨haligned, hahead, hnear⟩ := h
  have hrow : ∀ st', checkRow L st addr i = .ok ([], st') → verifyRows L st [.insn addr i] = .ok ([], st') := by
    intro st' hrow
    rw [verifyRows, hrow]
    rfl
  have hreports : useReports L st.unsafety addr i ++ flagReports (st.safetyAt addr) st.unsafety flags addr i = [] := by
    rw [hused, hsilent]
    rfl
  by_cases hstart : addr = st.next_aligned
  · have hzero : addr % L.chunk_size = 0 := Nat.mod_eq_zero_of_dvd (hstart ▸ haligned)
    refine ⟨st.next_aligned + L.chunk_size, hrow _ ?_, Nat.dvd_add haligned (Nat.dvd_refl _), ?_, ?_⟩
    · simp only [checkRow, if_neg (not_not.mpr hknown), hchecked, hreports, if_neg (Nat.not_lt.mpr hahead),
        if_pos hstart, VState.next]
    · show addr + i.size ≤ st.next_aligned + L.chunk_size
      omega
    · show st.next_aligned + L.chunk_size < addr + i.size + L.chunk_size
      omega
  · refine ⟨st.next_aligned, hrow _ ?_, haligned, ?_, ?_⟩
    · simp only [checkRow, if_neg (not_not.mpr hknown), hchecked, hreports, if_neg (Nat.not_lt.mpr hahead),
        if_neg hstart, VState.next]
      rfl
    · show addr + i.size ≤ st.next_aligned
      obtain ⟨k, hk⟩ := haligned
      have hsplit := Nat.div_add_mod addr L.chunk_size
      have hlater : addr / L.chunk_size < k := by
        apply Nat.lt_of_mul_lt_mul_left (a := L.chunk_size)
        omega
      have hnext := Nat.mul_le_mul_left L.chunk_size (Nat.succ_le_of_lt hlater)
      rw [Nat.mul_succ] at hnext
      omega
    · show st.next_aligned < addr + i.size + L.chunk_size
      omega

end Loop

section Complaints

variable {L : Layout} {safety unsafety flags : Flags} {addr : Nat} {i : Insn}

theorem no_useReports
    (hebp : CHANGE_EBP ∈ unsafety → found ["%ebp"] (argsText i.args) = false ∨ masksEbp L i = true)
    (hesp : CHANGE_ESP ∈ unsafety → usesEsp (argsText i.args) = false ∧ found ["push", "pop", "call", "ret"] i.op = false) :
    useReports L unsafety addr i = [] := by
  rw [useReports, if_neg, if_neg, List.append_nil]
  · intro hand
    obtain ⟨huses, hop⟩ := hesp hand.1
    rw [huses, hop] at hand
    obtain hcase | hcase := hand.2 <;> cases hcase
  · intro hand
    obtain hfound | hmasks := hebp hand.1
    · rw [hfound] at hand
      cases hand.2.1
    · exact hand.2.2 hmasks

theorem not_usesEsp_tail {cs : List Char} (h : '%' ∉ cs) :
    (cs ++ "%esp".toList).tails.any (fun cs => "%esp".toList.isPrefixOf cs && 4 < cs.length) = false := by
  induction cs with
  | nil => decide
  | cons c cs ih =>
    obtain ⟨hc, hcs⟩ := not_or.mp (List.mem_cons.not.mp h)
    have hfirst : "%esp".toList.isPrefixOf (c :: (cs ++ "%esp".toList)) = false := by
      show (('%' == c) && _) = false
      rw [beq_eq_false_iff_ne.mpr hc, Bool.false_and]
    rw [List.cons_append, List.tails_cons, List.any_cons, hfirst, Bool.false_and, Bool.false_or]
    exact ih hcs

/-- The mask of `%esp` does not name it as a base. -/
theorem not_usesEsp_mask (v : Word) : usesEsp (argsText [.imm (hexText v), .reg (.r32 .esp)]) = false := by
  have hdigits : '%' ∉ (hexText v).toList := by
    rw [hexText, String.toList_ofList]
    intro hmem
    obtain heq | heq | hmem := (List.mem_cons.mp hmem).imp_right List.mem_cons.mp
    · cases heq
    · cases heq
    · obtain ⟨k, -, hk⟩ := List.mem_map.mp hmem
      have hdigit := hexDigit_digitChar (Nat.mod_lt (v.toNat / 16 ^ k) (by decide : 16 > 0))
      rw [hk] at hdigit
      cases hdigit
  have htext : (argsText [.imm (hexText v), .reg (.r32 .esp)]).toList =
      ('$' :: (hexText v).toList ++ [',']) ++ "%esp".toList := by
    rw [argsText_pair, List.append_assoc]
    simp [Operand.text, String.toList_append, regText, reg32Text]
  rw [usesEsp, htext]
  refine not_usesEsp_tail fun hmem => ?_
  obtain hmem | hmem := List.mem_append.mp hmem
  · exact hdigits ((List.mem_cons.mp hmem).resolve_left (by decide))
  · exact absurd (List.mem_singleton.mp hmem) (by decide)

theorem no_flagReports (hijump : IJUMP ∉ flags) (hiwrite : IWRITE ∉ flags)
    (hjump : JUMP ∈ flags → CHANGE_EBP ∉ unsafety ∧ CHANGE_ESP ∉ unsafety ∧ BUMP_ESP ∉ unsafety) :
    flagReports safety unsafety flags addr i = [] := by
  rw [flagReports, if_neg fun hor => hor.elim hijump hiwrite, if_neg fun hand => (hjump hand.1).1 hand.2,
    if_neg fun hand => hand.2.elim (hjump hand.1).2.1 (hjump hand.1).2.2]
  rfl

end Complaints

section Forms

variable {L : Layout} {safety unsafety : Flags}

theorem hexText_inj {v w : Word} (h : hexText v = hexText w) : v = w := by
  have hv := signed_word_hexText v
  rw [h, signed_word_hexText] at hv
  exact BitVec.eq_of_toInt_eq (Option.some.inj hv).symm

theorem check_pushf : check_insn L "pushf" [] safety unsafety = .ok {USE_ESP, CHANGE_ESP} := rfl

theorem check_popf : check_insn L "popf" [] safety unsafety = .ok {USE_ESP, CHANGE_ESP} := rfl

theorem check_pop : check_insn L "pop" [.reg (.r32 .ebx)] safety unsafety = .ok {USE_ESP, CHANGE_ESP} := rfl

/-- A mask of a register. -/
theorem check_and (value : String) (r : Reg32) :
    check_insn L "and" [.imm value, .reg (.r32 r)] safety unsafety = .ok
      (if value = hexText L.data_mask ∧ r = .ebx then {EBX_DATA_SAFE}
        else if value = hexText L.jump_mask ∧ r = .ebx then {EBX_CODE_SAFE}
        else if value = hexText L.data_mask ∧ r = .ebp then {EBP_DATA_SAFE}
        else if value = hexText L.data_mask ∧ r = .esp then {USE_ESP}
        else immRegChange "and" value (.r32 r)) := by
  have hmov : "and" ≠ "mov" := by decide
  have harith : "and" ∈ arith8 := by decide
  have hor : "and" ≠ "or" := by decide
  show immRegFlags L "and" safety value (.r32 r) = _
  simp only [immRegFlags, if_neg hmov, if_pos harith, true_and, hor, false_and, if_false, Reg.r32.injEq, esp_safety]
  split_ifs <;> rfl

theorem check_mask_data : check_insn L "and" [.imm (hexText L.data_mask), .reg (.r32 .ebx)] safety unsafety =
    .ok {EBX_DATA_SAFE} := by
  rw [check_and, if_pos ⟨rfl, rfl⟩]

theorem check_mask_jump (hdiffer : L.jump_mask ≠ L.data_mask) :
    check_insn L "and" [.imm (hexText L.jump_mask), .reg (.r32 .ebx)] safety unsafety = .ok {EBX_CODE_SAFE} := by
  rw [check_and, if_neg fun hand => hdiffer (hexText_inj hand.1), if_pos ⟨rfl, rfl⟩]

theorem check_mask_ebp : check_insn L "and" [.imm (hexText L.data_mask), .reg (.r32 .ebp)] safety unsafety =
    .ok {EBP_DATA_SAFE} := by
  simp only [check_and, reduceCtorEq, and_false, if_false, and_self, if_true]

theorem check_mask_esp : check_insn L "and" [.imm (hexText L.data_mask), .reg (.r32 .esp)] safety unsafety =
    .ok {USE_ESP} := by
  simp only [check_and, reduceCtorEq, and_false, if_false, and_self, if_true]

/-- The mask of the stack top. -/
theorem check_mask_top : check_insn L "andl" [.imm (hexText L.jump_mask), .mem none (some .esp) none none]
    safety unsafety = .ok {USE_ESP, STACK_TOP_SAFE} := by
  show immComplexFlags L "andl" safety unsafety (hexText L.jump_mask) (.mem none (some .esp) none none) = _
  have hebp : (Operand.mem none (some .esp) none none).offsetFrom .ebp false = none := rfl
  have hesp : (Operand.mem none (some .esp) none none).offsetFrom .esp true = some "" := rfl
  simp only [immComplexFlags, hebp, hesp, and_self, if_true]
  rw [if_pos]
  rw [decide_true, Bool.or_true]

/-- A sum of `%esp` and an immediate. -/
theorem check_add_esp (value : String) :
    ∃ f, check_insn L "add" [.imm value, .reg (.r32 .esp)] safety unsafety = .ok f ∧
      (f = {BUMP_ESP} ∨ f = {CHANGE_ESP}) := by
  have hmov : "add" ≠ "mov" := by decide
  have harith : "add" ∈ arith8 := by decide
  have hand : "add" ≠ "and" := by decide
  have hor : "add" ≠ "or" := by decide
  have hwhole : (Reg.r32 .esp).whole ≠ some .ebp := by decide
  refine ⟨immRegChange "add" value (.r32 .esp), ?_, ?_⟩
  · show immRegFlags L "add" safety value (.r32 .esp) = _
    simp only [immRegFlags, if_neg hmov, if_pos harith, hand, hor, false_and, if_false]
  · simp only [immRegChange, if_neg hwhole, if_true, hand, false_and, if_false, Finset.empty_union]
    split_ifs
    · exact Or.inl rfl
    · exact Or.inr rfl

theorem check_jmp (hsafe : EBX_CODE_SAFE ∈ safety) :
    check_insn L "jmp" [.star (.r32 .ebx)] safety unsafety = .ok {JUMP} := by
  show starFlags "jmp" safety (.r32 .ebx) = _
  have hop : "jmp" ≠ "call" := by decide
  simp only [starFlags, code_safety, hsafe, and_self, if_true, if_neg hop, Finset.union_empty]

theorem check_call (hsafe : EBX_CODE_SAFE ∈ safety) :
    check_insn L "call" [.star (.r32 .ebx)] safety unsafety = .ok {JUMP, USE_ESP} := by
  show starFlags "call" safety (.r32 .ebx) = _
  simp only [starFlags, code_safety, hsafe, and_self, if_true]
  rfl

/-- A return behind the mask of the stack top. -/
theorem check_ret (hsafe : STACK_TOP_SAFE ∈ safety) :
    check_insn L "ret" [] safety unsafety = .ok {JUMP, USE_ESP, CHANGE_ESP} := by
  show noneFlags "ret" safety unsafety = _
  have hop : "ret" ≠ "nop" := by decide
  simp only [noneFlags, if_neg hop, if_true, stack_top_safety, hsafe]

theorem check_ret_immediate (value : String) :
    check_insn L "ret" [.imm value] safety unsafety = .ok {USE_ESP, CHANGE_ESP} := rfl

/-- A register that is neither pointer is moved into `%ebx`. -/
theorem check_mov_reg {r : Reg} (hesp : r.whole ≠ some .esp) (hebp : r.whole ≠ some .ebp) :
    check_insn L "mov" [.reg r, .reg (.r32 .ebx)] safety unsafety = .ok ∅ := by
  have hmov : isMov "mov" = true := by decide
  have hnotEsp : r ≠ .r32 .esp := fun heq => hesp (heq ▸ rfl)
  have hnotEbp : r ≠ .r32 .ebp := fun heq => hebp (heq ▸ rfl)
  show regRegFlags "mov" unsafety r (.r32 .ebx) = _
  simp only [regRegFlags, hmov, if_true, hnotEsp, hnotEbp, false_and, and_false, if_false]
  rfl

/-- A word of memory, or its address, is moved into `%ebx`. -/
theorem check_load {op : String} (hop : op = "mov" ∨ op = "lea")
    (offset : Option {t : String // lword t.toList = true}) (base index : Option Reg32) (scale : Option Nat) :
    ∃ f, check_insn L op [.mem offset base index scale, .reg (.r32 .ebx)] safety unsafety = .ok f ∧
      f ⊆ {USE_EBP, IREAD} := by
  have hebp : (Reg.r32 .ebx).whole ≠ some .ebp := by decide
  have hesp : (Reg.r32 .ebx).whole ≠ some .esp := by decide
  show ∃ f, complexRegFlags op unsafety (.mem offset base index scale) (.r32 .ebx) = .ok f ∧ _
  simp only [complexRegFlags, if_neg hebp, if_neg hesp, Finset.empty_union]
  obtain rfl | rfl := hop
  · refine ⟨_, if_pos (by decide), ?_⟩
    split_ifs <;> decide
  · have hmov : "lea" ∉ ["mov"] ++ cat ["mov"] (cat ["s", "z"] ["bl", "wl", "bw"]) := by decide
    have harith : ¬ (starts arith "lea" = true ∨
        ("lea".toList.tails.any fun cs => (cat ["cmov"] cond).any (·.toList = cs)) = true) := by decide
    refine ⟨∅, ?_, Finset.empty_subset _⟩
    rw [if_neg hmov, if_neg harith, if_pos rfl]

theorem check_load_abs {op : String} {haddr : {t : String // lword t.toList = true}}
    (hdata : inData L haddr.val = true) :
    check_insn L op [.abs haddr, .reg (.r32 .ebx)] safety unsafety = .ok ∅ := by
  show absRegFlags L haddr (.r32 .ebx) = _
  rw [absRegFlags, hdata, Bool.not_true, if_neg Bool.false_ne_true]
  rfl

/-- A store through a masked `%ebx`. -/
theorem check_store {op : String} {x : Operand} (hx : (∃ r, x = .reg r) ∨ ∃ value, x = .imm value)
    (hsafe : EBX_DATA_SAFE ∈ safety) : check_insn L op [x, atEbx] safety unsafety = .ok ∅ := by
  have hebp : atEbx.offsetFrom .ebp false = none := rfl
  have hesp : atEbx.offsetFrom .esp true = none := rfl
  obtain ⟨r, rfl⟩ | ⟨value, rfl⟩ := hx
  · show regComplexFlags op safety unsafety r atEbx = _
    simp only [regComplexFlags, hebp, hesp, data_safety, hsafe, and_self, if_true]
  · show immComplexFlags L op safety unsafety value atEbx = _
    simp only [immComplexFlags, hebp, hesp, data_safety, hsafe, and_self, if_true]

/-- An operation on one operand through a masked `%ebx`. -/
theorem check_store_one {op : String} (hop : op ≠ "pushl") (hstore : unaryStore op = true)
    (hsafe : EBX_DATA_SAFE ∈ safety) : check_insn L op [atEbx] safety unsafety = .ok ∅ := by
  have hesp : atEbx.offsetFrom .esp false = none := rfl
  show complexFlags op safety unsafety atEbx = _
  simp only [complexFlags, if_neg hop, hstore, if_true, data_safety, hsafe, and_self, hesp, Option.any_none]
  rfl

/-- A call to the start of a chunk. -/
theorem check_call_target {address symbol : String}
    (haligned : BitVec.ofNat 32 (hex address) &&& BitVec.ofNat 32 (L.chunk_size - 1) = 0)
    (hstart : L.code_start ≤ hex address) (hend : hex address < L.code_end) :
    check_insn L "call" [.target address symbol] safety unsafety = .ok {JUMP, USE_ESP} := by
  show targetFlags L "call" address = _
  rw [targetFlags, if_neg (not_not.mpr haligned), if_neg (by omega)]
  rfl

end Forms

end Pittsfield.Offline
