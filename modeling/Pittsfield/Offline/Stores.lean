import Mathlib.Data.List.TakeWhile
import Mathlib.Order.CompletePartialOrder
import Pittsfield.Offline.Masking

/-!
# Writes to memory that is not the stack

A write that `verify.pl` does not report has a masked `(%ebx)`, a bounded `off(%ebp)` or a
literal address for its operand. The bound for the literal address is read with `hex`,
whatever the base in which the address is spelled.
-/

namespace Pittsfield.Offline

open Pittsfield.Foundation
open Pittsfield.Region
open Pittsfield.Machine
open Offline.Flag

/-- The operands that the instruction writes: both of `xchg`, and else the last one. -/
def writtenOperands (i : Insn) : List Operand :=
  match opKind i.op with
  | .pop => i.args.getLast?.toList
  | .data =>
    if i.op = "xchg" then i.args else if readsOnly i then [] else i.args.getLast?.toList
  | _ => []

/-- `off(%esp)` with or without an index. -/
def Operand.basedOnEsp : Operand → Bool
  | .mem _ (some .esp) _ _ => true
  | _ => false

/-- The instruction writes to memory at the address, through an operand that is not based
on `%esp`. -/
def WritesAt (i : Insn) (s : Cpu) (a : Word) : Prop :=
  ∃ dest ∈ writtenOperands i, dest.basedOnEsp = false ∧ operandAddress s dest = some a

/-- The shapes of operands that `verify.pl` accepts for a write. -/
inductive Accepted (L : Layout) (safety unsafety : Flags) : Operand → Prop
  | ebx (h : EBX_DATA_SAFE ∈ safety) : Accepted L safety unsafety atEbx
  | ebp {dest : Operand} {t : String} {k : Int} (ht : dest.offsetFrom .ebp false = some t)
    (hu : CHANGE_EBP ∉ unsafety) (hk : signed_word t = some k) (hoff : k.natAbs ≤ 65536) :
    Accepted L safety unsafety dest
  | abs {haddr} (h : inData L haddr.val = true) : Accepted L safety unsafety (.abs haddr)

section

variable {L : Layout} {safety unsafety f : Flags} {i : Insn} {dest : Operand} {s : Cpu}

theorem written_mem (h : dest ∈ writtenOperands i) : dest ∈ i.args := by
  have hlast : dest ∈ i.args.getLast?.toList → dest ∈ i.args := by
    intro h
    exact List.mem_of_getLast? (Option.mem_toList.mp h)
  unfold writtenOperands at h
  split at h
  · exact hlast h
  · split at h
    · exact h
    · split at h
      · cases h
      · exact hlast h
  · cases h

theorem written_last (h : dest ∈ writtenOperands i) (hx : i.op ≠ "xchg") :
    i.args.getLast? = some dest := by
  unfold writtenOperands at h
  split at h
  · exact Option.mem_toList.mp h
  · rw [if_neg hx] at h
    split at h
    · cases h
    · exact Option.mem_toList.mp h
  · cases h

theorem written_kind (h : dest ∈ writtenOperands i) :
    opKind i.op = .pop ∨ opKind i.op = .data ∧ (i.op = "xchg" ∨ readsOnly i = false) := by
  unfold writtenOperands at h
  split at h
  · exact Or.inl ‹_›
  · refine Or.inr ⟨‹_›, ?_⟩
    by_cases hx : i.op = "xchg"
    · exact Or.inl hx
    · rw [if_neg hx] at h
      split at h
      · cases h
      · exact Or.inr (eq_false_of_ne_true ‹_›)
  · cases h

/-- The operations that leave their operand as it is write none. -/
theorem not_written_of_reads (hop : i.op ∈ cat ["cmp", "test"] (opt size) ++ ["bt", "nop"] ++ fload ++
    fcload ++ fbin ++ funary) : dest ∉ writtenOperands i := by
  intro h
  have hall : ∀ op ∈ cat ["cmp", "test"] (opt size) ++ ["bt", "nop"] ++ fload ++ fcload ++ fbin ++
      funary, opKind op = .data ∧ op ≠ "xchg" := by decide +kernel
  obtain ⟨hk, hx⟩ := hall _ hop
  have hr : readsOnly i = true := by
    rw [readsOnly, decide_eq_true hop, Bool.true_or]
  rcases written_kind h with hpop | ⟨-, he | hw⟩
  · rw [hk] at hpop
    cases hpop
  · exact hx he
  · rw [hr] at hw
    cases hw

theorem offsetFrom_esp_based {one : Bool} {t : String} (ht : dest.offsetFrom .esp one = some t) :
    dest.basedOnEsp = true := by
  cases dest with
  | mem offset base index scale =>
    rcases ite_eq_iff.mp ht with ⟨⟨rfl, -, -⟩, -⟩ | ⟨-, ht⟩
    · rfl
    · cases ht
  | reg | imm | abs | target | star | other => cases ht

theorem Simple.accepted {half : List Char → Bool} {bound : Nat} {k : Flag} (hb : bound ≤ 32768)
    (h : Simple unsafety dest half bound (some k)) (he : dest.basedOnEsp = false) :
    Accepted L safety unsafety dest := by
  cases h with
  | ebp t ht hu hoff =>
    rw [smallOffset, Bool.and_eq_true] at hoff
    obtain ⟨j, hj, hlt⟩ := (Option.any_eq_true _ _).mp hoff.2
    exact .ebp ht hu hj (by have := of_decide_eq_true hlt; omega)
  | esp t ht _ _ =>
    rw [offsetFrom_esp_based ht] at he
    cases he

theorem StoreFlags.accepted {half : List Char → Bool} {bound : Nat} (hb : bound ≤ 32768)
    (h : StoreFlags safety unsafety i.op dest half bound f) (hf : IWRITE ∉ f)
    (hd : dest ∈ writtenOperands i) (he : dest.basedOnEsp = false) :
    Accepted L safety unsafety dest := by
  rcases h with ⟨rfl, hset, -⟩ | ⟨-, simple, hs, hflag⟩
  · exact .ebx hset
  cases simple with
  | some k => exact hs.accepted hb he
  | none =>
    rcases hflag with rfl | ⟨hop, -⟩
    · exact absurd (Finset.mem_singleton_self IWRITE) hf
    · refine absurd hd (not_written_of_reads ?_)
      simp only [List.append_assoc]
      exact List.mem_append_left _ hop

/-- A write that is not reported has an operand of an accepted shape. -/
theorem accepted_of_arm (h : Arm L i.op safety unsafety f i.args) (hf : IWRITE ∉ f)
    (hd : dest ∈ writtenOperands i) (he : dest.basedOnEsp = false) {a : Word}
    (ha : operandAddress s dest = some a) : Accepted L safety unsafety dest := by
  have hlast := written_last hd
  have hmem := written_mem hd
  have hreg : ∀ {r : Reg} {xs : List Operand}, i.args = xs → xs.getLast? = some (.reg r) →
      i.op ≠ "xchg" → Accepted L safety unsafety dest := by
    intro r xs hargs hxs hx
    have hdest := hlast hx
    rw [hargs, hxs] at hdest
    cases hdest
    cases ha
  generalize hargs : i.args = args at h
  rw [hargs] at hmem
  cases h with
  | none h => cases hmem
  | reg h | imm h | target h | star h =>
    obtain rfl := List.mem_singleton.mp hmem
    cases ha
  | complex h =>
    obtain rfl := List.mem_singleton.mp hmem
    rcases complexFlags_ok h with ⟨hop, -⟩ | ⟨-, ⟨hw, -⟩ | ⟨-, ⟨hebx, hset⟩ | ⟨k, hs⟩⟩⟩ | ⟨-, hop, -⟩
    · exfalso
      rcases written_kind hd with hk | ⟨hk, -⟩ <;> rw [hop] at hk <;> exact absurd hk (by decide)
    · exact absurd hw hf
    · rw [hebx]
      exact .ebx hset
    · exact hs.accepted (by decide) he
    · refine absurd hd (not_written_of_reads ?_)
      simp only [List.append_assoc] at hop ⊢
      exact List.mem_append_right _ (List.mem_append_right _ hop)
  | immRegReg h =>
    refine hreg hargs rfl ?_
    intro hx
    rw [hx] at h
    exact absurd (immRegRegFlags_ok h).1 (by decide)
  | regRegReg h =>
    refine hreg hargs rfl ?_
    intro hx
    rw [hx] at h
    exact absurd (regRegRegFlags_ok h).1 (by decide)
  | immSrcReg h =>
    refine hreg hargs rfl ?_
    intro hx
    rw [hx] at h
    exact absurd (immSrcRegFlags_ok h).1 (by decide)
  | regReg h =>
    rcases List.mem_cons.mp hmem with rfl | hmem
    · cases ha
    · obtain rfl := List.mem_singleton.mp hmem
      cases ha
  | immReg h =>
    exact hreg hargs rfl (immRegFlags_ok h).1
  | immComplex h =>
    rcases List.mem_cons.mp hmem with rfl | hmem
    · cases ha
    obtain rfl := List.mem_singleton.mp hmem
    rcases immComplexFlags_ok h with ⟨⟨-, -, t, ht, -⟩, -⟩ | ⟨-, -, -, ⟨t, ht⟩, -⟩ | hs
    · rw [offsetFrom_esp_based ht] at he
      cases he
    · rw [offsetFrom_esp_based ht] at he
      cases he
    · exact hs.accepted (by decide) hf hd he
  | abs h =>
    obtain rfl := List.mem_singleton.mp hmem
    exact .abs (absFlags_ok h).1
  | absReg h =>
    rcases List.mem_cons.mp hmem with rfl | hmem
    · exact .abs (absRegFlags_ok h).1
    · obtain rfl := List.mem_singleton.mp hmem
      cases ha
  | regAbs h | immAbs h =>
    rcases List.mem_cons.mp hmem with rfl | hmem
    · cases ha
    · obtain rfl := List.mem_singleton.mp hmem
      exact .abs (toAbsFlags_ok h).1
  | complexReg h => exact hreg hargs rfl (complexRegFlags_ok h).1
  | regComplex h =>
    rcases List.mem_cons.mp hmem with rfl | hmem
    · cases ha
    obtain rfl := List.mem_singleton.mp hmem
    exact (regComplexFlags_ok h).accepted (by decide) hf hd he
  | other h =>
    rcases List.mem_cons.mp hmem with rfl | hmem
    · cases ha
    · obtain rfl := List.mem_singleton.mp hmem
      cases ha

end

section Literals

/-- A decimal digit is the same digit in base sixteen. -/
theorem decimalDigit_some {c : Char} (hc : (decimalDigit c).isSome = true) :
    ∃ d < 10, decimalDigit c = some d ∧ hexDigit c = some d := by
  unfold decimalDigit at hc ⊢
  unfold hexDigit
  split at hc
  · rename_i hr
    rw [if_pos hr, if_pos hr]
    refine ⟨_, ?_, rfl, rfl⟩
    have hle : c.toNat ≤ '9'.toNat := hr.2
    have hnine : '9'.toNat = '0'.toNat + 9 := rfl
    omega
  · cases hc

/-- Fewer digits than a bound in base sixteen are fewer than it in base ten. -/
theorem ofDigits_ten_lt {n : Nat} {cs : List Char} (hd : cs.all fun c => (decimalDigit c).isSome)
    (h : ofDigits 16 hexDigit cs < 16 ^ n) : ofDigits 10 decimalDigit cs < 10 ^ n := by
  induction cs using List.reverseRecOn generalizing n with
  | nil => exact Nat.pow_pos (by decide)
  | append_singleton cs c ih =>
    rw [List.all_append, Bool.and_eq_true] at hd
    obtain ⟨d, hlt, h10, h16⟩ := decimalDigit_some (c := c) (by simpa using hd.2)
    simp only [ofDigits, List.foldl_append, List.foldl_cons, List.foldl_nil, h10, h16,
      Option.getD_some] at h ⊢
    cases n with
    | zero =>
      have hlow := ih (n := 0) hd.1 (by rw [ofDigits]; omega)
      simp only [ofDigits] at hlow
      omega
    | succ n =>
      rw [Nat.pow_succ] at h ⊢
      have hlow := ih (n := n) hd.1 (by rw [ofDigits]; omega)
      simp only [ofDigits] at hlow
      omega

/-- A number whose digits reach a digit and `n` zeros in base sixteen reaches as much in
base ten. -/
theorem le_ofDigits_ten {k n : Nat} {cs : List Char} (hk : k < 10)
    (hd : cs.all fun c => (decimalDigit c).isSome) (h : k * 16 ^ n ≤ ofDigits 16 hexDigit cs) :
    k * 10 ^ n ≤ ofDigits 10 decimalDigit cs := by
  induction cs using List.reverseRecOn generalizing k n with
  | nil =>
    have hzero : k = 0 := by
      have hpow : 0 < 16 ^ n := Nat.pow_pos (by decide)
      exact (Nat.mul_eq_zero.mp (Nat.le_zero.mp h)).resolve_right (Nat.ne_of_gt hpow)
    rw [hzero, Nat.zero_mul]
    exact Nat.zero_le _
  | append_singleton cs c ih =>
    rw [List.all_append, Bool.and_eq_true] at hd
    obtain ⟨d, hlt, h10, h16⟩ := decimalDigit_some (c := c) (by simpa using hd.2)
    simp only [ofDigits, List.foldl_append, List.foldl_cons, List.foldl_nil, h10, h16,
      Option.getD_some] at h ⊢
    cases n with
    | zero =>
      by_cases hhead : 1 ≤ ofDigits 16 hexDigit cs
      · have hlow := ih (k := 1) (n := 0) (by decide) hd.1 (by rwa [Nat.pow_zero, Nat.mul_one])
        simp only [ofDigits] at hlow
        omega
      · simp only [ofDigits] at hhead
        omega
    | succ n =>
      rw [Nat.pow_succ, ← Nat.mul_assoc] at h ⊢
      have hlow := ih (k := k) (n := n) hk hd.1 (by rw [ofDigits]; omega)
      simp only [ofDigits] at hlow
      omega

/-- The text spells a number in base sixteen, as `hex` takes it to be. -/
def SpelledInHex (t : String) : Prop := ∃ ds, t.toList = '0' :: 'x' :: ds

/-- A literal that `hex` takes for an address of the data region is one, or it is a small
decimal number. -/
theorem literal_value {t : String} {lo hi : Nat} (ht : lword t.toList = true) (hlo : 2 * 16 ^ 7 ≤ lo)
    (hhi : hi ≤ 2 ^ 32) (h : lo ≤ hex t ∧ hex t < hi) :
    SpelledInHex t ∧ (textValue t).getD 0 = BitVec.ofNat 32 (hex t) ∨
      ¬ SpelledInHex t ∧ ∃ n, 2 * 10 ^ 7 ≤ n ∧ n < 10 ^ 8 ∧
        (textValue t).getD 0 = BitVec.ofNat 32 n := by
  obtain ⟨hlow, hhigh⟩ := h
  have hhex : ∀ cs, digits hexDigit cs = true →
      cs.takeWhile (fun c => (hexDigit c).isSome) = cs := by
    intro cs hcs
    rw [digits, Bool.and_eq_true] at hcs
    exact List.takeWhile_eq_self_iff.mpr (List.all_eq_true.mp hcs.2)
  by_cases hx : SpelledInHex t
  · obtain ⟨ds, hds⟩ := id hx
    have hdig : digits hexDigit ds = true := by
      rw [lword, hds, Bool.or_eq_true] at ht
      rcases ht with ht | ht
      · cases ht
      · exact (Bool.and_eq_true _ _ ▸ ht).1
    refine Or.inl ⟨hx, ?_⟩
    simp only [textValue, signed_word, hex, hds, hdig, if_true, Option.map_some, Option.getD_some,
      hhex ds hdig, BitVec.ofInt_toInt]
  · refine Or.inr ⟨hx, ?_⟩
    have hno : ∀ ds, t.toList ≠ '0' :: 'x' :: ds := fun ds hds => hx ⟨ds, hds⟩
    have hminus : ∀ cs, t.toList ≠ '-' :: cs := by
      intro cs hcs
      have hzero : hex t = 0 := by
        simp only [hex, hcs]
        rfl
      omega
    have hdig : digits decimalDigit t.toList = true := by
      rw [lword, Bool.or_eq_true] at ht
      rcases ht with ht | ht
      · unfold signed at ht
        split at ht
        · exact absurd ‹_› (hminus _)
        · exact ht
      · unfold signed at ht
        split at ht
        · exact absurd ‹_› (hminus _)
        unfold hexUpTo at ht
        split at ht
        · exact absurd ‹_› (hno _)
        · cases ht
    have hall := (Bool.and_eq_true _ _ ▸ hdig).2
    have hval : hex t = ofDigits 16 hexDigit t.toList := by
      have hhexdig : digits hexDigit t.toList = true := by
        rw [digits, Bool.and_eq_true] at hdig ⊢
        refine ⟨hdig.1, List.all_eq_true.mpr fun c hc => ?_⟩
        obtain ⟨d, -, -, h16⟩ := decimalDigit_some (List.all_eq_true.mp hall c hc)
        rw [h16]
        rfl
      unfold hex
      split
      · exact absurd ‹_› (hno _)
      · exact congrArg (ofDigits 16 hexDigit) (hhex _ hhexdig)
    refine ⟨ofDigits 10 decimalDigit t.toList, le_ofDigits_ten (by decide) hall (by omega),
      ofDigits_ten_lt hall (by omega), ?_⟩
    unfold textValue signed_word
    split
    · rename_i he
      rw [he] at hdig
      cases hdig
    · exact absurd ‹_› (hminus _)
    · exact absurd ‹_› (hno _)
    · exact absurd ‹_› (hminus _)
    · rw [if_pos hdig]
      rfl

/-- The address that a literal stands for lies in the sandbox unless the layout is `classic`
and the literal is decimal. -/
theorem literal_confined_iff (g : Settings) (sz : Size) {t : String} (ht : lword t.toList = true)
    (hin : inData (compute_sizes g sz) t = true) :
    ((textValue t).getD 0 ∈ (compute_sizes g sz).sandbox ∨
        (textValue t).getD 0 ∈ (compute_sizes g sz).guardZone) ↔
      (sz = .classic → SpelledInHex t) := by
  rw [inData, Bool.and_eq_true, decide_eq_true_eq, decide_eq_true_eq] at hin
  have hlo : 2 * 16 ^ 7 ≤ (compute_sizes g sz).data_start := by
    show 2 * 16 ^ 7 ≤ (sizes sz).data_tag <<< (sizes sz).log_data_size
    cases sz <;> decide
  have hfits := (compute_sizes g sz).data_fits
  rcases literal_value ht hlo hfits hin with ⟨hx, hval⟩ | ⟨hx, n, hge, hlt, hval⟩
  · rw [hval]
    refine iff_of_true (Or.inl (Or.inl ?_)) fun _ => hx
    rw [Layout.data_end] at hin
    have hnat : (BitVec.ofNat 32 (hex t)).toNat = hex t := by
      rw [BitVec.toNat_ofNat, Nat.mod_eq_of_lt (by omega)]
    exact ⟨by omega, by omega⟩
  · rw [hval]
    have hnat : (BitVec.ofNat 32 n).toNat = n := by
      rw [BitVec.toNat_ofNat, Nat.mod_eq_of_lt (by omega)]
    by_cases hsz : sz = .classic
    · refine iff_of_false ?_ fun h => hx (h hsz)
      rw [hsz]
      have hstart : (compute_sizes g .classic).data_start = 0x20000000 :=
        show 0x20 <<< 24 = 0x20000000 by decide
      have hsize : (compute_sizes g .classic).data_size = 0x1000000 :=
        show 1 <<< 24 = 0x1000000 by decide
      have hone : (1 : BitVec 32).toNat = 1 := rfl
      -- in the default layout no such number is near one of the two regions
      have hout : ∀ lo, lo = (compute_sizes g .classic).data_start ∨ lo = 0 →
          BitVec.ofNat 32 n ∉ span 32 lo (compute_sizes g .classic).data_size ∧
            BitVec.ofNat 32 n ∉ fringe 32 lo (compute_sizes g .classic).data_size 65536 := by
        rw [hstart, hsize]
        intro lo hlo
        refine ⟨?_, ?_⟩
        · rintro ⟨h1, h2⟩
          omega
        · rintro (h | h)
          · rw [BitVec.toNat_sub, BitVec.toNat_ofNat, BitVec.toNat_ofNat] at h
            omega
          · rw [BitVec.toNat_sub, BitVec.toNat_sub, BitVec.toNat_ofNat, BitVec.toNat_ofNat, hone] at h
            omega
      rintro ((h | h) | ⟨h | h, -⟩)
      · exact (hout _ (Or.inl rfl)).1 h
      · exact (hout _ (Or.inr rfl)).1 h
      · exact (hout _ (Or.inl rfl)).2 h
      · exact (hout _ (Or.inr rfl)).2 h
    · refine iff_of_true (Or.inl (Or.inr ⟨Nat.zero_le _, ?_⟩)) fun h => absurd h hsz
      rw [hnat, Nat.zero_add]
      show n < 1 <<< (sizes sz).log_data_size
      refine Nat.lt_trans hlt ?_
      revert hsz
      cases sz <;> decide

end Literals

section

variable {g : Settings} {sz : Size} {rows : List Row} {alu : Alu Insn}
variable {fpu : Insn → Cpu → Word → BitVec 8} {s s' : Cpu}

/-- The literal is spelled as the layout needs it. -/
def LiteralSpelled (sz : Size) (dest : Operand) : Prop :=
  ∀ haddr, dest = .abs haddr → sz = .classic → SpelledInHex haddr.val

/-- In every run that enters at chunk starts, and as long as `%ebp` is in the sandbox where
`verify.pl` takes it to be, a write that is not based on `%esp` goes to the sandbox or to a
guard zone, unless its address is a literal that `verify.pl` has misread. -/
theorem stores_confined_iff (hcont : Contiguous (compute_sizes g sz).code_start rows)
    (h : ChecksFinished (compute_sizes g sz) rows)
    (h0 : (compute_sizes g sz).chunk_size ∣ s.eip.toNat)
    (hrun : RunsTo At.addr loc (exec (compute_sizes g sz) alu fpu)
      (examined (compute_sizes g sz) rows) (EntersAligned (compute_sizes g sz) alu fpu) s s')
    {v : Examined} (hv : Stands At.addr loc (examined (compute_sizes g sz) rows) s' v)
    (hebp : CHANGE_EBP ∉ v.before.state.unsafety → s'.reg .ebp ∈ (compute_sizes g sz).sandbox)
    {dest : Operand} (hdest : dest ∈ writtenOperands v.item) (he : dest.basedOnEsp = false) {a : Word}
    (ha : operandAddress s' dest = some a) :
    (a ∈ (compute_sizes g sz).sandbox ∨ a ∈ (compute_sizes g sz).guardZone) ↔
      LiteralSpelled sz dest := by
  obtain ⟨e, hp, -⟩ := examined_pass hcont h
  obtain ⟨f, harm, -, hr, -⟩ := visit_flags hp hv.1
  have hf : IWRITE ∉ f := by
    intro hw
    rw [flagReports, if_pos (Or.inr hw)] at hr
    cases hr
  cases accepted_of_arm harm hf hdest he ha with
  | ebx hset =>
    obtain ⟨x, hx⟩ := ebx_masked hp (fun _ _ h => h) h0 hrun (Or.inl ⟨rfl, rfl⟩) v hv hset
    have hat : operandAddress s' atEbx = some (s'.reg .ebx) := by
      simp [operandAddress, atEbx]
    obtain rfl := Option.some.inj (hat.symm.trans ha)
    refine iff_of_true (Or.inl ?_) fun haddr hd => by cases hd
    rw [hx]
    exact Layout.mask_mem_sandbox _ x
  | @ebp _ t k ht hu hk hoff =>
    have hval : textValue t = some (BitVec.ofInt 32 k) := by rw [textValue, hk, Option.map_some]
    obtain rfl := Option.some.inj ((offsetFrom_address ht hval).symm.trans ha)
    refine iff_of_true ?_ fun haddr hd => by rw [hd] at ht; cases ht
    exact Layout.near_sandbox _ (Nat.le_refl _) ⟨_, hebp hu, k, hoff, rfl⟩
  | @abs haddr hin =>
    obtain rfl := Option.some.inj ha
    rw [literal_confined_iff g sz haddr.property hin]
    constructor
    · rintro hx haddr' hd hsz
      cases hd
      exact hx hsz
    · exact fun hx hsz => hx haddr rfl hsz

end

/-- Every write that is not based on `%esp` stays in the sandbox, in every run that enters
at chunk starts and for as long as `%ebp` is where `verify.pl` takes it to be. -/
def StoresConfined (L : Layout) (rows : List Row) : Prop :=
  ∀ (alu : Alu Insn) (fpu : Insn → Cpu → Word → BitVec 8) (s s' : Cpu),
    L.chunk_size ∣ s.eip.toNat →
    RunsTo At.addr loc (exec L alu fpu) (examined L rows) (EntersAligned L alu fpu) s s' →
    ∀ v, Stands At.addr loc (examined L rows) s' v →
      (CHANGE_EBP ∉ v.before.state.unsafety → s'.reg .ebp ∈ L.sandbox) →
      ∀ a, WritesAt v.item s' a → a ∈ L.sandbox ∨ a ∈ L.guardZone

/-- `mov %eax,address` -/
def storeTo (address : {t : String // lword t.toList = true}) : Insn :=
  ⟨"mov", [.reg (.r32 .eax), .abs address], 5⟩

theorem decimal_store_escapes : ¬ ∀ rows, Contiguous classic.code_start rows →
    ChecksFinished classic rows → StoresConfined classic rows := by
  intro h
  have hs := h [.insn 0x10000000 (storeTo ⟨"20000000", by decide⟩)]
    ⟨rfl, by decide, show 0x10000005 < 2 ^ 32 by decide⟩ ⟨_, rfl⟩ (Alu.idle _) (fun _ c => c.mem)
    (entryState classic) _ (by decide) .refl _ ⟨List.mem_cons_self, rfl⟩ (fun _ => by decide)
    0x1312d00 ⟨_, List.mem_cons_self, rfl, rfl⟩
  exact absurd hs (by decide)

theorem hex_store_confined : Contiguous classic.code_start
      [.insn 0x10000000 (storeTo ⟨"0x20000000", by decide⟩)] ∧
    ChecksFinished classic [.insn 0x10000000 (storeTo ⟨"0x20000000", by decide⟩)] ∧
    ((0x20000000 ∈ classic.sandbox ∨ 0x20000000 ∈ classic.guardZone) ↔
      LiteralSpelled .classic (.abs ⟨"0x20000000", by decide⟩)) := by
  have hcont : Contiguous classic.code_start
      [.insn 0x10000000 (storeTo ⟨"0x20000000", by decide⟩)] :=
    ⟨rfl, by decide, show 0x10000005 < 2 ^ 32 by decide⟩
  have h : ChecksFinished classic [.insn 0x10000000 (storeTo ⟨"0x20000000", by decide⟩)] := ⟨_, rfl⟩
  refine ⟨hcont, h, ?_⟩
  have hv : Stands At.addr loc (examined classic [.insn 0x10000000 (storeTo ⟨"0x20000000", by decide⟩)])
      (entryState classic) ((examined classic
        [.insn 0x10000000 (storeTo ⟨"0x20000000", by decide⟩)]).head (by decide)) :=
    ⟨List.head_mem _, rfl⟩
  have ha : operandAddress (entryState classic) (.abs ⟨"0x20000000", by decide⟩) =
      some 0x20000000 := rfl
  exact @stores_confined_iff {} .classic _ (Alu.idle _) (fun _ c => c.mem) _ _ hcont h (by decide)
    .refl _ hv (fun _ => by decide) _ (by decide) rfl _ ha

end Pittsfield.Offline
