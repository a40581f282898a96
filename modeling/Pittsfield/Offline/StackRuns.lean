import Pittsfield.Offline.Stack

/-!
# Stack accesses under `verify.pl`

The condition on a step under which the bits of `$unsafety` keep up with the two pointers,
the step lemmas, and the result about whole runs.
-/

namespace Pittsfield.Offline

open Pittsfield.Foundation
open Pittsfield.Region
open Pittsfield.Machine
open Offline.Flag

/-- The step is none that `verify.pl` takes for something else. -/
structure StepOk (L : Layout) (v : Examined) (m : Cpu) : Prop where
  /-- A number that starts like a byte is one, more or less. -/
  sum : v.item.op ∈ cat ["add", "sub"] (opt ["l"]) → ∀ value,
    v.item.args = [.imm value, .reg (.r32 .esp)] → startsWithByte value = true →
    CHANGE_ESP ∈ v.before.state.unsafety ∨ ∃ k, signed_word value = some k ∧ k.natAbs ≤ 255
  /-- No immediate and no bump goes to `%sp`. -/
  word : ∀ src, v.item.args = [src, .reg (.r16 .esp)] →
    (∃ value, src = .imm value) ∨ isBumpLea v.item.op src = true →
    readsOnly v.item = true ∨ CHANGE_ESP ∈ v.before.state.unsafety
  /-- Nothing is popped into `%esp`. -/
  pop : opKind v.item.op = .pop → ∀ r, v.item.args = [.reg r] → r.whole ≠ some .esp
  leave : opKind v.item.op = .leave → CHANGE_EBP ∉ v.before.state.unsafety
  ret : opKind v.item.op = .ret → ∀ value, v.item.args = [.imm value] →
    CHANGE_EBP ∉ v.before.state.unsafety ∧ ∃ n ≤ 128, textValue value = some (BitVec.ofNat 32 n)
  /-- What passes for the top of the stack is close to it. -/
  top : ∀ t, MarksTop L v.item.op v.item.args t → ∃ k, signed_word t = some k ∧ k.natAbs ≤ 127
  /-- Neither pointer is swapped with memory. -/
  swap : ∀ r dest, Swaps v.item r dest → (∀ q, dest ≠ .reg q) →
    r.whole ≠ some .esp ∧ r.whole ≠ some .ebp
  /-- `%esp` is not copied to `%ebp` after an access at an offset has cleared its bumps. -/
  frame : v.item.op = "mov" → v.item.args = [.reg (.r32 .esp), .reg (.r32 .ebp)] →
    CHANGE_ESP ∉ v.before.state.unsafety → BUMP_ESP ∉ v.before.state.unsafety →
    m.reg .esp ∈ (Slack.pastEnd L).set
  orFrame : v.item.op = "or" →
    v.item.args = [.imm (hexText (BitVec.ofNat 32 L.data_start)), .reg (.r32 .ebp)] →
    EBP_DATA_SAFE ∈ v.before.state.safetyAt v.before.addr →
    CHANGE_EBP ∉ v.before.state.unsafety →
    m.reg .ebp ||| BitVec.ofNat 32 L.data_start ∈ (Slack.pastEnd L).set

section

variable {L : Layout} {unsafety : Flags} {addr : Nat} {i : Insn}

theorem opKind_leave {op : String} (h : opKind op = .leave) : op = "leave" := by
  unfold opKind at h
  repeat' split at h
  all_goals first | assumption | cases h

/-- The instructions that use `%esp` without naming it, `leave` aside. -/
theorem found_of_stack (hk : opKind i.op ∉ [.data, .leave, .jmp, .jcc]) :
    found ["push", "pop", "call", "ret"] i.op = true := by
  have hall : ∀ op ∈ cat ["push"] ["", "l"] ++ cat ["pop"] ["", "l"] ++
      ["pushf", "popf", "call", "ret"], found ["push", "pop", "call", "ret"] op = true := by decide
  refine hall _ ?_
  contrapose! hk
  simp only [List.mem_append, List.mem_cons, List.not_mem_nil, or_false, not_or] at hk
  obtain ⟨⟨hpush, hpop⟩, hpushf, hpopf, hcall, hret⟩ := hk
  rw [opKind, if_neg hpush, if_neg hpop, if_neg hpushf, if_neg hpopf]
  by_cases hl : i.op = "leave"
  · rw [if_pos hl]
    decide
  rw [if_neg hl, if_neg hcall, if_neg hret]
  split
  · decide
  split
  · decide
  · decide

/-- What the complaints about the use of a pointer leave. -/
theorem useReports_nil (h : useReports L unsafety addr i = []) :
    (CHANGE_EBP ∈ unsafety → found ["%ebp"] (argsText i.args) = true → masksEbp L i = true) ∧
      (CHANGE_ESP ∈ unsafety → ¬ usesEsp (argsText i.args) ∧
        ¬ found ["push", "pop", "call", "ret"] i.op) := by
  obtain ⟨h1, h2⟩ := List.append_eq_nil_iff.mp h
  constructor
  · intro hc hf
    by_contra hm
    rw [if_pos ⟨hc, hf, hm⟩] at h1
    cases h1
  · intro hc
    by_contra hm
    rw [if_pos ⟨hc, by tauto⟩] at h2
    cases h2

end

section

variable {L : Layout} {rows : List Row} {e : At} {v : Examined} {f : Flags}
variable {alu : Alu Insn} {fpu : Insn → Cpu → Word → BitVec 8} {s s' c : Cpu}

/-- What the loop knows at a visit and does there. -/
structure VisitFlags (L : Layout) (v : Examined) (f : Flags) : Prop where
  arm : Arm L v.item.op (v.before.state.safetyAt v.before.addr) v.before.state.unsafety f v.item.args
  use : useReports L v.before.state.unsafety v.before.addr v.item = []
  none : flagReports (v.before.state.safetyAt v.before.addr) v.before.state.unsafety f v.before.addr
    v.item = []
  no_esp : ESP_DATA_SAFE ∉ v.before.state.safetyAt v.before.addr
  count : v.before.state.weak.Ok

theorem VisitFlags.write (h : VisitFlags L v f) : IWRITE ∉ f := by
  intro hw
  have hr := h.none
  rw [flagReports, if_pos (Or.inr hw)] at hr
  cases hr

/-- Control is not given away while a weakening is set. -/
theorem VisitFlags.jump (h : VisitFlags L v f) (hj : JUMP ∈ f) :
    CHANGE_EBP ∉ v.before.state.unsafety ∧ CHANGE_ESP ∉ v.before.state.unsafety ∧
      BUMP_ESP ∉ v.before.state.unsafety := by
  have hr := h.none
  rw [flagReports, List.append_eq_nil_iff, List.append_eq_nil_iff] at hr
  obtain ⟨⟨-, hebp⟩, hesp⟩ := hr
  refine ⟨fun hc => ?_, fun hc => ?_, fun hb => ?_⟩
  · rw [if_pos ⟨hj, hc⟩] at hebp
    cases hebp
  · rw [if_pos ⟨hj, Or.inl hc⟩] at hesp
    cases hesp
  · rw [if_pos ⟨hj, Or.inr hb⟩] at hesp
    cases hesp

/-- A stack instruction is refused while `%esp` may point anywhere. -/
theorem VisitFlags.stack (h : VisitFlags L v f) (hk : opKind v.item.op ∉ [.data, .leave, .jmp, .jcc]) :
    CHANGE_ESP ∉ v.before.state.unsafety :=
  fun hc => ((useReports_nil h.use).2 hc).2 (found_of_stack hk)

/-- A named `%esp`, too. -/
theorem VisitFlags.names_esp (h : VisitFlags L v f) {src dest : Operand} {t : String}
    (hargs : v.item.args = [src, dest]) (ht : dest.offsetFrom .esp true = some t) :
    CHANGE_ESP ∉ v.before.state.unsafety := by
  intro hc
  refine ((useReports_nil h.use).2 hc).1 ?_
  cases dest with
  | mem offset base index scale =>
    rcases ite_eq_iff.mp ht with ⟨⟨rfl, -, -⟩, -⟩ | ⟨-, ht⟩
    · obtain ⟨a, b, hab, hb⟩ := text_base offset .esp index scale
      rw [hargs]
      refine usesEsp_of_infix (a := src.text.toList ++ ',' :: a) (b := b) ?_ hb
      rw [argsText_pair, hab]
      simp [reg32Text]
    · cases ht
  | reg | imm | abs | target | star | other => cases ht

/-- A bump from `%ebp` is one from a known `%ebp`. -/
theorem VisitFlags.names_ebp (h : VisitFlags L v f) {src dest : Operand} {one : Bool} {t : String}
    (hop : v.item.op = "lea") (hargs : v.item.args = [src, dest])
    (ht : src.offsetFrom .ebp one = some t) : CHANGE_EBP ∉ v.before.state.unsafety := by
  intro hc
  have hfound : found ["%ebp"] (argsText v.item.args) = true := by
    cases src with
    | mem offset base index scale =>
      rcases ite_eq_iff.mp ht with ⟨⟨rfl, -, -⟩, -⟩ | ⟨-, ht⟩
      · obtain ⟨a, b, hab, -⟩ := text_base offset .ebp index scale
        rw [hargs]
        refine found_of_infix (a := a) (b := b ++ ',' :: dest.text.toList) ?_
        rw [argsText_pair, hab]
        simp [reg32Text]
      · cases ht
    | reg | imm | abs | target | star | other => cases ht
  have hm := (useReports_nil h.use).1 hc hfound
  rw [masksEbp, hop] at hm
  cases hm

@[simp] theorem post_change_ebp : (post f).change_ebp = true ↔ CHANGE_EBP ∈ f := decide_eq_true_iff
@[simp] theorem post_change_esp : (post f).change_esp = true ↔ CHANGE_ESP ∈ f := decide_eq_true_iff
@[simp] theorem post_bump_esp : (post f).bump_esp = true ↔ BUMP_ESP ∈ f := decide_eq_true_iff
@[simp] theorem post_use_esp : (post f).use_esp = false ↔ USE_ESP ∉ f := decide_eq_false_iff_not
@[simp] theorem post_ebp_safe : (post f).ebp_safe = false ↔ EBP_DATA_SAFE ∉ f :=
  decide_eq_false_iff_not

/-- An instruction that is only flagged keeps a pointer or is noted to write it. -/
theorem data_plain {q : Reg32} (hq : IsPointer q) (hok : StepOk L v s)
    (hlast : (v.item.op = "xchg" → ∀ a b, v.item.args ≠ [.reg a, .reg b]) →
      ∀ r, v.item.args.getLast? = some (.reg r) → Noted v.item.op v.item.args f r)
    (hswap : v.item.op = "xchg" → ∀ a b, v.item.args = [.reg a, .reg b] →
      a = b ∨ Noted v.item.op v.item.args f a ∧ Noted v.item.op v.item.args f b)
    (hc : dataOp L alu fpu v.item s = some c) :
    c.reg q = s.reg q ∨ ∃ r, r.whole = some q ∧ Noted v.item.op v.item.args f r ∧
      ((∃ a b, Swaps v.item a (.reg b)) ∨ v.item.args.getLast? = some (.reg r) ∧ readsOnly v.item = false ∧
        c = (alu.clobber v.item s).writeReg (dataResult alu v.item s) r) := by
  by_cases hsw : ∃ a dest, Swaps v.item a dest
  · obtain ⟨a, dest, hx⟩ := hsw
    have hlast' : v.item.args.getLast? = some dest := by rw [hx.2]; rfl
    have hkeep : a.whole ≠ some q → (∀ b, dest = .reg b → b.whole ≠ some q) → c.reg q = s.reg q := by
      intro ha hb
      refine dataOp_keeps hq (fun r hr => ?_) (fun r o hr => ?_) hc
      · rw [hlast'] at hr
        exact hb r (Option.some.inj hr)
      · have he := hx.2.symm.trans hr.2
        cases he
        exact ha
    by_cases hd : ∃ b, dest = .reg b
    · obtain ⟨b, rfl⟩ := hd
      rcases hswap hx.1 a b hx.2 with rfl | ⟨hna, hnb⟩
      · exact Or.inl (dataOp_swap_self hq hx hc)
      by_cases ha : a.whole = some q
      · exact Or.inr ⟨a, ha, hna, Or.inl ⟨a, b, hx⟩⟩
      by_cases hb : b.whole = some q
      · exact Or.inr ⟨b, hb, hnb, Or.inl ⟨a, b, hx⟩⟩
      · refine Or.inl (hkeep ha fun b' hb' => ?_)
        cases hb'
        exact hb
    · have hno := not_exists.mp hd
      obtain ⟨hesp, hebp⟩ := hok.swap a dest hx hno
      refine Or.inl (hkeep ?_ fun b hb => absurd hb (hno b))
      rcases hq with rfl | rfl
      · exact hesp
      · exact hebp
  · have hno : ∀ a dest, ¬ Swaps v.item a dest := fun a dest hx => hsw ⟨a, dest, hx⟩
    by_cases hw : ∃ r, v.item.args.getLast? = some (.reg r) ∧ r.whole = some q
    · obtain ⟨r, hr, hwhole⟩ := hw
      have hres := dataOp_last hr (fun a b => hno a (.reg b)) hc
      cases hro : readsOnly v.item with
      | true =>
        rw [hro, if_pos rfl] at hres
        rw [hres]
        exact Or.inl (clobber_pointer hq)
      | false =>
        rw [hro] at hres
        refine Or.inr ⟨r, hwhole, hlast (fun hop a b hargs => hno a _ ⟨hop, hargs⟩) r hr, Or.inr ?_⟩
        exact ⟨hr, rfl, hres⟩
    · refine Or.inl (dataOp_keeps hq (fun r hr hwhole => hw ⟨r, hr, hwhole⟩)
        (fun a dest hx => absurd hx (hno a dest)) hc)

/-- What is known of the two pointers where the instruction stands. -/
structure Known (L : Layout) (u : Weak) (m : Cpu) : Prop where
  esp : EspInv (Slack.around L) u m
  ebp : EbpInv (Slack.pastEnd L).set u m

/-- An access close to `%esp` that does not stop the program. -/
theorem Known.access_mem (hm : Known L v.before.state.weak s) (hf : VisitFlags L v f)
    (hc : CHANGE_ESP ∉ v.before.state.unsafety) {k : Int} (hk : k.natAbs ≤ 255)
    (hg : s.reg .esp + BitVec.ofInt 32 k ∉ L.guardZone) : s.reg .esp + BitVec.ofInt 32 k ∈ L.sandbox :=
  (hm.esp.access hf.count (decide_eq_false hc) hk).resolve_right hg

theorem Known.ebp_mem (hm : Known L v.before.state.weak s)
    (hc : CHANGE_EBP ∉ v.before.state.unsafety) : s.reg .ebp ∈ (Slack.pastEnd L).set :=
  hm.ebp (decide_eq_false hc)

theorem textValue_of_signed {t : String} {k : Int} (h : signed_word t = some k) :
    textValue t = some (BitVec.ofInt 32 k) := by
  rw [textValue, h, Option.map_some]

theorem smallOffset_some {p : List Char → Bool} {n : Nat} {t : String}
    (h : smallOffset p n t = true) : ∃ k, signed_word t = some k ∧ k.natAbs < n := by
  rw [smallOffset, Bool.and_eq_true] at h
  obtain ⟨k, hk, hlt⟩ := (Option.any_eq_true _ _).mp h.2
  exact ⟨k, hk, of_decide_eq_true hlt⟩

theorem not_bump_xchg {args : List Operand} : ¬ Bump "xchg" args := by
  intro h
  cases h with
  | sum hop => exact absurd hop (by decide)
  | align hop => exact absurd hop (by decide)
  | lea h =>
    rw [isBumpLea, decide_eq_false (by decide), Bool.false_and] at h
    cases h

/-- A bump is small. -/
theorem bump_step (hm : Known L v.before.state.weak s) (hf : VisitFlags L v f) (hok : StepOk L v s)
    (hu : USE_ESP ∉ f) (hb : BUMP_ESP ∈ f) {r : Reg} (hr : r.whole = some .esp)
    (hlast : v.item.args.getLast? = some (.reg r)) (hro : readsOnly v.item = false)
    (hbump : Bump v.item.op v.item.args)
    (hc : c = (alu.clobber v.item s).writeReg (dataResult alu v.item s) r) :
    EspInv (Slack.around L) (v.before.state.weak.after (post f)) c := by
  have hchange : CHANGE_ESP ∈ v.before.state.unsafety →
      EspInv (Slack.around L) (v.before.state.weak.after (post f)) c := fun h =>
    hm.esp.after (Or.inr ⟨by simpa using hu, Or.inl (decide_eq_true h)⟩)
  have hres : r = .r32 .esp → c.reg .esp = dataResult alu v.item s := by
    rintro rfl
    rw [hc]
    exact Cpu.setReg_same _ _ _
  have hsmall : ∀ {k : Int}, k.natAbs ≤ 255 → c.reg .esp = s.reg .esp + BitVec.ofInt 32 k →
      EspInv (Slack.around L) (v.before.state.weak.after (post f)) c := by
    intro k hk he
    refine hm.esp.after (Or.inr ⟨by simpa using hu, Or.inr (Or.inr ⟨k, ?_, he⟩)⟩)
    rw [if_pos (by simpa using hb)]
    exact hk
  generalize hargs : v.item.args = args at hbump hlast
  cases hbump with
  | sum hop hbyte =>
    cases hlast
    rcases hok.sum hop _ hargs hbyte with h | ⟨k, hk, hle⟩
    · exact hchange h
    · obtain ⟨j, hj, he⟩ := dataResult_sum alu s hop hargs hk
      exact hsmall (hj ▸ hle) ((hres rfl).trans he)
  | align hop =>
    cases hlast
    have hmem : v.item.op ∈ cat ["and"] (opt size) := by
      rw [hop]
      decide
    obtain ⟨k, hk, he⟩ := align_near (s.reg .esp)
    refine hsmall hk ((hres rfl).trans (Eq.trans ?_ he))
    exact dataResult_and (w := 0xfffffff0) hmem hargs rfl
  | @lea src q hlea =>
    cases hlast
    cases r with
    | r32 r =>
      obtain rfl := Option.some.inj hr
      rw [isBumpLea, Bool.and_eq_true, decide_eq_true_eq, List.any_eq_true] at hlea
      obtain ⟨hop, b, hb', hany⟩ := hlea
      obtain ⟨t, ht, hoff⟩ := (Option.any_eq_true _ _).mp hany
      obtain ⟨k, hk, hlt⟩ := smallOffset_some hoff
      have haddr := offsetFrom_address (s := s) ht (textValue_of_signed hk)
      have he : c.reg .esp = s.reg b + BitVec.ofInt 32 k := by
        rw [hres rfl, dataResult_lea hop hargs, haddr, Option.getD_some]
      rcases List.mem_cons.mp hb' with rfl | hb'
      · exact hsmall (by omega) he
      obtain rfl := List.mem_singleton.mp hb'
      -- the base is `%ebp`, which must be known here
      have hin := hm.ebp_mem (hf.names_ebp hop hargs ht)
      refine .of_bump (by simpa using hu) (by simpa using hb) ?_
      rw [he]
      exact near_mono (by omega) (near_add (mem_near_self ((Slack.pastEnd L).drift hin) 0) k)
    | r16 r =>
      obtain rfl := Option.some.inj hr
      rcases hok.word _ hargs (Or.inr hlea) with h | h
      · rw [hro] at h
        cases h
      · exact hchange h
    | r8 r => exact absurd (Option.some.inj hr) (Cpu.reg8_whole r).1
    | other n => cases hr

/-- An access at an offset from `%esp` that counts as a use of it is close to it. -/
theorem VisitFlags.near_esp (hf : VisitFlags L v f) (hok : StepOk L v s) {dest : Operand} {t : String}
    (hlast : v.item.args.getLast? = some dest) (ht : dest.offsetFrom .esp true = some t)
    (hacc : CHANGE_ESP ∉ v.before.state.unsafety ∧ smallOffset (fun _ => true) 127 t = true ∨
      MarksTop L v.item.op v.item.args t) :
    CHANGE_ESP ∉ v.before.state.unsafety ∧ ∃ k : Int, k.natAbs ≤ 127 ∧
      operandAddress s dest = some (s.reg .esp + BitVec.ofInt 32 k) := by
  rcases hacc with ⟨hc, hoff⟩ | hmark
  · obtain ⟨k, hk, hlt⟩ := smallOffset_some hoff
    exact ⟨hc, k, by omega, offsetFrom_address ht (textValue_of_signed hk)⟩
  · obtain ⟨value, dest', hargs, ht', hop⟩ := id hmark
    rw [hargs] at hlast
    cases hlast
    obtain ⟨k, hk, hle⟩ := hok.top t hmark
    exact ⟨hf.names_esp hargs ht', k, hle, offsetFrom_address ht (textValue_of_signed hk)⟩

/-- An instruction without control or stack effect keeps track of `%esp`. -/
theorem esp_data (hm : Known L v.before.state.weak s) (hf : VisitFlags L v f) (hok : StepOk L v s)
    (hk : opKind v.item.op = .data) (hs : exec L alu fpu v.item s = some s') :
    EspInv (Slack.around L) (v.before.state.weak.after (post f)) s' := by
  obtain ⟨c, hc, rfl⟩ := exec_data hk hs
  show EspInv (Slack.around L) (v.before.state.weak.after (post f)) c
  have hkept : USE_ESP ∉ f → c.reg .esp = s.reg .esp →
      EspInv (Slack.around L) (v.before.state.weak.after (post f)) c :=
    fun hu he => hm.esp.after (.of_eq (by simpa using hu) he)
  have hother : ∀ {r : Reg}, v.item.args.getLast? = some (.reg r) → r.whole ≠ some .esp →
      v.item.op ≠ "xchg" → c.reg .esp = s.reg .esp := by
    intro r hr hw hx
    refine dataOp_keeps (Or.inl rfl) (fun q hq => ?_) (fun q o hq => absurd hq.1 hx) hc
    rw [hr] at hq
    cases hq
    exact hw
  have heffect := effect_of_arm hf.arm hk hf.write
  generalize hargs : v.item.args = args at heffect
  cases heffect with
  | maskEbp hop hfl =>
    refine hkept (by rw [hfl]; decide) (hother (by rw [hargs]; rfl) (by decide) ?_)
    rw [hop]
    decide
  | orEbp hop _ hfl =>
    refine hkept (by rw [hfl]; decide) (hother (by rw [hargs]; rfl) (by decide) ?_)
    rw [hop]
    decide
  | frame hop _ _ hfl =>
    refine hkept (by rw [hfl]; decide) (hother (by rw [hargs]; rfl) (by decide) ?_)
    rw [hop]
    decide
  | maskEsp hop _ =>
    refine .of_mem ((Slack.around L).sandbox_subset ?_)
    have he := exec_and_reg hop hargs hs
    rw [Cpu.jump_reg] at he
    rw [he]
    exact Layout.mask_mem_sandbox L _
  | orEsp hset => exact absurd hset hf.no_esp
  | unframe hop hebp _ =>
    have hlast : v.item.args.getLast? = some (.reg (.r32 .esp)) := by rw [hargs]; rfl
    have hno : ∀ a b, ¬ Swaps v.item a (.reg b) := by
      intro a b hx
      exact absurd (hop.symm.trans hx.1) (by decide)
    have hres := dataOp_last hlast hno hc
    have hro : readsOnly v.item = false := writes_of_two hargs (by rw [hop]; decide)
    rw [hro] at hres
    refine .of_mem ((Slack.pastEnd L).drift ?_)
    rw [hres]
    show ((alu.clobber v.item s).setReg .esp _).reg .esp ∈ _
    rw [Cpu.setReg_same, dataResult_mov hop hargs rfl]
    exact hm.ebp_mem hebp
  | @access args dest t hlast ht hacc hfl =>
    rw [← hargs] at hlast hacc
    obtain ⟨hesp, k, hle, haddr⟩ := hf.near_esp hok hlast ht hacc
    have hg := dataOp_address hlast haddr hc
    have hin := hm.access_mem hf hesp (by omega) hg
    have hsame : c.reg .esp = s.reg .esp := by
      refine dataOp_keeps (Or.inl rfl) (fun q hq => ?_) (fun q o hq => ?_) hc
      · rw [hlast] at hq
        exact absurd (Option.some.inj hq) (offsetFrom_not_reg ht q)
      · rw [hq.2] at hlast
        cases hlast
        exact (hok.swap q o hq (offsetFrom_not_reg ht)).1
    refine .of_mem ?_
    rw [hsame]
    exact near_mono (by omega) (near_of_add k (mem_near_self hin 0))
  | plain hu he hlast hswap =>
    rw [← hargs] at hlast hswap
    rcases data_plain (Or.inl rfl) hok hlast hswap hc with hsame | ⟨r, hr, hnoted, hw⟩
    · exact hkept hu hsame
    have hset : CHANGE_ESP ∈ f → EspInv (Slack.around L) (v.before.state.weak.after (post f)) c :=
      fun h => hm.esp.after (Or.inr ⟨by simpa using hu, Or.inr (Or.inl (by simpa using h))⟩)
    rcases hnoted.esp hr with h | ⟨hb, hbump⟩ | ⟨value, hword⟩
    · exact hset h
    · rcases hw with ⟨a, b, hx⟩ | ⟨hl, hro, hres⟩
      · rw [hx.1] at hbump
        exact absurd hbump not_bump_xchg
      · exact bump_step hm hf hok hu hb hr hl hro hbump hres
    · rcases hw with ⟨a, b, hx⟩ | ⟨hl, hro, -⟩
      · rw [hx.2] at hword
        cases hword
      · rcases hok.word _ hword (Or.inl ⟨value, rfl⟩) with h | h
        · rw [hro] at h
          cases h
        · exact hm.esp.after (Or.inr ⟨by simpa using hu, Or.inl (decide_eq_true h)⟩)

/-- An instruction without control or stack effect keeps track of `%ebp`. -/
theorem ebp_data (hm : Known L v.before.state.weak s) (hf : VisitFlags L v f) (hok : StepOk L v s)
    (hk : opKind v.item.op = .data) (hs : exec L alu fpu v.item s = some s') :
    EbpInv (Slack.pastEnd L).set (v.before.state.weak.after (post f)) s' := by
  obtain ⟨c, hc, rfl⟩ := exec_data hk hs
  show EbpInv (Slack.pastEnd L).set (v.before.state.weak.after (post f)) c
  have hkept : EBP_DATA_SAFE ∉ f → c.reg .ebp = s.reg .ebp →
      EbpInv (Slack.pastEnd L).set (v.before.state.weak.after (post f)) c :=
    fun hu he => hm.ebp.after (.of_eq (by simpa using hu) he)
  have hmem : c.reg .ebp ∈ (Slack.pastEnd L).set →
      EbpInv (Slack.pastEnd L).set (v.before.state.weak.after (post f)) c := fun h _ => h
  have hwritten : ∀ {src : Operand}, v.item.args = [src, .reg (.r32 .ebp)] → v.item.op ≠ "xchg" →
      readsOnly v.item = false → c.reg .ebp = dataResult alu v.item s := by
    intro src hargs hx hro
    have hlast : v.item.args.getLast? = some (.reg (.r32 .ebp)) := by rw [hargs]; rfl
    have hres := dataOp_last hlast (fun a b h => hx h.1) hc
    rw [hro] at hres
    rw [hres]
    exact Cpu.setReg_same _ _ _
  have heffect := effect_of_arm hf.arm hk hf.write
  generalize hargs : v.item.args = args at heffect
  cases heffect with
  | maskEbp hop _ =>
    refine hmem ((Slack.pastEnd L).sandbox_subset ?_)
    have he := exec_and_reg hop hargs hs
    rw [Cpu.jump_reg] at he
    rw [he]
    exact Layout.mask_mem_sandbox L _
  | orEbp hop hset hfl =>
    by_cases hc' : CHANGE_EBP ∈ v.before.state.unsafety
    · exact hm.ebp.after (Or.inr ⟨by rw [hfl]; decide, Or.inl (decide_eq_true hc')⟩)
    refine hmem ?_
    have hro : readsOnly v.item = false := writes_of_two hargs (by rw [hop]; decide)
    rw [hwritten hargs (by rw [hop]; decide) hro, dataResult_or hop hargs]
    exact hok.orFrame hop hargs hset hc'
  | frame hop hesp hbump _ =>
    refine hmem ?_
    have hro : readsOnly v.item = false := writes_of_two hargs (by rw [hop]; decide)
    rw [hwritten hargs (by rw [hop]; decide) hro, dataResult_mov hop hargs rfl]
    exact hok.frame hop hargs hesp hbump
  | maskEsp hop hfl =>
    refine hkept (by rw [hfl]; decide) (dataOp_keeps (Or.inr rfl) (fun r hr => ?_)
      (fun r o hr => ?_) hc)
    · rw [hargs] at hr
      cases hr
      decide
    · exact absurd (hop.symm.trans hr.1) (by decide)
  | unframe hop _ hfl =>
    refine hkept (by rw [hfl]; decide) (dataOp_keeps (Or.inr rfl) (fun r hr => ?_)
      (fun r o hr => ?_) hc)
    · rw [hargs] at hr
      cases hr
      decide
    · exact absurd (hop.symm.trans hr.1) (by decide)
  | orEsp hset => exact absurd hset hf.no_esp
  | access hlast ht hacc hfl =>
    rw [← hargs] at hlast
    refine hkept (fun h => absurd (hfl h) (by decide)) (dataOp_keeps (Or.inr rfl) (fun r hr => ?_)
      (fun r o hr => ?_) hc)
    · rw [hlast] at hr
      exact absurd (Option.some.inj hr) (offsetFrom_not_reg ht r)
    · rw [hr.2] at hlast
      cases hlast
      exact (hok.swap r o hr (offsetFrom_not_reg ht)).2
  | plain hu he hlast hswap =>
    rw [← hargs] at hlast hswap
    rcases data_plain (Or.inr rfl) hok hlast hswap hc with hsame | ⟨r, hr, hnoted, -⟩
    · exact hkept he hsame
    · exact hm.ebp.after (Or.inr ⟨by simpa using he, Or.inr (Or.inl (by simpa using hnoted.ebp hr))⟩)

/-- The instructions with a control or stack effect clear no weakening of `%ebp`. -/
theorem VisitFlags.no_ebp_safe (hf : VisitFlags L v f) (hk : opKind v.item.op ≠ .data) :
    EBP_DATA_SAFE ∉ f := by
  intro hset
  rcases hf.arm.strengthens with hq | ⟨-, rfl⟩ | ⟨-, rfl⟩ | ⟨-, rfl⟩ | ⟨hd, -⟩
  · exact absurd (hq hset) (by decide)
  · exact absurd hset (by decide)
  · exact absurd hset (by decide)
  · exact absurd hset (by decide)
  · exact hk hd

/-- A pop into `%ebp` is flagged. -/
theorem VisitFlags.pop_ebp (hf : VisitFlags L v f) (hk : opKind v.item.op = .pop) {r : Reg}
    (hargs : v.item.args = [.reg r]) (hr : r.whole = some .ebp) : CHANGE_EBP ∈ f := by
  have hin : CHANGE_EBP ∈ change r := by
    rw [change, if_pos hr]
    exact Finset.mem_union_left _ (by decide)
  have harm := hf.arm
  rw [hargs] at harm
  cases harm with
  | reg h =>
    rcases regFlags_ok h with ⟨hop, -⟩ | ⟨-, rfl⟩ | rfl
    · rw [hop] at hk
      exact absurd hk (by decide)
    · exact Finset.mem_union_left _ (Finset.mem_union_right _ hin)
    · exact hin

/-- A return without an operand, and every transfer to a literal or through a register, is
let through as a jump. -/
theorem VisitFlags.jumps (hf : VisitFlags L v f)
    (h : v.item.op = "ret" ∧ v.item.args = [] ∨ (∃ a b, v.item.args = [.target a b]) ∨
      ∃ r, v.item.args = [.star r]) : JUMP ∈ f := by
  have hstar : ∀ g : Flags, JUMP ∈ ({JUMP} ∪ g : Flags) := fun g => Finset.mem_union_left _ (by decide)
  have harm := hf.arm
  rcases h with ⟨hop, hargs⟩ | ⟨a, b, hargs⟩ | ⟨r, hargs⟩
  · rw [hargs] at harm
    cases harm with
    | none h =>
      rcases noneFlags_ok h with ⟨-, ⟨-, rfl⟩ | rfl⟩ | ⟨hl, -⟩ | ⟨hl | hl, -⟩ | ⟨hl, -⟩
      · decide
      · decide
      all_goals exact absurd (hop ▸ hl) (by decide)
  · rw [hargs] at harm
    cases harm with
    | target h =>
      obtain ⟨-, -, -, rfl⟩ := targetFlags_ok h
      exact hstar _
  · rw [hargs] at harm
    cases harm with
    | star h =>
      rcases starFlags_ok h with ⟨-, -, rfl⟩ | rfl
      · exact hstar _
      · exact Finset.mem_union_right _ (hstar _)

theorem VisitFlags.leaves (hf : VisitFlags L v f) (hop : v.item.op = "leave")
    (hargs : v.item.args = []) : CHANGE_EBP ∈ f := by
  have harm := hf.arm
  rw [hargs] at harm
  cases harm with
  | none h =>
    rcases noneFlags_ok h with ⟨hl, -⟩ | ⟨-, ⟨-, rfl⟩ | rfl⟩ | ⟨hl | hl, -⟩ | ⟨hl, -⟩
    · exact absurd (hop ▸ hl) (by decide)
    · decide
    · decide
    all_goals exact absurd (hop ▸ hl) (by decide)

/-- A jump, call or return as the processor knows them. -/
def IsTransfer (i : Insn) : Prop :=
  opKind i.op = .ret ∧ (i.args = [] ∨ ∃ value, i.args = [.imm value]) ∨
    (opKind i.op).transfers = true ∧ opKind i.op ≠ .ret ∧
      ((∃ a b, i.args = [.target a b]) ∨ ∃ r, i.args = [.star r])

/-- Control moves only where `%ebp` is known. -/
theorem VisitFlags.ebp_known (hf : VisitFlags L v f) (hok : StepOk L v s) (ht : IsTransfer v.item) :
    CHANGE_EBP ∉ v.before.state.unsafety := by
  rcases ht with ⟨hk, hargs | ⟨value, hargs⟩⟩ | ⟨-, -, hargs⟩
  · exact (hf.jump (hf.jumps (Or.inl ⟨opKind_ret hk, hargs⟩))).1
  · exact (hok.ret hk value hargs).1
  · exact (hf.jump (hf.jumps (Or.inr hargs))).1

theorem isTransfer_of_exec (ht : (opKind v.item.op).transfers = true)
    (hs : exec L alu fpu v.item s = some s') : IsTransfer v.item := by
  by_cases hk : opKind v.item.op = .ret
  · exact Or.inl ⟨hk, (exec_ret (opKind_ret hk) hs).2⟩
  · have hne : v.item.op ≠ "ret" := by
      intro hop
      rw [hop] at hk
      exact hk (by decide)
    obtain ⟨a, ha, -⟩ := exec_transfer ht hne hs
    refine Or.inr ⟨ht, hk, ?_⟩
    unfold transferTarget at ha
    split at ha
    · rename_i h
      exact Or.inl ⟨_, _, h⟩
    · rename_i h
      exact Or.inr ⟨_, h⟩
    · cases ha

/-- What a push or a pop reaches. -/
theorem Known.slot (hm : Known L v.before.state.weak s) (hf : VisitFlags L v f)
    (hk : opKind v.item.op ∉ [.data, .leave, .jmp, .jcc]) (w : Width) :
    (s.reg .esp - BitVec.ofNat 32 w.bytes ∈ L.sandbox ∨
      s.reg .esp - BitVec.ofNat 32 w.bytes ∈ L.guardZone) ∧
      (s.reg .esp ∈ L.sandbox ∨ s.reg .esp ∈ L.guardZone) := by
  have hc : v.before.state.weak.change_esp = false := decide_eq_false (hf.stack hk)
  obtain ⟨he, hle⟩ := sub_bytes (s.reg .esp) w
  refine ⟨?_, ?_⟩
  · rw [he]
    exact hm.esp.access hf.count hc hle
  · simpa using hm.esp.access hf.count hc (k := 0) (by decide)

/-- An instruction that falls through keeps track of both pointers. -/
theorem known_next (hm : Known L v.before.state.weak s) (hf : VisitFlags L v f) (hok : StepOk L v s)
    (ht : (opKind v.item.op).transfers = false) (hs : exec L alu fpu v.item s = some s') :
    Known L (v.before.state.weak.after (post f)) s' := by
  by_cases hk : opKind v.item.op = .data
  · exact ⟨esp_data hm hf hok hk hs, ebp_data hm hf hok hk hs⟩
  have hsafe : (post f).ebp_safe = false := by simpa using hf.no_ebp_safe hk
  have hkept : s'.reg .ebp = s.reg .ebp →
      EbpInv (Slack.pastEnd L).set (v.before.state.weak.after (post f)) s' :=
    fun he => hm.ebp.after (.of_eq hsafe he)
  have hsub := (Slack.around L).sandbox_subset
  cases moved_of_exec hk hs with
  | push w hkind hg hesp hebp =>
    refine ⟨.of_mem ?_, hkept hebp⟩
    have hnot : opKind v.item.op ∉ [.data, .leave, .jmp, .jcc] := by
      rcases hkind with h | h | h <;> rw [h] <;> decide
    rw [hesp]
    exact hsub ((hm.slot hf hnot w).1.resolve_right hg)
  | pop w hkind hg hesp hebp =>
    have hnot : opKind v.item.op ∉ [.data, .leave, .jmp, .jcc] := by
      rcases hkind with h | h <;> rw [h] <;> decide
    refine ⟨.of_mem ?_, ?_⟩
    · rw [hesp ?_]
      · exact (Slack.around L).pop_mem _ ((hm.slot hf hnot w).2.resolve_right hg) _ w.bytes_le
      · rcases hkind with h | h
        · exact hok.pop h
        · intro r hargs
          rw [exec, h] at hs
          simp [hargs] at hs
    · rcases hebp with he | ⟨r, hargs, hr⟩
      · exact hkept he
      · rcases hkind with h | h
        · exact hm.ebp.after (Or.inr ⟨hsafe, Or.inr (Or.inl (by simpa using hf.pop_ebp h hargs hr))⟩)
        · rw [exec, h] at hs
          simp [hargs] at hs
  | leave hkind hg hesp =>
    have hin := ((Slack.pastEnd L).mem_or_guard (hm.ebp_mem (hok.leave hkind))).resolve_right hg
    refine ⟨.of_mem ?_, ?_⟩
    · rw [hesp]
      exact (Slack.around L).pop_mem _ hin 4 (by decide)
    · have hargs : v.item.args = [] := by
        rw [exec, hkind] at hs
        by_contra hne
        simp [hne] at hs
      have hchange := hf.leaves (opKind_leave hkind) hargs
      exact hm.ebp.after (Or.inr ⟨hsafe, Or.inr (Or.inl (by simpa using hchange))⟩)
  | ret hkind => rw [hkind] at ht; cases ht
  | jump hkind => rcases hkind with h | h <;> rw [h] at ht <;> cases ht

/-- A transfer leaves both pointers known. -/
theorem known_transfer (hm : Known L v.before.state.weak s) (hf : VisitFlags L v f)
    (hok : StepOk L v s) (ht : (opKind v.item.op).transfers = true)
    (hs : exec L alu fpu v.item s = some s') :
    s'.reg .esp ∈ (Slack.around L).set ∧ s'.reg .ebp ∈ (Slack.pastEnd L).set := by
  have hit := isTransfer_of_exec ht hs
  have hebp := hm.ebp_mem (hf.ebp_known hok hit)
  have hd : opKind v.item.op ≠ .data := by
    intro h
    rw [h] at ht
    cases ht
  cases moved_of_exec hd hs with
  | push w hkind hg hesp hsame =>
    have hnot : opKind v.item.op ∉ [.data, .leave, .jmp, .jcc] := by
      rcases hkind with h | h | h <;> rw [h] <;> decide
    rw [hesp, hsame]
    exact ⟨(Slack.around L).sandbox_subset ((hm.slot hf hnot w).1.resolve_right hg), hebp⟩
  | pop w hkind => rcases hkind with h | h <;> rw [h] at ht <;> cases ht
  | leave hkind => rw [hkind] at ht; cases ht
  | ret hkind n hn hg hesp hsame =>
    have hnot : opKind v.item.op ∉ [.data, .leave, .jmp, .jcc] := by rw [hkind]; decide
    have hin := (hm.slot hf hnot .dword).2.resolve_right hg
    rw [hesp, hsame]
    refine ⟨?_, hebp⟩
    have hsmall : ∃ k ≤ 128, n = BitVec.ofNat 32 k := by
      rcases hit with ⟨-, hargs | ⟨value, hargs⟩⟩ | ⟨-, hne, -⟩
      · rw [returnBytes, hargs] at hn
        exact ⟨0, by decide, (Option.some.inj hn).symm⟩
      · obtain ⟨-, k, hk, hv⟩ := hok.ret hkind value hargs
        rw [returnBytes, hargs] at hn
        have hn' : (textValue value).getD (alu.result v.item s) = n := Option.some.inj hn
        rw [hv] at hn'
        exact ⟨k, hk, hn'.symm⟩
      · exact absurd hkind hne
    obtain ⟨k, hk, rfl⟩ := hsmall
    refine ⟨_, hin, ((4 + k : Nat) : Int), by omega, ?_⟩
    rw [BitVec.ofInt_natCast, BitVec.ofNat_add, BitVec.add_assoc]
    rfl
  | jump hkind hreg =>
    rw [hreg]
    refine ⟨?_, hebp⟩
    have hclear : CHANGE_ESP ∉ v.before.state.unsafety ∧ BUMP_ESP ∉ v.before.state.unsafety := by
      rcases hit with ⟨hr, -⟩ | ⟨-, -, hargs⟩
      · rcases hkind with h | h <;> rw [h] at hr <;> cases hr
      · exact (hf.jump (hf.jumps (Or.inr hargs))).2
    exact hm.esp.mem hf.count (decide_eq_false hclear.1) (decide_eq_false hclear.2)

theorem not_throughEsp {dest : Operand} {t : String} (ht : dest.offsetFrom .ebp false = some t) :
    dest.throughEsp = false := by
  cases dest with
  | mem offset base index scale =>
    rcases ite_eq_iff.mp ht with ⟨⟨rfl, -, -⟩, -⟩ | ⟨-, ht⟩
    · rfl
    · cases ht
  | reg | imm | abs | target | star | other => rfl

/-- A write to `off(%esp)` that is let through is close to `%esp`. -/
theorem VisitFlags.esp_write (hf : VisitFlags L v f) (hk : opKind v.item.op = .data)
    (hro : readsOnly v.item = false) {dest : Operand} (hlast : v.item.args.getLast? = some dest)
    (hd : dest.throughEsp = true) : ∃ t, dest.offsetFrom .esp true = some t ∧
      (CHANGE_ESP ∉ v.before.state.unsafety ∧ smallOffset (fun _ => true) 127 t = true ∨
        MarksTop L v.item.op v.item.args t) := by
  have hreads : v.item.op ∉ cat ["cmp", "test"] (opt size) ++ ["bt", "nop"] ++ fload ++ fcload ++ fbin ++
      funary := by
    intro hop
    rw [readsOnly, decide_eq_true hop, Bool.true_or] at hro
    cases hro
  have hsimple : ∀ {dest : Operand} {half : List Char → Bool} {bound : Nat} {k : Option Flag},
      Simple v.before.state.unsafety dest half bound k → k.isSome = true → dest.throughEsp = true →
      ∃ t, dest.offsetFrom .esp true = some t ∧
        (CHANGE_ESP ∉ v.before.state.unsafety ∧ smallOffset (fun _ => true) 127 t = true ∨
          MarksTop L v.item.op v.item.args t) := by
    intro dest half bound k hs hk hd
    cases hs with
    | none => cases hk
    | ebp t ht =>
      rw [not_throughEsp ht] at hd
      cases hd
    | esp t ht hu hoff => exact ⟨t, ht, Or.inl ⟨hu, hoff⟩⟩
  have hstore : ∀ {dest : Operand} {half : List Char → Bool} {bound : Nat},
      StoreFlags (v.before.state.safetyAt v.before.addr) v.before.state.unsafety v.item.op dest half
        bound f → dest.throughEsp = true → ∃ t, dest.offsetFrom .esp true = some t ∧
        (CHANGE_ESP ∉ v.before.state.unsafety ∧ smallOffset (fun _ => true) 127 t = true ∨
          MarksTop L v.item.op v.item.args t) := by
    intro dest half bound h hd
    rcases h with ⟨rfl, -⟩ | ⟨-, simple, hs, hflag⟩
    · cases hd
    refine hsimple hs ?_ hd
    cases simple with
    | some k => rfl
    | none =>
      rcases hflag with hfl | ⟨hop, -⟩
      · exact absurd (hfl ▸ Finset.mem_singleton_self _) hf.write
      · refine absurd ?_ hreads
        simp only [List.append_assoc]
        exact List.mem_append_left _ hop
  have harm := hf.arm
  generalize v.item.args = args at harm hlast hsimple hstore ⊢
  cases harm with
  | none h => cases hlast
  | complex h =>
    cases hlast
    rcases complexFlags_ok h with ⟨hop, -⟩ | ⟨-, ⟨hw, -⟩ | ⟨-, ⟨hebx, -⟩ | ⟨k, hs⟩⟩⟩ | ⟨-, hop, -⟩
    · rw [hop] at hk
      exact absurd hk (by decide)
    · exact absurd hw hf.write
    · rw [hebx] at hd
      cases hd
    · exact hsimple hs rfl hd
    · refine absurd ?_ hreads
      simp only [List.append_assoc] at hop ⊢
      exact List.mem_append_right _ (List.mem_append_right _ hop)
  | immComplex h =>
    cases hlast
    rcases immComplexFlags_ok h with ⟨⟨hop, hv, t, ht, -⟩, -⟩ | ⟨hop, hv, -, ⟨t, ht⟩, -⟩ | hs
    · exact ⟨t, ht, Or.inr ⟨_, _, rfl, ht, Or.inl ⟨hop, hv⟩⟩⟩
    · exact ⟨t, ht, Or.inr ⟨_, _, rfl, ht, Or.inr ⟨hop, hv⟩⟩⟩
    · exact hstore hs hd
  | regComplex h =>
    cases hlast
    exact hstore (regComplexFlags_ok h) hd
  | reg | imm | immRegReg | regRegReg | immSrcReg | regReg | immReg | abs | absReg | regAbs | immAbs
  | complexReg | target | star | other =>
    cases hlast
    cases hd

/-- The access of an instruction to the stack reaches the sandbox or a guard zone. -/
theorem stackAccess_safe (hm : Known L v.before.state.weak s) (hf : VisitFlags L v f)
    (hok : StepOk L v s) {x : Word} (hx : stackAccess v.item s = some x) :
    x ∈ L.sandbox ∨ x ∈ L.guardZone := by
  unfold stackAccess at hx
  split at hx
  case h_1 hk =>
    cases hx
    exact (hm.slot hf (by rw [hk]; decide) _).1
  case h_2 hk =>
    cases hx
    exact (hm.slot hf (by rw [hk]; decide) .dword).1
  case h_3 hk =>
    cases hx
    exact (hm.slot hf (by rw [hk]; decide) .dword).1
  case h_4 hk =>
    cases hx
    exact (hm.slot hf (by rw [hk]; decide) .dword).2
  case h_5 hk =>
    cases hx
    exact (hm.slot hf (by rw [hk]; decide) .dword).2
  case h_6 hk =>
    cases hx
    exact (hm.slot hf (by rw [hk]; decide) .dword).2
  case h_7 hk =>
    cases hx
    exact (Slack.pastEnd L).mem_or_guard (hm.ebp_mem (hok.leave hk))
  case h_8 => cases hx
  case h_9 => cases hx
  case h_10 hk =>
    obtain ⟨dest, hlast, hx⟩ := Option.bind_eq_some_iff.mp hx
    rcases ite_eq_iff.mp hx with ⟨hd, hx⟩ | ⟨-, hx⟩
    · rw [Bool.and_eq_true, Bool.not_eq_true'] at hd
      obtain ⟨t, ht, hacc⟩ := hf.esp_write hk hd.2 hlast hd.1
      obtain ⟨hesp, k, hle, haddr⟩ := hf.near_esp hok hlast ht hacc
      obtain rfl := Option.some.inj (haddr.symm.trans hx)
      exact hm.esp.access hf.count (decide_eq_false hesp) (by omega)
    · cases hx

end

section

variable {L : Layout} {rows : List Row} {e : At} {v : Examined}
variable (hp : Pass (Examines L) (start L) (examined L rows) e)

include hp

theorem no_esp_data (hv : v ∈ examined L rows) :
    ESP_DATA_SAFE ∉ v.before.state.safetyAt v.before.addr := by
  have hleft : ESP_DATA_SAFE ∉ v.before.state.safety := by
    rcases hp.before_eq hv with he | ⟨u, hu, he⟩
    · rw [he]
      exact Finset.notMem_empty _
    obtain ⟨f, harm, -, -, hst⟩ := visit_flags hp hu
    rw [← he, hst, updateState]
    intro hset
    rcases Finset.mem_union.mp hset with hold | hnew
    · revert hold
      split
      · intro hold
        exact absurd (Finset.mem_inter.mp hold).2 (by decide)
      · exact Finset.notMem_empty _
    · have hf := (Finset.mem_inter.mp hnew).1
      rcases harm.strengthens with hq | ⟨-, rfl⟩ | ⟨-, rfl⟩ | ⟨-, rfl⟩ | ⟨-, rfl⟩
      · exact absurd (hq hf) (by decide)
      all_goals exact absurd hf (by decide)
  rw [VState.safetyAt]
  split
  · exact Finset.notMem_empty _
  · exact hleft

theorem visitFlags (hv : v ∈ examined L rows) : ∃ f, VisitFlags L v f ∧
    v.after.state.weak = v.before.state.weak.after (post f) := by
  obtain ⟨f, harm, huse, hnone, hst⟩ := visit_flags hp hv
  have hcount : v.before.state.weak.Ok := by
    refine ((hp.invariant (I := fun st => st.state.weak.Ok) Weak.ok_initial ?_).1 v hv).1
    rintro a i b ⟨hrow, -⟩ ha
    obtain ⟨g, -, -, -, -, hb⟩ := checkRow_ok hrow
    rw [hb]
    exact (weak_updateState a.state (a.state.safetyAt a.addr) i.op g).symm ▸ ha.after _
  refine ⟨f, ⟨harm, huse, hnone, no_esp_data hp hv, hcount⟩, ?_⟩
  rw [hst]
  exact weak_updateState v.before.state (v.before.state.safetyAt v.before.addr) v.item.op f

end

/-- In every run whose steps are none that `verify.pl` takes for something else, every
access to the stack reaches the data region, the zero-tag region or a guard zone, and
control moves only while `%ebp` lies in one of the two regions or a word past its end. -/
theorem pointers_kept {L : Layout} {rows : List Row} {alu : Alu Insn}
    {fpu : Insn → Cpu → Word → BitVec 8} {s s' : Cpu} (hcont : Contiguous L.code_start rows)
    (h : ChecksFinished L rows) (hesp : s.reg .esp ∈ L.sandbox) (hebp : s.reg .ebp ∈ L.sandbox)
    (hrun : RunsTo At.addr loc (exec L alu fpu) (examined L rows) (StepOk L) s s') :
    ∀ v, Stands At.addr loc (examined L rows) s' v → StepOk L v s' →
      (∀ x, stackAccess v.item s' = some x → x ∈ L.sandbox ∨ x ∈ L.guardZone) ∧
        (IsTransfer v.item → s'.reg .ebp ∈ (Slack.pastEnd L).set) := by
  obtain ⟨e, hp, he⟩ := examined_pass hcont h
  have hinv : ∀ v, Stands At.addr loc (examined L rows) s' v →
      Known L v.before.state.weak s' := by
    refine hp.run_invariant (addr_pos L) (fun st m => Known L st.state.weak m) (fun v _ => ?_) ?_ hrun
    · exact ⟨.of_mem ((Slack.around L).sandbox_subset hesp),
        fun _ => (Slack.pastEnd L).sandbox_subset hebp⟩
    intro v a b hv hok hm hs
    obtain ⟨f, hf, hafter⟩ := visitFlags hp hv.1
    by_cases ht : (opKind v.item.op).transfers = true
    · obtain ⟨h1, h2⟩ := known_transfer hm hf hok ht hs
      exact Or.inr fun w _ => ⟨.of_mem h1, fun _ => h2⟩
    · rw [Bool.not_eq_true] at ht
      refine Or.inl ⟨congrArg some (falls_to_next hp he hv ht hs), ?_⟩
      rw [hafter]
      exact known_next hm hf hok ht hs
  intro v hv hok
  obtain ⟨f, hf, -⟩ := visitFlags hp hv.1
  have hm := hinv v hv
  exact ⟨fun x hx => stackAccess_safe hm hf hok hx, fun ht => hm.ebp_mem (hf.ebp_known hok ht)⟩

/-- `push %eax` -/
def pushEax : Insn := ⟨"push", [.reg (.r32 .eax)], 1⟩

/-- The state behind the first row, without implicit writes. -/
def firstStep (rows : List Row) (s : Cpu) : Option Cpu :=
  (examined classic rows).head?.bind fun v => exec classic (Alu.idle _) (fun _ c => c.mem) v.item s

theorem runsTo_first {rows : List Row} {s s' : Cpu} (ok : Examined → Cpu → Prop)
    (hs : firstStep rows s = some s')
    (hok : ∀ v, (examined classic rows).head? = some v → loc s = some v.before.addr ∧ ok v s) :
    RunsTo At.addr loc (exec classic (Alu.idle _) (fun _ c => c.mem)) (examined classic rows) ok s s' := by
  obtain ⟨v, hv, hs⟩ := Option.bind_eq_some_iff.mp hs
  obtain ⟨hloc, hok⟩ := hok v hv
  exact Relation.ReflTransGen.single ⟨v, ⟨List.mem_of_mem_head? hv, hloc⟩, hok, hs⟩

/-- A sum that counts as a bump, and a push behind it. -/
def bigBump : List Row :=
  [.insn 0x10000000 ⟨"add", [.imm "0x10000000", .reg (.r32 .esp)], 6⟩, .insn 0x10000006 pushEax]

theorem big_bump_escapes : ¬ ∀ (L : Layout) (rows : List Row) (alu : Alu Insn)
    (fpu : Insn → Cpu → Word → BitVec 8) (s s' : Cpu), Contiguous L.code_start rows →
    ChecksFinished L rows → s.reg .esp ∈ L.sandbox → s.reg .ebp ∈ L.sandbox →
    RunsTo At.addr loc (exec L alu fpu) (examined L rows) (fun _ _ => True) s s' →
    ∀ v, Stands At.addr loc (examined L rows) s' v →
      (∀ x, stackAccess v.item s' = some x → x ∈ L.sandbox ∨ x ∈ L.guardZone) ∧
        (IsTransfer v.item → s'.reg .ebp ∈ (Slack.pastEnd L).set) := by
  intro h
  have hcont : Contiguous classic.code_start bigBump :=
    ⟨rfl, by decide, rfl, by decide, show 0x10000007 < 2 ^ 32 by decide⟩
  have hfirst : firstStep bigBump (entryState classic) =
    some ((firstStep bigBump (entryState classic)).get rfl) := (Option.some_get rfl).symm
  have hrun := runsTo_first (fun _ _ => True) hfirst fun v hv => by
    cases hv
    exact ⟨rfl, trivial⟩
  have hlast : Stands At.addr loc (examined classic bigBump)
      ((firstStep bigBump (entryState classic)).get rfl)
      ((examined classic bigBump).getLast (by decide)) := ⟨List.getLast_mem _, by decide⟩
  have hmem := (h classic bigBump _ _ _ _ hcont ⟨_, rfl⟩ (by decide) (by decide) hrun _ hlast).1
    0x30fffff8 (by decide)
  exact absurd hmem (by decide)

/-- Two pushes. -/
def twoPushes : List Row := [.insn 0x10000000 pushEax, .insn 0x10000001 pushEax]

theorem two_pushes_kept : ∃ s', firstStep twoPushes (entryState classic) = some s' ∧
    ∀ x, stackAccess pushEax s' = some x → x ∈ classic.sandbox ∨ x ∈ classic.guardZone := by
  have hcont : Contiguous classic.code_start twoPushes :=
    ⟨rfl, by decide, rfl, by decide, show 0x10000002 < 2 ^ 32 by decide⟩
  have hfirst : firstStep twoPushes (entryState classic) =
    some ((firstStep twoPushes (entryState classic)).get rfl) := (Option.some_get rfl).symm
  have hok : ∀ v m, v.item = pushEax → StepOk classic v m := by
    intro v m he
    constructor <;> rw [he]
    · exact fun hop => absurd hop (by decide)
    · exact fun src hargs => by cases hargs
    · exact fun hk => absurd hk (by decide)
    · exact fun hk => absurd hk (by decide)
    · exact fun hk => absurd hk (by decide)
    · rintro t ⟨value, dest, hargs, -⟩
      cases hargs
    · rintro r dest ⟨hop, -⟩
      exact absurd hop (by decide)
    · exact fun hop => absurd hop (by decide)
    · exact fun hop => absurd hop (by decide)
  have hrun := runsTo_first (StepOk classic) hfirst fun v hv => by
    cases hv
    exact ⟨rfl, hok _ _ rfl⟩
  have hlast : Stands At.addr loc (examined classic twoPushes)
      ((firstStep twoPushes (entryState classic)).get rfl)
      ((examined classic twoPushes).getLast (by decide)) := ⟨List.getLast_mem _, by decide⟩
  exact ⟨_, hfirst, (pointers_kept hcont ⟨_, rfl⟩ (by decide) (by decide) hrun _ hlast
    (hok _ _ rfl)).1⟩

end Pittsfield.Offline
