import Pittsfield.Loader.Execute
import Pittsfield.Loader.Chunks

/-!
# The stack and the frame pointer under `verify()`

`verify()` tracks W1, W2 and W3 in `unsafety`. The arms differ in which operand
they look at, so some instructions change a pointer unnoticed, and some stack
accesses are not checked against W2. `FrameOk` and `StackOk` describe the steps at
which the tracking is right. Over runs made of such steps the state of the verifier
describes the two registers, whatever the rest of the program computes.
-/

namespace Pittsfield.Loader

open Pittsfield.Foundation
open Pittsfield.Region
open Pittsfield.Machine
open InsnType EffAddrType

/-- `mov %src,%dest`, both of 32 bits. -/
def moves (i : X86Insn) (dest src : Reg32) : Prop :=
  i.type = insn_mov ∧ ∃ a b, i.args = [a, b] ∧ a.reg = some (.r32 dest) ∧ b.reg = some (.r32 src)

/-- The arm for the operands of `i` looks at the operand that is written, or an
operand that it looks at names the register anyhow. -/
def noticed (i : X86Insn) (q : Reg32) : Prop :=
  match i.args with
  | [a, b] =>
    match b.type with
    | .op_register => b.names (reg32Id q) = true
    | .op_immediate => q = .esp → a.reg = some (.r32 .esp)
    | _ => True
  | [_, b, c] => b.type = .op_register ∧
      (b.names (reg32Id q) = true ∨ c.names (reg32Id q) = true)
  | _ => True

/-- `and $JUMP_MASK,(%esp)`, or an instruction that pushes or pops. -/
def usesStack (L : Layout) (i : X86Insn) : Prop :=
  i.type ∈ [insn_push, insn_pop, insn_pushflags, insn_popflags] ∨
    ∃ a b ea, i.args = [a, b] ∧ a.data = .expression ea ∧ masksStackTop L i ea b = true

/-- The step from `st` over `i` keeps track of `%ebp`. -/
structure FrameOk (st : VState) (i : X86Insn) : Prop where
  ebp_written : writes i .ebp → st.unsafety.change_ebp = true ∨ noticed i .ebp ∨
    moves i .ebp .esp ∧ st.unsafety.change_esp = false ∧ st.unsafety.bump_esp = false
  ebp_cleared : moves i .esp .ebp → st.unsafety.change_esp = false →
    st.unsafety.bump_esp = false → st.unsafety.change_ebp = false
  ret_immediate : i.type = insn_return → i.args ≠ [] → st.unsafety.change_ebp = false

/-- The step from `st` over `i` keeps track of `%ebp` and `%esp`, and uses the stack
only through an `%esp` that is known. -/
structure StackOk (L : Layout) (st : VState) (i : X86Insn) : Prop extends FrameOk st i where
  esp_written : writes i .esp → st.unsafety.change_esp = true ∨ noticed i .esp ∨
    moves i .esp .ebp ∧ st.unsafety.change_ebp = false
  esp_popped : i.type = insn_pop → ¬ writes i .esp
  esp_known : usesStack L i → st.unsafety.change_esp = false
  ebp_known : i.type = insn_leave → st.unsafety.change_ebp = false
  ret_known : i.type = insn_return → i.args ≠ [] → st.unsafety.change_esp = false ∧
    st.unsafety.bump_esp = false ∧ (returnBytes i).toNat ≤ 128

section Addresses

theorem reg_of_id {o : Option Reg} (h : regId o = 0) : o = none := by
  cases o with
  | none => rfl
  | some r =>
    cases r with
    | r32 q => have hq := reg32Id_bounds q; simp only [regId] at h; omega
    | r16 q => have hq := reg32Id_bounds q; simp only [regId] at h; omega
    | r8 q => cases q <;> simp only [regId, reg8Id] at h <;> omega
    | other n => simp only [regId] at h; omega

/-- A base register without an index gives a displaced register value. -/
theorem effectiveAddress_base {ea : X86Ea} {r : Reg32} (hb : regId ea.base = reg32Id r)
    (hi : regId ea.index = 0) (s : Cpu) :
    effectiveAddress s ea = s.reg r + BitVec.ofInt 32 ea.disp.disp.toInt := by
  rw [effectiveAddress, regId_eq hb, reg_of_id hi, BitVec.ofInt_toInt]
  simp [Cpu.readReg]

theorem X86Disp.small {d : X86Disp} (h : d.disp_size ≤ 1) : d.disp.toInt.natAbs ≤ 128 := by
  cases d with
  | none => decide
  | disp8 d =>
    have h1 := BitVec.le_toInt d
    have h2 : d.toInt < 2 ^ 7 := BitVec.toInt_lt
    have he : (d.signExtend 32).toInt = d.toInt := BitVec.toInt_signExtend_of_le (by decide)
    simp only [disp, he]
    omega
  | disp16 d => simp [disp_size] at h
  | disp32 d => simp [disp_size] at h

theorem X86Disp.medium {d : X86Disp} (h : d.disp_size ≤ 2) : d.disp.toInt.natAbs ≤ 32768 := by
  cases d with
  | disp16 d =>
    have h1 := BitVec.le_toInt d
    have h2 : d.toInt < 2 ^ 15 := BitVec.toInt_lt
    have he : (d.signExtend 32).toInt = d.toInt := BitVec.toInt_signExtend_of_le (by decide)
    simp only [disp, he]
    omega
  | none => decide
  | disp8 d =>
    have hs := X86Disp.small (d := .disp8 d) (Nat.le_refl 1)
    omega
  | disp32 d => simp [disp_size] at h

/-- `off(%esp)` as classified stays within 128 bytes of `%esp`. -/
theorem classify_esp {ea : X86Ea}
    (h : classify_ea ea = EA_ESP_OFFSET ∨ classify_ea ea = EA_ESP_EXACT) :
    ∃ k : Int, k.natAbs ≤ 128 ∧ ∀ s, effectiveAddress s ea = s.reg .esp + BitVec.ofInt 32 k := by
  have hea : regId ea.base = reg32Id .esp ∧ regId ea.index = 0 ∧ ea.disp.disp_size ≤ 1 := by
    unfold classify_ea at h
    repeat' split at h
    all_goals simp_all [reg32Id]
  exact ⟨_, X86Disp.small hea.2.2, effectiveAddress_base hea.1 hea.2.1⟩

/-- `off(%ebp)` as classified stays within 32 KB of `%ebp`. -/
theorem classify_ebp {ea : X86Ea} (h : classify_ea ea = EA_EBP_OFFSET) :
    ∃ k : Int, k.natAbs ≤ 32768 ∧ ∀ s, effectiveAddress s ea = s.reg .ebp + BitVec.ofInt 32 k := by
  have hea : regId ea.base = reg32Id .ebp ∧ regId ea.index = 0 ∧
      (ea.disp.disp_size ≤ 2 ∨ (ea.disp.disp_sign = true ∧ -32768 < ea.disp.disp.toInt) ∨
        ea.disp.disp.toNat < 32768) := by
    unfold classify_ea at h
    repeat' split at h
    all_goals simp_all [reg32Id]
  refine ⟨_, ?_, effectiveAddress_base hea.1 hea.2.1⟩
  rcases hea.2.2 with hsize | ⟨hsign, hlo⟩ | hlt
  · exact X86Disp.medium hsize
  · have hneg : ea.disp.disp.toInt < 0 := BitVec.toInt_neg_of_msb_true hsign
    omega
  · rw [BitVec.toInt_eq_toNat_of_lt (by omega)]
    omega

end Addresses

section Steps

variable {L : Layout} {alu : Alu X86Insn} {st : VState} {i : X86Insn} {offset : Nat} {f : Flags}
variable {s s' : Cpu} {A : Set Word}

theorem changeEbp_of_writes {a : X86Op} {r : Reg} (hr : a.reg = some r)
    (hw : r.whole = some .ebp) : (changeEbp a).change_ebp = true :=
  (names_iff a .ebp).mpr ⟨r, hr, hw⟩

theorem changeEsp_of_writes {a : X86Op} {r : Reg} (hr : a.reg = some r)
    (hw : r.whole = some .esp) : (changeEsp a).change_esp = true :=
  (names_iff a .esp).mpr ⟨r, hr, hw⟩

/-- The first operand of an instruction that writes a register. -/
theorem writes_head {a : X86Op} {q : Reg32} (h : writes i q) (ha : i.args.head? = some a) :
    a.write = true ∧ ∃ r, a.reg = some r ∧ r.whole = some q := by
  obtain ⟨b, r, hb, hw, hr, hq⟩ := h
  rw [ha] at hb
  cases hb
  exact ⟨hw, r, hr, hq⟩

/-- The masked pointer lies in the sandbox. -/
theorem masked_result {a b : X86Op} {q : Reg32} (hargs : i.args = [a, b])
    (hm : andMask i a b (reg32Id q) L.data_mask) (hb : b.type = .op_immediate) :
    dataResult alu i s ∈ L.sandbox := by
  obtain ⟨ht, ha, hd, hv⟩ := hm
  have hval : immediateValue b = L.data_mask := by simp [immediateValue, hd, hv]
  have hres : dataResult alu i s = currentValue alu i s a &&& L.data_mask := by
    simp [dataResult, ht, hargs, hb, hval]
  rw [hres]
  exact L.mask_mem_sandbox _

theorem moves_result {dest src : Reg32} (h : moves i dest src) :
    dataResult alu i s = s.reg src := by
  obtain ⟨ht, a, b, hargs, -, hb⟩ := h
  simp [dataResult, ht, hargs, sourceValue, X86Op.data_of_reg hb]

/-- A move between the two pointers writes its first operand. -/
theorem moves_write {dest src : Reg32} (h : moves i dest src) (hdec : WellDecoded i)
    (hs : dataOp L alu i s = some s') : s'.reg dest = s.reg src := by
  obtain ⟨ht, a, b, hargs, ha, hb⟩ := h
  have hhead : i.args.head? = some a := by rw [hargs]; rfl
  rw [dataOp_write hs hhead ha (hdec.moves (Or.inl ht) a hhead)]
  exact moves_result ⟨ht, a, b, hargs, ha, hb⟩

theorem writes_of_moves {dest src : Reg32} (h : moves i dest src) (hdec : WellDecoded i) :
    writes i dest := by
  obtain ⟨ht, a, b, hargs, ha, hb⟩ := h
  have hhead : i.args.head? = some a := by rw [hargs]; rfl
  exact ⟨a, _, hhead, hdec.moves (Or.inl ht) a hhead, ha, rfl⟩

/-- A move between the pointers is not noticed: the arm looks at the source. -/
theorem not_noticed_of_moves {dest src : Reg32} (h : moves i dest src) (hne : src ≠ dest) :
    ¬ noticed i dest := by
  obtain ⟨ht, a, b, hargs, ha, hb⟩ := h
  intro hn
  simp only [noticed, hargs, X86Op.type_register hb] at hn
  obtain ⟨r, hr, hw⟩ := (names_iff b dest).mp hn
  rw [hb] at hr
  cases hr
  exact hne (Option.some.inj hw)

theorem noticed_regReg {a b : X86Op} {q : Reg32} (hargs : i.args = [a, b])
    (hb : b.type = .op_register) (h : noticed i q) : b.names (reg32Id q) = true := by
  simpa only [noticed, hargs, hb] using h

/-- Where `mov %esp,%ebp` is taken to be harmless, `%esp` is known. -/
theorem FrameOk.esp_clear (hok : FrameOk st i) (hdec : WellDecoded i) (hm : moves i .ebp .esp)
    (hc : st.unsafety.change_ebp = false) :
    st.unsafety.change_esp = false ∧ st.unsafety.bump_esp = false := by
  rcases hok.ebp_written (writes_of_moves hm hdec) with h | h | h
  · rw [hc] at h; cases h
  · exact absurd h (not_noticed_of_moves hm (by decide))
  · exact h.2

/-- Where `mov %ebp,%esp` is taken to be harmless, `%ebp` is known. -/
theorem StackOk.ebp_clear (hok : StackOk L st i) (hdec : WellDecoded i) (hm : moves i .esp .ebp)
    (hc : st.unsafety.change_esp = false) : st.unsafety.change_ebp = false := by
  rcases hok.esp_written (writes_of_moves hm hdec) with h | h | h
  · rw [hc] at h; cases h
  · exact absurd h (not_noticed_of_moves hm (by decide))
  · exact h.2

/-- The arms for a data instruction whose first operand `a` is a register, with the
flags that they give. -/
inductive RegArm (L : Layout) (unsafety : Flags) (i : X86Insn) (a : X86Op) (f : Flags) : Prop
  | one (hargs : i.args = [a]) (hf : f = changeEbp a ||| changeEsp a)
  | imm (b : X86Op) (hargs : i.args = [a, b]) (hb : b.type = .op_immediate)
      (hf : andMask i a b REGISTER_EBX L.data_mask ∧ f = EBX_DATA_SAFE ∨
        andMask i a b REGISTER_EBX L.jump_mask ∧ f = EBX_CODE_SAFE ∨
        andMask i a b REGISTER_EBP L.data_mask ∧ f = EBP_DATA_SAFE ∨
        andMask i a b REGISTER_ESP L.data_mask ∧ f = ESP_SAFETY ∨ f = regImmChange i a b)
  | reg (b : X86Op) (hargs : i.args = [a, b]) (hb : b.type = .op_register)
      (hf : moves i .esp .ebp ∧ unsafety.change_esp = false ∧ unsafety.bump_esp = false ∧
          f = EBP_SAFETY ∨
        moves i .ebp .esp ∧ unsafety.change_ebp = false ∧ f = USE_ESP ∨
        f = changeEbp b ||| changeEsp b)
  | mem (b : X86Op) (hargs : i.args = [a, b]) (hf : f = changeEbp a ||| changeEsp a)
  | load (b : X86Op) (hargs : i.args = [a, b]) (hb : b.type = .op_offset)
  | regs (b c : X86Op) (hargs : i.args = [a, b, c]) (hb : b.type = .op_register)
      (hf : f = changeEbp b ||| changeEsp b ||| changeEbp c ||| changeEsp c)
  | memReg (b c : X86Op) (hargs : i.args = [a, b, c]) (hb : b.type = .op_expression) (hf : f = NONE)

/-- A data instruction that writes a pointer went through one of these arms. -/
theorem regArm_of_writes {q : Reg32} (h : Arm L st.safety st.unsafety i offset f)
    (hd : isData i.type = true) (hw : writes i q) :
    ∃ a r, i.args.head? = some a ∧ a.write = true ∧ a.reg = some r ∧ r.whole = some q ∧
      RegArm L st.unsafety i a f := by
  obtain ⟨a, r, hh, hwr, hr, hq⟩ := hw
  refine ⟨a, r, hh, hwr, hr, hq, ?_⟩
  have hreg := X86Op.type_register hr
  cases h with
  | nullary hargs => rw [hargs] at hh; cases hh
  | relative a' hargs ht =>
    rw [hargs] at hh
    cases hh
    rw [hreg] at ht
    rcases ht with ht | ht <;> cases ht
  | register a' r' hargs _ h =>
    rw [hargs] at hh
    cases hh
    rcases registerFlags_ok h with ⟨ht, -⟩ | ⟨ht, -⟩ | ⟨ht, -⟩ | ⟨-, hf⟩
    · rw [ht] at hd; cases hd
    · rw [ht] at hd; cases hd
    · rcases ht with ht | ht <;> rw [ht] at hd <;> cases hd
    · exact .one hargs hf
  | immediate a' v hargs ha =>
    rw [hargs] at hh
    cases hh
    simp [X86Op.reg, ha] at hr
  | regImm a' b r' v hargs _ hb h =>
    rw [hargs] at hh
    cases hh
    exact .imm b hargs (by simp [X86Op.type, hb]) (regImmFlags_ok h).2
  | regReg a' b r' q' hargs _ hb h =>
    rw [hargs] at hh
    cases hh
    refine .reg b hargs (by simp [X86Op.type, hb]) ?_
    rcases (regRegFlags_ok h).2 with ⟨ht, ha', hb', hc, hbump, hf⟩ | ⟨ht, ha', hb', hc, hf⟩ | hf
    · exact Or.inl ⟨⟨ht, a, b, hargs, regId_eq (r := .esp) ha', regId_eq (r := .ebp) hb'⟩, hc, hbump,
        hf⟩
    · exact Or.inr (Or.inl ⟨⟨ht, a, b, hargs, regId_eq (r := .ebp) ha', regId_eq (r := .esp) hb'⟩, hc,
        hf⟩)
    · exact Or.inr (Or.inr hf)
  | regExpr a' b r' hargs _ _ h =>
    rw [hargs] at hh
    cases hh
    exact .mem b hargs (regExprFlags_ok h).2
  | regOffset a' b r' hargs _ hb h =>
    rw [hargs] at hh
    cases hh
    exact .load b hargs hb
  | regRegReg a' b c r' hargs _ hb h =>
    rw [hargs] at hh
    cases hh
    exact .regs b c hargs hb (regRegRegFlags_ok h).2
  | regExprReg a' b c r' hargs _ hb h =>
    rw [hargs] at hh
    cases hh
    exact .memReg b c hargs hb (regExprRegFlags_ok h).2
  | expr a' ea hargs ha | exprReg a' b ea hargs ha | exprImm a' b ea hargs ha =>
    rw [hargs] at hh
    cases hh
    simp [X86Op.reg, ha] at hr
  | offsetReg a' b hargs ha =>
    rw [hargs] at hh
    cases hh
    rw [hreg] at ha
    cases ha

theorem regImmChange_post (a b : X86Op) :
    (regImmChange i a b).use_esp = false ∧ (regImmChange i a b).ebp_data_safe = false ∧
      (regImmChange i a b).change_ebp = (changeEbp a).change_ebp := by
  unfold regImmChange
  repeat' split
  all_goals simp [changeEbp, BUMP_ESP, CHANGE_ESP, NONE]

/-- A register operand that is one pointer is no part of another register. -/
theorem whole_of_id {a : X86Op} {r : Reg} {p q : Reg32} (hr : a.reg = some r)
    (hq : r.whole = some q) (hp : regId a.reg = reg32Id p) : p = q := by
  have he := regId_eq hp
  rw [hr] at he
  cases he
  exact Option.some.inj hq

/-- A data instruction that writes `%ebp` justifies its flags. -/
theorem ebp_step_written (ha : Arm L st.safety st.unsafety i offset f) (hd : isData i.type = true)
    (hdec : WellDecoded i) (hok : FrameOk st i) (hA : L.sandbox ⊆ A)
    (hesp : st.unsafety.change_esp = false → st.unsafety.bump_esp = false → s.reg .esp ∈ A)
    (hs : dataOp L alu i s = some s') (hw : writes i .ebp) : EbpStep A st.weak f.post s s' := by
  obtain ⟨a, r, hh, hwr, hr, hq, harm⟩ := regArm_of_writes ha hd hw
  have hnames := changeEbp_of_writes hr hq
  have hset : ∀ g : Flags, g.ebp_data_safe = false → g.change_ebp = true →
      EbpStep A st.weak g.post s s' := fun g hs hc => Or.inr ⟨hs, Or.inr (Or.inl hc)⟩
  cases harm with
  | one hargs hf =>
    subst hf
    exact hset _ rfl (by simp [hnames])
  | imm b hargs hb hf =>
    rcases hf with ⟨hm, -⟩ | ⟨hm, -⟩ | ⟨hm, -⟩ | ⟨hm, -⟩ | rfl
    · cases whole_of_id (p := .ebx) hr hq hm.2.1
    · cases whole_of_id (p := .ebx) hr hq hm.2.1
    · left
      rw [dataOp_write hs hh (regId_eq (r := .ebp) hm.2.1) hwr]
      exact hA (masked_result (q := .ebp) hargs hm hb)
    · cases whole_of_id (p := .esp) hr hq hm.2.1
    · obtain ⟨-, hsafe, hc⟩ := regImmChange_post (i := i) a b
      exact hset _ hsafe (by rw [hc, hnames])
  | reg b hargs hb hf =>
    rcases hf with ⟨hm, -⟩ | ⟨hm, hc, -⟩ | rfl
    · obtain ⟨-, a', b', hargs', ha', -⟩ := hm
      rw [hargs'] at hh
      cases hh
      rw [hr] at ha'
      cases ha'
      cases hq
    · obtain ⟨he, hb'⟩ := hok.esp_clear hdec hm hc
      left
      rw [moves_write hm hdec hs]
      exact hesp he hb'
    · rcases hok.ebp_written hw with hc | hn | ⟨hm, he, hb'⟩
      · exact Or.inr ⟨rfl, Or.inl hc⟩
      · refine hset _ rfl ?_
        have hb'' : (changeEbp b).change_ebp = true := noticed_regReg hargs hb hn
        simp [hb'']
      · left
        rw [moves_write hm hdec hs]
        exact hesp he hb'
  | mem b hargs hf =>
    subst hf
    exact hset _ rfl (by simp [hnames])
  | load b hargs hb =>
    obtain ⟨r', hr', hw'⟩ := hdec.loads a b hargs hb
    rw [hr] at hr'
    cases hr'
    rw [hq] at hw'
    cases hw'
  | regs b c hargs hb hf =>
    subst hf
    rcases hok.ebp_written hw with hc | hn | ⟨⟨-, a', b', hargs', -⟩, -⟩
    · exact Or.inr ⟨rfl, Or.inl hc⟩
    · refine hset _ rfl ?_
      have hbc : (changeEbp b).change_ebp = true ∨ (changeEbp c).change_ebp = true := by
        simp only [noticed, hargs] at hn
        exact hn.2
      rcases hbc with h | h <;> simp [h]
    · rw [hargs] at hargs'
      cases hargs'
  | memReg b c hargs hb hf =>
    subst hf
    rcases hok.ebp_written hw with hc | hn | ⟨⟨-, a', b', hargs', -⟩, -⟩
    · exact Or.inr ⟨rfl, Or.inl hc⟩
    · simp only [noticed, hargs] at hn
      rw [hb] at hn
      cases hn.1
    · rw [hargs] at hargs'
      cases hargs'

theorem MemArm.post {ea : X86Ea} (h : MemArm L st.safety st.unsafety i ea f) :
    f.ebp_data_safe = false ∧ f.change_ebp = false ∧ f.change_esp = false ∧ f.bump_esp = false := by
  cases h with
  | ebx _ _ hf | esp _ _ hf | direct _ _ hf | read _ hf | write hf => subst hf; decide
  | ebp _ _ hf => rcases hf with rfl | rfl <;> decide

/-- W1 is cleared by the mask of `%ebp` and by `mov %ebp,%esp` only. -/
theorem ebp_safe_of_arm (h : Arm L st.safety st.unsafety i offset f) (hdec : WellDecoded i)
    (hf : f.ebp_data_safe = true) :
    writes i .ebp ∨ moves i .esp .ebp ∧ st.unsafety.change_esp = false ∧
      st.unsafety.bump_esp = false := by
  cases h with
  | nullary hargs h =>
    rcases nullaryFlags_ok h with ⟨-, rfl⟩ | ⟨-, rfl⟩ | ⟨-, rfl⟩ | ⟨-, rfl⟩ <;> cases hf
  | relative a hargs ht h =>
    rcases (relativeFlags_ok h).2 with ⟨-, rfl⟩ | ⟨-, rfl⟩ <;> cases hf
  | register a r hargs ha h =>
    rcases registerFlags_ok h with ⟨-, rfl⟩ | ⟨-, rfl⟩ | ⟨-, rfl⟩ | ⟨-, rfl⟩ <;> cases hf
  | immediate a v hargs ha h =>
    obtain ⟨-, rfl⟩ := immediateFlags_ok h
    cases hf
  | regImm a b r v hargs ha hb h =>
    rcases (regImmFlags_ok h).2 with ⟨-, rfl⟩ | ⟨-, rfl⟩ | ⟨hm, -⟩ | ⟨-, rfl⟩ | rfl
    · cases hf
    · cases hf
    · have hhead : i.args.head? = some a := by rw [hargs]; rfl
      exact Or.inl ⟨a, _, hhead, hdec.moves (Or.inr hm.1) a hhead,
        regId_eq (r := .ebp) hm.2.1, rfl⟩
    · cases hf
    · rw [(regImmChange_post a b).2.1] at hf
      cases hf
  | regReg a b r q hargs ha hb h =>
    rcases (regRegFlags_ok h).2 with ⟨ht, ha', hb', hc, hbump, -⟩ | ⟨-, -, -, -, rfl⟩ | rfl
    · exact Or.inr ⟨⟨ht, a, b, hargs, regId_eq (r := .esp) ha', regId_eq (r := .ebp) hb'⟩, hc, hbump⟩
    · cases hf
    · cases hf
  | regExpr a b r hargs ha hb h =>
    obtain ⟨-, rfl⟩ := regExprFlags_ok h
    cases hf
  | expr a ea hargs ha h =>
    rcases exprFlags_ok h with ⟨-, rfl⟩ | ⟨-, rfl⟩ | ⟨-, hm⟩
    · cases hf
    · cases hf
    · rw [hm.post.1] at hf
      cases hf
  | exprReg a b ea hargs ha hb h =>
    rw [(exprRegFlags_ok h).post.1] at hf
    cases hf
  | exprImm a b ea hargs ha hb h =>
    rcases exprImmFlags_ok h with ⟨-, rfl⟩ | hm
    · cases hf
    · rw [hm.post.1] at hf
      cases hf
  | offsetReg a b hargs ha hb h =>
    obtain ⟨-, -, rfl⟩ := offsetRegFlags_ok h
    cases hf
  | regOffset a b r hargs ha hb h =>
    obtain ⟨-, rfl⟩ := regOffsetFlags_ok h
    cases hf
  | regRegReg a b c r hargs ha hb h =>
    obtain ⟨-, rfl⟩ := regRegRegFlags_ok h
    cases hf
  | regExprReg a b c r hargs ha hb h =>
    obtain ⟨-, rfl⟩ := regExprRegFlags_ok h
    cases hf

/-- A data instruction justifies its flags for `%ebp`. -/
theorem ebp_step_data (ha : Arm L st.safety st.unsafety i offset f) (hd : isData i.type = true)
    (hdec : WellDecoded i) (hok : FrameOk st i) (hA : L.sandbox ⊆ A)
    (hesp : st.unsafety.change_esp = false → st.unsafety.bump_esp = false → s.reg .esp ∈ A)
    (hinv : EbpInv A st.weak s) (hs : dataOp L alu i s = some s') :
    EbpStep A st.weak f.post s s' := by
  by_cases hw : writes i .ebp
  · exact ebp_step_written ha hd hdec hok hA hesp hs hw
  · have hsame := dataOp_reg hs (Or.inr rfl) hw
    by_cases hf : f.ebp_data_safe = true
    · rcases ebp_safe_of_arm ha hdec hf with hw' | ⟨hm, hc, hb⟩
      · exact absurd hw' hw
      · left
        rw [hsame]
        exact hinv (hok.ebp_cleared hm hc hb)
    · exact .of_eq (by simpa [Flags.post] using hf) hsame

/-- The flags of the instructions that only push or pop. -/
theorem push_flags (h : Arm L st.safety st.unsafety i offset f) (hdec : WellDecoded i)
    (ht : i.type = insn_push ∨ i.type = insn_pushflags ∨ i.type = insn_popflags) :
    f = USE_ESP ||| CHANGE_ESP := by
  by_cases hp : i.type = insn_push
  · obtain ⟨a, hargs⟩ := hdec.stack_operand (Or.inl hp)
    rcases h.unary_of_args hargs with h | h | h | h
    · rcases (relativeFlags_ok h).2 with ⟨he | he, -⟩ | ⟨he, -⟩ <;> rw [hp] at he <;> cases he
    · rcases registerFlags_ok h with ⟨-, hf⟩ | ⟨he, -⟩ | ⟨he, -⟩ | ⟨he, -⟩
      · exact hf
      · rw [hp] at he; cases he
      · rcases he with he | he <;> rw [hp] at he <;> cases he
      · rw [hp] at he; cases he
    · exact (immediateFlags_ok h).2
    · rcases exprFlags_ok h with ⟨-, hf⟩ | ⟨he, -⟩ | ⟨he, -⟩
      · exact hf
      · rcases he with he | he | he <;> rw [hp] at he <;> cases he
      · simp [hp] at he
  · have ht' := ht.resolve_left hp
    have hargs : i.args = [] := by
      rcases ht' with he | he
      · exact hdec.no_operand (Or.inl he)
      · exact hdec.no_operand (Or.inr (Or.inl he))
    rcases nullaryFlags_ok (h.nullary_of_args hargs) with ⟨hd, -⟩ | ⟨he, -⟩ | ⟨he, -⟩ | ⟨-, hf⟩
    · rcases ht' with he | he <;> rw [he] at hd <;> cases hd
    · rcases ht' with he' | he' <;> rw [he'] at he <;> cases he
    · rcases ht' with he' | he' <;> rw [he'] at he <;> cases he
    · exact hf

theorem pop_flags (h : Arm L st.safety st.unsafety i offset f) (hdec : WellDecoded i)
    (ht : i.type = insn_pop) :
    ∃ a, i.args = [a] ∧ f = changeEbp a ||| changeEsp a ||| (USE_ESP ||| CHANGE_ESP) := by
  obtain ⟨a, hargs⟩ := hdec.stack_operand (Or.inr ht)
  refine ⟨a, hargs, ?_⟩
  rcases h.unary_of_args hargs with h | h | h | h
  · rcases (relativeFlags_ok h).2 with ⟨he | he, -⟩ | ⟨he, -⟩ <;> rw [ht] at he <;> cases he
  · rcases registerFlags_ok h with ⟨he, -⟩ | ⟨-, hf⟩ | ⟨he, -⟩ | ⟨he, -⟩
    · rw [ht] at he; cases he
    · exact hf
    · rcases he with he | he <;> rw [ht] at he <;> cases he
    · rw [ht] at he; cases he
  · rcases (immediateFlags_ok h).1 with he | he <;> rw [ht] at he <;> cases he
  · rcases exprFlags_ok h with ⟨he, -⟩ | ⟨he, -⟩ | ⟨he, -⟩
    · rw [ht] at he; cases he
    · rcases he with he | he | he <;> rw [ht] at he <;> cases he
    · simp [ht] at he

theorem leave_flags (h : Arm L st.safety st.unsafety i offset f) (hdec : WellDecoded i)
    (ht : i.type = insn_leave) : f = USE_ESP ||| CHANGE_EBP := by
  have hargs := hdec.no_operand (Or.inr (Or.inr ht))
  rcases nullaryFlags_ok (h.nullary_of_args hargs) with ⟨hd, -⟩ | ⟨he, -⟩ | ⟨-, hf⟩ | ⟨he, -⟩
  · rw [ht] at hd; cases hd
  · rw [ht] at he; cases he
  · exact hf
  · rcases he with he | he <;> rw [ht] at he <;> cases he

/-- Every transfer but `ret $imm` is refused while a weakening is set. -/
theorem transfer_weak (hc : checkInsn L st i = .ok f) (hdec : WellDecoded i)
    (ht : transfers i.type = true) (hret : i.type = insn_return → i.args = []) :
    st.unsafety.change_esp = false ∧ st.unsafety.bump_esp = false ∧
      st.unsafety.change_ebp = false := by
  obtain ⟨-, ho, hflags⟩ := checkInsn_ok hc
  have harm := operandFlags_ok ho
  have hjump : f.jump = true := by
    by_cases hr : i.type = insn_return
    · rcases nullaryFlags_ok (harm.nullary_of_args (hret hr)) with
        ⟨hd, -⟩ | ⟨-, rfl⟩ | ⟨he, -⟩ | ⟨he, -⟩
      · rw [hr] at hd; cases hd
      · rfl
      · rw [hr] at he; cases he
      · rcases he with he | he <;> rw [hr] at he <;> cases he
    · have ht' : i.type = insn_jmp ∨ i.type = insn_call ∨ i.type = insn_jcc := by
        revert ht
        unfold transfers
        split <;> simp_all
      have hd : isData i.type = false := by rcases ht' with he | he | he <;> rw [he] <;> rfl
      obtain ⟨a, hargs⟩ := hdec.transfer_operand ht'
      rcases harm.unary_of_args hargs with h | h | h | h
      · rcases (relativeFlags_ok h).2 with ⟨-, rfl⟩ | ⟨-, rfl⟩ <;> rfl
      · rcases registerFlags_ok h with ⟨he, -⟩ | ⟨he, -⟩ | ⟨-, rfl⟩ | ⟨he, -⟩
        · rw [he] at ht; cases ht
        · rw [he] at ht; cases ht
        · simp [changeEbp, changeEsp]
        · rw [hd] at he; cases he
      · rcases (immediateFlags_ok h).1 with he | he
        · rw [he] at ht; cases ht
        · exact absurd he hr
      · rcases exprFlags_ok h with ⟨he, -⟩ | ⟨he, -⟩ | ⟨he, -⟩
        · rw [he] at ht; cases ht
        · rcases he with he | he | he <;> rw [he] at ht <;> cases ht
        · simp only [List.mem_cons, List.not_mem_nil, or_false] at he
          rcases he with he | he | he | he | he <;> rw [he] at ht <;> cases ht
  have hweak := (checkFlags_none hflags).2.2 hjump
  simp only [Flags.weak, Bool.or_eq_false_iff] at hweak
  exact ⟨hweak.1.1, hweak.1.2, hweak.2⟩

/-- An instruction that falls through justifies its flags for `%ebp`. -/
theorem ebp_step (hc : checkInsn L st i = .ok f) (hdec : WellDecoded i) (hok : FrameOk st i)
    (hA : L.sandbox ⊆ A)
    (hesp : st.unsafety.change_esp = false → st.unsafety.bump_esp = false → s.reg .esp ∈ A)
    (hinv : EbpInv A st.weak s) (ht : transfers i.type = false) (hs : exec L alu i s = some s') :
    EbpStep A st.weak f.post s s' := by
  have harm := operandFlags_ok (checkInsn_ok hc).2.1
  by_cases hd : isData i.type = true
  · rw [exec_data hd] at hs
    obtain ⟨t, hop, rfl⟩ := Option.map_eq_some_iff.mp hs
    have hstep : EbpStep A st.weak f.post s t := ebp_step_data harm hd hdec hok hA hesp hinv hop
    exact hstep
  · rw [Bool.not_eq_true] at hd
    cases exec_stack hd hs with
    | push hp _ _ hebp =>
      rcases hp with hp | hp | hp
      · rw [push_flags harm hdec (Or.inl hp)]
        exact .of_eq rfl hebp
      · rw [push_flags harm hdec (Or.inr (Or.inl hp))]
        exact .of_eq rfl hebp
      · rw [hp] at ht; cases ht
    | pop hp _ _ hebp =>
      rcases hebp with ⟨hpop, hw⟩ | hebp
      · obtain ⟨a, hargs, rfl⟩ := pop_flags harm hdec hpop
        obtain ⟨-, r, hr, hq⟩ := writes_head hw (a := a) (by rw [hargs]; rfl)
        exact Or.inr ⟨rfl, Or.inr (Or.inl (by simp [Flags.post, changeEbp_of_writes hr hq]))⟩
      · rcases hp with hp | hp
        · obtain ⟨a, hargs, rfl⟩ := pop_flags harm hdec hp
          exact .of_eq rfl hebp
        · rw [push_flags harm hdec (Or.inr (Or.inr hp))]
          exact .of_eq rfl hebp
    | leave hl _ _ =>
      rw [leave_flags harm hdec hl]
      exact Or.inr ⟨rfl, Or.inr (Or.inl rfl)⟩
    | ret hr => rw [hr] at ht; cases ht
    | jump hj => rcases hj with hj | hj <;> rw [hj] at ht <;> cases ht

/-- A transfer keeps `%ebp`, and is made only where it is known. -/
theorem ebp_transfer (hc : checkInsn L st i = .ok f) (hdec : WellDecoded i) (hok : FrameOk st i)
    (hinv : EbpInv A st.weak s) (ht : transfers i.type = true) (hs : exec L alu i s = some s') :
    s'.reg .ebp ∈ A := by
  have hclear : st.unsafety.change_ebp = false := by
    by_cases hret : i.type = insn_return → i.args = []
    · exact (transfer_weak hc hdec ht hret).2.2
    · rw [Classical.not_imp] at hret
      exact hok.ret_immediate hret.1 hret.2
  have hd : isData i.type = false := by
    revert ht
    unfold transfers
    split <;> simp_all [isData]
  have hsame : s'.reg .ebp = s.reg .ebp := by
    cases exec_stack hd hs with
    | push _ _ _ hebp => exact hebp
    | pop hp => rcases hp with hp | hp <;> rw [hp] at ht <;> cases ht
    | leave hl => rw [hl] at ht; cases ht
    | ret _ _ _ hebp => exact hebp
    | jump _ hreg => rw [hreg]
  rw [hsame]
  exact hinv hclear

end Steps

section FrameRuns

variable {L : Layout} {x86_disasm : Disasm} {image : Image} {es : List Examined}
variable {alu : Alu X86Insn} {s s' : Cpu}

/-- While neither W2 nor W3 is set, `%esp` lies in the data or the zero-tag region. -/
def EspKnown (L : Layout) (st : VState) (s : Cpu) : Prop :=
  st.unsafety.change_esp = false → st.unsafety.bump_esp = false → s.reg .esp ∈ L.sandbox

/-- Where an examined instruction that is no transfer leads. -/
theorem falls_to_next {t : VState} (hp : Pass (Examines L x86_disasm image) {} es t)
    (hlen : image.length ≤ L.code_size) (hkeep : KeepsInside x86_disasm) {v : Examined}
    (hv : Stands VState.offset (loc L) es s v) (ht : transfers v.item.type = false)
    (hs : exec L alu v.item s = some s') : loc L s' = some v.after.offset := by
  have hstep := hp.step_of_mem hv.1
  obtain ⟨_, _, -, hd, -, -, -⟩ := loopBody_ok hstep.2
  have hin := hkeep image _ _ hd
  obtain ⟨c, rfl⟩ := exec_eip ht hs
  rw [loc_next hv.2 (by omega), offset_after hstep]

theorem weak_after {t : VState} (hp : Pass (Examines L x86_disasm image) {} es t) {v : Examined}
    (hv : v ∈ es) :
    ∃ f, checkInsn L v.before v.item = .ok f ∧ v.after.weak = v.before.weak.after f.post := by
  obtain ⟨n, f, -, -, -, hc, hst⟩ := loopBody_ok (hp.step_of_mem hv).2
  exact ⟨f, hc, by rw [hst, weak_updateState]⟩

/-- In every run whose steps keep track of `%ebp`, and in which `%esp` is known where
W2 and W3 are clear, a clear W1 means that `%ebp` lies in the data or the zero-tag
region; an access that `verify()` classifies as `off(%ebp)` stays within 32 KB of them. -/
theorem frame_pointer_tracked (h : verify L x86_disasm image = .ok es)
    (hlen : image.length ≤ L.code_size) (hkeep : KeepsInside x86_disasm)
    (hdec : ∀ v ∈ es, WellDecoded v.item) (hebp : s.reg .ebp ∈ L.sandbox)
    (hrun : RunsTo VState.offset (loc L) (exec L alu) es
      (fun v m => FrameOk v.before v.item ∧ EspKnown L v.before m) s s') :
    ∀ v, Stands VState.offset (loc L) es s' v → v.before.unsafety.change_ebp = false →
      s'.reg .ebp ∈ L.sandbox ∧
        ∀ a ea, v.item.args.head? = some a → a.data = .expression ea →
          classify_ea ea = EA_EBP_OFFSET → effectiveAddress s' ea ∈ near L.sandbox 32768 := by
  obtain ⟨t, hp, -⟩ := verify_pass h
  have hinv : ∀ v, Stands VState.offset (loc L) es s' v →
      EbpInv L.sandbox v.before.weak s' := by
    refine hp.run_invariant (offset_pos L x86_disasm image)
      (fun st m => EbpInv L.sandbox st.weak m) (fun v _ _ => hebp) ?_ hrun
    intro v a b hv hok hI hs
    obtain ⟨f, hc, hafter⟩ := weak_after hp hv.1
    by_cases ht : transfers v.item.type = true
    · have hb := ebp_transfer hc (hdec v hv.1) hok.1 hI ht hs
      exact Or.inr fun w _ _ => hb
    · rw [Bool.not_eq_true] at ht
      refine Or.inl ⟨falls_to_next hp hlen hkeep hv ht hs, ?_⟩
      rw [hafter]
      exact hI.after (ebp_step hc (hdec v hv.1) hok.1 subset_rfl hok.2 hI ht hs)
  intro v hv hclear
  have hmem := hinv v hv hclear
  refine ⟨hmem, ?_⟩
  intro a ea _ _ hea
  obtain ⟨k, hk, haddr⟩ := classify_ebp hea
  exact ⟨_, hmem, k, hk, haddr s'⟩

end FrameRuns

/-- The state after the first instruction of an image of the default layout. -/
def firstStep (image : Image) (s : Cpu) : Option Cpu :=
  (examined image).head?.bind fun v => exec classic (Alu.idle _) v.item s

theorem runsTo_first {image : Image} {s s' : Cpu} (ok : Examined → Cpu → Prop)
    (hs : firstStep image s = some s')
    (hok : ∀ v, (examined image).head? = some v → loc classic s = some v.before.offset ∧ ok v s) :
    RunsTo VState.offset (loc classic) (exec classic (Alu.idle _)) (examined image) ok s s' := by
  obtain ⟨v, hv, hs⟩ := Option.bind_eq_some_iff.mp hs
  obtain ⟨hloc, hok⟩ := hok v hv
  exact Relation.ReflTransGen.single ⟨v, ⟨List.mem_of_mem_head? hv, hloc⟩, hok, hs⟩

/-- `mov %eax,%ebp`, and a `nop` behind it. -/
def frameFromEax : Image := [0x89, 0xc5, 0x90]

/-- The entry state with an address outside the sandbox in `%eax`. -/
def wildEax : Cpu := (entryState classic).setReg .eax 0x30000000

def wildEbp : Cpu := (firstStep frameFromEax wildEax).get rfl

theorem frame_pointer_lost :
    ¬ ∀ (L : Layout) (x86_disasm : Disasm) (image : Image) (es : List Examined) (s s' : Cpu),
      verify L x86_disasm image = .ok es → image.length ≤ L.code_size → KeepsInside x86_disasm →
      (∀ v ∈ es, WellDecoded v.item) → s.reg .ebp ∈ L.sandbox →
      RunsTo VState.offset (loc L) (exec L (Alu.idle _)) es (fun v m => EspKnown L v.before m) s s' →
      ∀ v, Stands VState.offset (loc L) es s' v → v.before.unsafety.change_ebp = false →
        s'.reg .ebp ∈ (Slack.pastEnd L).set := by
  intro h
  have hv : verify classic disassemble frameFromEax = .ok (examined frameFromEax) := rfl
  have hfirst : firstStep frameFromEax wildEax = some wildEbp := (Option.some_get rfl).symm
  have hrun := runsTo_first (fun v m => EspKnown classic v.before m) hfirst (by
    rintro v ⟨⟩
    exact ⟨by decide, fun _ _ => by decide⟩)
  have hlast : Stands VState.offset (loc classic) (examined frameFromEax) wildEbp
      ((examined frameFromEax).getLast (by decide)) := ⟨List.getLast_mem _, by decide⟩
  have hmem := h classic disassemble frameFromEax _ wildEax wildEbp hv (by decide)
    disassemble_keepsInside (fun v hm => examined_wellDecoded hv hm) (by decide) hrun _ hlast rfl
  rcases (Slack.pastEnd classic).mem_or_guard hmem with hin | hin <;> revert hin <;> decide

/-- `mov %esp,%ebp`, and a `nop` behind it. -/
def frameFromEsp : Image := [0x89, 0xe5, 0x90]

theorem frameFromEsp_tracked : ∃ s', firstStep frameFromEsp (entryState classic) = some s' ∧
    s'.reg .ebp ∈ classic.sandbox := by
  have hv : verify classic disassemble frameFromEsp = .ok (examined frameFromEsp) := rfl
  have hfirst : firstStep frameFromEsp (entryState classic) =
    some ((firstStep frameFromEsp (entryState classic)).get rfl) := (Option.some_get rfl).symm
  have hrun := runsTo_first (fun v m => FrameOk v.before v.item ∧ EspKnown classic v.before m)
    hfirst (by
      rintro v ⟨⟩
      refine ⟨by decide, ⟨fun _ => Or.inr (Or.inr ⟨⟨rfl, _, _, rfl, rfl, rfl⟩, rfl, rfl⟩),
        fun _ _ _ => rfl, fun ht => by cases ht⟩, fun _ _ => by decide⟩)
  have hlast : Stands VState.offset (loc classic) (examined frameFromEsp)
      ((firstStep frameFromEsp (entryState classic)).get rfl)
      ((examined frameFromEsp).getLast (by decide)) := ⟨List.getLast_mem _, by decide⟩
  exact ⟨_, hfirst, (frame_pointer_tracked hv (by decide) disassemble_keepsInside
    (fun v hm => examined_wellDecoded hv hm) (by decide) hrun _ hlast rfl).1⟩

end Pittsfield.Loader
