import Pittsfield.Loader.Verify

/-!
# What the switch lets through

One inversion lemma for the whole switch: an instruction that gets flags has the
operand types of one arm and the flags of that arm. The later results take the
cases from here and never unfold `operandFlags` again.
-/

namespace Pittsfield.Loader

open Pittsfield.Region
open Pittsfield.Machine
open InsnType OpType EffAddrType

namespace X86Op

variable {o : X86Op}

theorem data_of_register (h : o.type = op_register) : ∃ r, o.data = .register r := by
  simp only [type] at h
  cases hd : o.data with
  | register r => exact ⟨r, rfl⟩
  | _ => simp [hd] at h

theorem data_of_immediate (h : o.type = op_immediate) : ∃ v, o.data = .immediate v := by
  simp only [type] at h
  cases hd : o.data with
  | immediate v => exact ⟨v, rfl⟩
  | _ => simp [hd] at h

theorem data_of_expression (h : o.type = op_expression) : ∃ ea, o.data = .expression ea := by
  simp only [type] at h
  cases hd : o.data with
  | expression ea => exact ⟨ea, rfl⟩
  | _ => simp [hd] at h

theorem expression_of_data {ea : X86Ea} (h : o.data = .expression ea) : o.expression = ea := by
  simp [expression, h]

theorem reg_of_data {r : Reg} (h : o.data = .register r) : o.reg = some r := by simp [reg, h]

theorem data_of_reg {r : Reg} (h : o.reg = some r) : o.data = .register r := by
  simp only [reg] at h
  cases hd : o.data with
  | register q => rw [hd] at h; cases h; rfl
  | _ => simp [hd] at h

theorem type_register {r : Reg} (h : o.reg = some r) : o.type = op_register := by
  simp only [reg] at h
  cases hd : o.data with
  | register q => simp [type, hd]
  | _ => simp [hd] at h

theorem type_expression {ea : X86Ea} (h : o.data = .expression ea) : o.type = op_expression := by
  simp [type, h]

end X86Op

/-- An instruction with flags `f`: its operands and the arm that gave the flags. -/
inductive Arm (L : Layout) (safety unsafety : Flags) (insn : X86Insn) (offset : Nat) (f : Flags) :
    Prop
  | nullary (hargs : insn.args = []) (h : nullaryFlags safety unsafety insn offset = .ok f)
  | relative (a : X86Op) (hargs : insn.args = [a])
      (ht : a.type = op_relative_near ∨ a.type = op_relative_far)
      (h : relativeFlags L insn offset a = .ok f)
  | register (a : X86Op) (r : Reg) (hargs : insn.args = [a]) (ha : a.data = .register r)
      (h : registerFlags safety insn offset a = .ok f)
  | immediate (a : X86Op) (v : Word) (hargs : insn.args = [a]) (ha : a.data = .immediate v)
      (h : immediateFlags insn offset = .ok f)
  | regImm (a b : X86Op) (r : Reg) (v : Word) (hargs : insn.args = [a, b])
      (ha : a.data = .register r) (hb : b.data = .immediate v)
      (h : regImmFlags L insn offset a b = .ok f)
  | regReg (a b : X86Op) (r q : Reg) (hargs : insn.args = [a, b])
      (ha : a.data = .register r) (hb : b.data = .register q)
      (h : regRegFlags unsafety insn offset a b = .ok f)
  | regExpr (a b : X86Op) (r : Reg) (hargs : insn.args = [a, b]) (ha : a.data = .register r)
      (hb : b.type = op_expression) (h : regExprFlags insn offset a = .ok f)
  | expr (a : X86Op) (ea : X86Ea) (hargs : insn.args = [a]) (ha : a.data = .expression ea)
      (h : exprFlags L safety unsafety insn offset ea = .ok f)
  | exprReg (a b : X86Op) (ea : X86Ea) (hargs : insn.args = [a, b]) (ha : a.data = .expression ea)
      (hb : b.type = op_register) (h : exprRegFlags L safety unsafety insn offset ea = .ok f)
  | exprImm (a b : X86Op) (ea : X86Ea) (hargs : insn.args = [a, b]) (ha : a.data = .expression ea)
      (hb : b.type = op_immediate) (h : exprImmFlags L safety unsafety insn offset ea b = .ok f)
  | offsetReg (a b : X86Op) (hargs : insn.args = [a, b]) (ha : a.type = op_offset)
      (hb : b.type = op_register) (h : offsetRegFlags L insn offset a.offset = .ok f)
  | regOffset (a b : X86Op) (r : Reg) (hargs : insn.args = [a, b]) (ha : a.data = .register r)
      (hb : b.type = op_offset) (h : regOffsetFlags insn offset = .ok f)
  | regRegReg (a b c : X86Op) (r : Reg) (hargs : insn.args = [a, b, c])
      (ha : a.data = .register r) (hb : b.type = op_register)
      (h : regRegRegFlags insn offset b c = .ok f)
  | regExprReg (a b c : X86Op) (r : Reg) (hargs : insn.args = [a, b, c])
      (ha : a.data = .register r) (hb : b.type = op_expression)
      (h : regExprRegFlags insn offset = .ok f)

section

variable {L : Layout} {safety unsafety : Flags} {insn : X86Insn} {offset : Nat} {f : Flags}

/-- The inversion lemma for the switch. -/
theorem operandFlags_ok (h : operandFlags L safety unsafety insn offset = .ok f) :
    Arm L safety unsafety insn offset f := by
  unfold operandFlags at h
  split at h
  · rename_i hargs
    exact .nullary hargs h
  · rename_i a hargs
    unfold unaryFlags at h
    split at h
    · exact .relative a hargs (Or.inl ‹_›) h
    · exact .relative a hargs (Or.inr ‹_›) h
    · obtain ⟨r, ha⟩ := X86Op.data_of_register ‹_›
      exact .register a r hargs ha h
    · obtain ⟨v, ha⟩ := X86Op.data_of_immediate ‹_›
      exact .immediate a v hargs ha h
    · obtain ⟨ea, ha⟩ := X86Op.data_of_expression ‹_›
      rw [X86Op.expression_of_data ha] at h
      exact .expr a ea hargs ha h
    · cases h
  · rename_i a b hargs
    unfold binaryFlags at h
    split at h
    · rename_i ha hb
      obtain ⟨r, ha⟩ := X86Op.data_of_register ha
      obtain ⟨v, hb⟩ := X86Op.data_of_immediate hb
      exact .regImm a b r v hargs ha hb h
    · rename_i ha hb
      obtain ⟨r, ha⟩ := X86Op.data_of_register ha
      obtain ⟨q, hb⟩ := X86Op.data_of_register hb
      exact .regReg a b r q hargs ha hb h
    · rename_i ha hb
      obtain ⟨r, ha⟩ := X86Op.data_of_register ha
      exact .regExpr a b r hargs ha hb h
    · rename_i ha hb
      obtain ⟨ea, ha⟩ := X86Op.data_of_expression ha
      rw [X86Op.expression_of_data ha] at h
      exact .exprReg a b ea hargs ha hb h
    · rename_i ha hb
      obtain ⟨ea, ha⟩ := X86Op.data_of_expression ha
      rw [X86Op.expression_of_data ha] at h
      exact .exprImm a b ea hargs ha hb h
    · rename_i ha hb
      exact .offsetReg a b hargs ha hb h
    · rename_i ha hb
      obtain ⟨r, ha⟩ := X86Op.data_of_register ha
      exact .regOffset a b r hargs ha hb h
    · cases h
  · rename_i a b c hargs
    unfold ternaryFlags TERNARY at h
    split at h
    · rename_i ht
      obtain ⟨ha, hb, -⟩ := ArgTypes.ternary.inj ht
      obtain ⟨r, ha⟩ := X86Op.data_of_register ha
      exact .regRegReg a b c r hargs ha hb h
    · rename_i ht
      obtain ⟨ha, hb, -⟩ := ArgTypes.ternary.inj ht
      obtain ⟨r, ha⟩ := X86Op.data_of_register ha
      exact .regExprReg a b c r hargs ha hb h
    · cases h
    · cases h
  · cases h

/-- The types of the instructions that move neither control nor the stack pointer
by themselves. -/
def isData : InsnType → Bool
  | insn_jmp | insn_jcc | insn_call | insn_return => false
  | insn_push | insn_pop | insn_pushflags | insn_popflags | insn_leave => false
  | _ => true

theorem nullaryFlags_ok (h : nullaryFlags safety unsafety insn offset = .ok f) :
    isData insn.type = true ∧ f = NONE ∨
      insn.type = insn_return ∧
        f = { jump := true, ijump := !safety.stack_top_safe, use_esp := true, change_esp := true } ∨
      insn.type = insn_leave ∧ f = USE_ESP ||| CHANGE_EBP ∨
      (insn.type = insn_pushflags ∨ insn.type = insn_popflags) ∧ f = USE_ESP ||| CHANGE_ESP := by
  unfold nullaryFlags at h
  split at h
  case h_2 ht =>
    refine Or.inr (Or.inl ?_)
    split at h
    · rename_i hs
      cases h
      exact ⟨ht, by rw [hs]; rfl⟩
    · rename_i hs
      cases h
      rw [Bool.not_eq_true] at hs
      exact ⟨ht, by rw [hs]; rfl⟩
  case h_3 ht => split at h <;> cases h <;> exact Or.inr (Or.inr (Or.inl ⟨ht, rfl⟩))
  case h_4 ht => cases h; exact Or.inr (Or.inr (Or.inr ⟨Or.inl ht, rfl⟩))
  case h_5 ht => cases h; exact Or.inr (Or.inr (Or.inr ⟨Or.inr ht, rfl⟩))
  case h_10 => cases h
  all_goals
    rename_i ht
    cases h
    exact Or.inl ⟨by rw [ht]; rfl, rfl⟩

theorem relativeFlags_ok {a : X86Op} (h : relativeFlags L insn offset a = .ok f) :
    (L.chunk_size ∣ (relativeTarget L insn offset a.data).toNat ∧
      L.code_start ≤ (relativeTarget L insn offset a.data).toNat ∧
      (relativeTarget L insn offset a.data).toNat < L.code_end) ∧
    ((insn.type = insn_jcc ∨ insn.type = insn_jmp) ∧ f = JUMP ∨
      insn.type = insn_call ∧ f = JUMP ||| USE_ESP) := by
  have hbits := L.chunk_bits (relativeTarget L insn offset a.data)
  unfold relativeFlags at h
  simp only at h
  split at h
  case h_4 => cases h
  all_goals
    rename_i ht
    split at h
    · cases h
    rename_i hz
    split at h
    · cases h
    rename_i hr
    refine ⟨⟨hbits.mp (by simpa using hz), by omega, by omega⟩, ?_⟩
    simp only [ht, reduceCtorEq, if_false, Except.ok.injEq] at h
    subst h
    simp [ht]

theorem registerFlags_ok {a : X86Op} (h : registerFlags safety insn offset a = .ok f) :
    insn.type = insn_push ∧ f = USE_ESP ||| CHANGE_ESP ∨
      insn.type = insn_pop ∧ f = changeEbp a ||| changeEsp a ||| (USE_ESP ||| CHANGE_ESP) ∨
      (insn.type = insn_call ∨ insn.type = insn_jmp) ∧
        f = changeEbp a ||| changeEsp a |||
          { jump := true, ijump := !(regId a.reg == REGISTER_EBX && safety.ebx_code_safe),
            use_esp := decide (insn.type = insn_call) } ∨
      isData insn.type = true ∧ f = changeEbp a ||| changeEsp a := by
  unfold registerFlags at h
  simp only at h
  split at h
  case h_1 ht => cases h; exact Or.inl ⟨ht, rfl⟩
  case h_2 ht => cases h; exact Or.inr (Or.inl ⟨ht, rfl⟩)
  case h_11 ht =>
    cases h
    refine Or.inr (Or.inr (Or.inl ⟨Or.inl ht, ?_⟩))
    ext <;> simp [ht, changeEbp, changeEsp, USE_ESP, JUMP]
  case h_12 ht =>
    cases h
    refine Or.inr (Or.inr (Or.inl ⟨Or.inr ht, ?_⟩))
    ext <;> simp [ht, changeEbp, changeEsp, JUMP]
  case h_13 => cases h
  all_goals
    rename_i ht
    cases h
    exact Or.inr (Or.inr (Or.inr ⟨by rw [ht]; rfl, rfl⟩))

theorem immediateFlags_ok (h : immediateFlags insn offset = .ok f) :
    (insn.type = insn_push ∨ insn.type = insn_return) ∧ f = USE_ESP ||| CHANGE_ESP := by
  unfold immediateFlags at h
  split at h
  case h_1 ht => cases h; exact ⟨Or.inl ht, rfl⟩
  case h_2 ht => cases h; exact ⟨Or.inr ht, rfl⟩
  case h_3 => cases h

/-- `and $mask,%reg` with a mask of four bytes. -/
def andMask (insn : X86Insn) (a b : X86Op) (id : Nat) (mask : Word) : Prop :=
  insn.type = insn_and ∧ regId a.reg = id ∧ b.datatype = .op_dword ∧ b.dword = mask

theorem regImmFlags_ok {a b : X86Op} (h : regImmFlags L insn offset a b = .ok f) :
    isData insn.type = true ∧
      (andMask insn a b REGISTER_EBX L.data_mask ∧ f = EBX_DATA_SAFE ∨
        andMask insn a b REGISTER_EBX L.jump_mask ∧ f = EBX_CODE_SAFE ∨
        andMask insn a b REGISTER_EBP L.data_mask ∧ f = EBP_DATA_SAFE ∨
        andMask insn a b REGISTER_ESP L.data_mask ∧ f = ESP_SAFETY ∨
        f = regImmChange insn a b) := by
  unfold regImmFlags at h
  simp only at h
  split at h
  case h_1 ht =>
    refine ⟨by rw [ht]; rfl, ?_⟩
    split at h
    · rename_i hc
      cases h
      exact Or.inl ⟨⟨ht, hc⟩, rfl⟩
    split at h
    · rename_i hc
      cases h
      exact Or.inr (Or.inl ⟨⟨ht, hc⟩, rfl⟩)
    split at h
    · rename_i hc
      cases h
      exact Or.inr (Or.inr (Or.inl ⟨⟨ht, hc⟩, rfl⟩))
    split at h
    · rename_i hc
      cases h
      exact Or.inr (Or.inr (Or.inr (Or.inl ⟨⟨ht, hc⟩, rfl⟩)))
    · cases h
      exact Or.inr (Or.inr (Or.inr (Or.inr rfl)))
  case h_13 => cases h
  all_goals
    rename_i ht
    cases h
    exact ⟨by rw [ht]; rfl, Or.inr (Or.inr (Or.inr (Or.inr rfl)))⟩

theorem regRegFlags_ok {a b : X86Op} (h : regRegFlags unsafety insn offset a b = .ok f) :
    isData insn.type = true ∧
      (insn.type = insn_mov ∧ regId a.reg = REGISTER_ESP ∧ regId b.reg = REGISTER_EBP ∧
          unsafety.change_esp = false ∧ unsafety.bump_esp = false ∧ f = EBP_SAFETY ∨
        insn.type = insn_mov ∧ regId a.reg = REGISTER_EBP ∧ regId b.reg = REGISTER_ESP ∧
          unsafety.change_ebp = false ∧ f = USE_ESP ∨
        f = changeEbp b ||| changeEsp b) := by
  unfold regRegFlags at h
  simp only at h
  split at h
  case h_1 ht =>
    refine ⟨by rw [ht]; rfl, ?_⟩
    split at h
    · rename_i hc
      cases h
      simp only [Bool.not_or, Bool.and_eq_true, Bool.not_eq_true'] at hc
      exact Or.inl ⟨ht, hc.1, hc.2.1, hc.2.2.1, hc.2.2.2, rfl⟩
    split at h
    · rename_i hc
      cases h
      simp only [Bool.not_eq_true'] at hc
      exact Or.inr (Or.inl ⟨ht, hc.1, hc.2.1, hc.2.2, rfl⟩)
    · cases h
      exact Or.inr (Or.inr rfl)
  case h_17 => cases h
  all_goals
    rename_i ht
    cases h
    exact ⟨by rw [ht]; rfl, Or.inr (Or.inr rfl)⟩

theorem regExprFlags_ok {a : X86Op} (h : regExprFlags insn offset a = .ok f) :
    isData insn.type = true ∧ f = changeEbp a ||| changeEsp a := by
  unfold regExprFlags at h
  simp only at h
  split at h
  case h_12 => cases h
  all_goals
    rename_i ht
    cases h
    exact ⟨by rw [ht]; rfl, rfl⟩

theorem offsetRegFlags_ok {d : Word} (h : offsetRegFlags L insn offset d = .ok f) :
    insn.type = insn_mov ∧ inData L d = true ∧ f = NONE := by
  unfold offsetRegFlags at h
  split at h
  · rename_i ht
    split at h
    · rename_i hd
      cases h
      exact ⟨ht, hd, rfl⟩
    · cases h
  · cases h

theorem regOffsetFlags_ok (h : regOffsetFlags insn offset = .ok f) :
    insn.type = insn_mov ∧ f = NONE := by
  unfold regOffsetFlags at h
  split at h
  · rename_i ht
    cases h
    exact ⟨ht, rfl⟩
  · cases h

theorem regRegRegFlags_ok {b c : X86Op} (h : regRegRegFlags insn offset b c = .ok f) :
    isData insn.type = true ∧ f = changeEbp b ||| changeEsp b ||| changeEbp c ||| changeEsp c := by
  unfold regRegRegFlags at h
  simp only at h
  split at h
  case h_10 => cases h
  all_goals
    rename_i ht
    cases h
    exact ⟨by rw [ht]; rfl, rfl⟩

theorem regExprRegFlags_ok (h : regExprRegFlags insn offset = .ok f) :
    isData insn.type = true ∧ f = NONE := by
  unfold regExprRegFlags at h
  split at h
  case h_3 => cases h
  all_goals
    rename_i ht
    cases h
    exact ⟨by rw [ht]; rfl, rfl⟩

/-- Flags `f` for an instruction that reads and writes its memory operand `ea`, or
only reads it. -/
inductive MemArm (L : Layout) (safety unsafety : Flags) (insn : X86Insn) (ea : X86Ea) (f : Flags) :
    Prop
  | ebx (hea : classify_ea ea = EA_EBX_EXACT) (hs : safety.ebx_data_safe = true) (hf : f = NONE)
  | ebp (hea : classify_ea ea = EA_EBP_OFFSET) (hu : unsafety.change_ebp = false)
      (hf : f = NONE ∨ f = USE_EBP)
  | esp (hea : classify_ea ea = EA_ESP_OFFSET ∨ classify_ea ea = EA_ESP_EXACT)
      (hu : unsafety.change_esp = false) (hf : f = USE_ESP)
  | direct (hea : classify_ea ea = EA_DIRECT) (hd : inData L ea.disp.disp = true) (hf : f = NONE)
  | read (ht : insn.type = insn_cmp ∨ insn.type = insn_test) (hf : f = IREAD)
  | write (hf : f = IWRITE)

theorem exprRegTypes_ok {simple : Option Flags} (h : exprRegTypes insn offset simple = .ok f) :
    (insn.type = insn_cmp ∨ insn.type = insn_test) ∧ f = simple.getD IREAD ∨
      ¬(insn.type = insn_cmp ∨ insn.type = insn_test) ∧ f = simple.getD IWRITE := by
  unfold exprRegTypes at h
  split at h
  all_goals cases h
  all_goals simp_all

theorem exprImmTypes_ok {simple : Option Flags} (h : exprImmTypes insn offset simple = .ok f) :
    (insn.type = insn_cmp ∨ insn.type = insn_test) ∧ f = simple.getD IREAD ∨
      ¬(insn.type = insn_cmp ∨ insn.type = insn_test) ∧ f = simple.getD IWRITE := by
  unfold exprImmTypes at h
  split at h
  all_goals cases h
  all_goals simp_all

theorem exprFlags_ok {ea : X86Ea} (h : exprFlags L safety unsafety insn offset ea = .ok f) :
    insn.type = insn_push ∧ f = USE_ESP ||| CHANGE_ESP ∨
      (insn.type = fpu ∨ insn.type = insn_mul ∨ insn.type = insn_div) ∧ f = NONE ∨
      insn.type ∈ [insn_inc, insn_dec, insn_not, insn_neg, insn_movcc] ∧
        MemArm L safety unsafety insn ea f := by
  unfold exprFlags at h
  split at h
  case h_1 ht => cases h; exact Or.inl ⟨ht, rfl⟩
  case h_2 ht => cases h; exact Or.inr (Or.inl ⟨Or.inl ht, rfl⟩)
  case h_3 ht => cases h; exact Or.inr (Or.inl ⟨Or.inr (Or.inl ht), rfl⟩)
  case h_4 ht => cases h; exact Or.inr (Or.inl ⟨Or.inr (Or.inr ht), rfl⟩)
  case h_10 => cases h
  all_goals
    rename_i ht
    refine Or.inr (Or.inr ⟨by simp [ht], ?_⟩)
    simp only at h
    split at h
    · rename_i hc
      cases h
      exact .ebx hc.1 hc.2 rfl
    split at h
    · rename_i hc
      cases h
      exact .ebp hc.1 (by simpa using hc.2) (Or.inl rfl)
    split at h
    · rename_i hc
      cases h
      exact .esp hc.1 (by simpa using hc.2) rfl
    split at h
    · rename_i hc
      cases h
      exact .direct hc.1 hc.2 rfl
    · cases h
      exact .write rfl

theorem exprRegFlags_ok {ea : X86Ea} (h : exprRegFlags L safety unsafety insn offset ea = .ok f) :
    MemArm L safety unsafety insn ea f := by
  unfold exprRegFlags at h
  simp only at h
  split at h
  · rename_i hc
    cases h
    exact .ebx hc.1 hc.2 rfl
  split at h
  · rename_i hc
    rcases exprRegTypes_ok h with ⟨-, hf⟩ | ⟨-, hf⟩ <;>
      exact .ebp hc.1 (by simpa using hc.2) (Or.inr hf)
  split at h
  · rename_i hc
    rcases exprRegTypes_ok h with ⟨-, hf⟩ | ⟨-, hf⟩ <;> exact .esp hc.1 (by simpa using hc.2) hf
  split at h
  · rename_i hc
    cases h
    exact .direct hc.1 hc.2 rfl
  · rcases exprRegTypes_ok h with ⟨ht, hf⟩ | ⟨-, hf⟩
    · exact .read ht hf
    · exact .write hf

theorem exprImmFlags_ok {ea : X86Ea} {b : X86Op}
    (h : exprImmFlags L safety unsafety insn offset ea b = .ok f) :
    masksStackTop L insn ea b = true ∧ f = USE_ESP ||| STACK_TOP_SAFE ∨
      MemArm L safety unsafety insn ea f := by
  unfold exprImmFlags at h
  simp only at h
  split at h
  · rename_i hc
    cases h
    exact Or.inr (.ebx hc.1 hc.2 rfl)
  split at h
  · rename_i hc
    rcases exprImmTypes_ok h with ⟨-, hf⟩ | ⟨-, hf⟩ <;>
      exact Or.inr (.ebp hc.1 (by simpa using hc.2) (Or.inr hf))
  split at h
  · rename_i hc
    cases h
    exact Or.inl ⟨hc, rfl⟩
  split at h
  · rename_i hc
    rcases exprImmTypes_ok h with ⟨-, hf⟩ | ⟨-, hf⟩ <;>
      exact Or.inr (.esp hc.1 (by simpa using hc.2) hf)
  split at h
  · rename_i hc
    cases h
    exact Or.inr (.direct hc.1 hc.2 rfl)
  · rcases exprImmTypes_ok h with ⟨ht, hf⟩ | ⟨-, hf⟩
    · exact Or.inr (.read ht hf)
    · exact Or.inr (.write hf)

/-- Without explicit operands the first arm decides. -/
theorem Arm.nullary_of_args (h : Arm L safety unsafety insn offset f) (hargs : insn.args = []) :
    nullaryFlags safety unsafety insn offset = .ok f := by
  cases h with
  | nullary _ h => exact h
  | relative _ ha | register _ _ ha | immediate _ _ ha | expr _ _ ha | regImm _ _ _ _ ha
  | regReg _ _ _ _ ha | regExpr _ _ _ ha | exprReg _ _ _ ha | exprImm _ _ _ ha | offsetReg _ _ ha
  | regOffset _ _ _ ha | regRegReg _ _ _ _ ha | regExprReg _ _ _ _ ha =>
    rw [hargs] at ha
    cases ha

/-- With one explicit operand one of four arms decides. -/
theorem Arm.unary_of_args {a : X86Op} (h : Arm L safety unsafety insn offset f)
    (hargs : insn.args = [a]) :
    relativeFlags L insn offset a = .ok f ∨ registerFlags safety insn offset a = .ok f ∨
      immediateFlags insn offset = .ok f ∨
      exprFlags L safety unsafety insn offset a.expression = .ok f := by
  cases h with
  | nullary ha => rw [hargs] at ha; cases ha
  | relative _ ha _ h => rw [hargs] at ha; cases ha; exact Or.inl h
  | register _ _ ha _ h => rw [hargs] at ha; cases ha; exact Or.inr (Or.inl h)
  | immediate _ _ ha _ h => exact Or.inr (Or.inr (Or.inl h))
  | expr _ _ ha hd h =>
    rw [hargs] at ha
    cases ha
    rw [X86Op.expression_of_data hd]
    exact Or.inr (Or.inr (Or.inr h))
  | regImm _ _ _ _ ha | regReg _ _ _ _ ha | regExpr _ _ _ ha | exprReg _ _ _ ha
  | exprImm _ _ _ ha | offsetReg _ _ ha | regOffset _ _ _ ha | regRegReg _ _ _ _ ha
  | regExprReg _ _ _ _ ha =>
    rw [hargs] at ha
    cases ha

end

end Pittsfield.Loader
