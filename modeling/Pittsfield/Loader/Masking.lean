import Pittsfield.Loader.Switch
import Pittsfield.Loader.Chunks

/-!
# Masks and the instructions they protect

The bits `EBX_DATA_SAFE`, `EBX_CODE_SAFE` and `STACK_TOP_SAFE` are set by an `and`
and let the next instruction through. The first part says which instructions set
them and which ones need them. The second part is about runs: `verify()` does not
drop the bits at a chunk start, where control can come from elsewhere, so the mask
is known to have been executed exactly if it lies in the chunk of its use. The
last part is about the arms that let an indirect transfer through.
-/

namespace Pittsfield.Loader

open Pittsfield.Foundation
open Pittsfield.Region
open Pittsfield.Machine
open InsnType OpType EffAddrType

inductive Strength
  | ebx_data
  | ebx_code
  | stack_top
  deriving DecidableEq

def Flags.bit (f : Flags) : Strength → Bool
  | .ebx_data => f.ebx_data_safe
  | .ebx_code => f.ebx_code_safe
  | .stack_top => f.stack_top_safe

def Flags.drop (f : Flags) : Strength → Flags
  | .ebx_data => { f with ebx_data_safe := false }
  | .ebx_code => { f with ebx_code_safe := false }
  | .stack_top => { f with stack_top_safe := false }

theorem Flags.drop_eq_self {f : Flags} {k : Strength} (h : f.bit k = false) : f.drop k = f := by
  cases k <;> simp only [Flags.bit] at h <;> simp only [Flags.drop, ← h]

/-- The bit outlives a `popf`. -/
def Strength.outlivesPopf : Strength → Bool
  | .stack_top => false
  | _ => true

/-- `and $mask,%ebx`. -/
def masksEbx (mask : Word) (insn : X86Insn) : Prop :=
  insn.type = insn_and ∧ ∃ a b, insn.args = [a, b] ∧ a.reg = some (.r32 .ebx) ∧
    b.type = op_immediate ∧ b.datatype = .op_dword ∧ b.dword = mask

/-- The `and` that sets the bit. -/
def IsMask (L : Layout) (insn : X86Insn) : Strength → Prop
  | .ebx_data => masksEbx L.data_mask insn
  | .ebx_code => masksEbx L.jump_mask insn
  | .stack_top => ∃ a b ea, insn.args = [a, b] ∧ a.data = .expression ea ∧
      b.type = op_immediate ∧ masksStackTop L insn ea b = true

/-- The instruction needs the bit: a write to `(%ebx)`, a jump or call through
`%ebx`, a return. -/
def Needs (insn : X86Insn) : Strength → Prop
  | .ebx_data => ∃ a ea, insn.args.head? = some a ∧ a.data = .expression ea ∧
      classify_ea ea = EA_EBX_EXACT ∧
      if insn.args.length = 1 then
        insn.type ∈ [insn_inc, insn_dec, insn_not, insn_neg, insn_movcc]
      else insn.type ∉ [insn_cmp, insn_test]
  | .ebx_code => insn.type ∈ [insn_jmp, insn_call] ∧
      ∃ a, insn.args = [a] ∧ a.reg = some (.r32 .ebx)
  | .stack_top => insn.type = insn_return ∧ insn.args = []

section

variable {L : Layout} {safety unsafety : Flags} {insn : X86Insn} {offset : Nat} {f : Flags}

@[simp] theorem Flags.or_bit (f g : Flags) (k : Strength) :
    (f ||| g).bit k = (f.bit k || g.bit k) := by cases k <;> rfl

@[simp] theorem changeEbp_bit (o : X86Op) (k : Strength) : (changeEbp o).bit k = false := by
  cases k <;> rfl

@[simp] theorem changeEsp_bit (o : X86Op) (k : Strength) : (changeEsp o).bit k = false := by
  cases k <;> rfl

private theorem MemArm.bit {ea : X86Ea} (h : MemArm L safety unsafety insn ea f) (k : Strength) :
    f.bit k = false := by
  cases h with
  | ebx _ _ hf | esp _ _ hf | direct _ _ hf | read _ hf | write hf => subst hf; cases k <;> rfl
  | ebp _ _ hf => rcases hf with rfl | rfl <;> cases k <;> rfl

private theorem regImmChange_bit (a b : X86Op) (k : Strength) :
    (regImmChange insn a b).bit k = false := by
  unfold regImmChange
  rw [Flags.or_bit, changeEbp_bit, Bool.false_or]
  repeat' split
  all_goals cases k <;> rfl

private theorem masksEbx_of_andMask {a b : X86Op} {mask v : Word} (hargs : insn.args = [a, b])
    (hb : b.data = .immediate v) (h : andMask insn a b REGISTER_EBX mask) : masksEbx mask insn := by
  obtain ⟨ht, ha, hd, hm⟩ := h
  exact ⟨ht, a, b, hargs, regId_eq (r := .ebx) ha, by simp [X86Op.type, hb], hd, hm⟩

/-- Only the masks set the bits. -/
theorem isMask_of_bit (h : Arm L safety unsafety insn offset f) {k : Strength}
    (hk : f.bit k = true) : IsMask L insn k := by
  rw [← Bool.not_eq_false] at hk
  cases h with
  | nullary hargs h =>
    rcases nullaryFlags_ok h with ⟨-, rfl⟩ | ⟨-, rfl⟩ | ⟨-, rfl⟩ | ⟨-, rfl⟩ <;>
      exact absurd (by cases k <;> rfl) hk
  | relative a hargs ht h =>
    rcases (relativeFlags_ok h).2 with ⟨-, rfl⟩ | ⟨-, rfl⟩ <;> exact absurd (by cases k <;> rfl) hk
  | register a r hargs ha h =>
    rcases registerFlags_ok h with ⟨-, rfl⟩ | ⟨-, rfl⟩ | ⟨-, rfl⟩ | ⟨-, rfl⟩ <;>
      exact absurd (by cases k <;> rfl) hk
  | immediate a v hargs ha h =>
    obtain ⟨-, rfl⟩ := immediateFlags_ok h
    exact absurd (by cases k <;> rfl) hk
  | regImm a b r v hargs ha hb h =>
    rcases (regImmFlags_ok h).2 with ⟨hm, rfl⟩ | ⟨hm, rfl⟩ | ⟨-, rfl⟩ | ⟨-, rfl⟩ | rfl
    · cases k with
      | ebx_data => exact masksEbx_of_andMask hargs hb hm
      | _ => exact absurd rfl hk
    · cases k with
      | ebx_code => exact masksEbx_of_andMask hargs hb hm
      | _ => exact absurd rfl hk
    · exact absurd (by cases k <;> rfl) hk
    · exact absurd (by cases k <;> rfl) hk
    · exact absurd (regImmChange_bit a b k) hk
  | regReg a b r q hargs ha hb h =>
    rcases (regRegFlags_ok h).2 with ⟨-, -, -, -, -, rfl⟩ | ⟨-, -, -, -, rfl⟩ | rfl <;>
      exact absurd (by cases k <;> rfl) hk
  | regExpr a b r hargs ha hb h =>
    obtain ⟨-, rfl⟩ := regExprFlags_ok h
    exact absurd (by cases k <;> rfl) hk
  | expr a ea hargs ha h =>
    rcases exprFlags_ok h with ⟨-, rfl⟩ | ⟨-, rfl⟩ | ⟨-, hm⟩
    · exact absurd (by cases k <;> rfl) hk
    · exact absurd (by cases k <;> rfl) hk
    · exact absurd (hm.bit k) hk
  | exprReg a b ea hargs ha hb h => exact absurd ((exprRegFlags_ok h).bit k) hk
  | exprImm a b ea hargs ha hb h =>
    rcases exprImmFlags_ok h with ⟨hm, rfl⟩ | hm
    · cases k with
      | stack_top => exact ⟨a, b, ea, hargs, ha, hb, hm⟩
      | _ => exact absurd rfl hk
    · exact absurd (hm.bit k) hk
  | offsetReg a b hargs ha hb h =>
    obtain ⟨-, -, rfl⟩ := offsetRegFlags_ok h
    exact absurd (by cases k <;> rfl) hk
  | regOffset a b r hargs ha hb h =>
    obtain ⟨-, rfl⟩ := regOffsetFlags_ok h
    exact absurd (by cases k <;> rfl) hk
  | regRegReg a b c r hargs ha hb h =>
    obtain ⟨-, rfl⟩ := regRegRegFlags_ok h
    exact absurd (by cases k <;> rfl) hk
  | regExprReg a b c r hargs ha hb h =>
    obtain ⟨-, rfl⟩ := regExprRegFlags_ok h
    exact absurd (by cases k <;> rfl) hk

private theorem nullaryFlags_drop {k : Strength} (h : k ≠ .stack_top ∨ insn.type ≠ insn_return) :
    nullaryFlags (safety.drop k) unsafety insn offset = nullaryFlags safety unsafety insn offset := by
  unfold nullaryFlags
  split
  case h_2 ht =>
    have hk := h.resolve_right (fun hn => hn ht)
    cases k with
    | stack_top => exact absurd rfl hk
    | _ => rfl
  all_goals rfl

private theorem registerFlags_drop {k : Strength} {a : X86Op}
    (h : k ≠ .ebx_code ∨ insn.type ∉ [insn_jmp, insn_call] ∨ regId a.reg ≠ REGISTER_EBX) :
    registerFlags (safety.drop k) insn offset a = registerFlags safety insn offset a := by
  unfold registerFlags
  split
  case h_11 ht | h_12 ht =>
    rcases h with hk | hn | hr
    · cases k with
      | ebx_code => exact absurd rfl hk
      | _ => rfl
    · exact absurd (by simp [ht]) hn
    · simp [beq_eq_false_iff_ne.mpr hr]
  all_goals rfl

private theorem exprFlags_drop {k : Strength} {ea : X86Ea}
    (h : k ≠ .ebx_data ∨ classify_ea ea ≠ EA_EBX_EXACT ∨
      insn.type ∉ [insn_inc, insn_dec, insn_not, insn_neg, insn_movcc]) :
    exprFlags L (safety.drop k) unsafety insn offset ea =
      exprFlags L safety unsafety insn offset ea := by
  unfold exprFlags
  split
  case h_5 ht | h_6 ht | h_7 ht | h_8 ht | h_9 ht =>
    rcases h with hk | hea | hn
    · cases k with
      | ebx_data => exact absurd rfl hk
      | _ => rfl
    · simp [hea]
    · exact absurd (by simp [ht]) hn
  all_goals rfl

/-- Without the bit a comparison with `(%ebx)` is a read like any other. -/
private theorem exprRegFlags_drop {k : Strength} {ea : X86Ea}
    (h : k ≠ .ebx_data ∨ classify_ea ea ≠ EA_EBX_EXACT ∨ insn.type ∈ [insn_cmp, insn_test]) :
    exprRegFlags L (safety.drop k) unsafety insn offset ea =
        exprRegFlags L safety unsafety insn offset ea ∨
      exprRegFlags L (safety.drop k) unsafety insn offset ea = .ok IREAD := by
  rcases h with hk | hea | hn
  · cases k with
    | ebx_data => exact absurd rfl hk
    | _ => exact Or.inl rfl
  · exact Or.inl (by simp [exprRegFlags, hea])
  · by_cases hea : classify_ea ea = EA_EBX_EXACT
    · cases k with
      | ebx_data =>
        refine Or.inr ?_
        rcases List.mem_pair.mp hn with ht | ht <;>
          simp [exprRegFlags, hea, Flags.drop, exprRegTypes, ht, simpleOr]
      | _ => exact Or.inl rfl
    · exact Or.inl (by simp [exprRegFlags, hea])

private theorem exprImmFlags_drop {k : Strength} {ea : X86Ea} {b : X86Op}
    (h : k ≠ .ebx_data ∨ classify_ea ea ≠ EA_EBX_EXACT ∨ insn.type ∈ [insn_cmp, insn_test]) :
    exprImmFlags L (safety.drop k) unsafety insn offset ea b =
        exprImmFlags L safety unsafety insn offset ea b ∨
      exprImmFlags L (safety.drop k) unsafety insn offset ea b = .ok IREAD := by
  rcases h with hk | hea | hn
  · cases k with
    | ebx_data => exact absurd rfl hk
    | _ => exact Or.inl rfl
  · exact Or.inl (by simp [exprImmFlags, hea])
  · by_cases hea : classify_ea ea = EA_EBX_EXACT
    · cases k with
      | ebx_data =>
        refine Or.inr ?_
        rcases List.mem_pair.mp hn with ht | ht <;>
          simp [exprImmFlags, hea, Flags.drop, exprImmTypes, ht, simpleOr, masksStackTop]
      | _ => exact Or.inl rfl
    · exact Or.inl (by simp [exprImmFlags, hea])

/-- An instruction that does not need the bit gets the same flags without it, or
those of a read. -/
theorem operandFlags_drop {k : Strength} (h : ¬ Needs insn k) (L : Layout)
    (safety unsafety : Flags) (offset : Nat) :
    operandFlags L (safety.drop k) unsafety insn offset = operandFlags L safety unsafety insn offset ∨
      operandFlags L (safety.drop k) unsafety insn offset = .ok IREAD := by
  unfold operandFlags
  split
  · rename_i hargs
    refine Or.inl (nullaryFlags_drop ?_)
    by_contra hn
    simp only [not_or, not_not, ne_eq] at hn
    obtain ⟨rfl, ht⟩ := hn
    exact h ⟨ht, hargs⟩
  · rename_i a hargs
    unfold unaryFlags
    split
    · exact Or.inl rfl
    · exact Or.inl rfl
    · rename_i ha
      refine Or.inl (registerFlags_drop ?_)
      by_contra hn
      simp only [not_or, not_not, ne_eq] at hn
      obtain ⟨rfl, ht, hr⟩ := hn
      exact h ⟨ht, a, hargs, regId_eq (r := .ebx) hr⟩
    · exact Or.inl rfl
    · rename_i ha
      obtain ⟨ea, hd⟩ := X86Op.data_of_expression ha
      refine Or.inl (exprFlags_drop ?_)
      by_contra hn
      simp only [not_or, not_not, ne_eq] at hn
      obtain ⟨rfl, hea, ht⟩ := hn
      rw [X86Op.expression_of_data hd] at hea
      exact h ⟨a, ea, by rw [hargs]; rfl, hd, hea, by rw [hargs]; exact ht⟩
    · exact Or.inl rfl
  · rename_i a b hargs
    have hmem : a.type = op_expression → k ≠ .ebx_data ∨
        classify_ea a.expression ≠ EA_EBX_EXACT ∨ insn.type ∈ [insn_cmp, insn_test] := by
      intro ha
      obtain ⟨ea, hd⟩ := X86Op.data_of_expression ha
      by_contra hn
      simp only [not_or, not_not, ne_eq] at hn
      obtain ⟨rfl, hea, ht⟩ := hn
      rw [X86Op.expression_of_data hd] at hea
      exact h ⟨a, ea, by rw [hargs]; rfl, hd, hea, by rw [hargs]; exact ht⟩
    unfold binaryFlags
    split
    case h_4 ha _ => exact exprRegFlags_drop (hmem ha)
    case h_5 ha _ => exact exprImmFlags_drop (hmem ha)
    all_goals exact Or.inl rfl
  · exact Or.inl rfl
  · exact Or.inl rfl

end

/-- The verifier let the instruction through because the bit was set: without it
the same tests fail. -/
def OnlyBecause (L : Layout) (k : Strength) (v : Examined) : Prop :=
  (∃ f, checkInsn L v.before v.item = .ok f) ∧
    ∀ f, checkInsn L { v.before with safety := v.before.safety.drop k } v.item ≠ .ok f

section

variable {L : Layout} {v : Examined} {k : Strength} {f g : Flags}

theorem checkInsn_of_ok {st : VState} {insn : X86Insn} {safety : Flags}
    (h : checkInsn L st insn = .ok f) (ho : operandFlags L safety st.unsafety insn st.offset = .ok g)
    (hc : checkFlags g st.unsafety st.offset = none) :
    checkInsn L { st with safety := safety } insn = .ok g := by
  unfold checkInsn at h ⊢
  split at h
  · cases h
  rename_i h1
  split at h
  · cases h
  rename_i h2
  split at h
  · cases h
  rename_i h3
  simp [h1, h2, h3, ho, hc]

theorem checkFlags_of_iread (unsafety : Flags) (offset : Nat) :
    checkFlags IREAD unsafety offset = none := rfl

theorem OnlyBecause.needs (h : OnlyBecause L k v) : Needs v.item k := by
  obtain ⟨⟨f, hf⟩, hdrop⟩ := h
  obtain ⟨-, ho, hc⟩ := checkInsn_ok hf
  by_contra hn
  rcases operandFlags_drop hn L v.before.safety v.before.unsafety v.before.offset with he | he
  · exact hdrop f (checkInsn_of_ok hf (he.trans ho) hc)
  · exact hdrop IREAD (checkInsn_of_ok hf he (checkFlags_of_iread _ _))

theorem OnlyBecause.bit (h : OnlyBecause L k v) : v.before.safety.bit k = true := by
  obtain ⟨⟨f, hf⟩, hdrop⟩ := h
  by_contra hb
  rw [Bool.not_eq_true] at hb
  rw [Flags.drop_eq_self hb] at hdrop
  exact hdrop f hf

private theorem MemArm.ebx_safe {safety unsafety : Flags} {insn : X86Insn} {ea : X86Ea}
    (h : MemArm L safety unsafety insn ea f) (hea : classify_ea ea = EA_EBX_EXACT)
    (ht : insn.type ∉ [insn_cmp, insn_test]) (hf : f.iwrite = false) :
    safety.ebx_data_safe = true := by
  cases h with
  | ebx _ hs => exact hs
  | ebp he => rw [hea] at he; cases he
  | esp he => rw [hea] at he; rcases he with he | he <;> cases he
  | direct he => rw [hea] at he; cases he
  | read hr => exact absurd (List.mem_pair.mpr hr) ht
  | write he => subst he; cases hf

private theorem ebx_data_needed {safety unsafety : Flags} {insn : X86Insn} {offset : Nat}
    (h : Arm L safety unsafety insn offset f) (hf : f.iwrite = false) (hn : Needs insn .ebx_data) :
    safety.ebx_data_safe = true := by
  obtain ⟨a, ea, hhead, hd, hea, htype⟩ := hn
  cases h with
  | expr a' ea' hargs ha h =>
    rw [hargs] at hhead htype
    cases hhead
    cases ha.symm.trans hd
    simp only [List.length_singleton, if_true] at htype
    rcases exprFlags_ok h with ⟨ht, -⟩ | ⟨ht, -⟩ | ⟨-, hm⟩
    · simp [ht] at htype
    · rcases ht with ht | ht | ht <;> simp [ht] at htype
    · refine hm.ebx_safe hea ?_ hf
      intro ht
      rcases List.mem_pair.mp ht with ht | ht <;> simp [ht] at htype
  | exprReg a' b ea' hargs ha hb h =>
    rw [hargs] at hhead htype
    cases hhead
    cases ha.symm.trans hd
    exact (exprRegFlags_ok h).ebx_safe hea htype hf
  | exprImm a' b ea' hargs ha hb h =>
    rw [hargs] at hhead htype
    cases hhead
    cases ha.symm.trans hd
    rcases exprImmFlags_ok h with ⟨hm, -⟩ | hm
    · simp [masksStackTop, hea] at hm
    · exact hm.ebx_safe hea htype hf
  | nullary hargs => simp [hargs] at hhead
  | relative a' hargs ht =>
    simp only [hargs, List.head?_cons, Option.some.injEq] at hhead
    subst hhead
    rw [X86Op.type_expression hd] at ht
    rcases ht with ht | ht <;> cases ht
  | offsetReg a' b hargs ha =>
    simp only [hargs, List.head?_cons, Option.some.injEq] at hhead
    subst hhead
    rw [X86Op.type_expression hd] at ha
    cases ha
  | immediate a' v hargs ha | register a' r hargs ha =>
    simp only [hargs, List.head?_cons, Option.some.injEq] at hhead
    subst hhead
    cases ha.symm.trans hd
  | regImm a' b r v hargs ha | regReg a' b r q hargs ha | regExpr a' b r hargs ha
  | regOffset a' b r hargs ha =>
    simp only [hargs, List.head?_cons, Option.some.injEq] at hhead
    subst hhead
    cases ha.symm.trans hd
  | regRegReg a' b c r hargs ha | regExprReg a' b c r hargs ha =>
    simp only [hargs, List.head?_cons, Option.some.injEq] at hhead
    subst hhead
    cases ha.symm.trans hd

/-- An instruction that needs the bit is not accepted without it. -/
theorem needs_bit {st : VState} {insn : X86Insn} (h : checkInsn L st insn = .ok f)
    (hn : Needs insn k) : st.safety.bit k = true := by
  obtain ⟨-, ho, hc⟩ := checkInsn_ok h
  obtain ⟨hj, hw, -⟩ := checkFlags_none hc
  cases k with
  | ebx_data => exact ebx_data_needed (operandFlags_ok ho) hw hn
  | ebx_code =>
    obtain ⟨ht, a, hargs, hr⟩ := hn
    have ha : a.type = op_register := X86Op.type_register hr
    simp only [operandFlags, unaryFlags, hargs, ha] at ho
    have hid : regId a.reg = REGISTER_EBX := by rw [hr]; rfl
    rcases registerFlags_ok ho with ⟨he, -⟩ | ⟨he, -⟩ | ⟨-, rfl⟩ | ⟨he, -⟩
    · simp [he] at ht
    · simp [he] at ht
    · simpa [changeEbp, changeEsp, hid, Flags.bit] using hj
    · rcases List.mem_pair.mp ht with ht | ht <;> simp [ht, isData] at he
  | stack_top =>
    obtain ⟨ht, hargs⟩ := hn
    simp only [operandFlags, hargs] at ho
    rcases nullaryFlags_ok ho with ⟨he, -⟩ | ⟨-, rfl⟩ | ⟨he, -⟩ | ⟨he, -⟩
    · simp [ht, isData] at he
    · simpa [Flags.bit] using hj
    · simp [ht] at he
    · simp [ht] at he

theorem onlyBecause_of_needs (h : checkInsn L v.before v.item = .ok f) (hn : Needs v.item k) :
    OnlyBecause L k v := by
  refine ⟨⟨f, h⟩, ?_⟩
  intro g hg
  have hb := needs_bit hg hn
  cases k <;> cases hb

end

section Runs

variable (L : Layout) (k : Strength) (es : List Examined)

/-- The instructions executed so far, the latest first. Control enters at a
chunk-aligned instruction, from a direct or a masked jump, or falls through. -/
inductive Run : List Examined → Prop
  | nil : Run []
  | enter {r : List Examined} {v : Examined} : Run r → v ∈ es →
      L.chunk_size ∣ v.before.offset → Run (v :: r)
  | next {r : List Examined} {u v : Examined} : Run (u :: r) → v ∈ es →
      fallsThrough u.item = true → v.before.offset = u.after.offset → Run (v :: u :: r)

/-- The latest executed instruction is the mask, or a `popf` behind it where the bit
outlives a `popf`. -/
def MaskedBefore : List Examined → Prop
  | [] => False
  | u :: r => IsMask L u.item k ∨
      k.outlivesPopf = true ∧ u.item.type = insn_popflags ∧ MaskedBefore r

/-- In the image `v` stands directly behind `m`, or behind a `popf` that does where
the bit outlives a `popf`. -/
inductive Follows (m : Examined) : Examined → Prop
  | next {v : Examined} : v ∈ es → v.before.offset = m.after.offset → Follows m v
  | popf {p v : Examined} : Follows m p → p ∈ es → k.outlivesPopf = true →
      p.item.type = insn_popflags → v ∈ es → v.before.offset = p.after.offset → Follows m v

/-- Every mask lies in the chunk of the instruction it protects. -/
def MasksInChunk : Prop :=
  ∀ k, ∀ m ∈ es, ∀ v ∈ es, IsMask L m.item k → Follows k es m v → Needs v.item k →
    m.before.offset / L.chunk_size = v.before.offset / L.chunk_size

variable {L k es} {x86_disasm : Disasm} {image : Image}

theorem Follows.mem {m v : Examined} (h : Follows k es m v) : v ∈ es := by
  cases h with
  | next hv => exact hv
  | popf _ _ _ _ hv => exact hv

theorem Follows.lt {t : VState} (hp : Pass (Examines L x86_disasm image) {} es t) {m v : Examined}
    (hm : m ∈ es) (h : Follows k es m v) : m.before.offset < v.before.offset := by
  have hlt := fun u hu => (Pass.pos_bounds (offset_pos L x86_disasm image) hp (v := u) hu).2.1
  induction h with
  | next hv he => rw [he]; exact hlt m hm
  | popf _ hpm _ _ hv he ih => rw [he]; exact ih.trans (hlt _ hpm)

/-- A safety bit is new, or it has outlived a `popf`. -/
theorem bit_updateState {st : VState} {n : Nat} {insn : X86Insn} {f : Flags}
    (h : (updateState st n insn f).safety.bit k = true) :
    f.bit k = true ∨
      insn.type = insn_popflags ∧ k.outlivesPopf = true ∧ st.safety.bit k = true := by
  have hs : f.strengthenings.bit k = f.bit k := by cases k <;> rfl
  have he : st.safety.ebxSafe.bit k = (k.outlivesPopf && st.safety.bit k) := by cases k <;> rfl
  have hnone : NONE.bit k = false := by cases k <;> rfl
  simp only [updateState, Flags.or_bit, hs, expireSafety] at h
  split at h
  · rename_i ht
    rw [he, Bool.or_eq_true, Bool.and_eq_true] at h
    rcases h with ⟨ho, hb⟩ | hb
    · exact Or.inr ⟨ht, ho, hb⟩
    · exact Or.inl hb
  · rw [hnone, Bool.false_or] at h
    exact Or.inl h

/-- A bit that is set before an instruction comes from a mask that it follows. -/
theorem mask_of_bit {t : VState} (hp : Pass (Examines L x86_disasm image) {} es t) (v : Examined)
    (hv : v ∈ es) (hb : v.before.safety.bit k = true) :
    ∃ m ∈ es, IsMask L m.item k ∧ Follows k es m v := by
  have hlt := fun u hu => (Pass.pos_bounds (offset_pos L x86_disasm image) hp (v := u) hu).2.1
  induction hn : v.before.offset using Nat.strong_induction_on generalizing v with
  | _ n ih =>
    rcases hp.before_eq hv with hi | ⟨u, hu, he⟩
    · rw [hi] at hb
      cases k <;> cases hb
    · obtain ⟨_, flags, -, -, -, hc, hst⟩ := loopBody_ok (hp.step_of_mem hu).2
      have hoff : v.before.offset = u.after.offset := by rw [he]
      rw [← he, hst] at hb
      rcases bit_updateState hb with hf | ⟨hpop, hout, hub⟩
      · exact ⟨u, hu, isMask_of_bit (operandFlags_ok (checkInsn_ok hc).2.1) hf, .next hv hoff⟩
      · obtain ⟨m, hm, hmask, hfol⟩ := ih _ (by rw [← hn, hoff]; exact hlt u hu) u hu hub rfl
        exact ⟨m, hm, hmask, .popf hfol hu hout hpop hv hoff⟩

theorem Run.mem {v : Examined} {r : List Examined} (h : Run L es (v :: r)) : v ∈ es := by
  cases h with
  | enter _ hv => exact hv
  | next _ hv => exact hv

theorem IsMask.type {insn : X86Insn} (h : IsMask L insn k) : insn.type = insn_and := by
  cases k with
  | ebx_data => exact h.1
  | ebx_code => exact h.1
  | stack_top =>
    obtain ⟨a, b, ea, -, -, -, hm⟩ := h
    simp only [masksStackTop, decide_eq_true_eq] at hm
    exact hm.2.1

private theorem no_multiple_between {a b c n : Nat} (hc : 0 < c) (h : a / c = b / c) (hlo : a < n)
    (hhi : n ≤ b) : ¬ c ∣ n := by
  rintro ⟨q, rfl⟩
  have h1 : a / c < q := Nat.div_lt_of_lt_mul hlo
  have h2 : q ≤ b / c := (Nat.le_div_iff_mul_le hc).mpr (by rwa [Nat.mul_comm])
  omega

/-- Where no chunk starts between the mask and the use, control has come through
the mask. -/
theorem maskedBefore_of_run {t : VState} (hp : Pass (Examines L x86_disasm image) {} es t)
    {m v : Examined} (hm : m ∈ es) (hmask : IsMask L m.item k) (hfol : Follows k es m v)
    (hchunk : m.before.offset / L.chunk_size = v.before.offset / L.chunk_size)
    {r : List Examined} (hrun : Run L es (v :: r)) : MaskedBefore L k r := by
  have hpos := offset_pos L x86_disasm image
  have hin : ∀ n, m.before.offset < n → n ≤ v.before.offset → ¬ L.chunk_size ∣ n :=
    fun n => no_multiple_between L.chunk_pos hchunk
  clear hchunk
  induction hfol generalizing r with
  | next hv he =>
    have hlt := Follows.lt hp hm (.next (k := k) hv he)
    cases hrun with
    | enter _ _ hd => exact absurd hd (hin _ hlt (Nat.le_refl _))
    | next hrun' _ _ he' =>
      rw [Pass.eq_of_after hpos hp hrun'.mem hm (he'.symm.trans he)]
      exact Or.inl hmask
  | popf hfol hpm hout hpop hv he ih =>
    have hlt := Follows.lt hp hm (.popf hfol hpm hout hpop hv he)
    cases hrun with
    | enter _ _ hd => exact absurd hd (hin _ hlt (Nat.le_refl _))
    | next hrun' _ _ he' =>
      have heq := Pass.eq_of_after hpos hp hrun'.mem hpm (he'.symm.trans he)
      subst heq
      have hle := (Pass.pos_bounds hpos hp hpm).2.1
      refine Or.inr ⟨hout, hpop, ih hrun' ?_⟩
      intro n hlo hhi
      exact hin n hlo (by omega)

/-- Where a chunk starts between the mask and the use, control can come from there
without the mask. -/
theorem run_around_mask {t : VState} (hp : Pass (Examines L x86_disasm image) {} es t)
    {m v w : Examined} (hm : m ∈ es) (hfol : Follows k es m v) (hw : w ∈ es)
    (hd : L.chunk_size ∣ w.before.offset) (hlo : m.before.offset < w.before.offset)
    (hhi : w.before.offset ≤ v.before.offset) :
    ∃ r, Run L es (v :: r) ∧ ¬ MaskedBefore L k r := by
  have hpos := offset_pos L x86_disasm image
  induction hfol with
  | next hv he =>
    have hle := Pass.after_le_before hpos hp hm hw hlo
    rw [Pass.eq_of_pos hpos hp hv hw (by omega)]
    exact ⟨[], .enter .nil hw hd, id⟩
  | @popf p v _ hpm hout hpop hv he ih =>
    by_cases hwv : w.before.offset = v.before.offset
    · rw [Pass.eq_of_pos hpos hp hv hw hwv.symm]
      exact ⟨[], .enter .nil hw hd, id⟩
    · have hwp : w.before.offset ≤ p.before.offset := by
        by_contra hlt
        have hle := Pass.after_le_before hpos hp hpm hw (by omega)
        omega
      obtain ⟨r, hrun, hnot⟩ := ih hwp
      refine ⟨p :: r, .next hrun hv (by simp [fallsThrough, hpop]) he, ?_⟩
      rintro (hmask | ⟨-, -, hb⟩)
      · have ht := hmask.type
        rw [hpop] at ht
        cases ht
      · exact hnot hb

/-- In every run, whatever `verify()` let through because of a safety bit is executed
directly behind its mask, and no such instruction starts a chunk, exactly when every
mask lies in the chunk of the instruction it protects. -/
theorem masked_in_runs_iff (h : verify L x86_disasm image = .ok es) :
    ((∀ v r, Run L es (v :: r) → ∀ k, OnlyBecause L k v → MaskedBefore L k r) ∧
      ∀ v ∈ es, ∀ k, OnlyBecause L k v → ¬ L.chunk_size ∣ v.before.offset) ↔
    MasksInChunk L es := by
  obtain ⟨t, hp, -⟩ := verify_pass h
  constructor
  · rintro ⟨hruns, -⟩ k m hm v hv hmask hfol hneeds
    by_contra hne
    have hlt := hfol.lt hp hm
    have hdiv := Nat.div_le_div_right (c := L.chunk_size) hlt.le
    have hstart : (m.before.offset / L.chunk_size + 1) * L.chunk_size ≤ v.before.offset :=
      (Nat.le_div_iff_mul_le L.chunk_pos).mp (by omega)
    obtain ⟨w, hw, he⟩ := chunk_start_examined hp hv (Dvd.intro_left _ rfl) hstart
    have hlo := Nat.lt_div_mul_add L.chunk_pos (a := m.before.offset)
    rw [Nat.add_mul, Nat.one_mul] at he hstart
    obtain ⟨r, hrun, hnot⟩ := run_around_mask hp hm hfol hw
      (by rw [he]; exact Nat.dvd_add (Dvd.intro_left _ rfl) (Nat.dvd_refl _)) (by omega) (by omega)
    obtain ⟨n, flags, -, -, -, hc, -⟩ := loopBody_ok (hp.step_of_mem hv).2
    exact hnot (hruns v r hrun k (onlyBecause_of_needs hc hneeds))
  · intro hchunk
    have hruns : ∀ v r, Run L es (v :: r) → ∀ k, OnlyBecause L k v → MaskedBefore L k r := by
      intro v r hrun k hk
      obtain ⟨m, hm, hmask, hfol⟩ := mask_of_bit hp v hrun.mem hk.bit
      exact maskedBefore_of_run hp hm hmask hfol (hchunk k m hm v hrun.mem hmask hfol hk.needs) hrun
    refine ⟨hruns, ?_⟩
    intro v hv k hk hd
    exact hruns v [] (.enter .nil hv hd) k hk

end Runs

/-- Ten one-byte instructions, `and $DATA_MASK,%ebx` up to the chunk boundary, and
behind it a store to `(%ebx)`. -/
def maskBeforeBoundary : Image :=
  List.replicate 10 0x90 ++ [0x81, 0xe3, 0xff, 0xff, 0xff, 0x20, 0xc7, 0x03, 0, 0, 0, 0]

theorem mask_jumped_over :
    ¬ ∀ (L : Layout) (x86_disasm : Disasm) (image : Image) (es : List Examined),
      verify L x86_disasm image = .ok es →
      ∀ v r, Run L es (v :: r) → ∀ k, OnlyBecause L k v → MaskedBefore L k r := by
  intro h
  have hget : (examined maskBeforeBoundary).getLast (by decide) ∈ examined maskBeforeBoundary :=
    List.getLast_mem _
  refine h classic disassemble maskBeforeBoundary (examined maskBeforeBoundary) rfl _ []
    (.enter .nil hget (by decide)) .ebx_data ?_
  exact onlyBecause_of_needs (f := NONE) rfl
    ⟨memOperand .ebx, ⟨some (.r32 .ebx), none, 1, .none⟩, rfl, rfl, rfl, by decide⟩

/-- A mask of `%ebx` and a store behind it, both in the first chunk. -/
def maskInChunk : Image :=
  [0x81, 0xe3, 0xff, 0xff, 0xff, 0x20, 0xc7, 0x03, 0, 0, 0, 0]

theorem maskInChunk_masked :
    verify classic disassemble maskInChunk = .ok (examined maskInChunk) ∧
    (∀ v r, Run classic (examined maskInChunk) (v :: r) →
      ∀ k, OnlyBecause classic k v → MaskedBefore classic k r) ∧
    ∀ v ∈ examined maskInChunk, ∀ k, OnlyBecause classic k v →
      ¬ classic.chunk_size ∣ v.before.offset := by
  have hzero : ∀ v ∈ examined maskInChunk, v.before.offset / classic.chunk_size = 0 := by decide
  have h : verify classic disassemble maskInChunk = .ok (examined maskInChunk) := rfl
  refine ⟨h, (masked_in_runs_iff h).mpr ?_⟩
  intro k m hm v hv _ _ _
  rw [hzero m hm, hzero v hv]

section Transfers

/-- The target of the jump, call or return comes from a register or from memory. -/
def Indirect (insn : X86Insn) : Prop :=
  insn.type ∈ [insn_jmp, insn_call, insn_return] ∧
    ¬ ∃ a, insn.args = [a] ∧ (a.type = op_relative_near ∨ a.type = op_relative_far)

/-- The target is masked: a return behind the mask of the stack top, a jump or call
through `%ebx` behind its code mask. -/
def MaskedTarget (v : Examined) : Prop :=
  (v.item.type = insn_return → v.before.safety.stack_top_safe = true) ∧
    (v.item.type = insn_jmp ∨ v.item.type = insn_call → v.before.safety.ebx_code_safe = true ∧
      ∃ a, v.item.args = [a] ∧ a.reg = some (.r32 .ebx))

/-- Jumps, calls and returns have at most one explicit operand. -/
def OneOperand (es : List Examined) : Prop :=
  ∀ v ∈ es, v.item.type ∈ [insn_jmp, insn_call, insn_return] → v.item.args.length ≤ 1

/-- Every return with an immediate operand stands directly behind the mask of the
stack top, with `%ebp` unchanged. -/
def ImmediateReturnsMasked (L : Layout) (es : List Examined) : Prop :=
  ∀ v ∈ es, v.item.type = insn_return → v.item.args ≠ [] →
    (∃ u ∈ es, v.before.offset = u.after.offset ∧ IsMask L u.item .stack_top) ∧
      v.before.unsafety.change_ebp = false

variable {L : Layout} {x86_disasm : Disasm} {image : Image} {es : List Examined}
variable {st : VState} {insn : X86Insn} {f : Flags}

/-- The mask of the stack top always sets its bit and clears W2 and W3. -/
theorem stack_top_mask_flags (hm : IsMask L insn .stack_top)
    (h : checkInsn L st insn = .ok f) : f = USE_ESP ||| STACK_TOP_SAFE := by
  obtain ⟨a, b, ea, hargs, ha, hb, hmask⟩ := hm
  have ho := (checkInsn_ok h).2.1
  have hea : classify_ea ea = EA_ESP_EXACT := by
    simp only [masksStackTop, decide_eq_true_eq] at hmask
    exact hmask.1
  simp only [operandFlags, binaryFlags, hargs, X86Op.type_expression ha, hb,
    X86Op.expression_of_data ha] at ho
  simpa [exprImmFlags, hea, hmask] using ho.symm

/-- Every indirect transfer that is no return with an operand is masked, and no
weakening is set. -/
theorem indirect_masked (h : checkInsn L st insn = .ok f) (hi : Indirect insn)
    (hone : insn.args.length ≤ 1) (hret : insn.type = insn_return → insn.args = []) :
    (insn.type = insn_return → st.safety.stack_top_safe = true) ∧
      (insn.type = insn_jmp ∨ insn.type = insn_call → st.safety.ebx_code_safe = true ∧
        ∃ a, insn.args = [a] ∧ a.reg = some (.r32 .ebx)) ∧ st.unsafety.weak = false := by
  obtain ⟨-, ho, hc⟩ := checkInsn_ok h
  obtain ⟨hj, -, hweak⟩ := checkFlags_none hc
  have hdata : isData insn.type = false := by
    have ht := hi.1
    simp only [List.mem_cons, List.not_mem_nil, or_false] at ht
    rcases ht with ht | ht | ht <;> rw [ht] <;> rfl
  cases operandFlags_ok ho with
  | nullary hargs h =>
    rcases nullaryFlags_ok h with ⟨he, -⟩ | ⟨ht, rfl⟩ | ⟨ht, -⟩ | ⟨ht, -⟩
    · rw [hdata] at he; cases he
    · exact ⟨fun _ => by simpa using hj, by simp [ht], hweak rfl⟩
    · have ht' := hi.1; simp [ht] at ht'
    · have ht' := hi.1; rcases ht with ht | ht <;> simp [ht] at ht'
  | relative a hargs ht => exact absurd ⟨a, hargs, ht⟩ hi.2
  | register a r hargs ha h =>
    rcases registerFlags_ok h with ⟨ht, -⟩ | ⟨ht, -⟩ | ⟨ht, rfl⟩ | ⟨he, -⟩
    · have ht' := hi.1; simp [ht] at ht'
    · have ht' := hi.1; simp [ht] at ht'
    · have hebx : regId a.reg = REGISTER_EBX ∧ st.safety.ebx_code_safe = true := by
        simpa [changeEbp, changeEsp] using hj
      refine ⟨?_, fun _ => ⟨hebx.2, a, hargs, regId_eq (r := .ebx) hebx.1⟩,
        hweak (by simp [changeEbp, changeEsp])⟩
      intro hr
      rcases ht with ht | ht <;> rw [ht] at hr <;> cases hr
    · rw [hdata] at he; cases he
  | immediate a v hargs ha h =>
    rcases (immediateFlags_ok h).1 with ht | ht
    · have ht' := hi.1; simp [ht] at ht'
    · rw [hret ht] at hargs; cases hargs
  | expr a ea hargs ha h =>
    have ht' := hi.1
    rcases exprFlags_ok h with ⟨ht, -⟩ | ⟨ht, -⟩ | ⟨ht, -⟩
    · simp [ht] at ht'
    · rcases ht with ht | ht | ht <;> simp [ht] at ht'
    · simp only [List.mem_cons, List.not_mem_nil, or_false] at ht
      rcases ht with ht | ht | ht | ht | ht <;> simp [ht] at ht'
  | regImm a b _ _ hargs | regReg a b _ _ hargs | regExpr a b _ hargs | exprReg a b _ hargs
  | exprImm a b _ hargs | offsetReg a b hargs | regOffset a b _ hargs =>
    rw [hargs] at hone
    simp at hone
  | regRegReg a b c _ hargs | regExprReg a b c _ hargs =>
    rw [hargs] at hone
    simp at hone

/-- Every indirect transfer is masked and made with all weakenings clear, exactly
when the returns with an operand are: their arm raises no `JUMP`. -/
theorem indirect_masked_iff (h : verify L x86_disasm image = .ok es) (hone : OneOperand es) :
    (∀ v ∈ es, Indirect v.item → MaskedTarget v ∧ v.before.unsafety.weak = false) ↔
    ImmediateReturnsMasked L es := by
  obtain ⟨t, hp, -⟩ := verify_pass h
  constructor
  · intro hall v hv ht hargs
    have hlen := hone v hv (by simp [ht])
    have hi : Indirect v.item := by
      refine ⟨by simp [ht], ?_⟩
      rintro ⟨a, ha, hrel⟩
      obtain ⟨_, flags, -, -, -, hc, -⟩ := loopBody_ok (hp.step_of_mem hv).2
      have ho := (checkInsn_ok hc).2.1
      rw [operandFlags_relative ha hrel] at ho
      rcases (relativeFlags_ok ho).2 with ⟨he | he, -⟩ | ⟨he, -⟩ <;> rw [ht] at he <;> cases he
    obtain ⟨⟨hret, -⟩, hweak⟩ := hall v hv hi
    obtain ⟨m, hm, hmask, hfol⟩ := mask_of_bit (k := .stack_top) hp v hv (hret ht)
    cases hfol with
    | next _ he => exact ⟨⟨m, hm, he, hmask⟩, by simp_all [Flags.weak]⟩
    | popf _ _ hout => cases hout
  · intro hcond v hv hi
    obtain ⟨_, flags, -, -, -, hc, -⟩ := loopBody_ok (hp.step_of_mem hv).2
    by_cases hret : v.item.type = insn_return → v.item.args = []
    · obtain ⟨h1, h2, h3⟩ := indirect_masked hc hi (hone v hv hi.1) hret
      exact ⟨⟨h1, h2⟩, h3⟩
    · simp only [Classical.not_imp] at hret
      obtain ⟨⟨u, hu, he, hmask⟩, hebp⟩ := hcond v hv hret.1 hret.2
      obtain ⟨n, g, -, -, -, hcu, hst⟩ := loopBody_ok (hp.step_of_mem hu).2
      have hg := stack_top_mask_flags hmask hcu
      have hv' := Pass.before_eq_after (offset_pos L x86_disasm image) hp hu hv he
      have hw := weak_updateState u.before n u.item g
      rw [← hst, ← hv', hg] at hw
      have hchange : v.before.unsafety.change_esp = false := by
        simpa [VState.weak, Weak.after, Flags.post, USE_ESP] using congrArg Weak.change_esp hw
      have hbump : v.before.unsafety.bump_esp = false := by
        simpa [VState.weak, Weak.after, Flags.post, USE_ESP] using congrArg Weak.bump_esp hw
      have hsafe : v.before.safety.stack_top_safe = true := by
        rw [hv', hst, hg]
        simp [updateState, Flags.strengthenings, STACK_TOP_SAFE]
      refine ⟨⟨fun _ => hsafe, ?_⟩, by simp [Flags.weak, hchange, hbump, hebp]⟩
      intro ht
      rcases ht with ht | ht <;> rw [hret.1] at ht <;> cases ht

/-- `ret $0` as the whole module. -/
def returnImmediate : Image := [0xc2, 0, 0]

theorem return_unmasked :
    ¬ ∀ (L : Layout) (x86_disasm : Disasm) (image : Image) (es : List Examined),
      OneOperand es → verify L x86_disasm image = .ok es →
      ∀ v ∈ es, Indirect v.item → MaskedTarget v ∧ v.before.unsafety.weak = false := by
  intro h
  have hone : OneOperand (examined returnImmediate) := by
    unfold OneOperand
    decide
  have hi : Indirect ((examined returnImmediate).head (by decide)).item := by
    refine ⟨by decide, ?_⟩
    rintro ⟨a, ha, ht⟩
    cases ha
    revert ht
    decide
  have hmasked := (h classic disassemble returnImmediate _ hone rfl _ (List.head_mem _) hi).1.1 rfl
  revert hmasked
  decide

/-- The mask of the stack top and `ret $0` behind it. -/
def maskedReturnImmediate : Image := [0x81, 0x24, 0x24, 0xf0, 0xff, 0xff, 0x10, 0xc2, 0, 0]

theorem maskedReturnImmediate_masked :
    verify classic disassemble maskedReturnImmediate = .ok (examined maskedReturnImmediate) ∧
    ∀ v ∈ examined maskedReturnImmediate, Indirect v.item →
      MaskedTarget v ∧ v.before.unsafety.weak = false := by
  have hone : OneOperand (examined maskedReturnImmediate) := by
    unfold OneOperand
    decide
  have hbehind : ∀ v ∈ examined maskedReturnImmediate, v.item.type = insn_return →
      v.before.offset = ((examined maskedReturnImmediate).head (by decide)).after.offset ∧
        v.before.unsafety.change_ebp = false := by
    decide
  have h : verify classic disassemble maskedReturnImmediate =
    .ok (examined maskedReturnImmediate) := rfl
  refine ⟨h, (indirect_masked_iff h hone).mpr ?_⟩
  intro v hv ht _
  refine ⟨⟨_, List.head_mem _, (hbehind v hv ht).1, ?_⟩, (hbehind v hv ht).2⟩
  exact ⟨memOperand .esp, immOperand 0x10fffff0, ⟨some (.r32 .esp), none, 1, .none⟩, rfl, rfl, rfl,
    by decide⟩

end Transfers

end Pittsfield.Loader
