import Pittsfield.Offline.Execute

/-!
# What the branches of `check_insn` let through

One lemma for every branch: the flags that it can give, with the tests that lead to them.
`Arm` collects the branches, one constructor for each shape of the operands.
-/

namespace Pittsfield.Offline

open Pittsfield.Region
open Pittsfield.Machine
open Flag

/-- The branch that let the operands through. -/
inductive Arm (L : Layout) (op : String) (safety unsafety f : Flags) : List Operand → Prop
  | none (h : noneFlags op safety unsafety = .ok f) : Arm L op safety unsafety f []
  | reg {target : Reg} (h : regFlags op target = .ok f) : Arm L op safety unsafety f [.reg target]
  | imm {value : String} (h : immFlags op value = .ok f) : Arm L op safety unsafety f [.imm value]
  | complex {o b i s} (h : complexFlags op safety unsafety (.mem o b i s) = .ok f) :
    Arm L op safety unsafety f [.mem o b i s]
  | immRegReg {value : String} {r1 r2 : Reg} (h : immRegRegFlags op value r1 r2 = .ok f) :
    Arm L op safety unsafety f [.imm value, .reg r1, .reg r2]
  | regRegReg {r_amt r1 r2 : Reg} (h : regRegRegFlags op r_amt r1 r2 = .ok f) :
    Arm L op safety unsafety f [.reg r_amt, .reg r1, .reg r2]
  | immSrcReg {value : String} {src : Operand} {dest : Reg}
    (h : immSrcRegFlags op value src dest = .ok f) :
    Arm L op safety unsafety f [.imm value, src, .reg dest]
  | regReg {src dest : Reg} (h : regRegFlags op unsafety src dest = .ok f) :
    Arm L op safety unsafety f [.reg src, .reg dest]
  | immReg {value : String} {dest : Reg} (h : immRegFlags L op safety value dest = .ok f) :
    Arm L op safety unsafety f [.imm value, .reg dest]
  | immComplex {value : String} {o b i s}
    (h : immComplexFlags L op safety unsafety value (.mem o b i s) = .ok f) :
    Arm L op safety unsafety f [.imm value, .mem o b i s]
  | abs {haddr} (h : absFlags L op haddr = .ok f) : Arm L op safety unsafety f [.abs haddr]
  | absReg {haddr} {dest : Reg} (h : absRegFlags L haddr dest = .ok f) :
    Arm L op safety unsafety f [.abs haddr, .reg dest]
  | regAbs {src : Reg} {haddr} (h : toAbsFlags L haddr = .ok f) :
    Arm L op safety unsafety f [.reg src, .abs haddr]
  | immAbs {value : String} {haddr} (h : toAbsFlags L haddr = .ok f) :
    Arm L op safety unsafety f [.imm value, .abs haddr]
  | complexReg {o b i s} {dest : Reg}
    (h : complexRegFlags op unsafety (.mem o b i s) dest = .ok f) :
    Arm L op safety unsafety f [.mem o b i s, .reg dest]
  | regComplex {src : Reg} {o b i s}
    (h : regComplexFlags op safety unsafety src (.mem o b i s) = .ok f) :
    Arm L op safety unsafety f [.reg src, .mem o b i s]
  | target {address symbol : String} (h : targetFlags L op address = .ok f) :
    Arm L op safety unsafety f [.target address symbol]
  | star {target : Reg} (h : starFlags op safety target = .ok f) :
    Arm L op safety unsafety f [.star target]
  | other {text : String} {target : Reg} (h : otherRegFlags op text target = .ok f) :
    Arm L op safety unsafety f [.other text, .reg target]

section

variable {L : Layout} {op : String} {safety unsafety f : Flags}

theorem arm_of_ok {args : List Operand} (h : check_insn L op args safety unsafety = .ok f) :
    Arm L op safety unsafety f args := by
  unfold check_insn at h
  split at h
  · exact .none h
  · exact .reg h
  · exact .imm h
  · exact .complex h
  · exact .immRegReg h
  · exact .regRegReg h
  · exact .immSrcReg h
  · exact .immSrcReg h
  · exact .regReg h
  · exact .immReg h
  · exact .immComplex h
  · exact .abs h
  · exact .absReg h
  · exact .regAbs h
  · exact .immAbs h
  · exact .complexReg h
  · exact .regComplex h
  · exact .target h
  · exact .star h
  · exact .other h
  · cases h

theorem noneFlags_ok (h : noneFlags op safety unsafety = .ok f) :
    op = "ret" ∧ (STACK_TOP_SAFE ∈ safety ∧ f = {JUMP, USE_ESP, CHANGE_ESP} ∨
        f = {JUMP, IJUMP, USE_ESP, CHANGE_ESP}) ∨
      op = "leave" ∧ (CHANGE_EBP ∉ unsafety ∧ f = {USE_ESP, CHANGE_EBP} ∨
        f = {USE_ESP, CHANGE_EBP, CHANGE_ESP}) ∨
      (op = "pushf" ∨ op = "popf") ∧ f = {USE_ESP, CHANGE_ESP} ∨
      opKind op = .data ∧ f = ∅ := by
  unfold noneFlags at h
  repeat' split at h
  all_goals cases h
  · rename_i hop
    refine Or.inr (Or.inr (Or.inr ⟨?_, rfl⟩))
    rw [hop]
    rfl
  · exact Or.inl ⟨‹_›, Or.inl ⟨‹_›, rfl⟩⟩
  · exact Or.inl ⟨‹_›, Or.inr rfl⟩
  · exact Or.inr (Or.inl ⟨‹_›, Or.inl ⟨‹_›, rfl⟩⟩)
  · exact Or.inr (Or.inl ⟨‹_›, Or.inr rfl⟩)
  · exact Or.inr (Or.inr (Or.inl ⟨‹_›, rfl⟩))
  · rename_i hop
    have hall : ∀ op ∈ convert ++ (fconst ++ funary), opKind op = .data := by decide
    refine Or.inr (Or.inr (Or.inr ⟨?_, rfl⟩))
    rcases hop with hop | hop | rfl | rfl
    · exact hall op (List.mem_append_left _ hop)
    · exact hall op (List.mem_append_right _ hop)
    · rfl
    · rfl

theorem regFlags_ok {target : Reg} (h : regFlags op target = .ok f) :
    op = "push" ∧ f = {USE_ESP, CHANGE_ESP} ∨
      op = "pop" ∧ f = {USE_ESP} ∪ change target ∪ {CHANGE_ESP} ∨ f = change target := by
  unfold regFlags at h
  split at h
  · cases h
    exact Or.inl ⟨‹_›, rfl⟩
  split at h
  · cases h
    exact Or.inr (Or.inl ⟨‹_›, rfl⟩)
  split at h
  · cases h
    exact Or.inr (Or.inr rfl)
  · cases h

theorem immFlags_ok {value : String} (h : immFlags op value = .ok f) :
    (op = "push" ∨ op = "ret") ∧ f = {USE_ESP, CHANGE_ESP} := by
  unfold immFlags at h
  split at h
  · cases h
    exact ⟨Or.inl ‹_›, rfl⟩
  split at h
  · cases h
    exact ⟨Or.inr ‹_›, rfl⟩
  · cases h

/-- The access that a branch takes for simple: near `%ebp` or `%esp` while they are known. -/
inductive Simple (unsafety : Flags) (dest : Operand) (half : List Char → Bool) (bound : Nat) :
    Option Flag → Prop
  | none : Simple unsafety dest half bound none
  | ebp (t : String) (ht : dest.offsetFrom .ebp false = some t) (hu : CHANGE_EBP ∉ unsafety)
      (hoff : smallOffset half bound t = true) : Simple unsafety dest half bound (some USE_EBP)
  | esp (t : String) (ht : dest.offsetFrom .esp true = some t) (hu : CHANGE_ESP ∉ unsafety)
      (hoff : smallOffset (fun _ => true) 127 t = true) : Simple unsafety dest half bound (some USE_ESP)

theorem smallOffset_mono {p q : List Char → Bool} {n : Nat} {t : String}
    (hpq : ∀ cs, p cs = true → q cs = true) (h : smallOffset p n t = true) :
    smallOffset q n t = true := by
  unfold smallOffset at h ⊢
  rw [Bool.and_eq_true] at h ⊢
  exact ⟨hpq _ h.1, h.2⟩

theorem complexFlags_ok {o b i s} (h : complexFlags op safety unsafety (.mem o b i s) = .ok f) :
    op = "pushl" ∧ f = {USE_ESP} ∨
      unaryStore op = true ∧ (IWRITE ∈ f ∧ f ⊆ {USE_ESP, IWRITE} ∨ f = ∅ ∧
        (.mem o b i s = atEbx ∧ EBX_DATA_SAFE ∈ safety ∨
          ∃ k, Simple unsafety (.mem o b i s) halfOffset 32767 (some k))) ∨
      unaryStore op = false ∧ op ∈ fload ++ fcload ++ fbin ++ funary ∧ f = ∅ := by
  unfold complexFlags at h
  extract_lets flags at h
  have hwrite : IWRITE ∈ {IWRITE} ∪ flags ∧ {IWRITE} ∪ flags ⊆ ({USE_ESP, IWRITE} : Flags) := by
    refine ⟨Finset.mem_union_left _ (by decide), Finset.union_subset (by decide) ?_⟩
    simp only [flags]
    split <;> decide
  split at h
  · cases h
    exact Or.inl ⟨‹_›, rfl⟩
  split at h
  · rename_i hop
    refine Or.inr (Or.inl ⟨hop, ?_⟩)
    split at h
    · rename_i hebx
      rw [← Except.ok.inj h]
      refine Or.inr ⟨?_, Or.inl hebx⟩
      simp only [flags, hebx.1]
      rfl
    split at h
    · rename_i ht
      split at h
      · rename_i hok
        rw [← Except.ok.inj h]
        exact Or.inr ⟨rfl, Or.inr ⟨_, .ebp _ ht hok.1 hok.2⟩⟩
      · rw [← Except.ok.inj h]
        exact Or.inl hwrite
    · rename_i ht _
      split at h
      · rename_i hok
        rw [← Except.ok.inj h]
        exact Or.inr ⟨rfl, Or.inr
          ⟨_, .esp _ ht hok.1 (smallOffset_mono (fun _ _ => rfl) hok.2)⟩⟩
      · rw [← Except.ok.inj h]
        exact Or.inl hwrite
    · rw [← Except.ok.inj h]
      exact Or.inl hwrite
  · rename_i hop
    split at h
    · rename_i hfloat
      cases h
      exact Or.inr (Or.inr ⟨eq_false_of_ne_true hop, hfloat, rfl⟩)
    · cases h

theorem immRegRegFlags_ok {value : String} {r1 r2 : Reg}
    (h : immRegRegFlags op value r1 r2 = .ok f) :
    (op ∈ cat ariths (opt ["l"]) ∨ op ∈ cat dshift (opt ["l"])) ∧ f = change r1 ∪ change r2 := by
  unfold immRegRegFlags at h
  split at h
  · cases h
    exact ⟨‹_›, rfl⟩
  · cases h

theorem regRegRegFlags_ok {r_amt r1 r2 : Reg} (h : regRegRegFlags op r_amt r1 r2 = .ok f) :
    op ∈ cat dshift (opt ["l"]) ∧ f = change r1 ∪ change r2 := by
  unfold regRegRegFlags at h
  split at h
  · cases h
    exact ⟨‹_›, rfl⟩
  · cases h

theorem immSrcRegFlags_ok {value : String} {src : Operand} {dest : Reg}
    (h : immSrcRegFlags op value src dest = .ok f) :
    op ∈ cat ["imul", "idiv"] (opt ["l"]) ∧ f = change dest := by
  unfold immSrcRegFlags at h
  split at h
  · cases h
    exact ⟨‹_›, rfl⟩
  · cases h

theorem regRegFlags_ok {src dest : Reg} (h : regRegFlags op unsafety src dest = .ok f) :
    op = "mov" ∧ src = .r32 .esp ∧ dest = .r32 .ebp ∧ CHANGE_ESP ∉ unsafety ∧
        BUMP_ESP ∉ unsafety ∧ f = {EBP_DATA_SAFE} ∨
      op = "mov" ∧ src = .r32 .ebp ∧ dest = .r32 .esp ∧ CHANGE_EBP ∉ unsafety ∧ f = {USE_ESP} ∨
      op ≠ "xchg" ∧ f = change dest ∨
      op = "xchg" ∧ f = if src = dest then ∅ else change dest ∪ change src := by
  unfold regRegFlags at h
  split at h
  · rename_i hmov
    split at h
    · rename_i hc
      cases h
      exact Or.inl ⟨hc.1, hc.2.1, hc.2.2.1, hc.2.2.2.1, hc.2.2.2.2, rfl⟩
    split at h
    · rename_i hc
      cases h
      exact Or.inr (Or.inl ⟨hc.1, hc.2.1, hc.2.2.1, hc.2.2.2, rfl⟩)
    · cases h
      refine Or.inr (Or.inr (Or.inl ⟨?_, rfl⟩))
      rintro rfl
      exact absurd hmov (by decide)
  split at h
  · rename_i hrr
    cases h
    refine Or.inr (Or.inr (Or.inl ⟨?_, rfl⟩))
    rintro rfl
    exact absurd hrr (by decide)
  split at h
  · rename_i hx
    refine Or.inr (Or.inr (Or.inr ⟨hx, ?_⟩))
    split at h <;> cases h <;> rename_i he
    · rw [if_pos he]
    · rw [if_neg he]
  · cases h

/-- The masks of a register, and what they strengthen. -/
def RegMask (L : Layout) (safety : Flags) (op value : String) (dest : Reg) (f : Flags) : Prop :=
  op = "and" ∧ (value = hexText L.data_mask ∧ dest = .r32 .ebx ∧ f = {EBX_DATA_SAFE} ∨
      value = hexText L.jump_mask ∧ dest = .r32 .ebx ∧ f = {EBX_CODE_SAFE} ∨
      value = hexText L.data_mask ∧ dest = .r32 .ebp ∧ f = {EBP_DATA_SAFE} ∨
      value = hexText L.data_mask ∧ dest = .r32 .esp ∧ f = {USE_ESP}) ∨
    op = "or" ∧ (dest = .r32 .ebx ∧ (f = {EBX_DATA_XSAFE} ∨ f = {EBX_CODE_XSAFE}) ∨
      value = hexText (BitVec.ofNat 32 L.data_start) ∧ dest = .r32 .ebp ∧ EBP_DATA_SAFE ∈ safety ∧
        f = {EBP_DATA_XSAFE} ∨
      dest = .r32 .esp ∧ ESP_DATA_SAFE ∈ safety ∧ f = {USE_ESP})

theorem immRegFlags_ok {value : String} {dest : Reg}
    (h : immRegFlags L op safety value dest = .ok f) :
    op ≠ "xchg" ∧ (RegMask L safety op value dest f ∨ f = immRegChange op value dest) := by
  unfold immRegFlags at h
  rcases ite_eq_iff.mp h with ⟨hop, h⟩ | ⟨-, h⟩
  · refine ⟨?_, Or.inr (Except.ok.inj h).symm⟩
    rw [hop]
    decide
  rcases ite_eq_iff.mp h with ⟨hop, h⟩ | ⟨-, h⟩
  · have hx : op ≠ "xchg" := by
      rintro rfl
      exact absurd hop (by decide)
    refine ⟨hx, ?_⟩
    rcases ite_eq_iff.mp h with ⟨hc, h⟩ | ⟨-, h⟩
    · cases h
      exact Or.inl (Or.inl ⟨hc.1, Or.inl ⟨hc.2.1, hc.2.2, rfl⟩⟩)
    rcases ite_eq_iff.mp h with ⟨hc, h⟩ | ⟨-, h⟩
    · cases h
      exact Or.inl (Or.inl ⟨hc.1, Or.inr (Or.inl ⟨hc.2.1, hc.2.2, rfl⟩)⟩)
    rcases ite_eq_iff.mp h with ⟨hc, h⟩ | ⟨-, h⟩
    · cases h
      exact Or.inl (Or.inl ⟨hc.1, Or.inr (Or.inr (Or.inl ⟨hc.2.1, hc.2.2, rfl⟩))⟩)
    rcases ite_eq_iff.mp h with ⟨hc, h⟩ | ⟨-, h⟩
    · cases h
      exact Or.inl (Or.inl ⟨hc.1, Or.inr (Or.inr (Or.inr ⟨hc.2.1, hc.2.2, rfl⟩))⟩)
    rcases ite_eq_iff.mp h with ⟨hc, h⟩ | ⟨-, h⟩
    · cases h
      exact Or.inl (Or.inr ⟨hc.1, Or.inl ⟨hc.2.2.1, Or.inl rfl⟩⟩)
    rcases ite_eq_iff.mp h with ⟨hc, h⟩ | ⟨-, h⟩
    · cases h
      exact Or.inl (Or.inr ⟨hc.1, Or.inl ⟨hc.2.2.1, Or.inr rfl⟩⟩)
    rcases ite_eq_iff.mp h with ⟨hc, h⟩ | ⟨-, h⟩
    · cases h
      exact Or.inl (Or.inr ⟨hc.1, Or.inr (Or.inl ⟨hc.2.1, hc.2.2.1, hc.2.2.2, rfl⟩)⟩)
    rcases ite_eq_iff.mp h with ⟨hc, h⟩ | ⟨-, h⟩
    · cases h
      exact Or.inl (Or.inr ⟨hc.1, Or.inr (Or.inr ⟨hc.2.2.1, hc.2.2.2, rfl⟩)⟩)
    · exact Or.inr (Except.ok.inj h).symm
  rcases ite_eq_iff.mp h with ⟨hop, h⟩ | ⟨-, h⟩
  · refine ⟨?_, Or.inr (Except.ok.inj h).symm⟩
    rintro rfl
    exact absurd hop (by decide)
  · cases h

/-- The operations that only read their last operand. -/
def compares (op : String) : Prop := op ∈ cat ["cmp", "test"] (opt size)

/-- What the branches for a store from a register or an immediate give. -/
def StoreFlags (safety unsafety : Flags) (op : String) (dest : Operand) (half : List Char → Bool)
    (bound : Nat) (f : Flags) : Prop :=
  dest = atEbx ∧ EBX_DATA_SAFE ∈ safety ∧ f = ∅ ∨
    op ≠ "xchg" ∧ ∃ simple, Simple unsafety dest half bound simple ∧
      (f = {simple.getD IWRITE} ∨ compares op ∧ f = {simple.getD IREAD})

theorem immComplexOp_ok {value : String} {dest : Operand} {simple : Option Flag}
    (h : immComplexOp op value dest simple = .ok f) :
    op ≠ "xchg" ∧ (f = {simple.getD IWRITE} ∨ compares op ∧ f = {simple.getD IREAD}) := by
  have hcmp : ∀ op ∈ cat ["cmp", "test"] size, op ∈ cat ["cmp", "test"] (opt size) := by decide
  unfold immComplexOp at h
  split at h
  · rename_i hop
    refine ⟨?_, Or.inl (Except.ok.inj h).symm⟩
    rintro rfl
    exact absurd hop (by decide)
  split at h
  · rename_i hop
    refine ⟨?_, Or.inr ⟨hcmp op hop, (Except.ok.inj h).symm⟩⟩
    rintro rfl
    exact absurd hop (by decide)
  split at h
  · rename_i hop
    refine ⟨?_, Or.inl (Except.ok.inj h).symm⟩
    rintro rfl
    exact absurd hop (by decide)
  · cases h

theorem regComplexOp_ok {src : Reg} {dest : Operand} {simple : Option Flag}
    (h : regComplexOp op src dest simple = .ok f) :
    op ≠ "xchg" ∧ (f = {simple.getD IWRITE} ∨ compares op ∧ f = {simple.getD IREAD}) := by
  unfold regComplexOp at h
  split at h
  · rename_i hop
    refine ⟨?_, Or.inl (Except.ok.inj h).symm⟩
    rintro rfl
    exact absurd hop (by decide)
  split at h
  · rename_i hop
    refine ⟨?_, Or.inr ⟨hop, (Except.ok.inj h).symm⟩⟩
    rintro rfl
    exact absurd hop (by decide)
  split at h
  · rename_i hop
    refine ⟨?_, Or.inl (Except.ok.inj h).symm⟩
    rintro rfl
    exact absurd hop (by decide)
  · cases h

/-- `andl $JUMP_MASK,off(%esp)`: the test of the offset is an assignment. -/
def MasksStack (L : Layout) (op value : String) (dest : Operand) : Prop :=
  op = "andl" ∧ value = hexText L.jump_mask ∧
    ∃ t, dest.offsetFrom .esp true = some t ∧ (halfOffset t.toList = true ∨ t = "")

theorem immComplexFlags_ok {value : String} {dest : Operand}
    (h : immComplexFlags L op safety unsafety value dest = .ok f) :
    MasksStack L op value dest ∧ f = {USE_ESP, STACK_TOP_SAFE} ∨
      op = "orl" ∧ value = hexText (BitVec.ofNat 32 L.code_start) ∧ STACK_TOP_SAFE ∈ safety ∧
        (∃ t, dest.offsetFrom .esp true = some t) ∧ f = {USE_ESP, STACK_TOP_XSAFE} ∨
      StoreFlags safety unsafety op dest halfOffset 32768 f := by
  unfold immComplexFlags at h
  split at h
  · rename_i ht
    split at h
    · rename_i hok
      obtain ⟨hx, hf⟩ := immComplexOp_ok h
      exact Or.inr (Or.inr (Or.inr ⟨hx, _, .ebp _ ht hok.1 hok.2, hf⟩))
    · obtain ⟨hx, hf⟩ := immComplexOp_ok h
      exact Or.inr (Or.inr (Or.inr ⟨hx, _, .none, hf⟩))
  · rename_i ht _
    split at h
    · rename_i hoff
      rw [Bool.or_eq_true, decide_eq_true_eq] at hoff
      split at h
      · rename_i hc
        cases h
        exact Or.inl ⟨⟨hc.1, hc.2, _, ht, hoff⟩, rfl⟩
      split at h
      · rename_i hc
        cases h
        exact Or.inr (Or.inl ⟨hc.1, hc.2.1, hc.2.2, ⟨_, ht⟩, rfl⟩)
      split at h
      · rename_i hok
        obtain ⟨hx, hf⟩ := immComplexOp_ok h
        exact Or.inr (Or.inr (Or.inr ⟨hx, _, .esp _ ht hok.1 hok.2, hf⟩))
      · obtain ⟨hx, hf⟩ := immComplexOp_ok h
        exact Or.inr (Or.inr (Or.inr ⟨hx, _, .none, hf⟩))
    · obtain ⟨hx, hf⟩ := immComplexOp_ok h
      exact Or.inr (Or.inr (Or.inr ⟨hx, _, .none, hf⟩))
  · split at h
    · rename_i hebx
      cases h
      exact Or.inr (Or.inr (Or.inl ⟨hebx.1, hebx.2, rfl⟩))
    · obtain ⟨hx, hf⟩ := immComplexOp_ok h
      exact Or.inr (Or.inr (Or.inr ⟨hx, _, .none, hf⟩))

theorem regComplexFlags_ok {src : Reg} {dest : Operand}
    (h : regComplexFlags op safety unsafety src dest = .ok f) :
    StoreFlags safety unsafety op dest (signed anyHex) 32767 f := by
  unfold regComplexFlags at h
  split at h
  · rename_i ht
    split at h
    · rename_i hok
      obtain ⟨hx, hf⟩ := regComplexOp_ok h
      exact Or.inr ⟨hx, _, .ebp _ ht hok.1 hok.2, hf⟩
    · obtain ⟨hx, hf⟩ := regComplexOp_ok h
      exact Or.inr ⟨hx, _, .none, hf⟩
  · rename_i ht _
    split at h
    · rename_i hok
      obtain ⟨hx, hf⟩ := regComplexOp_ok h
      exact Or.inr ⟨hx, _, .esp _ ht hok.1 (smallOffset_mono (fun _ _ => rfl) hok.2), hf⟩
    · obtain ⟨hx, hf⟩ := regComplexOp_ok h
      exact Or.inr ⟨hx, _, .none, hf⟩
  · split at h
    · rename_i hebx
      cases h
      exact Or.inl ⟨hebx.1, hebx.2, rfl⟩
    · obtain ⟨hx, hf⟩ := regComplexOp_ok h
      exact Or.inr ⟨hx, _, .none, hf⟩

theorem absFlags_ok {haddr} (h : absFlags L op haddr = .ok f) :
    inData L haddr.val = true ∧ (op = "pushl" ∧ f = {USE_ESP} ∨ f = ∅) := by
  unfold absFlags at h
  split at h
  · split at h
    · cases h
    rename_i hin
    rw [Bool.not_eq_true, Bool.not_eq_false'] at hin
    split at h <;> cases h
    · exact ⟨hin, Or.inl ⟨‹_›, rfl⟩⟩
    · exact ⟨hin, Or.inr rfl⟩
  · cases h

theorem absRegFlags_ok {haddr} {dest : Reg} (h : absRegFlags L haddr dest = .ok f) :
    inData L haddr.val = true ∧ f = change dest := by
  unfold absRegFlags at h
  split at h
  · cases h
  · rename_i hin
    rw [Bool.not_eq_true, Bool.not_eq_false'] at hin
    exact ⟨hin, (Except.ok.inj h).symm⟩

theorem toAbsFlags_ok {haddr} (h : toAbsFlags L haddr = .ok f) :
    inData L haddr.val = true ∧ f = ∅ := by
  unfold toAbsFlags at h
  split at h
  · cases h
  · rename_i hin
    rw [Bool.not_eq_true, Bool.not_eq_false'] at hin
    exact ⟨hin, (Except.ok.inj h).symm⟩

/-- What a load takes the change of the registers to be. -/
def loadChange (op : String) (src : Operand) (dest : Reg) : Flags :=
  (if dest.whole = some .ebp then {CHANGE_EBP} else ∅) ∪
    (if dest.whole = some .esp then
      if isBumpLea op src then {BUMP_ESP} else {CHANGE_ESP}
    else ∅)

theorem complexRegFlags_ok {src : Operand} {dest : Reg}
    (h : complexRegFlags op unsafety src dest = .ok f) :
    op ≠ "xchg" ∧ (f = loadChange op src dest ∨ f = loadChange op src dest ∪ {USE_EBP} ∨
      f = loadChange op src dest ∪ {IREAD}) := by
  have hif : ∀ c : Bool, f = loadChange op src dest ∪ (if c then {USE_EBP} else {IREAD}) →
      f = loadChange op src dest ∨ f = loadChange op src dest ∪ {USE_EBP} ∨
        f = loadChange op src dest ∪ {IREAD} := by
    rintro (_ | _) hf
    · exact Or.inr (Or.inr hf)
    · exact Or.inr (Or.inl hf)
  unfold complexRegFlags at h
  extract_lets chg simple at h
  split at h
  · rename_i hop
    refine ⟨?_, hif simple (Except.ok.inj h).symm⟩
    rintro rfl
    exact absurd hop (by decide)
  split at h
  · rename_i hop
    refine ⟨?_, hif simple (Except.ok.inj h).symm⟩
    rintro rfl
    exact absurd hop (by decide)
  split at h
  · rename_i hop
    refine ⟨?_, Or.inl (Except.ok.inj h).symm⟩
    rw [hop]
    decide
  · cases h

theorem targetFlags_ok {address : String} (h : targetFlags L op address = .ok f) :
    BitVec.ofNat 32 (hex address) &&& BitVec.ofNat 32 (L.chunk_size - 1) = 0 ∧
      L.code_start ≤ hex address ∧ hex address < L.code_end ∧
      f = {JUMP} ∪ if op = "call" then {USE_ESP} else ∅ := by
  unfold targetFlags at h
  split at h
  · cases h
  rename_i halign
  split at h
  · cases h
  · rename_i hrange
    exact ⟨not_not.mp halign, by omega, by omega, (Except.ok.inj h).symm⟩

theorem starFlags_ok {target : Reg} (h : starFlags op safety target = .ok f) :
    target = .r32 .ebx ∧ EBX_CODE_SAFE ∈ safety ∧ f = {JUMP} ∪ (if op = "call" then {USE_ESP} else ∅) ∨
      f = {IJUMP} ∪ ({JUMP} ∪ if op = "call" then {USE_ESP} else ∅) := by
  unfold starFlags at h
  extract_lets flags at h
  split at h
  · rename_i hc
    exact Or.inl ⟨hc.1, hc.2, (Except.ok.inj h).symm⟩
  · exact Or.inr (Except.ok.inj h).symm

theorem otherRegFlags_ok {text : String} {target : Reg}
    (h : otherRegFlags op text target = .ok f) :
    op = "lea" ∧ (target = .r32 .esi ∨ target = .r32 .edi) ∧ f = ∅ ∨
      (op = "mov" ∨ op = "xor") ∧ f = change target := by
  unfold otherRegFlags at h
  split at h
  · rename_i hreg
    split at h
    · cases h
      exact Or.inl ⟨‹_›, hreg.imp (·.2) (·.2), rfl⟩
    · cases h
  split at h
  · split at h
    · cases h
      exact Or.inr ⟨‹_›, rfl⟩
    · cases h
  · cases h

end

end Pittsfield.Offline
