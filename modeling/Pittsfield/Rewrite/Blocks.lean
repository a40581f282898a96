import Pittsfield.Rewrite.Agreement

/-!
# The instructions that the script prints

What `maybe_rewrite` adds to the output, as a list of instructions, and what the pushes,
pops and masks among them do.
-/

namespace Pittsfield.Rewrite

open Pittsfield.Region
open Pittsfield.Machine
open Pittsfield.Offline

section Code

def Item.insn? : Item → Option Insn
  | .insn i => some i
  | _ => none

/-- The instructions printed so far. -/
def Out.code (o : Out) : List Insn := o.printed.filterMap Item.insn?

variable {L : Layout} {o : Out} {i : Insn} {n : Nat}

@[simp] theorem code_print (item : Item) : (o.print item).code = o.code ++ item.insn?.toList := by
  rw [Out.print, Out.code, List.filterMap_append, Out.code]
  cases item <;> rfl

@[simp] theorem code_align : o.align.code = o.code := by
  show (o.print .align).code = o.code
  rw [code_print]
  exact List.append_nil _

@[simp] theorem code_emit : (o.emit i n).code = o.code ++ [i] := code_print (.insn i)

@[simp] theorem code_maybe_align_for : (maybe_align_for L o n).code = o.code := by
  rw [maybe_align_for]
  split
  · exact code_align
  · rfl

@[simp] theorem code_a_emit : (a_emit L o i n).code = o.code ++ [i] := by
  rw [a_emit, code_emit, code_maybe_align_for]

/-- The flags of the script are those of another state of it. -/
def SameMarks (o o' : Out) : Prop :=
  o'.dirty_esp = o.dirty_esp ∧ o'.forward_eflags_live = o.forward_eflags_live

theorem maybe_align_for_marks : SameMarks o (maybe_align_for L o n) := by
  rw [maybe_align_for]
  split <;> exact ⟨rfl, rfl⟩

theorem a_emit_marks : SameMarks o (a_emit L o i n) := maybe_align_for_marks (L := L)

/-- The operand of the store that `maybe_rewrite` masks, if it masks one. -/
def maskedTarget (i : Insn) : Option Operand :=
  match i.args with
  | [source, target] =>
    if source.source && target.inMemory && !comparesOnly i.op && !keepsTwo i.op source target then
      some target
    else none
  | [target] =>
    if target.inMemory && unaryStore i.op && !keepsOne i.op target then some target else none
  | _ => none

/-- `$early_popf`, for stores of one operand. -/
def earlyPopf (i : Insn) : Bool := i.args.length = 1 && isSet i.op

/-- The instruction with `(%ebx)` for its last operand. -/
def Insn.throughEbx (i : Insn) : Insn := { i with args := i.args.dropLast ++ [atEbx] }

/-- The instructions before a masked store. -/
def prelude (L : Layout) (precious early : Bool) (target : Operand) : List Insn :=
  (if precious then [pushf] else []) ++ [leaEbx target, andData L .ebx] ++
    if precious && early then [popf] else []

/-- The instructions for a masked store. -/
def maskedStore (L : Layout) (precious : Bool) (i : Insn) (target : Operand) : List Insn :=
  prelude L precious (earlyPopf i) target ++ [i.throughEbx] ++
    if precious && !earlyPopf i then [popf] else []

/-- What was printed since. -/
def emitted (o o' : Out) : List Insn := o'.code.drop o.code.length

variable {p : Bool} {op : String} {source target : Operand}

theorem storeTwo_code : (storeTwo L o p op source target).code =
    o.code ++ maskedStore L p ⟨op, [source, target]⟩ target := by
  cases p <;> simp [storeTwo, maskedStore, prelude, earlyPopf, Insn.throughEbx]

theorem storeOne_code : (storeOne L o p op target).code =
    o.code ++ maskedStore L p ⟨op, [target]⟩ target := by
  cases p <;> cases hs : isSet op <;>
    simp [storeOne, maskedStore, prelude, earlyPopf, Insn.throughEbx, hs]

theorem storeTwo_marks : SameMarks o (storeTwo L o p op source target) := by
  have h1 : SameMarks o (if p then a_emit L o pushf 1 else o) := by
    cases p
    · exact ⟨rfl, rfl⟩
    · exact a_emit_marks
  generalize hb : (if p then a_emit L o pushf 1 else o) = b at h1
  have h2 := a_emit_marks (L := L) (o := b) (i := leaEbx target) (n := 7)
  generalize hc : a_emit L b (leaEbx target) 7 = c at h2
  have h3 := maybe_align_for_marks (L := L) (o := c) (n := 6 + p.toNat + 6)
  have h : SameMarks o (maybe_align_for L c (6 + p.toNat + 6)) :=
    ⟨h3.1.trans (h2.1.trans h1.1), h3.2.trans (h2.2.trans h1.2)⟩
  simp only [storeTwo, hb, hc]
  split
  · exact h
  · exact h

theorem storeOne_marks : SameMarks o (storeOne L o p op target) := by
  have h1 : SameMarks o (if p then a_emit L o pushf 1 else o) := by
    cases p
    · exact ⟨rfl, rfl⟩
    · exact a_emit_marks
  generalize hb : (if p then a_emit L o pushf 1 else o) = b at h1
  have h2 := a_emit_marks (L := L) (o := b) (i := leaEbx target) (n := 6)
  generalize hc : a_emit L b (leaEbx target) 6 = c at h2
  have h3 := maybe_align_for_marks (L := L) (o := c) (n := 6 + p.toNat + 3)
  have h : SameMarks o (maybe_align_for L c (6 + p.toNat + 3)) :=
    ⟨h3.1.trans (h2.1.trans h1.1), h3.2.trans (h2.2.trans h1.2)⟩
  simp only [storeOne, hb, hc]
  split <;> split <;> exact h

theorem emitted_of_code {o' : Out} {is : List Insn} (h : o'.code = o.code ++ is) :
    emitted o o' = is := by
  rw [emitted, h, List.drop_left]

/-- A masked store is printed as the list of its instructions. -/
theorem maybe_rewrite_masked (hm : maskedTarget i = some target) :
    ∃ o', maybe_rewrite L o p i = .ok (some o') ∧ o'.code = o.code ++ maskedStore L p i target ∧
      SameMarks o o' := by
  obtain ⟨op, args⟩ := i
  match args with
  | [] => cases hm
  | [q] =>
    rcases ite_eq_iff.mp hm with ⟨hc, he⟩ | ⟨-, he⟩
    · obtain rfl := Option.some.inj he
      simp only [Bool.and_eq_true, Bool.not_eq_true'] at hc
      refine ⟨_, ?_, storeOne_code, storeOne_marks⟩
      simp [maybe_rewrite, hc]
    · cases he
  | [source, q] =>
    rcases ite_eq_iff.mp hm with ⟨hc, he⟩ | ⟨-, he⟩
    · obtain rfl := Option.some.inj he
      simp only [Bool.and_eq_true, Bool.not_eq_true'] at hc
      refine ⟨_, ?_, storeTwo_code, storeTwo_marks⟩
      simp [maybe_rewrite, hc]
    · cases he
  | _ :: _ :: _ :: _ => cases hm

end Code

section Steps

variable {E : Type} {sym : String → Word} {foot : Footprint} {isa : Isa E} {L : Layout}
variable {s t : Proc E} {target : Operand} {p early : Bool}

theorem number_hexText (w : Word) : number (hexText w) = some w.toInt := by
  have hx : decimalDigit 'x' = none := by decide
  rw [number, ← signed_word_hexText]
  simp [hexText, hx]

@[simp] theorem constValue_hexConst (w : Word) : constValue sym (hexConst w) = w := by
  rw [constValue, show (hexConst w).val = hexText w from rfl, number_hexText, Option.map_some,
    Option.getD_some, BitVec.ofInt_toInt]

@[simp] theorem run_nil : run sym foot isa [] s = s := rfl

@[simp] theorem run_cons (i : Insn) (is : List Insn) :
    run sym foot isa (i :: is) s = run sym foot isa is (step sym foot isa i s) := rfl

theorem run_append (is js : List Insn) :
    run sym foot isa (is ++ js) s = run sym foot isa js (run sym foot isa is s) :=
  List.foldl_append

theorem step_pushf :
    step sym foot isa pushf s = { s with cpu := pushOp .dword s.cpu.eflags s.cpu } := by
  have hk : kind "pushf" = .pushf := by decide
  simp [step, pushf, hk]

theorem step_popf :
    step sym foot isa popf s =
      { s with cpu := (s.cpu.setReg .esp (s.cpu.reg .esp + 4)).setFlags
                 (s.cpu.load .dword (s.cpu.reg .esp)) } := by
  have hk : kind "popf" = .popf := by decide
  simp [step, popf, hk]

theorem step_leaEbx : step sym foot isa (leaEbx target) s =
    { s with cpu := s.cpu.setReg .ebx ((address sym s.cpu target).getD 0) } := by
  have hk : kind "leal" = .lea := by decide
  simp [step, leaEbx, hk, Cpu.writeReg]

/-- The flags that a mask of a register leaves. -/
def maskFlags (sym : String → Word) (foot : Footprint) (isa : Isa E) (L : Layout) (r : Reg32)
    (s : Proc E) : Word :=
  isa.flags (andData L r).shape (inputs sym foot (andData L r) s)

theorem step_andData (r : Reg32) : step sym foot isa (andData L r) s =
    { s with cpu := (s.cpu.setReg r (s.cpu.reg r &&& L.data_mask)).setFlags
                 (maskFlags sym foot isa L r s) } := by
  have hk : kind "andl" = .data := by decide
  simp only [step, andData, andMask, hk, if_true, andOp, constValue_hexConst]
  rfl

theorem touched_andData (r : Reg32) : flagsTouched (andData L r).shape = statusMask := by
  show flagsTouched ⟨"andl", _⟩ = statusMask
  have hk : "andl" ∉ keepsFlags := by decide
  simp [flagsTouched, hk]

/-- A mask changes the status flags alone. -/
theorem maskFlags_same (r : Reg32) :
    SameFlags statusMask s.cpu.eflags (maskFlags sym foot isa L r s) := by
  have h := isa.touched (andData L r).shape (inputs sym foot (andData L r) s)
  rwa [touched_andData] at h

/-- The processor in which the address is computed: precious flags have been pushed. -/
def lowered (p : Bool) (c : Cpu) : Cpu := if p then pushOp .dword c.eflags c else c

/-- The state in which the masked store runs. -/
structure Ready (sym : String → Word) (foot : Footprint) (isa : Isa E) (L : Layout) (p early : Bool)
    (target : Operand) (t t' : Proc E) : Prop where
  ebx : t'.cpu.reg .ebx = (address sym (lowered p t.cpu) target).getD 0 &&& L.data_mask
  esp : t'.cpu.reg .esp = if p && !early then t.cpu.reg .esp - 4 else t.cpu.reg .esp
  reg : ∀ r, r ≠ .ebx → r ≠ .esp → t'.cpu.reg r = t.cpu.reg r
  mem : t'.cpu.mem = (lowered p t.cpu).mem
  fpu : t'.fpu = t.fpu
  flags : if p && early then t'.cpu.eflags = t.cpu.eflags
    else ∃ x : Proc E, t'.cpu.eflags = maskFlags sym foot isa L .ebx x ∧
      x.cpu.eflags = t.cpu.eflags

theorem pushOp_reg (v : Word) (c : Cpu) :
    (pushOp .dword v c).reg .esp = c.reg .esp - 4 ∧
      ∀ r, r ≠ .esp → (pushOp .dword v c).reg r = c.reg r :=
  ⟨Cpu.setReg_same _ _ _, fun _ hr => Cpu.setReg_other _ _ hr⟩

variable (sym foot isa L t target p early) in
theorem prelude_ready :
    Ready sym foot isa L p early target t (run sym foot isa (prelude L p early target) t) := by
  cases p with
  | false =>
    simp only [prelude, Bool.false_and, Bool.false_eq_true, if_false, List.nil_append, List.append_nil,
      run_cons, run_nil, step_leaEbx, step_andData]
    refine ⟨?_, rfl, ?_, rfl, rfl, _, rfl, rfl⟩
    · simp [lowered, Cpu.setReg, Cpu.setFlags]
    · intro r hr _
      simp [Cpu.setReg, Cpu.setFlags, hr]
  | true =>
    obtain ⟨hesp, hother⟩ := pushOp_reg t.cpu.eflags t.cpu
    cases early with
    | false =>
      simp only [prelude, Bool.and_false, Bool.false_eq_true, if_false, if_true, List.nil_append,
        List.append_nil, List.cons_append, run_cons, run_nil, step_leaEbx, step_andData, step_pushf]
      refine ⟨?_, ?_, ?_, rfl, rfl, _, rfl, rfl⟩
      · simp [lowered, Cpu.setReg, Cpu.setFlags]
      · simpa [Cpu.setReg, Cpu.setFlags] using hesp
      · intro r hr hre
        simpa [Cpu.setReg, Cpu.setFlags, hr] using hother r hre
    | true =>
      simp only [prelude, Bool.and_true, if_true, List.nil_append, List.cons_append, run_cons, run_nil,
        step_leaEbx, step_andData, step_pushf, step_popf]
      refine ⟨?_, ?_, ?_, rfl, rfl, ?_⟩
      · simp [lowered, Cpu.setReg, Cpu.setFlags]
      · simp [Cpu.setReg, Cpu.setFlags, hesp, BitVec.sub_add_cancel]
      · intro r hr hre
        simpa [Cpu.setReg, Cpu.setFlags, hr, hre] using hother r hre
      · have hload : (pushOp .dword t.cpu.eflags t.cpu).load .dword (t.cpu.reg .esp - 4) =
            t.cpu.eflags := Cpu.load_store t.cpu (t.cpu.reg .esp - 4) t.cpu.eflags
        simp [Cpu.setReg, Cpu.setFlags, hesp]
        exact hload

end Steps

end Pittsfield.Rewrite
