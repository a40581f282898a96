import Pittsfield.Rewrite.Stores

/-!
# Lines that are printed as they are

An instruction that runs in two states in agreement, and names no register, reads no flag and
reads no byte in which they differ, leaves them in agreement.
-/

namespace Pittsfield.Rewrite

open Pittsfield.Region
open Pittsfield.Machine
open Pittsfield.Offline

/-- The bytes of an operand of the stack instructions, if it is in memory. -/
def slotBytes (sym : String → Word) (c : Cpu) (w : Width) (o : Operand) : Set Word :=
  {x | ∃ a, address sym c o = some a ∧ x ∈ extent a w.bytes}

/-- The processor behind the pop of a slot. -/
def popped (w : Width) (c : Cpu) : Cpu := c.setReg .esp (c.reg .esp + BitVec.ofNat 32 w.bytes)

section

variable {E : Type} (sym : String → Word) (foot : Footprint) (isa : Isa E) (i : Insn)

/-- The bytes that an instruction reads. -/
def bytesRead (s : Cpu) : Set Word :=
  match kind i.op, i.args with
  | .push, [source] => slotBytes sym s (slotWidth i) source
  | .pop, [_] => extent (s.reg .esp) (slotWidth i).bytes
  | .popf, [] => extent (s.reg .esp) 4
  | .leave, [] => extent (s.reg .ebp) 4
  | .data, _ => dataReads sym foot i s
  | _, _ => ∅

/-- The bytes that an instruction writes. -/
def bytesWritten (s : Proc E) : Set Word :=
  match kind i.op, i.args with
  | .push, [_] =>
    extent (s.cpu.reg .esp - BitVec.ofNat 32 (slotWidth i).bytes) (slotWidth i).bytes
  | .pop, [target] => slotBytes sym (popped (slotWidth i) s.cpu) (slotWidth i) target
  | .pushf, [] => slot s.cpu
  | .data, _ => dataWrites sym foot isa i s
  | _, _ => ∅

end

section

variable {E : Type} {sym : String → Word} {foot : Footprint} {isa : Isa E}
variable {S : Word} {D : Set Word} {s t : Proc E} {i : Insn}

theorem Agree.weaken {R : Set Reg32} {S' : Word} {D' : Set Word} (h : Agree R S D s t)
    (hS : S &&& ~~~S' = 0) (hD : D ⊆ D') : Agree R S' D' s t :=
  ⟨h.reg, fun x hx => h.mem x fun hd => hx (hD hd), h.flags.mono hS, h.fpu⟩

/-- Writing a register to which both states give the same value. -/
theorem Agree.setReg {R : Set Reg32} (h : Agree R S D s t) (q : Reg32) (v : Word) :
    Agree R S D { s with cpu := s.cpu.setReg q v } { t with cpu := t.cpu.setReg q v } :=
  ⟨setReg_agree h.reg q v, h.mem, h.flags, h.fpu⟩

theorem Agree.writeReg {R : Set Reg32} (h : Agree R S D s t) (q : Reg) (v : Word) :
    Agree R S D { s with cpu := s.cpu.writeReg v q } { t with cpu := t.cpu.writeReg v q } := by
  refine ⟨writeReg_agree h.reg q v, ?_, ?_, h.fpu⟩
  · intro x hx
    rw [Cpu.writeReg_mem, Cpu.writeReg_mem]
    exact h.mem x hx
  · rw [Cpu.writeReg_eflags, Cpu.writeReg_eflags]
    exact h.flags

theorem Agree.store {R : Set Reg32} (h : Agree R S D s t) (w : Width) (a v : Word) :
    Agree R S (D \ extent a w.bytes) { s with cpu := s.cpu.store w a v }
      { t with cpu := t.cpu.store w a v } :=
  ⟨h.reg, putBytes_agree v h.mem, h.flags, h.fpu⟩

theorem Agree.load {R : Set Reg32} (h : Agree R S D s t) (w : Width) {a : Word}
    (hD : ∀ x ∈ extent a w.bytes, x ∉ D) : s.cpu.load w a = t.cpu.load w a :=
  bytesAt_agree fun x hx => h.mem x (hD x hx)

theorem Agree.push {R : Set Reg32} (h : Agree R S D s t) (hesp : .esp ∉ R) (w : Width) (v : Word) :
    Agree R S (D \ extent (s.cpu.reg .esp - BitVec.ofNat 32 w.bytes) w.bytes)
      { s with cpu := pushOp w v s.cpu } { t with cpu := pushOp w v t.cpu } := by
  rw [pushOp, pushOp, ← h.reg _ hesp]
  exact (h.store w (s.cpu.reg .esp - BitVec.ofNat 32 w.bytes) v).setReg .esp _

variable (sym) in
theorem slotValue_agree {o : Operand} (w : Width) (h : Agree {.ebx} S D s t) (ho : .ebx ∉ o.regs)
    (hD : ∀ x ∈ slotBytes sym s.cpu w o, x ∉ D) :
    slotValue sym s.cpu w o = slotValue sym t.cpu w o := by
  have hregs : ∀ r ∈ o.regs, r ∉ ({.ebx} : Set Reg32) := by
    rintro r hr rfl
    exact ho hr
  rw [slotValue, slotValue, ← address_agree sym o h.reg hregs, ← plainValue_agree h.reg hregs]
  cases ha : address sym s.cpu o with
  | none => rfl
  | some a => exact h.load w fun x hx => hD x ⟨a, ha, hx⟩

theorem slotBytes_none {c : Cpu} {w : Width} {o : Operand} (h : address sym c o = none) :
    slotBytes sym c w o = ∅ := by
  rw [slotBytes, h]
  exact Set.eq_empty_of_forall_notMem (by rintro x ⟨_, ha, _⟩; cases ha)

theorem slotBytes_some {c : Cpu} {w : Width} {o : Operand} {a : Word} (h : address sym c o = some a) :
    slotBytes sym c w o = extent a w.bytes := by
  rw [slotBytes, h]
  ext x
  constructor
  · rintro ⟨b, hb, hx⟩
    cases hb
    exact hx
  · exact fun hx => ⟨a, rfl, hx⟩

/-- Instructions that are neither data nor `popf` leave the flags alone. -/
theorem keepsFlags_of_kind {op : String} (hdata : kind op ≠ .data) (hpopf : kind op ≠ .popf) :
    op ∈ keepsFlags := by
  have hall : ∀ op ∈ cat ["push"] (opt size) ++ cat ["pop"] (opt size) ++ cat ["lea"] (opt size) ++
      cat ["j"] cond ++ ["pushf", "leave", "jecxz", "jmp", "call", "ret"], op ∈ keepsFlags := by
    decide +kernel
  apply hall
  by_contra hno
  simp only [List.mem_append, List.mem_cons, List.not_mem_nil, or_false, not_or] at hno
  obtain ⟨⟨⟨⟨h1, h2⟩, h3⟩, h4⟩, h5, h6, h7, h8, h9, h10⟩ := hno
  by_cases hp : op = "popf"
  · exact hpopf (by rw [hp]; decide)
  · exact hdata (by simp [kind, h1, h2, h3, h4, h5, h6, h7, h8, h9, h10, hp])

theorem op_of_pushf {op : String} (h : kind op = .pushf) : op = "pushf" := by
  by_contra hne
  unfold kind at h
  rw [if_neg hne] at h
  repeat' split at h
  all_goals cases h

theorem op_of_popf {op : String} (h : kind op = .popf) : op = "popf" := by
  by_contra hne
  unfold kind at h
  rw [if_neg hne] at h
  repeat' split at h
  all_goals cases h

theorem flagsDefined_kept (h : i.op ∈ keepsFlags) : flagsDefined i = 0 := by
  rw [flagsDefined, flagsTouched, if_pos h]
  exact BitVec.zero_and

theorem Agree.kept {R : Set Reg32} (h : Agree R S D s t) (hd : flagsDefined i = 0) :
    Agree R (S &&& ~~~flagsDefined i) D s t := by
  refine h.weaken ?_ (Set.Subset.refl D)
  rw [hd, show (~~~(0 : Word)) = BitVec.allOnes 32 from by decide, BitVec.and_allOnes,
    BitVec.and_not_self]

theorem kept_of_kind (hdata : kind i.op ≠ .data) (hpopf : kind i.op ≠ .popf) :
    flagsDefined i = 0 := flagsDefined_kept (keepsFlags_of_kind hdata hpopf)

theorem SameFlags.eq {a b : Word} (h : SameFlags 0 a b) : a = b :=
  BitVec.eq_of_getLsbD_eq fun k _ => h k (BitVec.getLsbD_zero)

/-- A data instruction has the same operands in both states. -/
theorem data_agree (h : Agree {.ebx} S D s t) (hk : kind i.op = .data) (hebx : .ebx ∉ i.regs)
    (hS : S &&& flagsRead i = 0) (hD : ∀ x ∈ dataReads sym foot i s.cpu, x ∉ D) :
    Agree {.ebx} (S &&& ~~~flagsDefined i) (D \ dataWrites sym foot isa i s)
      (step sym foot isa i s) (step sym foot isa i t) := by
  have hscratch : ScratchAgrees {.ebx} := ⟨by decide, by decide, by decide⟩
  have hregs : ∀ r ∈ i.regs, r ∉ ({.ebx} : Set Reg32) := by
    rintro r hr rfl
    exact hebx hr
  have ho : SameOperands sym foot i i s.cpu t.cpu := sameOperands_self h.reg hregs
  have hdata := dataOp_agree isa h hscratch ho hD hS
  unfold step
  rw [hk]
  split
  any_goals contradiction
  · rename_i value r _ hargs
    split
    · -- the mask of a register: it has no operand in memory
      have hnone : ∀ c, place sym foot i c = none := by
        intro c
        rw [place, hargs]
        rfl
      have hwrites : dataWrites sym foot isa i s = ∅ := by
        rw [dataWrites, hnone]
        exact Set.eq_empty_of_forall_notMem (by rintro x ⟨_, ha, _⟩; cases ha)
      have hr : s.cpu.reg r = t.cpu.reg r := by
        refine h.reg r (hregs r ?_)
        rw [Insn.regs, hargs]
        exact List.mem_flatMap.mpr ⟨.reg (.r32 r), by simp, List.mem_singleton_self r⟩
      rw [hwrites, Set.sdiff_empty, andOp, andOp, ← hr]
      exact ⟨setReg_agree h.reg r _, h.mem, flags_agree h hscratch ho hD hS, h.fpu⟩
    · exact hdata
  · exact hdata

variable (sym foot isa) in
/-- The step lemma: a line that is printed as it is keeps the states in agreement. -/
theorem step_agree (h : Agree {.ebx} S D s t) (hebx : .ebx ∉ i.regs) (hS : S &&& flagsRead i = 0)
    (hD : ∀ x ∈ bytesRead sym foot i s.cpu, x ∉ D) :
    Agree {.ebx} (S &&& ~~~flagsDefined i) (D \ bytesWritten sym foot isa i s)
      (step sym foot isa i s) (step sym foot isa i t) := by
  have hesp : s.cpu.reg .esp = t.cpu.reg .esp := h.reg _ (by decide)
  have hregs : ∀ o ∈ i.args, .ebx ∉ o.regs := fun o ho hr =>
    hebx (List.mem_flatMap.mpr ⟨o, ho, hr⟩)
  cases hk : kind i.op with
  | data =>
    rw [bytesRead, hk] at hD
    rw [bytesWritten, hk]
    exact data_agree h hk hebx hS hD
  | push =>
    have hd : flagsDefined i = 0 := kept_of_kind (by rw [hk]; decide) (by rw [hk]; decide)
    rw [bytesRead, hk] at hD
    rw [bytesWritten, step, step, hk]
    cases hargs : i.args with
    | nil =>
      simp only [Set.sdiff_empty]
      exact h.kept hd
    | cons source rest =>
      cases rest with
      | nil =>
        rw [hargs] at hD hregs
        have hv := slotValue_agree sym (slotWidth i) h (hregs source List.mem_cons_self) hD
        simp only [← hv]
        exact (h.push (by decide) _ _).kept hd
      | cons =>
        simp only [Set.sdiff_empty]
        exact h.kept hd
  | pop =>
    have hd : flagsDefined i = 0 := kept_of_kind (by rw [hk]; decide) (by rw [hk]; decide)
    rw [bytesRead, hk] at hD
    rw [bytesWritten, step, step, hk]
    cases hargs : i.args with
    | nil =>
      simp only [Set.sdiff_empty]
      exact h.kept hd
    | cons target rest =>
      cases rest with
      | nil =>
        rw [hargs] at hD hregs
        have hv := h.load (slotWidth i) hD
        have hpop := h.setReg .esp (s.cpu.reg .esp + BitVec.ofNat 32 (slotWidth i).bytes)
        have haddr := address_agree sym target hpop.reg (by
          rintro r hr rfl
          exact hregs target List.mem_cons_self hr)
        simp only [← hesp, ← hv, popped]
        change address sym (s.cpu.setReg .esp _) target = address sym (t.cpu.setReg .esp _) target at haddr
        rw [← haddr]
        cases ha : address sym (s.cpu.setReg .esp (s.cpu.reg .esp + BitVec.ofNat 32 (slotWidth i).bytes))
            target with
        | none =>
          rw [slotBytes_none ha, Set.sdiff_empty]
          cases target with
          | reg r => exact (hpop.writeReg r _).kept hd
          | imm | mem | const | star | other => exact hpop.kept hd
        | some a =>
          rw [slotBytes_some ha]
          cases target with
          | mem | const => exact (hpop.store _ a _).kept hd
          | reg | imm | star | other => cases ha
      | cons =>
        simp only [Set.sdiff_empty]
        exact h.kept hd
  | pushf =>
    have hd : flagsDefined i = 0 := kept_of_kind (by rw [hk]; decide) (by rw [hk]; decide)
    have hop : i.op = "pushf" := op_of_pushf hk
    have hall : flagsRead i = BitVec.allOnes 32 := by rw [flagsRead, if_pos hop]
    rw [hall, BitVec.and_allOnes] at hS
    obtain rfl := hS
    rw [bytesWritten, step, step, hk]
    cases hargs : i.args with
    | nil =>
      simp only [← h.flags.eq]
      exact (h.push (by decide) .dword s.cpu.eflags).kept hd
    | cons =>
      simp only [Set.sdiff_empty]
      exact h.kept hd
  | popf =>
    rw [bytesRead, hk] at hD
    rw [bytesWritten, step, step, hk]
    cases hargs : i.args with
    | nil =>
      rw [hargs] at hD
      have hv := h.load .dword hD
      simp only [Set.sdiff_empty, ← hesp, ← hv]
      have hpop := h.setReg .esp (s.cpu.reg .esp + 4)
      exact ⟨hpop.reg, h.mem, fun _ _ => rfl, h.fpu⟩
    | cons =>
      have hd : flagsDefined i = 0 := by
        rw [flagsDefined, if_pos (op_of_popf hk), if_neg (by rw [hargs]; exact List.cons_ne_nil _ _)]
        exact BitVec.and_zero
      simp only [Set.sdiff_empty]
      exact h.kept hd
  | leave =>
    have hd : flagsDefined i = 0 := kept_of_kind (by rw [hk]; decide) (by rw [hk]; decide)
    rw [bytesRead, hk] at hD
    rw [bytesWritten, step, step, hk]
    cases hargs : i.args with
    | nil =>
      rw [hargs] at hD
      have hebp : s.cpu.reg .ebp = t.cpu.reg .ebp := h.reg _ (by decide)
      have hv := h.load .dword hD
      simp only [Set.sdiff_empty, ← hebp, ← hv]
      exact ((h.setReg .esp (s.cpu.reg .ebp + 4)).setReg .ebp _).kept hd
    | cons =>
      simp only [Set.sdiff_empty]
      exact h.kept hd
  | lea =>
    have hd : flagsDefined i = 0 := kept_of_kind (by rw [hk]; decide) (by rw [hk]; decide)
    rw [bytesWritten, step, step, hk]
    simp only [Set.sdiff_empty]
    split
    any_goals contradiction
    · rename_i source r _ hargs
      have haddr := address_agree sym source h.reg (by
        rintro q hq rfl
        exact hregs source (hargs ▸ List.mem_cons_self) hq)
      rw [← haddr]
      exact (h.writeReg r _).kept hd
    · exact h.kept hd
  | branch | transfer =>
    have hd : flagsDefined i = 0 := kept_of_kind (by rw [hk]; decide) (by rw [hk]; decide)
    rw [bytesWritten, step, step, hk]
    simp only [Set.sdiff_empty]
    exact h.kept hd

end

end Pittsfield.Rewrite
