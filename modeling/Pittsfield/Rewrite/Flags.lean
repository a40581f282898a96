import Pittsfield.Rewrite.Steps

/-!
# The flags of a rewritten run

A straight-line sequence and what the script prints for it, run side by side. The masks
spoil the flags where they are not saved, and a late `popf` takes the flags of a store
away; as long as no instruction reads a flag that is spoiled, the two runs agree.
-/

namespace Pittsfield.Rewrite

open Pittsfield.Foundation
open Pittsfield.Region
open Pittsfield.Machine
open Pittsfield.Offline

section Printing

variable (L : Layout)

/-- The mask of a dirty `%esp`. -/
def before (dirty : Bool) (i : Insn) : List Insn :=
  if dirty && remasksEsp i.op then [andData L .esp] else []

/-- The masks behind a line that is printed as it is. -/
def after (p : Bool) (i : Insn) : List Insn :=
  if setsEbp i then
    (if p then [pushf] else []) ++ [andData L .ebp] ++ if p then [popf] else []
  else if bumpsEspFar i then [andData L .esp] else []

/-- What is printed for a line, but for the mask before it. -/
def body (p : Bool) (i : Insn) : List Insn :=
  match maskedTarget i with
  | some target => maskedStore L p i target
  | none => i :: after L p i

/-- The direct accesses, for which nothing is printed. -/
def skipped (i : Insn) : Bool :=
  match i.args with
  | [source, target] =>
    source.source && target.direct || source.direct && target.isReg
  | _ => false

def dirtyAfter (dirty : Bool) (i : Insn) : Bool :=
  if starts ["push", "pop"] i.op then false
  else if i.secondIs .esp then true else dirty && !remasksEsp i.op

def liveAfter (live : Bool) (i : Insn) : Bool :=
  if (maskedTarget i).isSome then forwardBefore i live
  else forwardAfter i (forwardBefore i live)

variable {L} {insn_len : Insn → Nat} {o : Out} {i : Insn} {p live : Bool}

theorem maybe_rewrite_none (hm : maskedTarget i = none) (hk : kind i.op ≠ .transfer)
    (hs : skipped i = false) : maybe_rewrite L o p i = .ok none := by
  have hop : i.op ≠ "ret" ∧ i.op ≠ "call" ∧ i.op ≠ "jmp" := by
    refine ⟨?_, ?_, ?_⟩ <;>
    · intro h
      rw [h] at hk
      exact hk (by decide)
  have htransfer : rewriteTransfer L o i = .ok none := by
    rw [rewriteTransfer, if_neg hop.1, if_neg hop.2.1, if_neg hop.2.2]
  obtain ⟨op, args⟩ := i
  match args with
  | [] => exact htransfer
  | [target] =>
    rcases ite_eq_iff.mp hm with ⟨-, he⟩ | ⟨hc, -⟩
    · cases he
    · show (if target.inMemory && unaryStore op then _ else _) = _
      by_cases hmem : (target.inMemory && unaryStore op) = true
      · have hkeep : keepsOne op target = true := by
          by_contra hkeep
          exact hc (by simpa [hmem] using hkeep)
        rw [if_pos hmem, if_pos hkeep]
      · rw [if_neg hmem]
        exact htransfer
  | [source, target] =>
    rw [skipped, Bool.or_eq_false_iff] at hs
    rcases ite_eq_iff.mp hm with ⟨-, he⟩ | ⟨hc, -⟩
    · cases he
    · show (if source.source && target.inMemory && !comparesOnly op then _ else _) = _
      by_cases hmem : (source.source && target.inMemory && !comparesOnly op) = true
      · have hkeep : keepsTwo op source target = true := by
          by_contra hkeep
          exact hc (by simpa [hmem] using hkeep)
        rw [if_pos hmem, if_pos hkeep]
      · rw [if_neg hmem, hs.1, hs.2, if_neg Bool.false_ne_true, if_neg Bool.false_ne_true]
        exact htransfer
  | _ :: _ :: _ :: _ => exact htransfer

theorem remask_code : (remask L o i).code = o.code ++ before L o.dirty_esp i := by
  rw [remask, before]
  split
  · show ((maybe_align_for L o 6).emit (andData L .esp) 6).code = _
    rw [code_emit, code_maybe_align_for]
  · exact (List.append_nil _).symm

theorem maskAfter_code : (maskAfter L o p i).code = o.code ++ after L p i := by
  rw [maskAfter, after]
  split
  · cases p <;> simp
  · split
    · simp
    · exact (List.append_nil _).symm

theorem remask_marks : (remask L o i).forward_eflags_live = o.forward_eflags_live ∧
    (remask L o i).dirty_esp = (o.dirty_esp && !remasksEsp i.op) := by
  rw [remask]
  cases hd : o.dirty_esp <;> cases hr : remasksEsp i.op
  · exact ⟨rfl, hd⟩
  · exact ⟨rfl, hd⟩
  · exact ⟨rfl, hd⟩
  · exact ⟨maybe_align_for_marks.2, rfl⟩

theorem maskAfter_marks : SameMarks o (maskAfter L o p i) := by
  have hesp : ∀ {o r}, SameMarks o ((maybe_align_for L o 6).emit (andData L r) 6) :=
    maybe_align_for_marks
  rw [maskAfter]
  split
  · cases p with
    | false => exact hesp
    | true =>
      have h1 := a_emit_marks (L := L) (o := o) (i := pushf) (n := 1)
      have h2 := hesp (o := a_emit L o pushf 1) (r := .ebp)
      have h3 := a_emit_marks (L := L) (i := popf) (n := 1)
        (o := (maybe_align_for L (a_emit L o pushf 1) 6).emit (andData L .ebp) 6)
      exact ⟨h3.1.trans (h2.1.trans h1.1), h3.2.trans (h2.2.trans h1.2)⟩
  · split
    · exact hesp
    · exact ⟨rfl, rfl⟩

variable (L insn_len o live) in
/-- What the script does on an instruction of straight-line code. -/
theorem visitInsn_spec (hk : kind i.op ≠ .transfer) (hs : skipped i = false)
    (hp : p = (forwardBefore i o.forward_eflags_live || live)) :
    ∃ o', visitInsn L insn_len o live i = .ok o' ∧
      o'.code = o.code ++ (before L o.dirty_esp i ++ body L p i) ∧
      o'.dirty_esp = dirtyAfter o.dirty_esp i ∧
      o'.forward_eflags_live = liveAfter o.forward_eflags_live i := by
  obtain ⟨hforward, hdirty⟩ := remask_marks (L := L) (o := o) (i := i)
  have hcode := remask_code (L := L) (o := o) (i := i)
  have hnote : (note (remask L o i) i).code = o.code ++ before L o.dirty_esp i := hcode
  have hmarks : (note (remask L o i) i).dirty_esp = dirtyAfter o.dirty_esp i ∧
      (note (remask L o i) i).forward_eflags_live = forwardBefore i o.forward_eflags_live := by
    rw [note, dirtyAfter, hforward, hdirty]
    exact ⟨rfl, rfl⟩
  generalize hb : note (remask L o i) i = b at hnote hmarks
  have hc : (if L.chunk_size < b.this_chunk + insn_len i then b.align else b).code = b.code ∧
      SameMarks b (if L.chunk_size < b.this_chunk + insn_len i then b.align else b) := by
    split
    · exact ⟨code_align, rfl, rfl⟩
    · exact ⟨rfl, rfl, rfl⟩
  generalize hd : (if L.chunk_size < b.this_chunk + insn_len i then b.align else b) = c at hc
  obtain ⟨hccode, hcdirty, hcforward⟩ := hc
  have hpb : (b.forward_eflags_live || live) = p := by rw [hmarks.2, hp]
  rw [visitInsn, hb, hpb]
  simp only [hd]
  cases hm : maskedTarget i with
  | some target =>
    obtain ⟨o', ho, hocode, hodirty, hoforward⟩ := maybe_rewrite_masked (L := L) (o := c) (p := p) hm
    refine ⟨o', by rw [ho]; rfl, ?_, ?_, ?_⟩
    · rw [hocode, hccode, hnote, body, hm, List.append_assoc]
    · rw [hodirty, hcdirty, hmarks.1]
    · rw [hoforward, hcforward, hmarks.2, liveAfter, hm, Option.isSome_some, if_pos rfl]
  | none =>
    have hafter := maskAfter_marks (L := L) (o := c.emit i (insn_len i)) (p := p) (i := i)
    refine ⟨_, by rw [maybe_rewrite_none hm hk hs]; rfl, ?_, ?_, ?_⟩
    · show (maskAfter L (c.emit i (insn_len i)) p i).code = _
      rw [maskAfter_code, code_emit, hccode, hnote, body, hm, List.append_assoc, List.append_assoc]
      rfl
    · show (maskAfter L (c.emit i (insn_len i)) p i).dirty_esp = _
      rw [hafter.1]
      exact hcdirty.trans hmarks.1
    · show forwardAfter i (maskAfter L (c.emit i (insn_len i)) p i).forward_eflags_live = _
      rw [hafter.2, liveAfter, hm, Option.isSome_none, if_neg Bool.false_ne_true, ← hmarks.2]
      exact congrArg _ hcforward

end Printing

section Condition

variable {E : Type} (L : Layout) (sym : String → Word) (foot : Footprint) (isa : Isa E)

/-- What is known of the two runs before a line: the marks of the script, the flags that the
masks have spoiled, and the bytes below `%esp` that pushed flags have left behind. -/
structure Track where
  dirty_esp : Bool
  forward_eflags_live : Bool
  spoiled : Word
  stale : Set Word

variable (k : Track) (p : Bool) (i : Insn) (s : Proc E)

/-- The flags that differ behind the mask of a dirty `%esp`. -/
def Track.remasked : Word :=
  if k.dirty_esp && remasksEsp i.op then k.spoiled ||| statusMask else k.spoiled

/-- The flags that differ when the instruction itself runs. -/
def Track.spoiledAt : Word :=
  if (maskedTarget i).isSome then spoiledBy p (earlyPopf i) (k.remasked i) else k.remasked i

/-- The bytes that differ when the instruction itself runs. -/
def Track.staleAt : Set Word :=
  if (maskedTarget i).isSome then k.stale ∪ pushedOver p s.cpu else k.stale

/-- The flags that differ behind the line. A late `popf` takes away those that the store has
set; the masks behind a line spoil what is not saved. -/
def Track.spoiledAfter : Word :=
  if (maskedTarget i).isSome then
    if p && !earlyPopf i then k.remasked i ||| flagsTouched i
    else k.spoiledAt p i &&& ~~~flagsDefined i
  else
    let spoiled := k.remasked i &&& ~~~flagsDefined i
    if setsEbp i && p || !setsEbp i && !bumpsEspFar i then spoiled else spoiled ||| statusMask

/-- The bytes that differ behind the line. -/
def Track.staleAfter : Set Word :=
  if (maskedTarget i).isSome then k.staleAt p i s \ dataWrites sym foot isa i s
  else
    k.stale \ bytesWritten sym foot isa i s ∪
      if setsEbp i && p then slot (step sym foot isa i s).cpu else ∅

def Track.next : Track where
  dirty_esp := dirtyAfter k.dirty_esp i
  forward_eflags_live := liveAfter k.forward_eflags_live i
  spoiled := k.spoiledAfter p i
  stale := k.staleAfter sym foot isa p i s

/-- What a line needs for the two runs to agree behind it. -/
structure LineOk : Prop where
  /-- no flag is read that is spoiled, -/
  flags : k.spoiledAt p i &&& flagsRead i = 0
  /-- and no byte that pushed flags have overwritten; -/
  bytes : ∀ x ∈ bytesRead sym foot i s.cpu, x ∉ k.staleAt p i s
  /-- with precious flags a masked store names no `%esp` and spares the pushed flags; -/
  stack : (maskedTarget i).isSome → p = true → .esp ∉ i.regs
  below : (maskedTarget i).isSome → (p && !earlyPopf i) = true →
    ∀ x ∈ dataWrites sym foot isa i s, x ∉ slot s.cpu
  /-- and the pointers are in the sandbox where they are masked. -/
  esp_before : (k.dirty_esp && remasksEsp i.op) = true → s.cpu.reg .esp ∈ L.sandbox
  ebp_after : maskedTarget i = none → setsEbp i = true →
    (step sym foot isa i s).cpu.reg .ebp ∈ L.sandbox
  esp_after : maskedTarget i = none → bumpsEspFar i = true →
    (step sym foot isa i s).cpu.reg .esp ∈ L.sandbox

variable (tail : List Line)

/-- The flags are precious at the first of the lines. -/
def preciousAt (live : Bool) (i : Insn) (ls tail : List Line) : Bool :=
  forwardBefore i live || eflags_live_before (.insn i :: ls ++ tail)

/-- Every line of the sequence meets the condition in the run as it was written. -/
def LinesOk : Track → List Line → Proc E → Prop
  | _, [], _ => True
  | k, .insn i :: ls, s =>
    let p := preciousAt k.forward_eflags_live i ls tail
    LineOk L sym foot isa k p i s ∧
      LinesOk (k.next sym foot isa p i s) ls (step sym foot isa i s)
  | k, _ :: ls, s => LinesOk k ls s

/-- Something holds at every instruction of the sequence in the run as it was written. -/
def Along (P : Insn → Proc E → Prop) : List Line → Proc E → Prop
  | [], _ => True
  | .insn i :: ls, s => P i s ∧ Along P ls (step sym foot isa i s)
  | _ :: ls, s => Along P ls s

/-- The sequences that are meant: straight-line code that does not name `%ebx`, whose masked
stores are instructions on data and lie in the data region. -/
structure Supported (i : Insn) (s : Proc E) : Prop where
  straight : kind i.op ≠ .transfer
  printed : skipped i = false
  pushf : i.op = "pushf" → i.args = []
  ebx : .ebx ∉ i.regs
  data : (maskedTarget i).isSome → kind i.op = .data
  access : ∀ target a, maskedTarget i = some target → address sym s.cpu target = some a →
    a ∈ span 32 L.data_start L.data_size

/-- The flags that an instruction sees, if it reads any. -/
def seen (i : Insn) (s : Proc E) : List Word :=
  if flagsRead i = 0 then [] else [s.cpu.eflags &&& flagsRead i]

/-- What the instructions of a block with one opcode see. -/
def seenBy (op : String) : List Insn → Proc E → List Word
  | [], _ => []
  | i :: is, s => (if i.op = op then seen i s else []) ++ seenBy op is (step sym foot isa i s)

/-- The script goes on to the end of the sequence, and in what it prints for a line the
instruction of the line sees the flags that it sees in the run as written. The `tail` is
what follows the sequence in the file. -/
def SeesSame (insn_len : Insn → Nat) : Out → List Line → Proc E → Proc E → Prop
  | _, [], _, _ => True
  | o, l :: ls, s, t =>
    ∃ o', visit L insn_len o (eflags_live_before (l :: ls ++ tail)) l = .ok o' ∧
      match l with
      | .insn i =>
        seenBy sym foot isa i.op (emitted o o') t = seen i s ∧
          SeesSame insn_len o' ls (step sym foot isa i s) (run sym foot isa (emitted o o') t)
      | _ => SeesSame insn_len o' ls s (run sym foot isa (emitted o o') t)

end Condition

section Seen

variable {E : Type} {sym : String → Word} {foot : Footprint} {isa : Isa E} {L : Layout}
variable {S : Word} {D : Set Word} {s t : Proc E} {i j : Insn} {op : String}

theorem flagsRead_congr (h : j.op = i.op) : flagsRead j = flagsRead i := by
  rw [flagsRead, flagsRead, h]

/-- An instruction sees the same flags where they are not spoiled. -/
theorem seen_agree (h : SameFlags S s.cpu.eflags t.cpu.eflags) (hS : S &&& flagsRead i = 0)
    (hop : j.op = i.op) : seen j t = seen i s := by
  rw [seen, seen, flagsRead_congr hop, h.and hS]

theorem seen_none (h : flagsRead i = 0) : seen i s = [] := if_pos h

theorem seenBy_append (is js : List Insn) : seenBy sym foot isa op (is ++ js) s =
    seenBy sym foot isa op is s ++ seenBy sym foot isa op js (run sym foot isa is s) := by
  induction is generalizing s with
  | nil => rfl
  | cons i is ih => rw [List.cons_append, seenBy, seenBy, ih, run_cons, List.append_assoc]

/-- What the script adds reads no flags, but for `pushf`. -/
def Added (op : String) (i : Insn) : Prop := flagsRead i = 0 ∨ i.op ≠ op

theorem seenBy_added {is : List Insn} (h : ∀ i ∈ is, Added op i) : seenBy sym foot isa op is s = [] := by
  induction is generalizing s with
  | nil => rfl
  | cons i is ih =>
    rw [seenBy, ih fun j hj => h j (List.mem_cons_of_mem _ hj), List.append_nil]
    split
    · exact seen_none ((h i List.mem_cons_self).resolve_right fun hne => hne ‹_›)
    · rfl

theorem seenBy_single : seenBy sym foot isa i.op [i] s = seen i s := by
  rw [seenBy, if_pos rfl, seenBy, List.append_nil]

theorem added_andData (r : Reg32) : Added op (andData L r) := by
  have hop : (andData L r).op = (Insn.mk "andl" []).op := rfl
  exact Or.inl ((flagsRead_congr hop).trans (by decide))

theorem added_leaEbx (o : Operand) : Added op (leaEbx o) := by
  have hop : (leaEbx o).op = (Insn.mk "leal" []).op := rfl
  exact Or.inl ((flagsRead_congr hop).trans (by decide))

theorem added_popf : Added op popf := Or.inl (by decide)

theorem added_pushf (h : op ≠ "pushf") : Added op pushf := Or.inr h.symm

theorem added_before {dirty : Bool} : ∀ j ∈ before L dirty i, Added op j := by
  intro j hj
  rw [before] at hj
  split at hj
  · rw [List.mem_singleton.mp hj]
    exact added_andData _
  · cases hj

theorem added_prelude {p early : Bool} {o : Operand} (h : op ≠ "pushf") :
    ∀ j ∈ prelude L p early o, Added op j := by
  intro j hj
  rw [prelude, List.mem_append, List.mem_append] at hj
  rcases hj with (hj | hj) | hj
  · split at hj
    · rw [List.mem_singleton.mp hj]
      exact added_pushf h
    · cases hj
  · rcases List.mem_cons.mp hj with rfl | hj
    · exact added_leaEbx _
    · rw [List.mem_singleton.mp hj]
      exact added_andData _
  · split at hj
    · rw [List.mem_singleton.mp hj]
      exact added_popf
    · cases hj

theorem added_after {p : Bool} (h : setsEbp i = true → op ≠ "pushf") : ∀ j ∈ after L p i, Added op j := by
  intro j hj
  rw [after] at hj
  split at hj
  · rw [List.mem_append, List.mem_append] at hj
    rcases hj with (hj | hj) | hj
    · split at hj
      · rw [List.mem_singleton.mp hj]
        exact added_pushf (h ‹_›)
      · cases hj
    · rw [List.mem_singleton.mp hj]
      exact added_andData _
    · split at hj
      · rw [List.mem_singleton.mp hj]
        exact added_popf
      · cases hj
  · split at hj
    · rw [List.mem_singleton.mp hj]
      exact added_andData _
    · cases hj

end Seen

section Masks

variable {E : Type} {sym : String → Word} {foot : Footprint} {isa : Isa E} {L : Layout}
variable {S : Word} {D : Set Word} {s t : Proc E} {i : Insn}

variable (sym foot isa) in
/-- The mask of a pointer into the sandbox spoils the flags and nothing else. -/
theorem mask_agree (hmask : ∀ x ∈ L.sandbox, x &&& L.data_mask = x) {r : Reg32} (hr : r ≠ .ebx)
    (h : Agree {.ebx} S D s t) (hin : s.cpu.reg r ∈ L.sandbox) :
    Agree {.ebx} (S ||| statusMask) D s (step sym foot isa (andData L r) t) := by
  have hval : t.cpu.reg r &&& L.data_mask = t.cpu.reg r := by
    rw [← h.reg r hr]
    exact hmask _ hin
  rw [step_andData, hval]
  refine ⟨?_, h.mem, h.flags.trans (maskFlags_same r), h.fpu⟩
  intro q hq
  show s.cpu.reg q = (t.cpu.setReg r (t.cpu.reg r)).reg q
  by_cases hqr : q = r
  · rw [hqr, Cpu.setReg_same]
    exact h.reg r hr
  · rw [Cpu.setReg_other _ _ hqr]
    exact h.reg q hq

/-- The flags come back from the stack when only a register has changed since. -/
theorem flags_popped (c : Cpu) {r : Reg32} (hr : r ≠ .esp) (v g : Word) :
    let c' := ((pushOp .dword c.eflags c).setReg r v).setFlags g
    (∀ q, (c'.setReg .esp (c'.reg .esp + 4)).reg q = (c.setReg r v).reg q) ∧
      c'.load .dword (c'.reg .esp) = c.eflags := by
  intro c'
  obtain ⟨hesp, hother⟩ := pushOp_reg c.eflags c
  have hesp' : c'.reg .esp = c.reg .esp - 4 := by
    rw [Cpu.setFlags_reg, Cpu.setReg_other _ _ hr.symm, hesp]
  constructor
  · intro q
    by_cases hq : q = .esp
    · rw [hq, Cpu.setReg_same, hesp', BitVec.sub_add_cancel, Cpu.setReg_other _ _ hr.symm]
    · rw [Cpu.setReg_other _ _ hq, Cpu.setFlags_reg]
      by_cases hqr : q = r
      · rw [hqr, Cpu.setReg_same, Cpu.setReg_same]
      · rw [Cpu.setReg_other _ _ hqr, Cpu.setReg_other _ _ hqr, hother q hq]
  · rw [hesp']
    exact Cpu.load_store c (c.reg .esp - 4) c.eflags

/-- A mask between `pushf` and `popf` leaves the flags as they were. -/
theorem saved_mask_agree (hmask : ∀ x ∈ L.sandbox, x &&& L.data_mask = x)
    (h : Agree {.ebx} S D s t) (hin : s.cpu.reg .ebp ∈ L.sandbox) :
    Agree {.ebx} S (D ∪ slot s.cpu) s (run sym foot isa [pushf, andData L .ebp, popf] t) := by
  have hesp : s.cpu.reg .esp = t.cpu.reg .esp := h.reg _ (by decide)
  have hebp : s.cpu.reg .ebp = t.cpu.reg .ebp := h.reg _ (by decide)
  have hval : (pushOp .dword t.cpu.eflags t.cpu).reg .ebp &&& L.data_mask = t.cpu.reg .ebp := by
    rw [(pushOp_reg t.cpu.eflags t.cpu).2 .ebp (by decide), ← hebp]
    exact hmask _ hin
  simp only [run_cons, run_nil, step_pushf, step_andData, step_popf, hval]
  obtain ⟨hreg, hflags⟩ := flags_popped t.cpu (r := .ebp) (by decide) (t.cpu.reg .ebp)
    (maskFlags sym foot isa L .ebp { t with cpu := pushOp .dword t.cpu.eflags t.cpu })
  refine ⟨?_, ?_, ?_, h.fpu⟩
  · intro q hq
    rw [Cpu.setFlags_reg, hreg]
    by_cases hqe : q = .ebp
    · rw [hqe, Cpu.setReg_same, hebp]
    · rw [Cpu.setReg_other _ _ hqe, h.reg q hq]
  · intro x hx
    have hout : x ∉ extent (t.cpu.reg .esp - BitVec.ofNat 32 Width.dword.bytes) 4 := by
      intro hin'
      refine hx (Or.inr ?_)
      rw [slot, hesp]
      exact hin'
    exact (h.mem x fun hd => hx (Or.inl hd)).trans (putBytes_outside hout).symm
  · rw [show (Cpu.setFlags _ _).eflags = _ from rfl, hflags]
    exact h.flags

end Masks

section Lines

variable {E : Type} {sym : String → Word} {foot : Footprint} {isa : Isa E} {L : Layout}
variable {S : Word} {D : Set Word} {s t : Proc E} {i : Insn} {target : Operand} {p : Bool} {a : Word}

theorem dataOp_outside {x : Word} (hx : x ∉ dataWrites sym foot isa i s) :
    (dataOp sym foot isa i s).cpu.mem x = s.cpu.mem x := by
  rw [dataOp, writeBack_mem]
  cases hp : place sym foot i s.cpu with
  | none => rfl
  | some a => exact writeBytes_other fun hin => hx ⟨a, hp, hin⟩

theorem dataWrites_of_access {j : Insn} {s' : Proc E} (hk : kind i.op = .data) (hk' : kind j.op = .data)
    (h : access sym foot isa j s' = access sym foot isa i s) :
    dataWrites sym foot isa j s' = dataWrites sym foot isa i s := by
  rw [access, access, if_pos hk, if_pos hk'] at h
  rw [dataWrites, dataWrites]
  cases hp : place sym foot i s.cpu with
  | none =>
    rw [hp, Option.map_none, Option.map_eq_none_iff] at h
    rw [h]
    ext x
    constructor <;>
    · rintro ⟨_, hb, _⟩
      cases hb
  | some b =>
    rw [hp, Option.map_some, Option.map_eq_some_iff] at h
    obtain ⟨b', hb', he⟩ := h
    have hstored : (isa.eval j.shape (inputs sym foot j s')).stored =
        (isa.eval i.shape (inputs sym foot i s)).stored := congrArg Access.written he
    have haddr : b' = b := congrArg Access.address he
    rw [hb', hstored, haddr]

/-- A masked store keeps the runs in agreement, and its store sees the flags that the
original one sees. -/
theorem maskedStore_agree (hmask : ∀ x ∈ L.sandbox, x &&& L.data_mask = x)
    (h : Agree {.ebx} S D s t) (hm : maskedTarget i = some target) (hk : kind i.op = .data)
    (hebx : .ebx ∉ i.regs) (hstack : p = true → .esp ∉ i.regs)
    (ha : address sym s.cpu target = some a) (hin : a ∈ span 32 L.data_start L.data_size)
    (hD : ∀ x ∈ dataReads sym foot i s.cpu, x ∉ D ∪ pushedOver p s.cpu)
    (hS : spoiledBy p (earlyPopf i) S &&& flagsRead i = 0)
    (hbelow : (p && !earlyPopf i) = true → ∀ x ∈ dataWrites sym foot isa i s, x ∉ slot s.cpu) :
    seenBy sym foot isa i.op (maskedStore L p i target) t = seen i s ∧
      Agree {.ebx}
        (if p && !earlyPopf i then S ||| flagsTouched i
          else spoiledBy p (earlyPopf i) S &&& ~~~flagsDefined i)
        ((D ∪ pushedOver p s.cpu) \ dataWrites sym foot isa i s)
        (step sym foot isa i s) (run sym foot isa (maskedStore L p i target) t) := by
  have hop : i.op ≠ "pushf" := by
    intro he
    rw [he] at hk
    exact absurd hk (by decide)
  have hready := prelude_ready sym foot isa L t target p (earlyPopf i)
  obtain ⟨hacc, hafter⟩ := masked_agree isa h hready hm hebx hstack ha (hmask a (Or.inl hin))
    hD hS
  have hpost : ∀ j ∈ (if p && !earlyPopf i then [popf] else []), Added i.op j := by
    intro j hj
    split at hj
    · rw [List.mem_singleton.mp hj]
      exact added_popf
    · cases hj
  constructor
  · rw [maskedStore, seenBy_append, seenBy_append, seenBy_added (added_prelude hop), List.nil_append,
      seenBy_added hpost, List.append_nil]
    exact seenBy_single.trans (seen_agree (ready_agree h hready).flags hS rfl)
  · rw [maskedStore, run_append, run_append, run_cons, run_nil, step_throughEbx hm hk,
      step_store hm hk]
    by_cases hp : (p && !earlyPopf i) = true
    · rw [if_pos hp, if_pos hp, run_cons, run_nil, step_popf]
      have hpush : p = true := (Bool.and_eq_true _ _ ▸ hp).1
      have hesp : s.cpu.reg .esp = t.cpu.reg .esp := h.reg _ (by decide)
      have hnamed := hstack hpush
      have hnamed' : .esp ∉ i.throughEbx.regs := fun hr =>
        (throughEbx_regs hm hr).elim (by decide) hnamed
      generalize ht' : run sym foot isa (prelude L p (earlyPopf i) target) t = t' at hready hacc hafter
      have hlow : (dataOp sym foot isa i.throughEbx t').cpu.reg .esp = t.cpu.reg .esp - 4 := by
        rw [dataOp_other hnamed' (by decide), hready.esp, if_pos hp]
      have hslot : ∀ x ∈ extent (t.cpu.reg .esp - 4) Width.dword.bytes,
          (dataOp sym foot isa i.throughEbx t').cpu.mem x =
            (pushOp .dword t.cpu.eflags t.cpu).mem x := by
        intro x hx
        have hout : x ∉ dataWrites sym foot isa i.throughEbx t' := by
          have hsame := dataWrites_of_access (j := i.throughEbx) hk hk hacc
          rw [hsame]
          intro hw
          refine hbelow hp x hw ?_
          rw [slot, hesp]
          exact hx
        rw [dataOp_outside hout, hready.mem, lowered, if_pos hpush]
      have hload : (dataOp sym foot isa i.throughEbx t').cpu.load .dword (t.cpu.reg .esp - 4) =
          t.cpu.eflags :=
        (bytesAt_agree hslot).trans (Cpu.load_store t.cpu (t.cpu.reg .esp - 4) t.cpu.eflags)
      refine ⟨?_, hafter.mem, ?_, hafter.fpu⟩
      · intro q hq
        have hpopped := postlude_reg sym foot isa q
          (s := dataOp sym foot isa i s) (by rw [if_pos hp, dataOp_other hnamed (by decide), hlow, hesp])
          hafter.reg hq
        rw [if_pos hp, run_cons, run_nil, step_popf] at hpopped
        exact hpopped.symm
      · show SameFlags _ _ (Cpu.load _ .dword _)
        rw [hlow, hload]
        have htouched := isa.touched i.shape (inputs sym foot i s)
        rw [BitVec.or_comm]
        exact htouched.symm.trans h.flags
    · rw [if_neg hp, if_neg hp, run_nil]
      refine ⟨?_, hafter.mem, hafter.flags, hafter.fpu⟩
      intro q hq
      refine hafter.reg q ?_
      rintro (he | ⟨-, he⟩)
      · exact hq he
      · exact hp he

variable {k : Track}

variable (sym foot isa) in
theorem before_agree (hmask : ∀ x ∈ L.sandbox, x &&& L.data_mask = x)
    (h : Agree {.ebx} k.spoiled k.stale s t)
    (hesp : (k.dirty_esp && remasksEsp i.op) = true → s.cpu.reg .esp ∈ L.sandbox) :
    Agree {.ebx} (k.remasked i) k.stale s (run sym foot isa (before L k.dirty_esp i) t) := by
  rw [before, Track.remasked]
  split
  · exact mask_agree sym foot isa hmask (by decide) h (hesp ‹_›)
  · exact h

/-- The masks behind a line that is printed as it is. -/
theorem after_agree (hmask : ∀ x ∈ L.sandbox, x &&& L.data_mask = x) (h : Agree {.ebx} S D s t)
    (hebp : setsEbp i = true → s.cpu.reg .ebp ∈ L.sandbox)
    (hesp : bumpsEspFar i = true → s.cpu.reg .esp ∈ L.sandbox) :
    Agree {.ebx} (if setsEbp i && p || !setsEbp i && !bumpsEspFar i then S else S ||| statusMask)
      (D ∪ if setsEbp i && p then slot s.cpu else ∅) s (run sym foot isa (after L p i) t) := by
  rw [after]
  by_cases hset : setsEbp i = true
  · rw [if_pos hset, hset]
    cases p with
    | true => exact saved_mask_agree hmask h (hebp hset)
    | false =>
      have hm := mask_agree sym foot isa hmask (by decide) h (hebp hset)
      simpa using hm
  · rw [if_neg hset, Bool.eq_false_of_not_eq_true hset]
    by_cases hbump : bumpsEspFar i = true
    · rw [if_pos hbump, hbump]
      have hm := mask_agree sym foot isa hmask (by decide) h (hesp hbump)
      simpa using hm
    · rw [if_neg hbump, Bool.eq_false_of_not_eq_true hbump]
      simpa using h

/-- What the script prints for a line keeps the runs in agreement, and the instruction of the
line sees the flags that it sees in the run as written. -/
theorem line_agree (hmask : ∀ x ∈ L.sandbox, x &&& L.data_mask = x)
    (h : Agree {.ebx} k.spoiled k.stale s t) (hs : Supported L sym i s)
    (hok : LineOk L sym foot isa k p i s) :
    seenBy sym foot isa i.op (before L k.dirty_esp i ++ body L p i) t = seen i s ∧
      Agree {.ebx} (k.spoiledAfter p i) (k.staleAfter sym foot isa p i s) (step sym foot isa i s)
        (run sym foot isa (before L k.dirty_esp i ++ body L p i) t) := by
  have hbefore := before_agree sym foot isa hmask h hok.esp_before
  rw [seenBy_append, seenBy_added added_before, List.nil_append, run_append]
  generalize run sym foot isa (before L k.dirty_esp i) t = t' at hbefore
  have hflags := hok.flags
  have hbytes := hok.bytes
  rw [body, Track.spoiledAfter, Track.staleAfter]
  cases hm : maskedTarget i with
  | some target =>
    rw [Track.spoiledAt, hm, Option.isSome_some, if_pos rfl] at hflags
    have hk := hs.data (by rw [hm]; rfl)
    obtain ⟨a, ha⟩ : ∃ a, address sym s.cpu target = some a := by
      cases target with
      | mem => exact ⟨_, rfl⟩
      | reg | imm | const | star | other => cases (masked_cases hm).1
    rw [Track.spoiledAt, Track.staleAt, hm, Option.isSome_some, if_pos rfl, if_pos rfl, if_pos rfl,
      if_pos rfl]
    refine maskedStore_agree hmask hbefore hm hk hs.ebx (hok.stack (by rw [hm]; rfl)) ha
      (hs.access target a hm ha) ?_ hflags (hok.below (by rw [hm]; rfl))
    intro x hx
    have hstale := hbytes x (by rw [bytesRead, hk]; exact hx)
    rwa [Track.staleAt, hm, Option.isSome_some, if_pos rfl] at hstale
  | none =>
    rw [Track.spoiledAt, hm, Option.isSome_none, if_neg Bool.false_ne_true] at hflags
    rw [Option.isSome_none, if_neg Bool.false_ne_true, if_neg Bool.false_ne_true]
    have hstep := step_agree sym foot isa hbefore hs.ebx hflags (by
      intro x hx
      have hstale := hbytes x hx
      rwa [Track.staleAt, hm, Option.isSome_none, if_neg Bool.false_ne_true] at hstale)
    have hpushf : setsEbp i = true → i.op ≠ "pushf" := by
      intro hset hop
      have hargs := hs.pushf hop
      obtain ⟨op, args⟩ := i
      simp only at hop hargs
      rw [hop, hargs] at hset
      exact absurd hset (by decide)
    constructor
    · rw [seenBy, if_pos rfl, seenBy_added (added_after hpushf), List.append_nil]
      exact seen_agree hbefore.flags hflags rfl
    · rw [run_cons]
      exact after_agree hmask hstep (hok.ebp_after hm) (hok.esp_after hm)

end Lines

section

variable {E : Type} {sym : String → Word} {foot : Footprint} {isa : Isa E} {g : Settings} {sz : Size}
variable {insn_len : Insn → Nat} {tail : List Line}

theorem runs_agree {ls : List Line} {o : Out} {k : Track} {s t : Proc E}
    (hdirty : k.dirty_esp = o.dirty_esp) (hlive : k.forward_eflags_live = o.forward_eflags_live)
    (h : Agree {.ebx} k.spoiled k.stale s t)
    (hs : Along sym foot isa (Supported (compute_sizes g sz) sym) ls s)
    (hok : LinesOk (compute_sizes g sz) sym foot isa tail k ls s) :
    SeesSame (compute_sizes g sz) sym foot isa tail insn_len o ls s t := by
  induction ls generalizing o k s t with
  | nil => trivial
  | cons l ls ih =>
    cases l with
    | insn i =>
      obtain ⟨hline, hrest⟩ := hok
      obtain ⟨hsup, hsrest⟩ := hs
      obtain ⟨o', ho, hcode, hodirty, holive⟩ := visitInsn_spec (compute_sizes g sz) insn_len o
        (eflags_live_before (.insn i :: ls ++ tail)) hsup.straight hsup.printed rfl
      refine ⟨o', ho, ?_⟩
      rw [emitted_of_code hcode]
      have hp : preciousAt k.forward_eflags_live i ls tail =
          (forwardBefore i o.forward_eflags_live || eflags_live_before (.insn i :: ls ++ tail)) := by
        rw [preciousAt, hlive]
      rw [← hp, ← hdirty]
      obtain ⟨hseen, hagree⟩ := line_agree (fun x => data_mask_keeps g sz) h hsup hline
      refine ⟨hseen, ih ?_ ?_ hagree hsrest hrest⟩
      · rw [hodirty, ← hdirty]
        rfl
      · rw [holive, ← hlive]
        rfl
    | label name =>
      refine ⟨_, rfl, ?_⟩
      have hcode : emitted o (o.align.print (.label name)) = [] :=
        emitted_of_code (by rw [code_print, code_align]; rfl)
      rw [hcode]
      exact ih hdirty hlive h hs hok
    | align2 =>
      refine ⟨_, rfl, ?_⟩
      have hcode : emitted o { o.print .align2 with this_chunk := o.this_chunk + 4 } = [] :=
        emitted_of_code (code_print .align2)
      rw [hcode]
      exact ih hdirty hlive h hs hok
    | p2align =>
      refine ⟨_, rfl, ?_⟩
      rw [emitted_of_code (List.append_nil _).symm]
      exact ih hdirty hlive h hs hok
    | other text =>
      refine ⟨_, rfl, ?_⟩
      have hcode : emitted o (o.print (.text text)) = [] := emitted_of_code (code_print (.text text))
      rw [hcode]
      exact ih hdirty hlive h hs hok

end

/-- The flags with those that an instruction touches set to given values. -/
def settle (i : Insn) (f w : Word) : Word := (f &&& ~~~flagsTouched i) ||| (flagsTouched i &&& w)

theorem getLsbD_settle (i : Insn) (f w : Word) (k : Nat) :
    (settle i f w).getLsbD k = if (flagsTouched i).getLsbD k then w.getLsbD k else f.getLsbD k := by
  rw [settle, BitVec.getLsbD_or, BitVec.getLsbD_and, BitVec.getLsbD_and]
  by_cases hk : k < 32
  · rw [BitVec.getLsbD_not, decide_eq_true hk, Bool.true_and]
    cases (flagsTouched i).getLsbD k <;> simp
  · rw [BitVec.getLsbD_of_ge (flagsTouched i) _ (Nat.le_of_not_lt hk),
      BitVec.getLsbD_of_ge f _ (Nat.le_of_not_lt hk)]
    simp

/-- A processor as it is where a comparison clears the flags and an addition carries into zero. -/
def carrying : Isa Unit where
  eval i x := ⟨none, none, if i.op = "addl" then [0, 0, 0, 0] else (x.values.take 1).flatMap bytesOf,
    x.eax, x.ecx, x.edx, ()⟩
  flags i x := settle i x.flags (if i.op = "addl" then 0x55 else if i.op = "andl" then 0x4 else 0)
  blind i x f _ := rfl
  defined i x f spoiled h _ := by
    intro k hk
    rw [getLsbD_settle, getLsbD_settle]
    split
    · rfl
    · rename_i ht
      apply h
      have hd : (flagsDefined i).getLsbD k = false :=
        Bool.eq_false_of_not_eq_true fun hd => ht (flagsDefined_touched i k hd)
      by_cases hlt : k < 32
      · rwa [BitVec.getLsbD_and, BitVec.getLsbD_not, hd, decide_eq_true hlt, Bool.not_false,
          Bool.and_true, Bool.and_true] at hk
      · exact BitVec.getLsbD_of_ge _ _ (Nat.le_of_not_lt hlt)
  touched i x := by
    intro k hk
    rw [getLsbD_settle, hk, if_neg Bool.false_ne_true]

/-- A move reads nothing of its operand in memory, everything else reads a word. -/
def wordFoot : Footprint := ⟨fun _ _ => 0, fun i => if i.op = "movl" then 0 else 4⟩

/-- `cmpl $0, %eax` -/
def cmpEax : Insn := ⟨"cmpl", [.imm ⟨"0", by decide⟩, .reg (.r32 .eax)]⟩

/-- `je .L1` -/
def jeL1 : Insn := ⟨"je", [.const ⟨".L1", by decide⟩]⟩

/-- `movl %eax, (%ecx)` -/
def spillEax : Insn := ⟨"movl", [.reg (.r32 .eax), .mem none (some .ecx) none none]⟩

/-- The sum of `%eax` and the word at `(%ecx)` is zero. -/
def beforeSum : Proc Unit := ⟨⟨0, fun r => if r = .eax then 1 else 0x20000100, 0, fun _ => 0xff⟩, ()⟩

end Pittsfield.Rewrite
