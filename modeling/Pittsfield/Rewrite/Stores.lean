import Pittsfield.Rewrite.Blocks

/-!
# Masked stores

The sequence that `maybe_rewrite` prints for a store accesses memory as the store itself
does, unless the pushed flags get in the way: they move `%esp`, they take the place of what
lies below it, and they come back too late for an instruction that reads flags.
-/

namespace Pittsfield.Rewrite

open Pittsfield.Foundation
open Pittsfield.Region
open Pittsfield.Machine
open Pittsfield.Offline

variable {E : Type} {sym : String → Word} {foot : Footprint} {isa : Isa E} {L : Layout}
variable {R : Set Reg32} {S : Word} {D : Set Word} {s t t' : Proc E} {c : Cpu}
variable {i : Insn} {target : Operand} {p : Bool}

/-- The word below `%esp`, where the flags are pushed. -/
def slot (c : Cpu) : Set Word := extent (c.reg .esp - 4) 4

/-- What a masked store needs to do what the original one does. -/
structure StoreSafe (sym : String → Word) (foot : Footprint) (p : Bool) (i : Insn) (c : Cpu) :
    Prop where
  /-- with precious flags no operand names `%esp`, -/
  stack : p = true → .esp ∉ i.regs
  /-- and the bytes that are read are not those the flags are pushed to; -/
  below : p = true → ∀ x ∈ dataReads sym foot i c, x ∉ slot c
  /-- flags are read by a `set` alone, and then they are precious. -/
  flags : flagsRead i ≠ 0 → p = true ∧ earlyPopf i = true

section Shapes

/-- The shapes of the stores that are masked. -/
theorem masked_cases (hm : maskedTarget i = some target) : target.inMemory = true ∧
    ((∃ source, i.args = [source, target] ∧ source.source = true) ∨ i.args = [target]) := by
  obtain ⟨op, args⟩ := i
  match args with
  | [] => cases hm
  | [q] =>
    rcases ite_eq_iff.mp hm with ⟨hc, he⟩ | ⟨-, he⟩
    · obtain rfl := Option.some.inj he
      simp only [Bool.and_eq_true] at hc
      exact ⟨hc.1.1, Or.inr rfl⟩
    · cases he
  | [source, q] =>
    rcases ite_eq_iff.mp hm with ⟨hc, he⟩ | ⟨-, he⟩
    · obtain rfl := Option.some.inj he
      simp only [Bool.and_eq_true] at hc
      exact ⟨hc.1.1.2, Or.inl ⟨source, rfl, hc.1.1.1⟩⟩
    · cases he
  | _ :: _ :: _ :: _ => cases hm

theorem shape_inMemory (h : target.inMemory = true) : target.shape = atEbx.shape := by
  cases target with
  | mem => rfl
  | reg | imm | const | star | other => cases h

theorem source_address {o : Operand} (h : o.source = true) : address sym c o = none := by
  cases o with
  | reg | imm => rfl
  | mem | const | star | other => cases h

theorem throughEbx_shape (hm : maskedTarget i = some target) : i.throughEbx.shape = i.shape := by
  obtain ⟨hmem, ⟨source, hargs, -⟩ | hargs⟩ := masked_cases hm <;>
    simp [Insn.throughEbx, Insn.shape, hargs, shape_inMemory hmem]

/-- A store has no operand but memory for its result. -/
theorem step_store (hm : maskedTarget i = some target) (hk : kind i.op = .data) :
    step sym foot isa i s = dataOp sym foot isa i s := by
  obtain ⟨hmem, hcases⟩ := masked_cases hm
  cases target with
  | mem =>
    obtain ⟨source, hargs, -⟩ | hargs := hcases
    · rw [step, hk, hargs]
      cases source <;> rfl
    · rw [step, hk, hargs]
  | reg | imm | const | star | other => cases hmem

theorem step_throughEbx (hm : maskedTarget i = some target) (hk : kind i.op = .data) :
    step sym foot isa i.throughEbx s = dataOp sym foot isa i.throughEbx s := by
  have hk' : kind i.throughEbx.op = .data := hk
  obtain ⟨-, ⟨source, hargs, -⟩ | hargs⟩ := masked_cases hm
  · rw [step, hk', Insn.throughEbx, hargs]
    cases source <;> rfl
  · rw [step, hk', Insn.throughEbx, hargs]
    rfl

end Shapes

section Redirection

theorem masked_address (hm : maskedTarget i = some target) :
    i.args.findSome? (address sym c) = address sym c target := by
  obtain ⟨hmem, ⟨source, hargs, hs⟩ | hargs⟩ := masked_cases hm
  · rw [hargs, List.findSome?_cons, source_address hs, List.findSome?_singleton]
  · rw [hargs, List.findSome?_singleton]

theorem address_atEbx : address sym c atEbx = some (c.reg .ebx) := by
  simp [address, atEbx]

theorem throughEbx_address (hm : maskedTarget i = some target) (c : Cpu) :
    i.throughEbx.args.findSome? (address sym c) = some (c.reg .ebx) := by
  obtain ⟨-, ⟨source, hargs, hs⟩ | hargs⟩ := masked_cases hm
  · simp [Insn.throughEbx, hargs, source_address hs, address_atEbx]
  · simp [Insn.throughEbx, hargs, address_atEbx]

/-- Behind the prelude the masked store has the operands of the original one. -/
theorem sameOperands_masked (hm : maskedTarget i = some target)
    (hreg : ∀ r, r ∉ R → c.reg r = t.cpu.reg r) (hi : ∀ r ∈ i.regs, r ∉ R)
    (ha : address sym c target = some (t.cpu.reg .ebx)) :
    SameOperands sym foot i i.throughEbx c t.cpu := by
  have hvals : values sym i c = values sym i.throughEbx t.cpu := by
    have hebx : plainValue sym t.cpu atEbx = 0 := rfl
    have htarget : plainValue sym c target = 0 := by
      cases target with
      | mem => rfl
      | reg | imm | const | star | other => cases (masked_cases hm).1
    obtain ⟨-, ⟨source, hargs, -⟩ | hargs⟩ := masked_cases hm
    · have hsource : plainValue sym c source = plainValue sym t.cpu source := by
        refine plainValue_agree hreg fun r hr => hi r ?_
        rw [Insn.regs, hargs]
        exact List.mem_flatMap.mpr ⟨source, List.mem_cons_self, hr⟩
      simp [values, Insn.throughEbx, hargs, htarget, hsource, hebx]
    · simp [values, Insn.throughEbx, hargs, htarget, hebx]
  have hshape := throughEbx_shape hm
  refine ⟨hshape.symm, hvals, ?_⟩
  rw [place, place, masked_address hm, ha, throughEbx_address hm, hvals, hshape]

theorem throughEbx_regs {r : Reg32} (hm : maskedTarget i = some target)
    (hr : r ∈ i.throughEbx.regs) : r = .ebx ∨ r ∈ i.regs := by
  obtain ⟨-, ⟨source, hargs, -⟩ | hargs⟩ := masked_cases hm
  · simp only [Insn.regs, Insn.throughEbx, hargs, List.dropLast_cons_cons, List.dropLast_singleton,
      List.cons_append, List.nil_append, List.flatMap_cons, List.flatMap_nil, List.append_nil,
      List.mem_append] at hr ⊢
    rcases hr with hr | hr
    · exact Or.inr (Or.inl hr)
    · exact Or.inl (List.mem_singleton.mp hr)
  · simp only [Insn.regs, Insn.throughEbx, hargs, List.dropLast_singleton, List.nil_append,
      List.flatMap_cons, List.flatMap_nil, List.append_nil] at hr
    exact Or.inl (List.mem_singleton.mp hr)

end Redirection

section Blocks

/-- The registers that differ while a masked store runs. -/
def movedRegs (p early : Bool) : Set Reg32 := {r | r = .ebx ∨ r = .esp ∧ (p && !early) = true}

/-- The flags that differ while a masked store runs. -/
def spoiledBy (p early : Bool) (S : Word) : Word := if p && early then S else S ||| statusMask

/-- The bytes that differ once precious flags have been pushed. -/
def pushedOver (p : Bool) (c : Cpu) : Set Word := {x | p = true ∧ x ∈ slot c}

theorem ready_agree {early : Bool} (h : Agree {.ebx} S D s t)
    (hr : Ready sym foot isa L p early target t t') :
    Agree (movedRegs p early) (spoiledBy p early S) (D ∪ pushedOver p s.cpu) s t' := by
  have hesp : s.cpu.reg .esp = t.cpu.reg .esp := h.reg _ (by decide)
  refine ⟨?_, ?_, ?_, h.fpu.trans hr.fpu.symm⟩
  · intro r hmoved
    have hebx : r ≠ .ebx := fun he => hmoved (Or.inl he)
    by_cases hre : r = .esp
    · have hp : (p && !early) = false := by
        by_contra hp
        exact hmoved (Or.inr ⟨hre, by simpa using hp⟩)
      rw [hre, hr.esp, hp]
      exact hesp
    · rw [hr.reg r hebx hre]
      exact h.reg r hebx
  · intro x hx
    have hsame := h.mem x fun hd => hx (Or.inl hd)
    rw [hr.mem]
    cases p with
    | false => exact hsame
    | true =>
      have hout : x ∉ extent (t.cpu.reg .esp - BitVec.ofNat 32 Width.dword.bytes) 4 := by
        intro hin
        refine hx (Or.inr ⟨rfl, ?_⟩)
        rw [slot, hesp]
        exact hin
      exact hsame.trans (putBytes_outside hout).symm
  · have hflags := hr.flags
    unfold spoiledBy
    split at hflags
    · rw [if_pos ‹_›, hflags]
      exact h.flags
    · obtain ⟨x, hx, hxt⟩ := hflags
      rw [if_neg ‹_›, hx]
      refine h.flags.trans ?_
      rw [← hxt]
      exact maskFlags_same _

variable {a : Word}

variable (isa) in
/-- The store runs on the operands of the original one and leaves the same behind. -/
theorem masked_agree {early : Bool} (h : Agree {.ebx} S D s t)
    (hr : Ready sym foot isa L p early target t t') (hm : maskedTarget i = some target)
    (hebx : .ebx ∉ i.regs) (hstack : p = true → .esp ∉ i.regs)
    (ha : address sym s.cpu target = some a) (hmask : a &&& L.data_mask = a)
    (hD : ∀ x ∈ dataReads sym foot i s.cpu, x ∉ D ∪ pushedOver p s.cpu)
    (hS : spoiledBy p early S &&& flagsRead i = 0) :
    access sym foot isa i.throughEbx t' = access sym foot isa i s ∧
      Agree (movedRegs p early) (spoiledBy p early S &&& ~~~flagsDefined i)
        ((D ∪ pushedOver p s.cpu) \ dataWrites sym foot isa i s)
        (dataOp sym foot isa i s) (dataOp sym foot isa i.throughEbx t') := by
  have hagree := ready_agree h hr
  have hregs : ∀ r ∈ i.regs, r ∉ movedRegs p early := by
    rintro r hri (rfl | ⟨rfl, hp⟩)
    · exact hebx hri
    · rw [Bool.and_eq_true] at hp
      exact hstack hp.1 hri
  have htarget : ∀ r ∈ target.regs, r ∈ i.regs := by
    intro r hrt
    obtain ⟨-, ⟨source, hargs, -⟩ | hargs⟩ := masked_cases hm <;>
      simp [Insn.regs, hargs, hrt]
  have haddr : address sym (lowered p t.cpu) target = some a := by
    rw [← ha]
    refine address_agree sym target (R := {r | r = .ebx ∨ r = .esp ∧ p = true}) ?_ ?_
    · intro r hr
      have hne : r ≠ .ebx := fun he => hr (Or.inl he)
      rw [h.reg r hne]
      cases p with
      | false => rfl
      | true => exact (pushOp_reg _ _).2 r fun he => hr (Or.inr ⟨he, rfl⟩)
    · rintro r hrt (rfl | ⟨rfl, hp⟩)
      · exact hebx (htarget _ hrt)
      · exact hstack hp (htarget _ hrt)
  have hplace : address sym s.cpu target = some (t'.cpu.reg .ebx) := by
    rw [hr.ebx, haddr, Option.getD_some, hmask, ha]
  have hscratch : ScratchAgrees (movedRegs p early) := by
    refine ⟨?_, ?_, ?_⟩ <;> rintro (h | ⟨h, -⟩) <;> cases h
  have ho : SameOperands sym foot i i.throughEbx _ _ := sameOperands_masked hm hagree.reg hregs hplace
  exact ⟨access_agree hagree hscratch ho hD hS, dataOp_agree isa hagree hscratch ho hD hS⟩

end Blocks

section Accesses

theorem accesses_append (is js : List Insn) :
    accesses sym foot isa (is ++ js) s =
      accesses sym foot isa is s ++ accesses sym foot isa js (run sym foot isa is s) := by
  induction is generalizing s with
  | nil => rfl
  | cons i is ih => rw [List.cons_append, accesses, accesses, ih, run_cons, List.append_assoc]

theorem access_pushf : access sym foot isa pushf s = none := by
  have hk : kind pushf.op ≠ .data := by decide
  rw [access, if_neg hk]

theorem access_popf : access sym foot isa popf s = none := by
  have hk : kind popf.op ≠ .data := by decide
  rw [access, if_neg hk]

theorem access_leaEbx : access sym foot isa (leaEbx target) s = none := by
  have hk : kind "leal" ≠ .data := by decide
  rw [access]
  exact if_neg hk

theorem access_andData (r : Reg32) : access sym foot isa (andData L r) s = none := by
  rw [access]
  split
  · rfl
  · rfl

/-- Of the instructions for a masked store one accesses an operand in memory. -/
theorem accesses_masked (t : Proc E) : accesses sym foot isa (maskedStore L p i target) t =
    (access sym foot isa i.throughEbx
      (run sym foot isa (prelude L p (earlyPopf i) target) t)).toList := by
  have hprelude : ∀ early, accesses sym foot isa (prelude L p early target) t = [] := by
    intro early
    cases p <;> cases early <;>
      simp [prelude, accesses, access_pushf, access_popf, access_leaEbx, access_andData]
  rw [maskedStore, accesses_append, accesses_append, hprelude, List.nil_append, accesses, accesses,
    List.append_nil]
  split <;> simp [accesses, access_popf]

end Accesses

/-- For every processor, and whatever the memory and the flags hold, the instructions printed
for the store access memory as the store does, and they leave every register but `%ebx` as it
does. -/
def KeepsStore (L : Layout) (sym : String → Word) (foot : Footprint) (o : Out) (p : Bool) (i : Insn)
    (c : Cpu) : Prop :=
  ∀ (E : Type) (isa : Isa E) (s : Proc E), s.cpu.reg = c.reg →
    ∃ o', maybe_rewrite L o p i = .ok (some o') ∧
      accesses sym foot isa (emitted o o') s = accesses sym foot isa [i] s ∧
      ∀ r, r ≠ .ebx →
        (run sym foot isa (emitted o o') s).cpu.reg r = (run sym foot isa [i] s).cpu.reg r

section Sufficiency

variable {a : Word}

variable (sym foot isa) in
/-- The pushed flags are popped again. -/
theorem postlude_reg {u : Proc E} {early : Bool} (r : Reg32)
    (hesp : u.cpu.reg .esp = if p && !early then s.cpu.reg .esp - 4 else s.cpu.reg .esp)
    (hreg : ∀ q, q ∉ movedRegs p early → s.cpu.reg q = u.cpu.reg q) (hr : r ≠ .ebx) :
    (run sym foot isa (if p && !early then [popf] else []) u).cpu.reg r = s.cpu.reg r := by
  by_cases hp : (p && !early) = true
  · rw [if_pos hp] at hesp ⊢
    rw [run_cons, run_nil, step_popf]
    show (u.cpu.setReg .esp (u.cpu.reg .esp + 4)).reg r = _
    by_cases hre : r = .esp
    · rw [hre, Cpu.setReg_same, hesp, BitVec.sub_add_cancel]
    · rw [Cpu.setReg_other _ _ hre]
      refine (hreg r ?_).symm
      rintro (h | ⟨h, -⟩)
      · exact hr h
      · exact hre h
  · rw [if_neg hp] at hesp ⊢
    refine (hreg r ?_).symm
    rintro (h | ⟨-, h⟩)
    · exact hr h
    · exact hp h

/-- The condition depends on the registers alone. -/
theorem StoreSafe.congr {c' : Cpu} (h : StoreSafe sym foot p i c) (hreg : c'.reg = c.reg) :
    StoreSafe sym foot p i c' := by
  have hplace : place sym foot i c' = place sym foot i c :=
    (sameOperands_self (R := ∅) (fun r _ => by rw [hreg]) fun _ _ hr => hr).place
  refine ⟨h.stack, fun hp x hx => ?_, h.flags⟩
  rw [slot, hreg]
  refine h.below hp x ?_
  rwa [dataReads, hplace] at hx

/-- Where the condition holds, nothing that the store reads is spoiled. -/
theorem StoreSafe.unspoiled (h : StoreSafe sym foot p i c) (hS : S &&& flagsRead i = 0) :
    spoiledBy p (earlyPopf i) S &&& flagsRead i = 0 := by
  by_cases hr : flagsRead i = 0
  · rw [hr]
    exact BitVec.and_zero
  · obtain ⟨hp, he⟩ := h.flags hr
    rw [spoiledBy, hp, he]
    exact hS

theorem keepsStore_of_safe {o : Out} (hm : maskedTarget i = some target) (hk : kind i.op = .data)
    (hebx : .ebx ∉ i.regs) (ha : address sym c target = some a) (hmask : a &&& L.data_mask = a)
    (h : StoreSafe sym foot p i c) : KeepsStore L sym foot o p i c := by
  intro E isa s hs
  obtain ⟨o', ho, hcode, -⟩ := maybe_rewrite_masked (L := L) (o := o) (p := p) hm
  refine ⟨o', ho, ?_⟩
  have haddr : address sym s.cpu target = some a := by
    rw [← ha]
    exact address_agree sym target (R := ∅) (fun r _ => by rw [hs]) fun _ _ hr => hr
  have hsafe := h.congr hs
  have hself : Agree {.ebx} 0 ∅ s s := ⟨fun _ _ => rfl, fun _ _ => rfl, .rfl, rfl⟩
  have hready := prelude_ready sym foot isa L s target p (earlyPopf i)
  have hreads : ∀ x ∈ dataReads sym foot i s.cpu, x ∉ ∅ ∪ pushedOver p s.cpu := by
    rintro x hx (hd | ⟨hp, hd⟩)
    · exact hd
    · exact hsafe.below hp x hx hd
  obtain ⟨hacc, hafter⟩ := masked_agree isa hself hready hm hebx hsafe.stack haddr hmask
    hreads (hsafe.unspoiled (BitVec.zero_and))
  rw [emitted_of_code hcode]
  constructor
  · rw [accesses_masked, hacc, accesses, accesses, List.append_nil]
  · intro r hr
    rw [maskedStore, run_append, run_append, run_cons, run_nil, step_throughEbx hm hk, run_cons,
      run_nil, step_store hm hk]
    refine postlude_reg sym foot isa r ?_ hafter.reg hr
    by_cases hp : (p && !earlyPopf i) = true
    · rw [if_pos hp]
      have hesp := hsafe.stack (Bool.and_eq_true _ _ ▸ hp).1
      have hesp' : .esp ∉ i.throughEbx.regs := fun h =>
        (throughEbx_regs hm h).elim (by decide) hesp
      rw [dataOp_other hesp (by decide), dataOp_other hesp' (by decide), hready.esp, if_pos hp]
    · rw [if_neg hp]
      refine (hafter.reg .esp ?_).symm
      rintro (h | ⟨-, h⟩)
      · cases h
      · exact hp h

end Sufficiency

section Necessity

/-- The four bytes of a word. -/
def bytesOf (w : Word) : List (BitVec 8) := (List.range 4).map fun k => (w >>> (8 * k)).setWidth 8

theorem bytesOf_append_inj {v w : Word} {xs ys : List (BitVec 8)}
    (h : bytesOf v ++ xs = bytesOf w ++ ys) : v = w ∧ xs = ys := by
  obtain ⟨hb, hrest⟩ := List.append_inj h (by simp [bytesOf])
  refine ⟨?_, hrest⟩
  have hbyte : ∀ k < 4, v.toNat / 2 ^ (8 * k) % 256 = w.toNat / 2 ^ (8 * k) % 256 := by
    intro k hk
    have hbit := List.map_inj_left.mp hb k (List.mem_range.mpr hk)
    have hnat := congrArg BitVec.toNat hbit
    rwa [BitVec.toNat_setWidth, BitVec.toNat_setWidth, BitVec.toNat_ushiftRight,
      BitVec.toNat_ushiftRight, Nat.shiftRight_eq_div_pow, Nat.shiftRight_eq_div_pow] at hnat
  have h0 := hbyte 0 (by decide)
  have h1 := hbyte 1 (by decide)
  have h2 := hbyte 2 (by decide)
  have h3 := hbyte 3 (by decide)
  apply BitVec.eq_of_toNat_eq
  have hv := v.isLt
  have hw := w.isLt
  omega

theorem bytesOf_flatMap_inj {vs ws : List Word} (hlen : vs.length = ws.length)
    (h : vs.flatMap bytesOf = ws.flatMap bytesOf) : vs = ws := by
  induction vs generalizing ws with
  | nil =>
    cases ws with
    | nil => rfl
    | cons => cases hlen
  | cons v vs ih =>
    cases ws with
    | nil => cases hlen
    | cons w ws =>
      rw [List.flatMap_cons, List.flatMap_cons] at h
      obtain ⟨rfl, hrest⟩ := bytesOf_append_inj h
      rw [ih (Nat.succ.inj hlen) hrest]

theorem flagsDefined_touched (i : Insn) (k : Nat) (h : (flagsDefined i).getLsbD k = true) :
    (flagsTouched i).getLsbD k = true := by
  rw [flagsDefined, BitVec.getLsbD_and, Bool.and_eq_true] at h
  exact h.1

/-- A processor that stores all that an instruction reads: the flags and the operands. The
flags that an instruction touches it clears. -/
def revealing : Isa Unit where
  eval i x := ⟨none, none, bytesOf (x.flags &&& flagsRead i) ++ x.values.flatMap bytesOf, x.eax, x.ecx,
    x.edx, ()⟩
  flags i x := x.flags &&& ~~~flagsTouched i
  blind i x f h := by
    simp only [h]
  defined i x f spoiled h _ := by
    intro k hk
    rw [BitVec.getLsbD_and, BitVec.getLsbD_and]
    cases ht : (~~~flagsTouched i).getLsbD k with
    | false => rw [Bool.and_false, Bool.and_false]
    | true =>
      rw [h k]
      rw [BitVec.getLsbD_not, Bool.and_eq_true, decide_eq_true_eq] at ht
      have hdef : (flagsDefined i).getLsbD k = false := by
        by_contra hd
        rw [flagsDefined_touched i k (Bool.eq_true_of_not_eq_false hd)] at ht
        exact absurd ht.2 (by decide)
      rwa [BitVec.getLsbD_and, BitVec.getLsbD_not, hdef, decide_eq_true ht.1, Bool.not_false,
        Bool.and_true, Bool.and_true] at hk
  touched i x := by
    intro k hk
    by_cases hlt : k < 32
    · rw [BitVec.getLsbD_and, BitVec.getLsbD_not, hk, decide_eq_true hlt, Bool.not_false,
        Bool.and_true, Bool.and_true]
    · rw [BitVec.getLsbD_of_ge _ _ (Nat.le_of_not_lt hlt), BitVec.getLsbD_of_ge _ _ (Nat.le_of_not_lt hlt)]

variable {o : Out} {a : Word}

/-- The registers with some flags and some memory. -/
def withContents (c : Cpu) (f : Word) (m : Word → BitVec 8) : Proc Unit :=
  ⟨{ c with eflags := f, mem := m }, ()⟩

/-- The state in which the masked store runs. -/
def atStore (L : Layout) (sym : String → Word) (foot : Footprint) (p : Bool) (i : Insn)
    (target : Operand) (s : Proc Unit) : Proc Unit :=
  run sym foot revealing (prelude L p (earlyPopf i) target) s

/-- What equal accesses say about the operands. -/
theorem KeepsStore.revealed (h : KeepsStore L sym foot o p i c) (hm : maskedTarget i = some target)
    (hk : kind i.op = .data) (ha : address sym c target = some a) {f : Word} {m : Word → BitVec 8}
    {t : Proc Unit} (ht : atStore L sym foot p i target (withContents c f m) = t) :
    t.cpu.reg .ebx = a ∧ values sym i.throughEbx t.cpu = values sym i c ∧
      t.cpu.eflags &&& flagsRead i = f &&& flagsRead i ∧
      ∀ x ∈ dataReads sym foot i c, t.cpu.mem x = m x := by
  obtain ⟨o', ho, hacc, -⟩ := h Unit revealing (withContents c f m) rfl
  obtain ⟨o'', ho', hcode, -⟩ := maybe_rewrite_masked (L := L) (o := o) (p := p) hm
  obtain rfl : o' = o'' := Option.some.inj (Except.ok.inj (ho.symm.trans ho'))
  have hplace : place sym foot i c = some (a + foot.reach i.shape (values sym i c)) := by
    rw [place, masked_address hm, ha, Option.map_some]
  have hplace' : place sym foot i.throughEbx t.cpu =
      some (t.cpu.reg .ebx + foot.reach i.shape (values sym i.throughEbx t.cpu)) := by
    rw [place, throughEbx_address hm, throughEbx_shape hm, Option.map_some]
  rw [emitted_of_code hcode, accesses_masked, accesses, accesses, List.append_nil] at hacc
  change (access sym foot revealing i.throughEbx
    (atStore L sym foot p i target (withContents c f m))).toList = _ at hacc
  have hk' : kind i.throughEbx.op = .data := hk
  have hplaceS : place sym foot i (withContents c f m).cpu = place sym foot i c := rfl
  rw [ht, access, access, if_pos hk, if_pos hk', hplace', hplaceS, hplace] at hacc
  simp only [Option.map_some, Option.toList_some, List.cons.injEq, Access.mk.injEq, and_true] at hacc
  obtain ⟨haddr, hread, hstored⟩ := hacc
  obtain ⟨hflags, hvals⟩ := bytesOf_append_inj hstored
  have hlen := congrArg (·.args.length) (throughEbx_shape hm)
  simp only [Insn.shape, List.length_map] at hlen
  have hvals' : values sym i.throughEbx t.cpu = values sym i c := by
    refine bytesOf_flatMap_inj ?_ hvals
    show (i.throughEbx.args.map _).length = (i.args.map _).length
    rw [List.length_map, List.length_map, hlen]
  rw [hvals'] at haddr hplace'
  have hebx : t.cpu.reg .ebx = a := (BitVec.add_left_inj _).mp haddr
  refine ⟨hebx, hvals', hflags, ?_⟩
  rintro x ⟨b, hb, hx⟩
  rw [hebx, ← hplace, hb] at hplace'
  simp only [inputs, hplace', hplaceS, hb, Option.elim_some, throughEbx_shape hm] at hread
  obtain ⟨k, hk, rfl⟩ := extent_offset hx
  exact List.map_inj_left.mp hread k (List.mem_range.mpr hk)

/-- An instruction on data reads none but status flags. -/
theorem flagsRead_status (hk : kind i.op = .data) : ~~~statusMask &&& flagsRead i = 0 := by
  have hop : i.op ≠ "pushf" := by
    intro h
    rw [h] at hk
    exact absurd hk (by decide)
  rw [flagsRead, if_neg hop]
  split
  · decide
  · generalize hf : List.findSome? _ conditionFlags = f
    cases f with
    | none => decide
    | some w =>
      obtain ⟨e, he, hw⟩ := List.exists_of_findSome?_eq_some hf
      have hall : ∀ e ∈ conditionFlags, ~~~statusMask &&& e.2 = 0 := by decide
      have hew : e.2 = w := by
        rcases ite_eq_iff.mp hw with ⟨-, h⟩ | ⟨-, h⟩
        · exact Option.some.inj h
        · cases h
      rw [Option.getD_some, ← hew]
      exact hall e he

theorem flags_needed (h : KeepsStore L sym foot o p i c) (hm : maskedTarget i = some target)
    (hk : kind i.op = .data) (ha : address sym c target = some a) (hr : flagsRead i ≠ 0) :
    p = true ∧ earlyPopf i = true := by
  by_contra hpe
  rw [← Bool.and_eq_true] at hpe
  have hready := prelude_ready sym foot revealing L
    (withContents c (BitVec.allOnes 32) fun _ => 0) target p (earlyPopf i)
  obtain ⟨-, -, hflags, -⟩ := h.revealed hm hk ha (f := BitVec.allOnes 32) (m := fun _ => 0) rfl
  obtain ⟨x, hx, hxf⟩ := (if_neg hpe ▸ hready.flags : ∃ x : Proc Unit, _)
  have hcleared : maskFlags sym foot revealing L .ebx x = ~~~statusMask := by
    show x.cpu.eflags &&& ~~~flagsTouched (andData L .ebx).shape = _
    rw [touched_andData, hxf]
    exact BitVec.allOnes_and
  rw [atStore, hx, hcleared, flagsRead_status hk, BitVec.allOnes_and] at hflags
  exact hr hflags.symm

/-- The pushed flags overwrite what a store reads below `%esp`. -/
theorem below_needed (h : KeepsStore L sym foot o true i c) (hm : maskedTarget i = some target)
    (hk : kind i.op = .data) (ha : address sym c target = some a) :
    ∀ x ∈ dataReads sym foot i c, x ∉ slot c := by
  intro x hx hslot
  have hready := prelude_ready sym foot revealing L (withContents c 0 fun _ => 0xff)
    target true (earlyPopf i)
  obtain ⟨-, -, -, hmem⟩ := h.revealed hm hk ha (f := 0) (m := fun _ => 0xff) rfl
  have hx' := hmem x hx
  rw [atStore, hready.mem] at hx'
  have hzero : ∀ (b : Word) n, Cpu.putBytes (fun _ => 0) b 0 n = fun _ => 0 := by
    intro b n
    induction n generalizing b with
    | zero => rfl
    | succ n ih =>
      rw [Cpu.putBytes, show (0 : Word) >>> 8 = 0 from by decide, ih]
      exact Function.update_eq_self b fun _ => 0
  have hput : Cpu.putBytes (fun _ => 0xff) (c.reg .esp - 4) 0 4 x =
      Cpu.putBytes (fun _ => 0) (c.reg .esp - 4) 0 4 x :=
    putBytes_agree (D := Set.univ) 0 (fun x hx => absurd (Set.mem_univ x) hx) x
      fun hd => hd.2 hslot
  rw [hzero] at hput
  have hne : (0xff : BitVec 8) ≠ 0 := by decide
  exact hne (hx'.symm.trans hput)

variable (sym) in
/-- An address through `%esp` moves down with it, by less than the size of a region. -/
theorem address_lowered {c' : Cpu} (hesp : c'.reg .esp = c.reg .esp - 4)
    (hreg : ∀ r, r ≠ .esp → c'.reg r = c.reg r) (hin : .esp ∈ target.regs)
    (ha : address sym c target = some a) :
    ∃ n < 2 ^ 24, 0 < n ∧ address sym c' target = some (a - BitVec.ofNat 32 n) := by
  cases target with
  | mem offset base index scale =>
    obtain ⟨m, hm, hm4, hscale⟩ : ∃ m, 0 < m ∧ m ≤ 8 ∧ (scale.map (·.val)).getD 1 = m := by
      cases scale with
      | none => exact ⟨1, by decide, by decide, rfl⟩
      | some k =>
        have hk : ∀ n ∈ [1, 2, 4, 8], 0 < n ∧ n ≤ 8 := by decide
        exact ⟨k.val, (hk k.val k.property).1, (hk k.val k.property).2, rfl⟩
    have hterm : ∀ r : Option Reg32, ∃ n, (n = 0 ∨ n = 4) ∧ (.esp ∈ r.toList → n = 4) ∧
        (r.map c'.reg).getD 0 = (r.map c.reg).getD 0 - BitVec.ofNat 32 n := by
      intro r
      cases r with
      | none =>
        refine ⟨0, Or.inl rfl, ?_, (BitVec.sub_zero _).symm⟩
        intro h
        cases h
      | some q =>
        by_cases hq : q = .esp
        · exact ⟨4, Or.inr rfl, fun _ => rfl, by rw [hq]; exact hesp⟩
        · refine ⟨0, Or.inl rfl, fun h => absurd (List.mem_singleton.mp h).symm hq, ?_⟩
          rw [Option.map_some, Option.map_some, Option.getD_some, Option.getD_some, hreg q hq]
          exact (BitVec.sub_zero _).symm
    obtain ⟨n, hn, hn4, hbase⟩ := hterm base
    obtain ⟨k, hk, hk4, hindex⟩ := hterm index
    refine ⟨n + k * m, ?_, ?_, ?_⟩
    · rcases hn with rfl | rfl <;> rcases hk with rfl | rfl <;> omega
    · rcases List.mem_append.mp hin with h | h
      · rw [hn4 h]
        omega
      · rw [hk4 h]
        omega
    · rw [address, hbase, hindex, hscale]
      obtain rfl := Option.some.inj ha
      rw [hscale, BitVec.ofNat_add, BitVec.ofNat_mul]
      congr 1
      grind
  | const => cases hin
  | reg | imm | star | other => cases ha

/-- A part of `%esp` that is long enough changes when a word is pushed. -/
theorem source_lowered {source : Operand} {c' : Cpu} (hesp : c'.reg .esp = c.reg .esp - 4)
    (hs : source.source = true) (hin : .esp ∈ source.regs) :
    plainValue sym c' source ≠ plainValue sym c source := by
  cases source with
  | reg r =>
    have hw : r.whole = some .esp := Option.mem_toList.mp hin
    cases r with
    | r32 q =>
      obtain rfl := Option.some.inj hw
      show c'.reg .esp ≠ c.reg .esp
      rw [hesp]
      bv_omega
    | r16 q =>
      obtain rfl := Option.some.inj hw
      intro h
      have hnat := congrArg BitVec.toNat h
      have hfour : (4 : Word).toNat = 4 := rfl
      simp only [plainValue, Cpu.readReg, hesp, BitVec.toNat_setWidth, BitVec.toNat_sub, hfour] at hnat
      omega
    | r8 q => exact absurd (Option.some.inj hw) (Cpu.reg8_whole q).1
    | other n => cases hw
  | imm => cases hin
  | mem | const | star | other => cases hs

theorem stack_needed (hlow : ∀ x : Word, (x &&& L.data_mask).toNat % 2 ^ 24 = x.toNat % 2 ^ 24)
    (h : KeepsStore L sym foot o true i c) (hm : maskedTarget i = some target)
    (hk : kind i.op = .data) (ha : address sym c target = some a) : .esp ∉ i.regs := by
  intro hin
  have hready := prelude_ready sym foot revealing L (withContents c 0 fun _ => 0)
    target true (earlyPopf i)
  obtain ⟨hebx, hvals, -, -⟩ := h.revealed hm hk ha (f := 0) (m := fun _ => 0) rfl
  have htarget : .esp ∉ target.regs := by
    intro hin
    obtain ⟨hesp, hother⟩ := pushOp_reg 0 (withContents c 0 fun _ => 0).cpu
    obtain ⟨n, hn, hpos, haddr⟩ := address_lowered sym hesp hother hin ha
    have hmasked : (a - BitVec.ofNat 32 n) &&& L.data_mask = a := by
      refine Eq.trans ?_ (hready.ebx.symm.trans hebx)
      show _ = (address sym (pushOp .dword 0 _) target).getD 0 &&& _
      rw [haddr, Option.getD_some]
    have hmod := hlow (a - BitVec.ofNat 32 n)
    rw [hmasked, BitVec.toNat_sub, BitVec.toNat_ofNat] at hmod
    have hlt := a.isLt
    omega
  obtain ⟨-, ⟨source, hargs, hs⟩ | hargs⟩ := masked_cases hm
  · rw [Insn.regs, hargs, List.flatMap_cons, List.flatMap_singleton, List.mem_append] at hin
    have hearly : earlyPopf i = false := by
      rw [earlyPopf, hargs]
      rfl
    have hesp : (atStore L sym foot true i target (withContents c 0 fun _ => 0)).cpu.reg .esp =
        c.reg .esp - 4 := by
      rw [atStore, hready.esp, hearly]
      rfl
    have hhead := congrArg List.head? hvals
    simp only [values, Insn.throughEbx, hargs, List.dropLast_cons_cons, List.dropLast_singleton,
      List.cons_append, List.map_cons, List.head?_cons, Option.some.injEq] at hhead
    exact source_lowered hesp hs (hin.resolve_right htarget) hhead
  · rw [Insn.regs, hargs, List.flatMap_singleton] at hin
    exact htarget hin

end Necessity

section

variable {g : Settings} {sz : Size} {o : Out} {a : Word}

/-- The instructions printed for a masked store do what the store does exactly if pushed flags
do not move what it names or reads and the flags it reads are popped in time. -/
theorem stores_kept_iff (hm : maskedTarget i = some target) (hk : kind i.op = .data)
    (hebx : .ebx ∉ i.regs) (ha : address sym c target = some a)
    (hin : a ∈ span 32 (compute_sizes g sz).data_start (compute_sizes g sz).data_size) :
    KeepsStore (compute_sizes g sz) sym foot o p i c ↔ StoreSafe sym foot p i c := by
  constructor
  · intro h
    refine ⟨?_, ?_, fun hr => flags_needed h hm hk ha hr⟩
    · rintro rfl
      exact stack_needed (data_mask_low g sz) h hm hk ha
    · rintro rfl
      exact below_needed h hm hk ha
  · exact keepsStore_of_safe hm hk hebx ha (data_mask_keeps g sz (Or.inl hin))

end

/-- A processor with every register at the start of the data region. -/
def atDataStart : Cpu := ⟨0, fun _ => 0x20000000, 0, fun _ => 0⟩

/-- `movl %esp, (%ecx)` -/
def spillEsp : Insn := ⟨"movl", [.reg (.r32 .esp), .mem none (some .ecx) none none]⟩

/-- `addl %eax, (%ecx)` -/
def addEax : Insn := ⟨"addl", [.reg (.r32 .eax), .mem none (some .ecx) none none]⟩

/-- With precious flags the value of `%esp` that is stored is the one behind the `pushf`. -/
theorem spilled_esp_moves : ¬ ∀ (sym : String → Word) (foot : Footprint) (o : Out) (p : Bool)
    (i : Insn) (c : Cpu) (target : Operand) (a : Word),
    maskedTarget i = some target → kind i.op = .data → .ebx ∉ i.regs →
    address sym c target = some a → a ∈ span 32 classic.data_start classic.data_size →
    KeepsStore classic sym foot o p i c := by
  intro h
  have hm : maskedTarget spillEsp = some (.mem none (some .ecx) none none) := by decide
  have hk : kind spillEsp.op = .data := by decide
  have hkeep := h (fun _ => 0) ⟨fun _ _ => 0, fun _ => 0⟩ {} true spillEsp atDataStart _ 0x20000000 hm hk
    (by decide) (by decide) (by decide)
  exact stack_needed (data_mask_low {} .classic) hkeep hm hk rfl (by decide)

theorem added_eax_kept : KeepsStore classic (fun _ => 0) ⟨fun _ _ => 0, fun _ => 4⟩ {} true addEax
    atDataStart := by
  have hm : maskedTarget addEax = some (.mem none (some .ecx) none none) := by decide
  have hk : kind addEax.op = .data := by decide
  have hiff := @stores_kept_iff (fun _ => 0) ⟨fun _ _ => 0, fun _ => 4⟩ atDataStart addEax _ true {}
    .classic {} 0x20000000 hm hk (by decide) (by decide) (by decide)
  refine hiff.mpr ⟨fun _ => by decide, ?_, fun h => absurd (by decide) h⟩
  rintro - x ⟨a, ha, hx⟩ hslot
  obtain rfl : 0x20000000 = a := Option.some.inj ha
  have hx' : (x - 0x20000000).toNat < 4 := hx
  have hslot' : (x - 0x1ffffffc).toNat < 4 := hslot
  bv_omega

end Pittsfield.Rewrite
