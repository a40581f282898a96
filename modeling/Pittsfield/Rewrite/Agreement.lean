import Pittsfield.Rewrite.Execute

/-!
# States that agree

Two states that differ in some registers, some flags and some bytes of memory at most. An
instruction that looks at none of these keeps the states in agreement, and what it sets
is the same in both from then on.
-/

namespace Pittsfield.Rewrite

open Pittsfield.Region
open Pittsfield.Machine
open Pittsfield.Offline

/-- The `n` bytes from `a` on. -/
def extent (a : Word) (n : Nat) : Set Word := {x | (x - a).toNat < n}

/-- The general registers that an operand names. -/
def Operand.regs : Operand → List Reg32
  | .reg r => r.whole.toList
  | .mem _ base index _ => base.toList ++ index.toList
  | .star target => target.regs
  | _ => []

def Insn.regs (i : Insn) : List Reg32 := i.args.flatMap Operand.regs

/-- The states agree but for the registers `R`, the flags `S` and the bytes `D`. -/
structure Agree {E : Type} (R : Set Reg32) (S : Word) (D : Set Word) (s t : Proc E) : Prop where
  reg : ∀ r, r ∉ R → s.cpu.reg r = t.cpu.reg r
  mem : ∀ x, x ∉ D → s.cpu.mem x = t.cpu.mem x
  flags : SameFlags S s.cpu.eflags t.cpu.eflags
  fpu : s.fpu = t.fpu

section Flags

variable {S T m a b c : Word}

theorem SameFlags.rfl : SameFlags S a a := fun _ _ => Eq.refl _

theorem SameFlags.symm (h : SameFlags S a b) : SameFlags S b a := fun k hk => (h k hk).symm

theorem SameFlags.mono (h : SameFlags S a b) (hle : S &&& ~~~T = 0) : SameFlags T a b := by
  intro k hk
  apply h
  by_cases hlt : k < 32
  · have hbit : (S &&& ~~~T).getLsbD k = false := by
      rw [hle]
      exact BitVec.getLsbD_zero
    rw [BitVec.getLsbD_and, BitVec.getLsbD_not, hk] at hbit
    simpa [hlt] using hbit
  · exact BitVec.getLsbD_of_ge _ _ (Nat.le_of_not_lt hlt)

theorem SameFlags.trans (h : SameFlags S a b) (h' : SameFlags T b c) : SameFlags (S ||| T) a c := by
  intro k hk
  rw [BitVec.getLsbD_or, Bool.or_eq_false_iff] at hk
  exact (h k hk.1).trans (h' k hk.2)

/-- Flags outside the mask have one value. -/
theorem SameFlags.and (h : SameFlags S a b) (hm : S &&& m = 0) : a &&& m = b &&& m := by
  apply BitVec.eq_of_getLsbD_eq
  intro k hk
  have hbit : (S &&& m).getLsbD k = false := by
    rw [hm]
    exact BitVec.getLsbD_zero
  rw [BitVec.getLsbD_and, Bool.and_eq_false_iff] at hbit
  rw [BitVec.getLsbD_and, BitVec.getLsbD_and]
  rcases hbit with hs | hmask
  · rw [h k hs]
  · rw [hmask, Bool.and_false, Bool.and_false]

end Flags

section Memory

variable {D : Set Word} {m m' : Word → BitVec 8} {a x : Word} {n : Nat}

theorem mem_extent : x ∈ extent a n ↔ (x - a).toNat < n := Iff.rfl

theorem offset_mem_extent {k : Nat} (hk : k < n) : a + BitVec.ofNat 32 k ∈ extent a n := by
  have hsub : a + BitVec.ofNat 32 k - a = BitVec.ofNat 32 k := by
    rw [BitVec.add_comm, BitVec.add_sub_cancel]
  rw [mem_extent, hsub, BitVec.toNat_ofNat]
  exact Nat.lt_of_le_of_lt (Nat.mod_le _ _) hk

theorem extent_offset (h : x ∈ extent a n) : ∃ k < n, x = a + BitVec.ofNat 32 k := by
  refine ⟨_, h, ?_⟩
  rw [BitVec.ofNat_toNat, BitVec.setWidth_eq, BitVec.add_comm, BitVec.sub_add_cancel]

theorem readBytes_congr (h : ∀ x ∈ extent a n, m x = m' x) : readBytes m a n = readBytes m' a n := by
  apply List.map_congr_left
  intro k hk
  exact h _ (offset_mem_extent (List.mem_range.mp hk))

theorem bytesAt_agree (h : ∀ x ∈ extent a n, m x = m' x) : Cpu.bytesAt m a n = Cpu.bytesAt m' a n :=
  Cpu.bytesAt_congr fun _ hk => h _ (offset_mem_extent hk)

theorem writeBytes_agree (bs : List (BitVec 8)) (h : ∀ x, x ∉ D → m x = m' x) :
    ∀ x, x ∉ D \ extent a bs.length → writeBytes m a bs x = writeBytes m' a bs x := by
  intro x hx
  by_cases hin : x ∈ extent a bs.length
  · rw [writeBytes, writeBytes, List.getElem?_eq_getElem hin]
    rfl
  · rw [writeBytes, writeBytes, h x fun hd => hx ⟨hd, hin⟩]

theorem writeBytes_other {bs : List (BitVec 8)} (h : x ∉ extent a bs.length) :
    writeBytes m a bs x = m x := by
  rw [writeBytes, List.getElem?_eq_none (Nat.le_of_not_lt h)]
  rfl

theorem putBytes_agree (v : Word) (h : ∀ x, x ∉ D → m x = m' x) :
    ∀ x, x ∉ D \ extent a n → Cpu.putBytes m a v n x = Cpu.putBytes m' a v n x := by
  have hoff : ∀ x, (x ∉ D ∨ ∃ k < n, x = a + BitVec.ofNat 32 k) →
      Cpu.putBytes m a v n x = Cpu.putBytes m' a v n x := by
    induction n generalizing a v with
    | zero =>
      rintro x (hx | ⟨k, hk, -⟩)
      · exact h x hx
      · omega
    | succ n ih =>
      intro x hx
      rw [Cpu.putBytes, Cpu.putBytes]
      by_cases hxa : x = a
      · rw [hxa, Function.update_self, Function.update_self]
      · rw [Function.update_of_ne hxa, Function.update_of_ne hxa]
        apply ih
        refine hx.imp_right ?_
        rintro ⟨k, hk, rfl⟩
        cases k with
        | zero => exact absurd (by simp) hxa
        | succ k => exact ⟨k, Nat.lt_of_succ_lt_succ hk, (Cpu.add_one_ofNat a k).symm⟩
  intro x hx
  apply hoff
  by_cases hd : x ∈ D
  · exact Or.inr (extent_offset (by_contra fun hn => hx ⟨hd, hn⟩))
  · exact Or.inl hd

theorem putBytes_outside {v : Word} (h : x ∉ extent a n) : Cpu.putBytes m a v n x = m x := by
  apply Cpu.putBytes_other
  rintro k hk rfl
  exact h (offset_mem_extent hk)

end Memory

section Registers

variable {R : Set Reg32} {s t : Cpu} {sym : String → Word} {o : Operand}

theorem setReg_agree (h : ∀ r, r ∉ R → s.reg r = t.reg r) (q : Reg32) (v : Word) :
    ∀ r, r ∉ R → (s.setReg q v).reg r = (t.setReg q v).reg r := by
  intro r hr
  by_cases hq : r = q
  · rw [hq, Cpu.setReg_same, Cpu.setReg_same]
  · rw [Cpu.setReg_other _ _ hq, Cpu.setReg_other _ _ hq, h r hr]

/-- Writing an operand keeps registers in agreement, also where it writes a part of one. -/
theorem writeReg_agree (h : ∀ r, r ∉ R → s.reg r = t.reg r) (q : Reg) (v : Word) :
    ∀ r, r ∉ R → (s.writeReg v q).reg r = (t.writeReg v q).reg r := by
  intro r hr
  by_cases hq : q.whole = some r
  · have hold := h r hr
    cases q with
    | r32 p =>
      obtain rfl := Option.some.inj hq
      rw [Cpu.writeReg, Cpu.writeReg, Cpu.setReg_same, Cpu.setReg_same]
    | r16 p =>
      obtain rfl := Option.some.inj hq
      rw [Cpu.writeReg, Cpu.writeReg, Cpu.setReg_same, Cpu.setReg_same, hold]
    | r8 p =>
      obtain rfl := Option.some.inj hq
      simp only [Cpu.writeReg]
      split <;> rw [Cpu.setReg_same, Cpu.setReg_same, hold]
    | other n => cases hq
  · rw [Cpu.writeReg_other _ _ hq, Cpu.writeReg_other _ _ hq, h r hr]

theorem plainValue_agree (h : ∀ r, r ∉ R → s.reg r = t.reg r) (ho : ∀ r ∈ o.regs, r ∉ R) :
    plainValue sym s o = plainValue sym t o := by
  cases o with
  | reg r =>
    have hr : ∀ q, r.whole = some q → s.reg q = t.reg q := by
      intro q hq
      refine h q (ho q ?_)
      rw [Operand.regs, hq]
      exact List.mem_singleton_self q
    cases r with
    | r32 q => exact hr q rfl
    | r16 q => rw [plainValue, plainValue, Cpu.readReg, Cpu.readReg, hr q rfl]
    | r8 q => rw [plainValue, plainValue, Cpu.readReg, Cpu.readReg, hr q.whole.1 rfl]
    | other n => rfl
  | imm | mem | const | star | other => rfl

variable (sym o) in
theorem address_agree (h : ∀ r, r ∉ R → s.reg r = t.reg r) (ho : ∀ r ∈ o.regs, r ∉ R) :
    address sym s o = address sym t o := by
  cases o with
  | mem offset base index scale =>
    have hbase : base.map s.reg = base.map t.reg := by
      apply Option.map_congr
      intro r hr
      exact h r (ho r (List.mem_append_left _ (Option.mem_toList.mpr hr)))
    have hindex : index.map s.reg = index.map t.reg := by
      apply Option.map_congr
      intro r hr
      exact h r (ho r (List.mem_append_right _ (Option.mem_toList.mpr hr)))
    rw [address, address, hbase, hindex]
  | reg | imm | const | star | other => rfl

end Registers

section Data

variable {E : Type} {R : Set Reg32} {S : Word} {D : Set Word} {s t : Proc E}
variable {sym : String → Word} {foot : Footprint} {isa : Isa E} {i j : Insn}

theorem constantCount_shape (i : Insn) : constantCount i.shape = constantCount i := by
  obtain ⟨op, args⟩ := i
  match args with
  | [] => rfl
  | [_] => rfl
  | [o, _] => cases o <;> rfl
  | o :: _ :: _ :: _ => cases o <;> rfl

theorem flagsDefined_shape (i : Insn) : flagsDefined i.shape = flagsDefined i := by
  have hargs : i.shape.args = [] ↔ i.args = [] := List.map_eq_nil_iff
  rw [flagsDefined, flagsDefined, constantCount_shape]
  simp only [shape_op, hargs]
  rfl

/-- The bytes that an instruction on data reads. -/
def dataReads (sym : String → Word) (foot : Footprint) (i : Insn) (s : Cpu) : Set Word :=
  {x | ∃ a, place sym foot i s = some a ∧ x ∈ extent a (foot.reads i.shape)}

/-- The bytes that an instruction on data writes. -/
def dataWrites (sym : String → Word) (foot : Footprint) (isa : Isa E) (i : Insn) (s : Proc E) :
    Set Word :=
  {x | ∃ a, place sym foot i s.cpu = some a ∧
    x ∈ extent a (isa.eval i.shape (inputs sym foot i s)).stored.length}

/-- What two instructions of one shape have to agree on to compute the same. -/
structure SameOperands (sym : String → Word) (foot : Footprint) (i j : Insn) (s t : Cpu) : Prop where
  shape : i.shape = j.shape
  values : values sym i s = values sym j t
  place : place sym foot i s = place sym foot j t

theorem sameOperands_self {s t : Cpu} (hreg : ∀ r, r ∉ R → s.reg r = t.reg r)
    (hi : ∀ r ∈ i.regs, r ∉ R) : SameOperands sym foot i i s t := by
  have hargs : ∀ o ∈ i.args, ∀ r ∈ o.regs, r ∉ R :=
    fun o ho r hr => hi r (List.mem_flatMap.mpr ⟨o, ho, hr⟩)
  have hvals : Rewrite.values sym i s = Rewrite.values sym i t :=
    List.map_congr_left fun o ho => plainValue_agree hreg (hargs o ho)
  have haddr : i.args.findSome? (address sym s) = i.args.findSome? (address sym t) := by
    generalize i.args = args at hargs
    induction args with
    | nil => rfl
    | cons o os ih =>
      rw [List.findSome?_cons, List.findSome?_cons,
        address_agree sym o hreg (hargs o List.mem_cons_self),
        ih fun p hp => hargs p (List.mem_cons_of_mem _ hp)]
  refine ⟨rfl, hvals, ?_⟩
  rw [Rewrite.place, Rewrite.place, haddr, hvals]

/-- The registers that instructions use implicitly are among those that agree. -/
def ScratchAgrees (R : Set Reg32) : Prop := .eax ∉ R ∧ .ecx ∉ R ∧ .edx ∉ R

theorem inputs_agree (h : Agree R S D s t) (hR : ScratchAgrees R)
    (ho : SameOperands sym foot i j s.cpu t.cpu) (hD : ∀ x ∈ dataReads sym foot i s.cpu, x ∉ D) :
    inputs sym foot j t = { inputs sym foot i s with flags := t.cpu.eflags } := by
  have hbytes : ((place sym foot j t.cpu).elim [] fun a => readBytes t.cpu.mem a (foot.reads j.shape)) =
      (place sym foot i s.cpu).elim [] fun a => readBytes s.cpu.mem a (foot.reads i.shape) := by
    rw [← ho.place, ← ho.shape]
    cases hp : place sym foot i s.cpu with
    | none => rfl
    | some a =>
      apply readBytes_congr
      intro x hx
      exact (h.mem x (hD x ⟨a, hp, hx⟩)).symm
  obtain ⟨h1, h2, h3⟩ := hR
  rw [inputs, inputs, hbytes, ho.values, h.reg _ h1, h.reg _ h2, h.reg _ h3, h.fpu]

variable (isa) in
theorem eval_agree (h : Agree R S D s t) (hR : ScratchAgrees R)
    (ho : SameOperands sym foot i j s.cpu t.cpu) (hD : ∀ x ∈ dataReads sym foot i s.cpu, x ∉ D)
    (hS : S &&& flagsRead i = 0) :
    isa.eval j.shape (inputs sym foot j t) = isa.eval i.shape (inputs sym foot i s) := by
  rw [inputs_agree h hR ho hD, ← ho.shape]
  exact isa.blind _ _ _ (h.flags.and hS)

theorem flags_agree (h : Agree R S D s t) (hR : ScratchAgrees R)
    (ho : SameOperands sym foot i j s.cpu t.cpu) (hD : ∀ x ∈ dataReads sym foot i s.cpu, x ∉ D)
    (hS : S &&& flagsRead i = 0) :
    SameFlags (S &&& ~~~flagsDefined i) (isa.flags i.shape (inputs sym foot i s))
      (isa.flags j.shape (inputs sym foot j t)) := by
  have hd := isa.defined i.shape (inputs sym foot i s) t.cpu.eflags S h.flags hS
  rw [flagsDefined_shape] at hd
  rwa [inputs_agree h hR ho hD, ← ho.shape]

/-- Instructions of one shape with the same operands access memory alike. -/
theorem access_agree (h : Agree R S D s t) (hR : ScratchAgrees R)
    (ho : SameOperands sym foot i j s.cpu t.cpu) (hD : ∀ x ∈ dataReads sym foot i s.cpu, x ∉ D)
    (hS : S &&& flagsRead i = 0) : access sym foot isa j t = access sym foot isa i s := by
  have hop : j.op = i.op := (congrArg Insn.op ho.shape).symm
  have hbytes := congrArg Inputs.bytes (inputs_agree h hR ho hD)
  rw [access, access, hop, ← ho.place, eval_agree isa h hR ho hD hS, hbytes]

theorem writeBack_reg (k : Insn) (a : Option Word) (y : Outputs E) (f f' : Word) {s t : Cpu}
    (h : ∀ r, r ∉ R → s.reg r = t.reg r) :
    ∀ r, r ∉ R → (writeBack k a y f s).reg r = (writeBack k a y f' t).reg r := by
  have hscratch := setReg_agree (setReg_agree (setReg_agree h .eax y.eax) .ecx y.ecx) .edx y.edx
  simp only [writeBack]
  split <;> split
  · exact writeReg_agree (writeReg_agree hscratch _ _) _ _
  · exact writeReg_agree hscratch _ _
  · exact writeReg_agree hscratch _ _
  · exact hscratch

/-- A register that an instruction neither names nor uses implicitly keeps its value. -/
theorem writeBack_other {k : Insn} {q : Reg32} (hk : ∀ r, .reg r ∈ k.args → r.whole ≠ some q)
    (hq : q ≠ .eax ∧ q ≠ .ecx ∧ q ≠ .edx) (a : Option Word) (y : Outputs E) (f : Word) (s : Cpu) :
    (writeBack k a y f s).reg q = s.reg q := by
  have hscratch : (((s.setReg .eax y.eax).setReg .ecx y.ecx).setReg .edx y.edx).reg q = s.reg q := by
    rw [Cpu.setReg_other _ _ hq.2.2, Cpu.setReg_other _ _ hq.2.1, Cpu.setReg_other _ _ hq.1]
  simp only [writeBack]
  split
  · rename_i hlast _
    rw [Cpu.writeReg_other _ _ (hk _ (List.mem_of_getLast? hlast))]
    split
    · rename_i hargs _
      rw [Cpu.writeReg_other _ _ (hk _ (hargs ▸ List.mem_cons_self)), hscratch]
    · exact hscratch
  · split
    · rename_i hargs _
      rw [Cpu.writeReg_other _ _ (hk _ (hargs ▸ List.mem_cons_self)), hscratch]
    · exact hscratch

theorem dataOp_other {q : Reg32} (hi : q ∉ i.regs) (hq : q ≠ .eax ∧ q ≠ .ecx ∧ q ≠ .edx) :
    (dataOp sym foot isa i s).cpu.reg q = s.cpu.reg q := by
  apply writeBack_other _ hq
  intro r hr hw
  obtain ⟨o, ho, hshape⟩ := List.mem_map.mp hr
  have hreg : o = .reg r := by
    cases o with
    | reg | imm | star | other => exact hshape
    | mem | const => cases hshape
  rw [hreg] at ho
  exact hi (List.mem_flatMap.mpr ⟨_, ho, by rw [Operand.regs, hw]; exact List.mem_singleton_self q⟩)

theorem writeBack_mem (k : Insn) (a : Option Word) (y : Outputs E) (f : Word) (s : Cpu) :
    (writeBack k a y f s).mem = a.elim s.mem (writeBytes s.mem · y.stored) := by
  simp only [writeBack]
  split <;> split <;> simp only [Cpu.writeReg_mem, Cpu.setReg_mem]

variable (isa) in
/-- Instructions of one shape with the same operands keep the states in agreement. -/
theorem dataOp_agree (h : Agree R S D s t) (hR : ScratchAgrees R)
    (ho : SameOperands sym foot i j s.cpu t.cpu) (hD : ∀ x ∈ dataReads sym foot i s.cpu, x ∉ D)
    (hS : S &&& flagsRead i = 0) :
    Agree R (S &&& ~~~flagsDefined i) (D \ dataWrites sym foot isa i s)
      (dataOp sym foot isa i s) (dataOp sym foot isa j t) := by
  have hy := eval_agree isa h hR ho hD hS
  refine ⟨?_, ?_, flags_agree h hR ho hD hS, (congrArg Outputs.fpu hy).symm⟩
  · rw [dataOp, dataOp, hy, ← ho.shape, ← ho.place]
    exact writeBack_reg _ _ _ _ _ h.reg
  · rw [dataOp, dataOp, hy, ← ho.shape, ← ho.place]
    intro x hx
    rw [writeBack_mem, writeBack_mem]
    cases hp : place sym foot i s.cpu with
    | none => exact h.mem x fun hd => hx ⟨hd, fun ⟨a, ha, _⟩ => by rw [hp] at ha; cases ha⟩
    | some a =>
      apply writeBytes_agree _ h.mem
      rintro ⟨hd, hout⟩
      refine hx ⟨hd, ?_⟩
      rintro ⟨b, hb, hin⟩
      rw [hp] at hb
      cases hb
      exact hout hin

end Data

end Pittsfield.Rewrite
