import Pittsfield.Loader.Opcodes
import Pittsfield.Loader.Switch
import Pittsfield.Machine.Weakening

/-!
# Running the decoded instructions

What the processor does on an instruction that libdisasm has decoded, as far as
the loader's invariants depend on it: the stack instructions, the transfers of
control, and the write to the first explicit operand of everything else. Moves,
masks and sums have their value, every other result is the parameter `alu`'s. A
write to a guard zone has no successor. The code does not change while it runs.
-/

namespace Pittsfield.Loader

open Pittsfield.Foundation
open Pittsfield.Region
open Pittsfield.Machine
open InsnType

/-- The width of a stack slot under the operand size of the instruction. -/
def slotWidth (i : X86Insn) : Width := if i.op_size = 2 then .word else .dword

def operandWidth (o : X86Op) : Width :=
  match o.datatype with
  | .op_byte => .byte
  | .op_word => .word
  | _ => .dword

def effectiveAddress (s : Cpu) (ea : X86Ea) : Word :=
  (ea.base.map s.readReg).getD 0 + (ea.index.map s.readReg).getD 0 * BitVec.ofNat 32 ea.scale +
    ea.disp.disp

/-- The address of a memory operand. -/
def operandAddress (s : Cpu) (o : X86Op) : Option Word :=
  match o.data with
  | .expression ea => some (effectiveAddress s ea)
  | .offset a => some a
  | _ => none

/-- An immediate operand; bytes are sign-extended. -/
def immediateValue (o : X86Op) : Word :=
  if o.datatype = .op_byte then (o.dword.setWidth 8).signExtend 32 else o.dword

section

variable (L : Layout) (alu : Alu X86Insn)

/-- What the first operand holds before the instruction. -/
def currentValue (i : X86Insn) (s : Cpu) (o : X86Op) : Word :=
  match o.data with
  | .register r => s.readReg r
  | .expression ea => s.load (operandWidth o) (effectiveAddress s ea)
  | _ => alu.result i s

/-- What a move takes from its source. The address of a memory source may be the
value itself, since `lea` is a move too, so it is left open. -/
def sourceValue (i : X86Insn) (s : Cpu) (o : X86Op) : Word :=
  match o.data with
  | .register (.r32 r) => s.reg r
  | .immediate _ => immediateValue o
  | _ => alu.result i s

/-- The value that an instruction without control or stack effect writes. -/
def dataResult (i : X86Insn) (s : Cpu) : Word :=
  match i.type, i.args with
  | insn_mov, [_, b] => sourceValue alu i s b
  | insn_and, [a, b] =>
    if b.type = .op_immediate then currentValue alu i s a &&& immediateValue b else alu.result i s
  | insn_add, [a, b] =>
    if b.type = .op_immediate then
      currentValue alu i s a + immediateValue b + BitVec.ofNat 32 (alu.carry i s).toNat
    else alu.result i s
  | insn_sub, [a, b] =>
    if b.type = .op_immediate then
      currentValue alu i s a - immediateValue b - BitVec.ofNat 32 (alu.carry i s).toNat
    else alu.result i s
  | _, _ => alu.result i s

/-- The access to the operand `o`, at `address` if it lies in memory. -/
def writeTo (s : Cpu) (address : Option Word) (o : X86Op) (v : Word) : Option Cpu :=
  match address with
  | some a =>
    if a ∈ L.guardZone then none
    else some (if o.write then s.store (operandWidth o) a v else s)
  | none =>
    match o.reg with
    | some r => some (if o.write then s.writeReg v r else s)
    | none => some s

/-- An instruction without control or stack effect. -/
def dataOp (i : X86Insn) (s : Cpu) : Option Cpu :=
  match i.args with
  | [] => some (alu.clobber i s)
  | a :: _ => writeTo L (alu.clobber i s) (operandAddress s a) a (dataResult alu i s)

/-- Where a jump or a call goes. A 16-bit operand size truncates the address. -/
def transferTarget (i : X86Insn) (s : Cpu) : Word :=
  let next := s.eip + BitVec.ofNat 32 i.size
  let target :=
    match i.args with
    | [] => alu.result i s
    | a :: _ =>
      match a.data with
      | .relative_near d => next + d.signExtend 32
      | .relative_far d => next + d
      | .register r => s.readReg r
      | .expression ea => s.load .dword (effectiveAddress s ea)
      | _ => alu.result i s
  if i.op_size = 2 then target &&& 0xffff else target

def pushedValue (i : X86Insn) (s : Cpu) : Word :=
  match i.args with
  | [] => alu.result i s
  | a :: _ => sourceValue alu i s a

/-- The bytes that `ret $imm` takes off the stack beyond the return address. -/
def returnBytes (i : X86Insn) : Word :=
  match i.args with
  | [] => 0
  | a :: _ => a.dword

/-- One instruction. -/
def exec (i : X86Insn) (s : Cpu) : Option Cpu :=
  let next := s.eip + BitVec.ofNat 32 i.size
  let w := slotWidth i
  match i.type with
  | insn_push => (s.push L w (pushedValue alu i s)).map (·.jump next)
  | insn_pushflags => (s.push L w s.eflags).map (·.jump next)
  | insn_pop =>
    (s.pop L w).bind fun (v, s') =>
      match i.args with
      | [] => some (s'.jump next)
      | a :: _ => (writeTo L s' (operandAddress s' a) a v).map (·.jump next)
  | insn_popflags => (s.pop L w).map fun (v, s') => (s'.setFlags v).jump next
  | insn_leave =>
    ((s.setReg .esp (s.reg .ebp)).pop L w).map fun (v, s') =>
      (s'.writeReg v (if w = .word then .r16 .ebp else .r32 .ebp)).jump next
  | insn_call => (s.push L w next).map (·.jump (transferTarget alu i s))
  | insn_return =>
    (s.pop L w).map fun (v, s') => (s'.setReg .esp (s'.reg .esp + returnBytes i)).jump v
  | insn_jmp => some (s.jump (transferTarget alu i s))
  | insn_jcc => some (s.jump (if alu.taken i s then transferTarget alu i s else next))
  | _ => (dataOp L alu i s).map (·.jump next)

end

/-- The operand is `off(%esp)`. -/
def throughEsp (ea : X86Ea) : Bool := regId ea.base == REGISTER_ESP && regId ea.index == 0

/-- The address at which the instruction accesses memory through `%esp`: the stack
instructions, the pop of `leave`, and the writes to `off(%esp)`. -/
def espAccess (i : X86Insn) (s : Cpu) : Option Word :=
  match i.type with
  | insn_push | insn_pushflags | insn_call =>
    some (s.reg .esp - BitVec.ofNat 32 (slotWidth i).bytes)
  | insn_pop | insn_popflags | insn_return => some (s.reg .esp)
  | insn_leave => some (s.reg .ebp)
  | _ =>
    match i.args with
    | [] => none
    | a :: _ =>
      match a.data with
      | .expression ea =>
        if a.write && throughEsp ea then some (effectiveAddress s ea) else none
      | _ => none

/-- The offset in the code at which the machine stands. -/
def loc (L : Layout) (s : Cpu) : Option Nat := some (s.eip - BitVec.ofNat 32 L.code_start).toNat

/-- The instruction writes the register or a part of it as its first operand. -/
def writes (i : X86Insn) (q : Reg32) : Prop :=
  ∃ a r, i.args.head? = some a ∧ a.write = true ∧ a.reg = some r ∧ r.whole = some q

/-- What the loader relies on libdisasm for, beyond the bytes it decodes: how many
explicit operands the stack and control instructions have, that a comparison and
the memory operand of a multiplication are not marked as written while a move and
an `and` are, and that a load from a literal address goes to `%eax` or a part. -/
structure WellDecoded (i : X86Insn) : Prop where
  stack_operand : i.type = insn_push ∨ i.type = insn_pop → ∃ a, i.args = [a]
  no_operand : i.type = insn_pushflags ∨ i.type = insn_popflags ∨ i.type = insn_leave → i.args = []
  transfer_operand : i.type = insn_jmp ∨ i.type = insn_call ∨ i.type = insn_jcc →
    ∃ a, i.args = [a]
  return_operand : i.type = insn_return → i.args = [] ∨ ∃ a, i.args = [a]
  compares : i.type = insn_cmp ∨ i.type = insn_test → ∀ a ∈ i.args, a.write = false
  multiplies : i.type = insn_mul ∨ i.type = insn_div → ∀ a, i.args = [a] → a.write = false
  moves : i.type = insn_mov ∨ i.type = insn_and → ∀ a, i.args.head? = some a → a.write = true
  loads : ∀ a b, i.args = [a, b] → b.type = .op_offset → ∃ r, a.reg = some r ∧ r.whole = some .eax

/-- The state in which `call_in` enters a module: `inside_esp` and `inside_ebp` hold
the address of the last word of the data region, and the call has pushed a word. -/
def entryState (L : Layout) : Cpu where
  eip := BitVec.ofNat 32 L.code_start
  reg
    | .esp => BitVec.ofNat 32 (L.data_end - 8)
    | .ebp => BitVec.ofNat 32 (L.data_end - 4)
    | _ => 0
  eflags := 0
  mem _ := 0

theorem decodeTransfer_wellDecoded {b : BitVec 8} {rest : Image} {i : X86Insn}
    (h : decodeTransfer b rest = some i) : WellDecoded i := by
  unfold decodeTransfer at h
  repeat' split at h
  all_goals cases h
  all_goals constructor <;> simp [X86Insn.args, impliedEsp]

theorem decodeStack_wellDecoded {b : BitVec 8} {rest : Image} {i : X86Insn}
    (h : decodeStack b rest = some i) : WellDecoded i := by
  unfold decodeStack at h
  repeat' split at h
  all_goals cases h
  all_goals constructor <;> simp [X86Insn.args, impliedEsp, regOperand, immOperand]

theorem decodeMove_wellDecoded {b : BitVec 8} {rest : Image} {i : X86Insn}
    (h : decodeMove b rest = some i) : WellDecoded i := by
  have hlogic : ∀ {m : BitVec 8} {g : InsnGroup} {t : InsnType}, codedLogic m = some (g, t) →
      t = insn_add ∨ t = insn_or ∨ t = insn_and ∨ t = insn_sub ∨ t = insn_xor := by
    intro m g t hm
    unfold codedLogic at hm
    split at hm <;> cases hm <;> simp
  unfold decodeMove at h
  split at h
  · cases h
  split at h
  · cases h
    constructor <;> simp [X86Insn.args, regOperand, immOperand, X86Op.type]
  split at h
  · cases h
    constructor <;> simp [X86Insn.args, regOperand, X86Op.type]
  split at h
  · obtain ⟨⟨g, t⟩, hm, rfl⟩ := Option.map_eq_some_iff.mp h
    rcases hlogic hm with rfl | rfl | rfl | rfl | rfl <;>
      constructor <;> simp [X86Insn.args, regOperand, immOperand, X86Op.type]
  split at h
  · split at h
    · cases h
      constructor <;> simp [X86Insn.args, memOperand, immOperand, X86Op.type]
    · cases h
  split at h
  · cases h
    constructor <;> simp [X86Insn.args, memOperand, immOperand, X86Op.type]
  split at h
  · cases h
    constructor <;> simp [X86Insn.args, regOperand, X86Op.type]
  · cases h

/-- The decoder for the images given byte by byte meets what is assumed of libdisasm. -/
theorem disassemble_wellDecoded {image : Image} {offset : Nat} {i : X86Insn}
    (h : disassemble image offset = some i) : WellDecoded i := by
  simp only [disassemble] at h
  split at h
  · cases h
  · obtain ⟨hd, -⟩ := Option.filter_eq_some_iff.mp h
    rcases Option.or_eq_some_iff.mp hd with hd | ⟨-, hd⟩
    · exact decodeTransfer_wellDecoded hd
    · rcases Option.or_eq_some_iff.mp hd with hd | ⟨-, hd⟩
      · exact decodeStack_wellDecoded hd
      · exact decodeMove_wellDecoded hd

theorem examined_wellDecoded {L : Layout} {image : Image} {es : List Examined}
    (h : verify L disassemble image = .ok es) {v : Examined} (hv : v ∈ es) : WellDecoded v.item := by
  obtain ⟨t, hp, -⟩ := verifyLoop_pass h
  obtain ⟨_, _, -, hd, -⟩ := loopBody_ok (hp.step_of_mem hv).2
  exact disassemble_wellDecoded hd

section

variable {L : Layout} {alu : Alu X86Insn} {i : X86Insn} {s s' : Cpu}

theorem writeTo_some {address : Option Word} {o : X86Op} {v : Word}
    (h : writeTo L s address o v = some s') :
    (∀ a, address = some a → a ∉ L.guardZone ∧ s'.reg = s.reg) ∧
      (address = none → ∀ r, o.reg = some r → o.write = true → s' = s.writeReg v r) ∧
      (address = none → (∀ r, o.reg = some r → o.write = false) → s' = s) := by
  unfold writeTo at h
  cases address with
  | some a =>
    simp only at h
    split at h
    · cases h
    rename_i hg
    refine ⟨?_, by simp, by simp⟩
    rintro b ⟨⟩
    refine ⟨hg, ?_⟩
    cases h
    split <;> rfl
  | none =>
    refine ⟨by simp, ?_, ?_⟩
    · intro _ r hr hw
      simp only [hr, hw, if_true, Option.some.injEq] at h
      exact h.symm
    · intro _ hw
      cases hr : o.reg with
      | none => simp only [hr, Option.some.injEq] at h; exact h.symm
      | some r =>
        simp only [hr, hw r hr, Option.some.injEq] at h
        simpa using h.symm

/-- Writing to an operand that is no part of a register leaves the register alone. -/
theorem writeTo_reg {address : Option Word} {o : X86Op} {v : Word} {q : Reg32}
    (h : writeTo L s address o v = some s')
    (hq : ∀ r, o.reg = some r → o.write = true → r.whole ≠ some q) : s'.reg q = s.reg q := by
  obtain ⟨hmem, hreg, hnone⟩ := writeTo_some h
  cases address with
  | some a => rw [(hmem a rfl).2]
  | none =>
    by_cases hw : ∃ r, o.reg = some r ∧ o.write = true
    · obtain ⟨r, hr, hw⟩ := hw
      rw [hreg rfl r hr hw]
      exact Cpu.writeReg_other _ _ (hq r hr hw)
    · rw [hnone rfl (fun r hr => by_contra fun hne => hw ⟨r, hr, by simpa using hne⟩)]

/-- A data instruction keeps the stack and the frame pointer unless it writes them. -/
theorem dataOp_reg {q : Reg32} (h : dataOp L alu i s = some s') (hq : q = .esp ∨ q = .ebp)
    (hw : ¬ writes i q) : s'.reg q = s.reg q := by
  have hc : (alu.clobber i s).reg q = s.reg q := by rcases hq with rfl | rfl <;> simp
  unfold dataOp at h
  split at h
  · cases h; exact hc
  · rename_i a rest hargs
    rw [writeTo_reg h, hc]
    intro r hr hwr hwhole
    exact hw ⟨a, r, by rw [hargs]; rfl, hwr, hr, hwhole⟩

/-- A data instruction with a written register gives it the result. -/
theorem dataOp_write {a : X86Op} {r : Reg32} (h : dataOp L alu i s = some s')
    (ha : i.args.head? = some a) (hr : a.reg = some (.r32 r)) (hw : a.write = true) :
    s'.reg r = dataResult alu i s := by
  unfold dataOp at h
  split at h
  · rename_i hargs; rw [hargs] at ha; cases ha
  · rename_i b rest hargs
    rw [hargs] at ha
    cases ha
    have hd : operandAddress s a = none := by
      unfold operandAddress
      split <;> simp_all [X86Op.reg]
    rw [(writeTo_some h).2.1 hd _ hr hw]
    exact Cpu.setReg_same _ _ _

/-- A data instruction with a memory operand does not get past a guard zone. -/
theorem dataOp_access {a : X86Op} {ea : X86Ea} (h : dataOp L alu i s = some s')
    (ha : i.args.head? = some a) (hd : a.data = .expression ea) :
    effectiveAddress s ea ∉ L.guardZone := by
  unfold dataOp at h
  split at h
  · rename_i hargs; rw [hargs] at ha; cases ha
  · rename_i b rest hargs
    rw [hargs] at ha
    cases ha
    exact ((writeTo_some h).1 _ (by simp [operandAddress, hd])).1

theorem exec_data (hd : isData i.type = true) :
    exec L alu i s = (dataOp L alu i s).map (·.jump (s.eip + BitVec.ofNat 32 i.size)) := by
  unfold exec
  split
  all_goals first | rfl | (rename_i ht; rw [ht] at hd; cases hd)

theorem espAccess_data (hd : isData i.type = true) {x : Word} (h : espAccess i s = some x) :
    ∃ a ea, i.args.head? = some a ∧ a.data = .expression ea ∧ a.write = true ∧
      throughEsp ea = true ∧ x = effectiveAddress s ea := by
  unfold espAccess at h
  split at h
  case h_8 =>
    split at h
    · cases h
    · rename_i a rest hargs
      split at h
      · rename_i ea hea
        split at h
        · rename_i hc
          rw [Bool.and_eq_true] at hc
          cases h
          exact ⟨a, ea, by rw [hargs]; rfl, hea, hc.1, hc.2, rfl⟩
        · cases h
      · cases h
  all_goals (rename_i ht; rw [ht] at hd; cases hd)

/-- Falling through moves the location by the size of the instruction. -/
theorem loc_next {o : Nat} (h : loc L s = some o) (hfit : o + i.size ≤ L.code_size) :
    loc L (s'.jump (s.eip + BitVec.ofNat 32 i.size)) = some (o + i.size) := by
  have hf := L.code_fits
  have ho : (s.eip - BitVec.ofNat 32 L.code_start).toNat = o := Option.some.inj h
  have hsub : s.eip + BitVec.ofNat 32 i.size - BitVec.ofNat 32 L.code_start =
      s.eip - BitVec.ofNat 32 L.code_start + BitVec.ofNat 32 i.size := by
    grind
  simp only [loc, Cpu.jump_eip, hsub, Option.some.injEq]
  rw [BitVec.toNat_add, ho, BitVec.toNat_ofNat, Nat.add_mod_mod, Nat.mod_eq_of_lt (by omega)]

/-- The types of the instructions that move control. -/
def transfers : InsnType → Bool
  | insn_jmp | insn_jcc | insn_call | insn_return => true
  | _ => false

/-- What the stack instructions and the transfers do to the pointers, and where they
access the stack. -/
inductive StackStep (L : Layout) (i : X86Insn) (s s' : Cpu) : Prop
  | push (ht : i.type = insn_push ∨ i.type = insn_pushflags ∨ i.type = insn_call)
      (ha : s.reg .esp - BitVec.ofNat 32 (slotWidth i).bytes ∉ L.guardZone)
      (hesp : s'.reg .esp = s.reg .esp - BitVec.ofNat 32 (slotWidth i).bytes)
      (hebp : s'.reg .ebp = s.reg .ebp)
  | pop (ht : i.type = insn_pop ∨ i.type = insn_popflags) (ha : s.reg .esp ∉ L.guardZone)
      (hesp : ¬ writes i .esp →
        s'.reg .esp = s.reg .esp + BitVec.ofNat 32 (slotWidth i).bytes)
      (hebp : i.type = insn_pop ∧ writes i .ebp ∨ s'.reg .ebp = s.reg .ebp)
  | leave (ht : i.type = insn_leave) (ha : s.reg .ebp ∉ L.guardZone)
      (hesp : s'.reg .esp = s.reg .ebp + BitVec.ofNat 32 (slotWidth i).bytes)
  | ret (ht : i.type = insn_return) (ha : s.reg .esp ∉ L.guardZone)
      (hesp : s'.reg .esp = s.reg .esp + BitVec.ofNat 32 (slotWidth i).bytes + returnBytes i)
      (hebp : s'.reg .ebp = s.reg .ebp)
  | jump (ht : i.type = insn_jmp ∨ i.type = insn_jcc) (hreg : s'.reg = s.reg)

private theorem pop_step (ht : i.type = insn_pop) (h : exec L alu i s = some s') :
    StackStep L i s s' := by
  simp only [exec, ht, Option.bind_eq_some_iff] at h
  obtain ⟨⟨v, t⟩, hp, h⟩ := h
  obtain ⟨ha, -, rfl⟩ := Cpu.pop_some hp
  have hebp : ∀ x : Word, (s.setReg .esp x).reg .ebp = s.reg .ebp :=
    fun x => Cpu.setReg_other _ _ (by decide)
  split at h
  · rename_i hargs
    cases h
    exact .pop (Or.inl ht) ha (fun _ => by simp) (Or.inr (by simp [hebp]))
  · rename_i a rest hargs
    obtain ⟨t, hw, rfl⟩ := Option.map_eq_some_iff.mp h
    have hreg : ∀ q : Reg32, ¬ writes i q → ∀ r, a.reg = some r → a.write = true →
        r.whole ≠ some q := fun q hq r hr hwr hwhole =>
      hq ⟨a, r, by rw [hargs]; rfl, hwr, hr, hwhole⟩
    refine .pop (Or.inl ht) ha ?_ ?_
    · intro hesp
      rw [Cpu.jump_reg, writeTo_reg hw (hreg .esp hesp)]
      simp
    · by_cases hb : writes i .ebp
      · exact Or.inl ⟨ht, hb⟩
      · refine Or.inr ?_
        rw [Cpu.jump_reg, writeTo_reg hw (hreg .ebp hb), hebp]

theorem exec_stack (hd : isData i.type = false) (h : exec L alu i s = some s') :
    StackStep L i s s' := by
  have hpush : ∀ {v : Word} {a : Word}, (s.push L (slotWidth i) v).map (·.jump a) = some s' →
      s.reg .esp - BitVec.ofNat 32 (slotWidth i).bytes ∉ L.guardZone ∧
        s'.reg .esp = s.reg .esp - BitVec.ofNat 32 (slotWidth i).bytes ∧
        s'.reg .ebp = s.reg .ebp := by
    intro v a hm
    obtain ⟨t, hp, rfl⟩ := Option.map_eq_some_iff.mp hm
    obtain ⟨ha, rfl⟩ := Cpu.push_some hp
    have hne : Reg32.ebp ≠ .esp := by decide
    refine ⟨ha, by simp, ?_⟩
    rw [Cpu.jump_reg, Cpu.setReg_other _ _ hne]
    rfl
  by_cases hp : i.type = insn_pop
  · exact pop_step hp h
  unfold exec at h
  simp only at h
  split at h
  case h_1 ht =>
    obtain ⟨ha, h1, h2⟩ := hpush h
    exact .push (Or.inl ht) ha h1 h2
  case h_2 ht =>
    obtain ⟨ha, h1, h2⟩ := hpush h
    exact .push (Or.inr (Or.inl ht)) ha h1 h2
  case h_3 ht => exact absurd ht hp
  case h_4 ht =>
    obtain ⟨⟨v, t⟩, hpop, rfl⟩ := Option.map_eq_some_iff.mp h
    obtain ⟨ha, -, rfl⟩ := Cpu.pop_some hpop
    have hne : Reg32.ebp ≠ .esp := by decide
    refine .pop (Or.inr ht) ha (fun _ => by simp) (Or.inr ?_)
    rw [Cpu.jump_reg, Cpu.setFlags_reg, Cpu.setReg_other _ _ hne]
  case h_5 ht =>
    obtain ⟨⟨v, t⟩, hpop, rfl⟩ := Option.map_eq_some_iff.mp h
    obtain ⟨ha, -, rfl⟩ := Cpu.pop_some hpop
    refine .leave ht (by simpa using ha) ?_
    rw [Cpu.jump_reg, Cpu.writeReg_other]
    · simp
    · split <;> simp [Reg.whole]
  case h_6 ht =>
    obtain ⟨ha, h1, h2⟩ := hpush h
    exact .push (Or.inr (Or.inr ht)) ha h1 h2
  case h_7 ht =>
    obtain ⟨⟨v, t⟩, hpop, rfl⟩ := Option.map_eq_some_iff.mp h
    obtain ⟨ha, -, rfl⟩ := Cpu.pop_some hpop
    have hne : Reg32.ebp ≠ .esp := by decide
    refine .ret ht ha (by simp) ?_
    rw [Cpu.jump_reg, Cpu.setReg_other _ _ hne, Cpu.setReg_other _ _ hne]
  case h_8 ht => cases h; exact .jump (Or.inl ht) rfl
  case h_9 ht => cases h; exact .jump (Or.inr ht) rfl
  case h_10 h1 h2 h3 h4 h5 h6 h7 h8 h9 =>
    exfalso
    revert hd
    unfold isData
    split <;> simp_all

/-- Everything but a transfer falls through. -/
theorem exec_eip (ht : transfers i.type = false) (h : exec L alu i s = some s') :
    ∃ t : Cpu, s' = t.jump (s.eip + BitVec.ofNat 32 i.size) := by
  unfold exec at h
  simp only at h
  split at h
  case h_3 =>
    obtain ⟨⟨v, t⟩, -, h⟩ := Option.bind_eq_some_iff.mp h
    simp only at h
    split at h
    · cases h
      exact ⟨_, rfl⟩
    · obtain ⟨t', -, rfl⟩ := Option.map_eq_some_iff.mp h
      exact ⟨_, rfl⟩
  case h_6 hc | h_7 hc | h_8 hc | h_9 hc => rw [hc] at ht; cases ht
  all_goals
    obtain ⟨t, -, rfl⟩ := Option.map_eq_some_iff.mp h
    exact ⟨_, rfl⟩

end

end Pittsfield.Loader
