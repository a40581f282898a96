import Pittsfield.Machine.Cpu

/-!
# What libdisasm hands to the loader

The part of `libdis.h` that `verify()` reads: instruction groups and types,
operands with their flags and data, and effective addresses. Operands come in
Intel order, the destination first, and carry the access that says whether they
are written. Displacements are kept in the size in which they are encoded, so a
size and a value that disagree cannot be built.
-/

namespace Pittsfield.Loader

open Pittsfield.Region
open Pittsfield.Machine

inductive InsnGroup
  | insn_controlflow
  | insn_arithmetic
  | insn_logic
  | insn_stack
  | insn_comparison
  | insn_move
  | insn_string
  | insn_bit_manip
  | insn_flag_manip
  | insn_fpu
  | insn_interrupt
  | insn_system
  | insn_other
  | insn_none
  deriving DecidableEq

/-- The types `verify()` names; `fpu` is its `0xa000`, `unlisted` any other type. -/
inductive InsnType
  | insn_jmp
  | insn_jcc
  | insn_call
  | insn_return
  | insn_add
  | insn_sub
  | insn_mul
  | insn_div
  | insn_inc
  | insn_dec
  | insn_shl
  | insn_shr
  | insn_rol
  | insn_ror
  | insn_and
  | insn_or
  | insn_xor
  | insn_not
  | insn_neg
  | insn_push
  | insn_pop
  | insn_pushflags
  | insn_popflags
  | insn_leave
  | insn_test
  | insn_cmp
  | insn_mov
  | insn_movcc
  | insn_bittest
  | fpu
  | insn_debug
  | insn_nop
  | insn_szconv
  | unlisted (n : Nat)
  deriving DecidableEq

inductive OpType
  | op_unused
  | op_register
  | op_immediate
  | op_relative_near
  | op_relative_far
  | op_absolute
  | op_expression
  | op_offset
  | op_unknown
  deriving DecidableEq

inductive Datatype
  | op_byte
  | op_word
  | op_dword
  | op_larger
  deriving DecidableEq

def REGISTER_EAX := 1
def REGISTER_ECX := 2
def REGISTER_EDX := 3
def REGISTER_EBX := 4
def REGISTER_ESP := 5
def REGISTER_EBP := 6
def REGISTER_ESI := 7
def REGISTER_EDI := 8

def reg32Id : Reg32 → Nat
  | .eax => REGISTER_EAX
  | .ecx => REGISTER_ECX
  | .edx => REGISTER_EDX
  | .ebx => REGISTER_EBX
  | .esp => REGISTER_ESP
  | .ebp => REGISTER_EBP
  | .esi => REGISTER_ESI
  | .edi => REGISTER_EDI

def reg8Id : Reg8 → Nat
  | .al => 17
  | .cl => 18
  | .dl => 19
  | .bl => 20
  | .ah => 21
  | .ch => 22
  | .dh => 23
  | .bh => 24

/-- `x86_reg_t.id`: the index in libdisasm's register table, 0 for no register. -/
def regId : Option Reg → Nat
  | none => 0
  | some (.r32 r) => reg32Id r
  | some (.r16 r) => 8 + reg32Id r
  | some (.r8 r) => reg8Id r
  | some (.other n) => 25 + n

/-- `x86_reg_t.alias`: the full register that a 16- or 8-bit register is a part of. -/
def regAlias : Option Reg → Nat
  | some (.r16 r) => reg32Id r
  | some (.r8 r) => reg32Id r.whole.1
  | _ => 0

/-- A displacement in the size in which it is encoded. -/
inductive X86Disp
  | none
  | disp8 (d : BitVec 8)
  | disp16 (d : BitVec 16)
  | disp32 (d : Word)
  deriving DecidableEq

namespace X86Disp

def disp_size : X86Disp → Nat
  | .none => 0
  | .disp8 _ => 1
  | .disp16 _ => 2
  | .disp32 _ => 4

/-- The displacement, sign-extended to 32 bits. -/
def disp : X86Disp → Word
  | .none => 0
  | .disp8 d => d.signExtend 32
  | .disp16 d => d.signExtend 32
  | .disp32 d => d

def disp_sign (d : X86Disp) : Bool := d.disp.msb

end X86Disp

structure X86Ea where
  base : Option Reg
  index : Option Reg
  scale : Nat
  disp : X86Disp
  deriving DecidableEq

inductive OpData
  | register (r : Reg)
  | immediate (dword : Word)
  | relative_near (d : BitVec 8)
  | relative_far (d : Word)
  | absolute
  | expression (ea : X86Ea)
  | offset (a : Word)
  | unknown
  deriving DecidableEq

structure X86Op where
  data : OpData
  datatype : Datatype
  /-- `op_write` is set in `access`. -/
  write : Bool
  /-- `op_implied` is set in `flags`. -/
  implied : Bool := false
  deriving DecidableEq

namespace X86Op

def type (o : X86Op) : OpType :=
  match o.data with
  | .register _ => .op_register
  | .immediate _ => .op_immediate
  | .relative_near _ => .op_relative_near
  | .relative_far _ => .op_relative_far
  | .absolute => .op_absolute
  | .expression _ => .op_expression
  | .offset _ => .op_offset
  | .unknown => .op_unknown

/-- `op.data.reg`, with nothing there when the operand is no register. -/
def reg (o : X86Op) : Option Reg :=
  match o.data with
  | .register r => some r
  | _ => none

/-- `op.data.dword`. -/
def dword (o : X86Op) : Word :=
  match o.data with
  | .immediate v => v
  | _ => 0

/-- `op.data.expression`. -/
def expression (o : X86Op) : X86Ea :=
  match o.data with
  | .expression ea => ea
  | _ => ⟨none, none, 1, .none⟩

/-- `op.data.offset`. -/
def offset (o : X86Op) : Word :=
  match o.data with
  | .offset a => a
  | _ => 0

/-- The operand names the register with this id, or a part of it. -/
def names (o : X86Op) (id : Nat) : Bool := regId o.reg == id || regAlias o.reg == id

end X86Op

structure X86Insn where
  group : InsnGroup
  type : InsnType
  /-- The effective operand size in bytes. -/
  op_size : Nat := 4
  operands : List X86Op
  explicit_count : Nat
  size : Nat
  deriving DecidableEq

/-- The explicit operands, copied out of the list as `verify()` does. -/
def X86Insn.args (i : X86Insn) : List X86Op := i.operands.filter (fun o => !o.implied)

theorem reg32Id_inj {r q : Reg32} (h : reg32Id r = reg32Id q) : r = q := by
  cases r <;> cases q <;> first | rfl | cases h

theorem reg32Id_bounds (r : Reg32) : 1 ≤ reg32Id r ∧ reg32Id r ≤ 8 := by cases r <;> decide

/-- The ids from 1 to 8 belong to the 32-bit registers. -/
theorem regId_eq {o : Option Reg} {r : Reg32} (h : regId o = reg32Id r) : o = some (.r32 r) := by
  have hr := reg32Id_bounds r
  cases o with
  | none => simp only [regId] at h; omega
  | some q =>
    cases q with
    | r32 q => rw [reg32Id_inj h]
    | r16 q => have hq := reg32Id_bounds q; simp only [regId] at h; omega
    | r8 q => cases q <;> simp only [regId, reg8Id] at h <;> omega
    | other n => simp only [regId] at h; omega

/-- An operand names a general register exactly when it is that register or a part of it. -/
theorem names_iff (o : X86Op) (r : Reg32) :
    o.names (reg32Id r) = true ↔ ∃ q, o.reg = some q ∧ q.whole = some r := by
  simp only [X86Op.names, Bool.or_eq_true, beq_iff_eq]
  have hr := reg32Id_bounds r
  constructor
  · rintro (h | h)
    · exact ⟨_, regId_eq h, rfl⟩
    · cases hq : o.reg with
      | none => rw [hq] at h; simp only [regAlias] at h; omega
      | some q =>
        rw [hq] at h
        cases q with
        | r32 q => simp only [regAlias] at h; omega
        | r16 q => exact ⟨_, rfl, by rw [reg32Id_inj h]; rfl⟩
        | r8 q => exact ⟨_, rfl, by simp only [regAlias] at h; rw [← reg32Id_inj h]; rfl⟩
        | other n => simp only [regAlias] at h; omega
  · rintro ⟨q, hq, hw⟩
    rw [hq]
    cases q with
    | r32 q => left; cases hw; rfl
    | r16 q => right; cases hw; rfl
    | r8 q => right; cases hw; rfl
    | other n => cases hw

inductive EffAddrType
  | EA_EBX_EXACT
  | EA_ESP_EXACT
  | EA_EBP_OFFSET
  | EA_ESP_OFFSET
  | EA_DIRECT
  | EA_OTHER
  deriving DecidableEq

open EffAddrType

def classify_ea (ea : X86Ea) : EffAddrType :=
  if regId ea.base = REGISTER_EBX ∧ regId ea.index = 0 ∧ ea.disp.disp_size = 0 then
    EA_EBX_EXACT
  else if regId ea.base = REGISTER_ESP ∧ regId ea.index = 0 ∧ ea.disp.disp_size = 0 then
    EA_ESP_EXACT
  else if regId ea.base = REGISTER_EBP ∧ regId ea.index = 0 ∧
      (ea.disp.disp_size ≤ 2 ∨ (ea.disp.disp_sign = true ∧ -32768 < ea.disp.disp.toInt) ∨
        ea.disp.disp.toNat < 32768) then
    EA_EBP_OFFSET
  else if regId ea.base = REGISTER_ESP ∧ regId ea.index = 0 ∧ ea.disp.disp_size ≤ 1 then
    EA_ESP_OFFSET
  else if regId ea.base = 0 ∧ regId ea.index = 0 ∧ ea.disp.disp_size = 4 then
    EA_DIRECT
  else
    EA_OTHER

end Pittsfield.Loader
