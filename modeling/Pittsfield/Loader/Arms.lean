import Pittsfield.Loader.Flags

/-!
# The switch of `verify()` over the explicit operands

`verify()` packs the operand types into `arg_types` and switches on it. Every arm
is one function here, from the state words and the instruction to the flags, or
to the failure that ends the program. `TERNARY` packs its first operand type in
the place of the third, as the macro in the source does.
-/

namespace Pittsfield.Loader

open Pittsfield.Region
open Pittsfield.Machine
open InsnType OpType EffAddrType

/-- `arg_types` as the macros pack it; `many` is its -1. -/
inductive ArgTypes
  | unary (op1 : OpType)
  | binary (op1 op2 : OpType)
  | ternary (op1 op2 op3 : OpType)
  | many
  deriving DecidableEq

/-- The argument that a failure message prints beside the offset. -/
inductive FailArg
  | none
  | group (g : InsnGroup)
  | type (t : InsnType)
  | flags (f : Flags)
  | address (a : Word)
  | args (t : ArgTypes)
  deriving DecidableEq

/-- How `verify()` ends the program: a message, its argument and the offset, or a
failed assertion. `fuel` stands for a loop that was cut off; it never happens. -/
inductive Failure
  | verification (msg : String) (arg : FailArg) (offset : Nat)
  | assertion (offset : Nat)
  | fuel
  deriving DecidableEq

def UNARY (op1 : OpType) : ArgTypes := .unary op1
def BINARY (op1 op2 : OpType) : ArgTypes := .binary op1 op2

/-- The macro shifts `op1` into the last place, so `op3` is lost. -/
def TERNARY (op1 op2 _op3 : OpType) : ArgTypes := .ternary op1 op2 op1

/-- `flags |= CHANGE_EBP` if the operand is `%ebp` or a part of it, likewise for `%esp`. -/
def changeEbp (o : X86Op) : Flags := { change_ebp := o.names REGISTER_EBP }
def changeEsp (o : X86Op) : Flags := { change_esp := o.names REGISTER_ESP }

section

variable (L : Layout) (safety unsafety : Flags) (insn : X86Insn) (offset : Nat)

def fail_verify (msg : String) : Except Failure Flags :=
  .error (.verification msg .none offset)

def fail_verify_insn (msg : String) (arg : FailArg) : Except Failure Flags :=
  .error (.verification msg arg offset)

/-- The `default` of the switch. -/
def illegalArgs (arg_types : ArgTypes) : Except Failure Flags :=
  fail_verify_insn offset "Illegal arg configuration" (.args arg_types)

/-- `case 0`. -/
def nullaryFlags : Except Failure Flags :=
  match insn.type with
  | insn_nop => .ok NONE
  | insn_return =>
    if safety.stack_top_safe then .ok (JUMP ||| USE_ESP ||| CHANGE_ESP)
    else .ok (JUMP ||| IJUMP ||| USE_ESP ||| CHANGE_ESP)
  | insn_leave =>
    if !unsafety.change_ebp then .ok (USE_ESP ||| CHANGE_EBP)
    else .ok (USE_ESP ||| CHANGE_EBP ||| USE_ESP)
  | insn_pushflags => .ok (USE_ESP ||| CHANGE_ESP)
  | insn_popflags => .ok (USE_ESP ||| CHANGE_ESP)
  | insn_szconv => .ok NONE
  | fpu => .ok NONE
  | insn_debug => .ok NONE
  | insn_mov => .ok NONE
  | _ => fail_verify_insn offset "Unknown no-argument insn" (.type insn.type)

/-- The target of a relative transfer, in 32-bit arithmetic. -/
def relativeTarget (d : OpData) : Word :=
  let target := BitVec.ofNat 32 L.code_start + BitVec.ofNat 32 offset + BitVec.ofNat 32 insn.size
  match d with
  | .relative_near rel => target + rel.signExtend 32
  | .relative_far rel => target + rel
  | _ => target

/-- `case UNARY(op_relative_near)` and `case UNARY(op_relative_far)`. -/
def relativeFlags (a : X86Op) : Except Failure Flags :=
  let target := relativeTarget L insn offset a.data
  match insn.type with
  | insn_jcc | insn_jmp | insn_call =>
    if target &&& BitVec.ofNat 32 (L.chunk_size - 1) ≠ 0 then
      fail_verify_insn offset "Unaligned literal target" (.address target)
    else if target.toNat < L.code_start ∨ L.code_end ≤ target.toNat then
      fail_verify_insn offset "Literal target out of range" (.address target)
    else if insn.type = insn_call then .ok (JUMP ||| USE_ESP)
    else .ok JUMP
  | _ => fail_verify_insn offset "Unknown relative insn" (.type insn.type)

/-- `case UNARY(op_register)`. -/
def registerFlags (a : X86Op) : Except Failure Flags :=
  let flags := changeEbp a ||| changeEsp a
  let ijump : Flags := { ijump := !(regId a.reg == REGISTER_EBX && safety.ebx_code_safe) }
  match insn.type with
  | insn_push => .ok (USE_ESP ||| CHANGE_ESP)
  | insn_pop => .ok (flags ||| (USE_ESP ||| CHANGE_ESP))
  | insn_inc | insn_dec => .ok flags
  | insn_movcc => .ok flags
  | fpu => .ok flags
  | insn_neg | insn_not => .ok flags
  | insn_mul | insn_div => .ok flags
  | insn_call => .ok (flags ||| USE_ESP ||| JUMP ||| ijump)
  | insn_jmp => .ok (flags ||| JUMP ||| ijump)
  | _ => fail_verify_insn offset "Unknown one-reg insn" (.type insn.type)

/-- `case UNARY(op_immediate)`. -/
def immediateFlags : Except Failure Flags :=
  match insn.type with
  | insn_push => .ok (USE_ESP ||| CHANGE_ESP)
  | insn_return => .ok (USE_ESP ||| CHANGE_ESP)
  | _ => fail_verify_insn offset "Unknown one-immediate insn" (.type insn.type)

/-- What `case BINARY(op_register, op_immediate)` notes before it looks at the type. -/
def regImmChange (a b : X86Op) : Flags :=
  changeEbp a |||
    (if regId a.reg = REGISTER_ESP then
      if (insn.type = insn_add ∨ insn.type = insn_sub) ∧ b.datatype = .op_byte then BUMP_ESP
      else if insn.type = insn_and ∧ b.datatype = .op_byte ∧ b.dword = 0xf0 then BUMP_ESP
      else CHANGE_ESP
    else NONE)

/-- `case BINARY(op_register, op_immediate)`. -/
def regImmFlags (a b : X86Op) : Except Failure Flags :=
  let flags := regImmChange insn a b
  match insn.type with
  | insn_and =>
    if regId a.reg = REGISTER_EBX ∧ b.datatype = .op_dword ∧ b.dword = L.data_mask then
      .ok EBX_DATA_SAFE
    else if regId a.reg = REGISTER_EBX ∧ b.datatype = .op_dword ∧ b.dword = L.jump_mask then
      .ok EBX_CODE_SAFE
    else if regId a.reg = REGISTER_EBP ∧ b.datatype = .op_dword ∧ b.dword = L.data_mask then
      .ok EBP_DATA_SAFE
    else if regId a.reg = REGISTER_ESP ∧ b.datatype = .op_dword ∧ b.dword = L.data_mask then
      .ok ESP_SAFETY
    else .ok flags
  | insn_add | insn_sub => .ok flags
  | insn_mov => .ok flags
  | insn_shr | insn_shl | insn_rol | insn_ror => .ok flags
  | insn_cmp | insn_test => .ok flags
  | insn_or | insn_xor => .ok flags
  | _ => fail_verify_insn offset "Unknown imm,reg insn" (.type insn.type)

/-- `case BINARY(op_register, op_register)`: the second operand is taken for the
destination, as in AT&T order. -/
def regRegFlags (a b : X86Op) : Except Failure Flags :=
  let flags := changeEbp b ||| changeEsp b
  match insn.type with
  | insn_mov =>
    if regId a.reg = REGISTER_ESP ∧ regId b.reg = REGISTER_EBP ∧
        !(unsafety.change_esp || unsafety.bump_esp) then
      .ok EBP_SAFETY
    else if regId a.reg = REGISTER_EBP ∧ regId b.reg = REGISTER_ESP ∧ !unsafety.change_ebp then
      .ok USE_ESP
    else .ok flags
  | insn_add | insn_sub => .ok flags
  | insn_mul | insn_div => .ok flags
  | insn_shr | insn_shl | insn_rol | insn_ror => .ok flags
  | insn_cmp | insn_test => .ok flags
  | insn_and => .ok flags
  | insn_or | insn_xor => .ok flags
  | insn_bittest => .ok flags
  | fpu => .ok flags
  | _ => fail_verify_insn offset "Unknown reg,reg insn" (.type insn.type)

/-- `case BINARY(op_register, op_expression)`. -/
def regExprFlags (a : X86Op) : Except Failure Flags :=
  let flags := changeEbp a ||| changeEsp a
  match insn.type with
  | insn_mov => .ok flags
  | insn_cmp | insn_test => .ok flags
  | insn_add | insn_sub => .ok flags
  | insn_and => .ok flags
  | insn_or | insn_xor => .ok flags
  | insn_mul | insn_div => .ok flags
  | insn_bittest => .ok flags
  | _ => fail_verify_insn offset "Unknown (expr),reg insn" (.type insn.type)

/-- The constant address of a direct operand lies in the data region. -/
def inData (a : Word) : Bool := decide (L.data_start ≤ a.toNat ∧ a.toNat < L.data_end)

/-- `case UNARY(op_expression)`. -/
def exprFlags (ea : X86Ea) : Except Failure Flags :=
  match insn.type with
  | insn_push => .ok (USE_ESP ||| CHANGE_ESP)
  | fpu => .ok NONE
  | insn_mul | insn_div => .ok NONE
  | insn_inc | insn_dec | insn_not | insn_neg | insn_movcc =>
    let ea_type := classify_ea ea
    if ea_type = EA_EBX_EXACT ∧ safety.ebx_data_safe then .ok NONE
    else if ea_type = EA_EBP_OFFSET ∧ !unsafety.change_ebp then .ok NONE
    else if (ea_type = EA_ESP_OFFSET ∨ ea_type = EA_ESP_EXACT) ∧ !unsafety.change_esp then
      .ok USE_ESP
    else if ea_type = EA_DIRECT ∧ inData L ea.disp.disp then .ok NONE
    else .ok IWRITE
  | _ => fail_verify_insn offset "Unknown unary memory insn" (.type insn.type)

/-- `flags = (simple ? simple : other)`. -/
def simpleOr (simple : Option Flags) (other : Flags) : Except Failure Flags :=
  .ok (simple.getD other)

/-- The type test at the end of `case BINARY(op_expression, op_register)`. -/
def exprRegTypes (simple : Option Flags) : Except Failure Flags :=
  match insn.type with
  | insn_cmp | insn_test => simpleOr simple IREAD
  | insn_mov => simpleOr simple IWRITE
  | insn_add | insn_sub => simpleOr simple IWRITE
  | insn_and => simpleOr simple IWRITE
  | insn_or | insn_xor => simpleOr simple IWRITE
  | insn_shr | insn_shl | insn_rol | insn_ror => simpleOr simple IWRITE
  | _ => fail_verify_insn offset "Unknown reg,(expr) insn" (.type insn.type)

/-- `case BINARY(op_expression, op_register)`. -/
def exprRegFlags (ea : X86Ea) : Except Failure Flags :=
  let ea_type := classify_ea ea
  if ea_type = EA_EBX_EXACT ∧ safety.ebx_data_safe then .ok NONE
  else if ea_type = EA_EBP_OFFSET ∧ !unsafety.change_ebp then
    exprRegTypes insn offset (some USE_EBP)
  else if (ea_type = EA_ESP_OFFSET ∨ ea_type = EA_ESP_EXACT) ∧ !unsafety.change_esp then
    exprRegTypes insn offset (some USE_ESP)
  else if ea_type = EA_DIRECT ∧ inData L ea.disp.disp then .ok NONE
  else exprRegTypes insn offset none

/-- The type test at the end of `case BINARY(op_expression, op_immediate)`. -/
def exprImmTypes (simple : Option Flags) : Except Failure Flags :=
  match insn.type with
  | insn_and => simpleOr simple IWRITE
  | insn_mov => simpleOr simple IWRITE
  | insn_add | insn_sub => simpleOr simple IWRITE
  | insn_or | insn_xor => simpleOr simple IWRITE
  | insn_shr | insn_shl | insn_rol | insn_ror => simpleOr simple IWRITE
  | insn_cmp | insn_test => simpleOr simple IREAD
  | _ => fail_verify_insn offset "Unknown imm,(expr) insn" (.type insn.type)

/-- `and $JUMP_MASK,(%esp)`. -/
def masksStackTop (ea : X86Ea) (b : X86Op) : Bool :=
  decide (classify_ea ea = EA_ESP_EXACT ∧ insn.type = insn_and ∧ b.datatype = .op_dword ∧
    b.dword = L.jump_mask)

/-- `case BINARY(op_expression, op_immediate)`. -/
def exprImmFlags (ea : X86Ea) (b : X86Op) : Except Failure Flags :=
  let ea_type := classify_ea ea
  if ea_type = EA_EBX_EXACT ∧ safety.ebx_data_safe then .ok NONE
  else if ea_type = EA_EBP_OFFSET ∧ !unsafety.change_ebp then
    exprImmTypes insn offset (some USE_EBP)
  else if masksStackTop L insn ea b then .ok (USE_ESP ||| STACK_TOP_SAFE)
  else if (ea_type = EA_ESP_OFFSET ∨ ea_type = EA_ESP_EXACT) ∧ !unsafety.change_esp then
    exprImmTypes insn offset (some USE_ESP)
  else if ea_type = EA_DIRECT ∧ inData L ea.disp.disp then .ok NONE
  else exprImmTypes insn offset none

/-- `case BINARY(op_offset, op_register)`. -/
def offsetRegFlags (d_offset : Word) : Except Failure Flags :=
  if insn.type = insn_mov then
    if inData L d_offset then .ok NONE
    else fail_verify_insn offset "Direct store outside data region" (.address d_offset)
  else fail_verify_insn offset "Unknown direct store insn" (.type insn.type)

/-- `case BINARY(op_register, op_offset)`. -/
def regOffsetFlags : Except Failure Flags :=
  if insn.type = insn_mov then .ok NONE
  else fail_verify_insn offset "Unknown direct load insn" (.type insn.type)

/-- `case TERNARY(op_register, op_register, op_register)`. -/
def regRegRegFlags (b c : X86Op) : Except Failure Flags :=
  let flags := changeEbp b ||| changeEsp b ||| changeEbp c ||| changeEsp c
  match insn.type with
  | fpu => .ok flags
  | insn_shr | insn_shl | insn_rol | insn_ror => .ok flags
  | insn_inc | insn_dec => .ok flags
  | insn_mul | insn_div => .ok flags
  | _ => fail_verify_insn offset "Unknown 3-reg insn" (.type insn.type)

/-- `case TERNARY(op_register, op_expression, op_register)`. -/
def regExprRegFlags : Except Failure Flags :=
  match insn.type with
  | insn_mul | insn_div => .ok NONE
  | _ => fail_verify_insn offset "Unknown (expr),reg,reg insn" (.type insn.type)

end

end Pittsfield.Loader
