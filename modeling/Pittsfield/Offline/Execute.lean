import Pittsfield.Offline.Verify

/-!
# Running the listed instructions

What the processor does on an instruction as the listing shows it: the stack
instructions, the transfers of control, and the write to the last operand of
everything else. Moves, masks and sums have their value, every other result is the
parameter `alu`'s, and the bytes that an x87 store leaves are the parameter `fpu`'s.
An access to a guard zone has no successor; operands that no instruction has, neither.
-/

namespace Pittsfield.Offline

open Pittsfield.Foundation
open Pittsfield.Region
open Pittsfield.Machine

inductive OpKind
  | push
  | pop
  | pushf
  | popf
  | leave
  | call
  | ret
  | jmp
  | jcc
  | data
  deriving DecidableEq

def opKind (op : String) : OpKind :=
  if op ∈ cat ["push"] ["", "l"] then .push
  else if op ∈ cat ["pop"] ["", "l"] then .pop
  else if op = "pushf" then .pushf
  else if op = "popf" then .popf
  else if op = "leave" then .leave
  else if op = "call" then .call
  else if op = "ret" then .ret
  else if op = "jmp" then .jmp
  else if op ∈ cat ["j"] cond ∨ op = "jecxz" then .jcc
  else .data

/-- The instruction leaves its last operand as it is: comparisons, the products and
quotients of one operand, and x87 instructions that load. -/
def readsOnly (i : Insn) : Bool :=
  i.op ∈ cat ["cmp", "test"] (opt size) ++ ["bt", "nop"] ++ fload ++ fcload ++ fbin ++ funary ||
    i.op ∈ cat ariths (opt size) && i.args.length = 1

/-- The number that a text stands for. -/
def textValue (t : String) : Option Word := (signed_word t).map (BitVec.ofInt 32)

/-- The address of a memory operand. -/
def operandAddress (s : Cpu) : Operand → Option Word
  | .mem offset base index scale =>
    some ((base.map s.reg).getD 0 + (index.map s.reg).getD 0 * BitVec.ofNat 32 (scale.getD 1) +
      (offset.bind (textValue ·.val)).getD 0)
  | .abs address => some ((textValue address.val).getD 0)
  | _ => none

def regWidth : Reg → Width
  | .r8 _ => .byte
  | .r16 _ => .word
  | _ => .dword

/-- The width of an access: that of a register operand, or else the suffix decides. -/
def accessWidth (i : Insn) : Width :=
  match i.args with
  | .reg r :: _ :: _ => regWidth r
  | _ =>
    if i.op.toList.getLast? = some 'b' ∨ i.op ∈ cat ["set"] cond then .byte
    else if i.op.toList.getLast? = some 'w' then .word
    else .dword

/-- The width of a stack slot. -/
def slotWidth : Operand → Width
  | .reg (.r16 _) => .word
  | _ => .dword

/-- What an operand holds. -/
def operandValue (s : Cpu) (w : Width) (o : Operand) : Option Word :=
  match o with
  | .reg r => some (s.readReg r)
  | .imm value => textValue value
  | o => (operandAddress s o).map (s.load w)

section

variable (L : Layout) (alu : Alu Insn) (fpu : Insn → Cpu → Word → BitVec 8)

/-- The value that an instruction without control or stack effect writes. -/
def dataResult (i : Insn) (s : Cpu) : Word :=
  match i.args with
  | [src, dest] =>
    let v := operandValue s (accessWidth i) src
    let old := (operandValue s (accessWidth i) dest).getD (alu.result i s)
    let immediate := if let .imm _ := src then v else none
    if i.op ∈ cat ["mov"] (opt size) then v.getD (alu.result i s)
    else if i.op = "lea" then (operandAddress s src).getD (alu.result i s)
    else if i.op ∈ cat ["and"] (opt size) then (immediate.map (old &&& ·)).getD (alu.result i s)
    else if i.op ∈ cat ["or"] (opt size) then (immediate.map (old ||| ·)).getD (alu.result i s)
    else if i.op ∈ cat ["add"] (opt size) then (immediate.map (old + ·)).getD (alu.result i s)
    else if i.op ∈ cat ["sub"] (opt size) then (immediate.map (old - ·)).getD (alu.result i s)
    else alu.result i s
  | _ => alu.result i s

/-- The access to the operand `o`, at `address` if it lies in memory. -/
def writeTo (s : Cpu) (address : Option Word) (o : Operand) (w : Width) (write : Bool) (v : Word) :
    Option Cpu :=
  match address with
  | some a => if a ∈ L.guardZone then none else some (if write then s.store w a v else s)
  | none =>
    match o with
    | .reg r => some (if write then s.writeReg v r else s)
    | _ => none

/-- An instruction without control or stack effect. -/
def dataOp (i : Insn) (s : Cpu) : Option Cpu :=
  match i.args.getLast? with
  | none => some (alu.clobber i s)
  | some dest =>
    let write := !readsOnly i
    let after := writeTo L (alu.clobber i s) (operandAddress s dest) dest (accessWidth i) write
      (dataResult alu i s)
    if i.op = "xchg" then
      match i.args with
      | [.reg r, dest] =>
        (writeTo L (alu.clobber i s) (operandAddress s dest) dest (accessWidth i) true
          (s.readReg r)).map
            (·.writeReg ((operandValue s (accessWidth i) dest).getD (alu.result i s)) r)
      | _ => after
    else if i.op ∈ fstore ++ fcstore ∧ (operandAddress s dest).isSome then
      after.map fun s' => { s' with mem := fpu i s }
    else after

/-- Where a jump or a call goes. -/
def transferTarget (s : Cpu) : List Operand → Option Word
  | [.target address _] => some (BitVec.ofNat 32 (hex address))
  | [.star r] => some (s.readReg r)
  | _ => none

/-- The bytes that a return takes off the stack beyond the return address. -/
def returnBytes (i : Insn) (s : Cpu) : Option Word :=
  match i.args with
  | [] => some 0
  | [.imm value] => some ((textValue value).getD (alu.result i s))
  | _ => none

/-- What a push puts on the stack. -/
def pushedValue (i : Insn) (s : Cpu) : Option (Operand × Word) :=
  match i.args with
  | [.target _ _] | [.star _] | [.other _] => none
  | [src] => some (src, (operandValue s (slotWidth src) src).getD (alu.result i s))
  | _ => none

/-- One instruction. -/
def exec (i : Insn) (s : Cpu) : Option Cpu :=
  let next := s.eip + BitVec.ofNat 32 i.size
  match opKind i.op with
  | .push =>
    (pushedValue alu i s).bind fun (src, v) => (s.push L (slotWidth src) v).map (·.jump next)
  | .pop =>
    match i.args with
    | [dest] =>
      (s.pop L (slotWidth dest)).bind fun (v, s') =>
        (writeTo L s' (operandAddress s' dest) dest (slotWidth dest) true v).map (·.jump next)
    | _ => none
  | .pushf => if i.args = [] then (s.push L .dword s.eflags).map (·.jump next) else none
  | .popf =>
    if i.args = [] then (s.pop L .dword).map fun (v, s') => (s'.setFlags v).jump next else none
  | .leave =>
    if i.args = [] then
      ((s.setReg .esp (s.reg .ebp)).pop L .dword).map fun (v, s') => (s'.setReg .ebp v).jump next
    else none
  | .call => (transferTarget s i.args).bind fun a => (s.push L .dword next).map (·.jump a)
  | .ret =>
    (returnBytes alu i s).bind fun n =>
      (s.pop L .dword).map fun (v, s') => (s'.setReg .esp (s'.reg .esp + n)).jump v
  | .jmp => (transferTarget s i.args).map s.jump
  | .jcc =>
    (transferTarget s i.args).map fun a => s.jump (if alu.taken i s then a else next)
  | .data => (dataOp L alu fpu i s).map (·.jump next)

end

/-- `off(%esp)` -/
def Operand.throughEsp : Operand → Bool
  | .mem _ (some .esp) none _ => true
  | _ => false

/-- The address at which the instruction accesses the stack: the stack instructions,
the pop of `leave`, and the writes to `off(%esp)`. -/
def stackAccess (i : Insn) (s : Cpu) : Option Word :=
  match opKind i.op with
  | .push => some (s.reg .esp - BitVec.ofNat 32 ((i.args.head?.map slotWidth).getD .dword).bytes)
  | .pushf | .call => some (s.reg .esp - 4)
  | .pop | .popf | .ret => some (s.reg .esp)
  | .leave => some (s.reg .ebp)
  | .jmp | .jcc => none
  | .data =>
    i.args.getLast?.bind fun dest =>
      if dest.throughEsp && !readsOnly i then operandAddress s dest else none

/-- The kinds of instructions that move control. -/
def OpKind.transfers : OpKind → Bool
  | .jmp | .jcc | .call | .ret => true
  | _ => false

/-- A program about to start, with both pointers at the last word of the data region. -/
def entryState (L : Layout) : Cpu where
  eip := BitVec.ofNat 32 L.code_start
  reg
    | .esp | .ebp => BitVec.ofNat 32 (L.data_end - 4)
    | _ => 0
  eflags := 0
  mem _ := 0

/-- The address at which the machine stands. -/
def loc (s : Cpu) : Option Nat := some s.eip.toNat

end Pittsfield.Offline
