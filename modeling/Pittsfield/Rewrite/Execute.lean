import Mathlib.Data.Set.Basic
import Pittsfield.Machine.Status
import Pittsfield.Rewrite.Rewriter

/-!
# Running assembly lines

A straight-line run of instructions as they stand in the assembly: the stack
instructions, address computations and masks of registers have their meaning here, every
other instruction has what a parameter `Isa` computes from its operands, the flags that
it reads and the registers that it uses implicitly. Memory is flat.
-/

namespace Pittsfield.Rewrite

open Pittsfield.Region
open Pittsfield.Machine
open Pittsfield.Offline

section Flags

/-- The flags that the conditions look at: the condition with or without an `n`. -/
def conditionFlags : List (Words × Word) :=
  [(["o"], 0x800), (["b", "c", "ae"], 0x1), (["z", "e"], 0x40), (["be", "a"], 0x41), (["s"], 0x80),
    (["p", "pe", "po"], 0x4), (["l", "ge"], 0x880), (["le", "g"], 0x8c0)]

/-- The flags that the instruction reads. -/
def flagsRead (i : Insn) : Word :=
  if i.op = "pushf" then BitVec.allOnes 32
  else if i.op ∈ cat ["adc", "sbb", "rcl", "rcr"] (opt size) then 0x1
  else (conditionFlags.findSome? fun (conds, flags) =>
    if i.op ∈ cat ["j", "set", "cmov"] (cat (opt ["n"]) conds) then some flags else none).getD 0

/-- The opcodes that leave the flags alone. -/
def keepsFlags : Words :=
  cat ["mov"] (["", "l", "b", "w"] ++ cat ["s", "z"] ["bl", "wl", "bw"]) ++
    cat ["lea", "push", "pop", "not", "xchg"] (opt size) ++ cat ["j", "set", "cmov"] cond ++
    ["nop", "jecxz", "jmp", "call", "ret", "leave", "pushf", "int3"] ++ convert ++ fload ++ fbin ++
    fstore ++ fconst ++ funary ++ fcstore ++ fcload

/-- The flags that the instruction may change. -/
def flagsTouched (i : Insn) : Word :=
  if i.op ∈ keepsFlags then 0
  else if i.op = "popf" then BitVec.allOnes 32
  else if i.op = "cld" then 0x400
  else statusMask

/-- The number that a text spells in base ten or sixteen. A leading zero means base
eight to the assembler. -/
def number (t : String) : Option Int :=
  match t.toList with
  | '0' :: c :: _ | '-' :: '0' :: c :: _ =>
    if (decimalDigit c).isSome then none else signed_word t
  | _ => signed_word t

/-- A count that is not zero whatever the registers hold. -/
def constantCount (i : Insn) : Bool :=
  match i.args with
  | [_] => true
  | [.imm value, _] => (number value.val).any fun v => v % 32 ≠ 0
  | _ => false

/-- The flags that the instruction sets whatever they were before. -/
def flagsDefined (i : Insn) : Word :=
  flagsTouched i &&&
    if i.op = "popf" then if i.args = [] then BitVec.allOnes 32 else 0
    else if i.op = "cld" then 0x400
    else if i.op ∈ cat (arith8 ++ ["test", "neg"]) (opt size) then statusMask
    else if i.op ∈ cat ["inc", "dec"] (opt size) then statusMask &&& ~~~0x1
    else if i.op ∈ cat ["shl", "sal", "shr", "sar"] (opt size) ∧ constantCount i then 0xc5
    else if i.op ∈ cat ["mul", "imul"] (opt size) then 0x801
    else if i.op = "bt" then 0x1
    else if i.op ∈ cat ["bsf", "bsr"] (opt size) then 0x40
    else if i.op = "sahf" then 0xd5
    else 0

/-- The flags agree where they are not in the mask. -/
def SameFlags (spoiled a b : Word) : Prop :=
  ∀ k, spoiled.getLsbD k = false → a.getLsbD k = b.getLsbD k

end Flags

/-- What an instruction computes from. -/
structure Inputs (E : Type) where
  /-- the registers and constants among the operands -/
  values : List Word
  /-- what the memory operand holds -/
  bytes : List (BitVec 8)
  eax : Word
  ecx : Word
  edx : Word
  fpu : E
  flags : Word

/-- What an instruction computes, beside the flags. -/
structure Outputs (E : Type) where
  /-- for a register that is the last operand -/
  result : Option Word
  /-- for a register that is the first of two operands -/
  source : Option Word
  /-- for the memory operand -/
  stored : List (BitVec 8)
  eax : Word
  ecx : Word
  edx : Word
  fpu : E

/-- Constants and addresses do not tell instructions of one shape apart. -/
def Operand.shape : Operand → Operand
  | .mem _ _ _ _ | .const _ => .mem none none none none
  | o => o

def Insn.shape (i : Insn) : Insn := { i with args := i.args.map Operand.shape }

@[simp] theorem shape_op (i : Insn) : i.shape.op = i.op := rfl

/-- What the instructions access of an operand in memory. -/
structure Footprint where
  /-- how far from the address the access is, as it is for a bit test -/
  reach : Insn → List Word → Word
  /-- how many bytes are read -/
  reads : Insn → Nat

/-- What the instructions compute that the rewriter does not look into. The flags that an
instruction does not read have no part in what it computes, and an instruction changes no
flags but those that it touches. -/
structure Isa (E : Type) where
  eval : Insn → Inputs E → Outputs E
  flags : Insn → Inputs E → Word
  blind : ∀ i x f, x.flags &&& flagsRead i = f &&& flagsRead i → eval i { x with flags := f } = eval i x
  defined : ∀ i x f spoiled, SameFlags spoiled x.flags f → spoiled &&& flagsRead i = 0 →
    SameFlags (spoiled &&& ~~~flagsDefined i) (flags i x) (flags i { x with flags := f })
  touched : ∀ i x, SameFlags (flagsTouched i) x.flags (flags i x)

/-- The processor with the state of its x87 unit. -/
structure Proc (E : Type) where
  cpu : Cpu
  fpu : E

inductive Kind
  | push
  | pop
  | pushf
  | popf
  | leave
  | lea
  | branch
  | transfer
  | data
  deriving DecidableEq

def kind (op : String) : Kind :=
  if op ∈ cat ["push"] (opt size) then .push
  else if op ∈ cat ["pop"] (opt size) then .pop
  else if op = "pushf" then .pushf
  else if op = "popf" then .popf
  else if op = "leave" then .leave
  else if op ∈ cat ["lea"] (opt size) then .lea
  else if op ∈ cat ["j"] cond ∨ op = "jecxz" then .branch
  else if op ∈ ["jmp", "call", "ret"] then .transfer
  else .data

/-- The width of a stack slot. -/
def slotWidth (i : Insn) : Width :=
  match i.args with
  | [.reg (.r16 _)] => .word
  | _ => if i.op.toList.getLast? = some 'w' then .word else .dword

section

variable (sym : String → Word)

/-- The value of a constant: a number, or a symbol as the assembler and the linker place it. -/
def constValue (c : Const) : Word := ((number c.val).map (BitVec.ofInt 32)).getD (sym c.val)

/-- The address of an operand in memory. -/
def address (s : Cpu) : Operand → Option Word
  | .mem offset base index scale =>
    some ((base.map s.reg).getD 0 +
      (index.map s.reg).getD 0 * BitVec.ofNat 32 ((scale.map (·.val)).getD 1) +
      (offset.map (constValue sym)).getD 0)
  | .const value => some (constValue sym value)
  | _ => none

/-- The value of an operand that is not in memory. -/
def plainValue (s : Cpu) : Operand → Word
  | .reg r => s.readReg r
  | .imm value => constValue sym value
  | _ => 0

/-- The value of an operand of the stack instructions. -/
def slotValue (s : Cpu) (w : Width) (o : Operand) : Word :=
  match address sym s o with
  | some a => s.load w a
  | none => plainValue sym s o

def readBytes (mem : Word → BitVec 8) (a : Word) (n : Nat) : List (BitVec 8) :=
  (List.range n).map fun k => mem (a + BitVec.ofNat 32 k)

def writeBytes (mem : Word → BitVec 8) (a : Word) (bytes : List (BitVec 8)) (x : Word) : BitVec 8 :=
  (bytes[(x - a).toNat]?).getD (mem x)

/-- The values of the operands that are not in memory. -/
def values (i : Insn) (s : Cpu) : List Word := i.args.map (plainValue sym s)

variable (foot : Footprint)

/-- Where the instruction accesses its operand in memory. -/
def place (i : Insn) (s : Cpu) : Option Word :=
  (i.args.findSome? (address sym s)).map (· + foot.reach i.shape (values sym i s))

variable {E : Type}

def inputs (i : Insn) (s : Proc E) : Inputs E where
  values := values sym i s.cpu
  bytes := (place sym foot i s.cpu).elim [] fun a => readBytes s.cpu.mem a (foot.reads i.shape)
  eax := s.cpu.reg .eax
  ecx := s.cpu.reg .ecx
  edx := s.cpu.reg .edx
  fpu := s.fpu
  flags := s.cpu.eflags

/-- The results go to the operands, the flags and the registers written implicitly. -/
def writeBack (i : Insn) (a : Option Word) (y : Outputs E) (flags : Word) (s : Cpu) : Cpu :=
  let s := ((s.setReg .eax y.eax).setReg .ecx y.ecx).setReg .edx y.edx
  let s := match i.args, y.source with
    | [.reg r, _], some v => s.writeReg v r
    | _, _ => s
  let s := match i.args.getLast?, y.result with
    | some (.reg r), some v => s.writeReg v r
    | _, _ => s
  { s with mem := a.elim s.mem (writeBytes s.mem · y.stored), eflags := flags }

variable (isa : Isa E)

def dataOp (i : Insn) (s : Proc E) : Proc E :=
  let x := inputs sym foot i s
  let y := isa.eval i.shape x
  ⟨writeBack i.shape (place sym foot i s.cpu) y (isa.flags i.shape x) s.cpu, y.fpu⟩

/-- `andl value, r` -/
def andOp (i : Insn) (value : Const) (r : Reg32) (s : Proc E) : Proc E :=
  let c := s.cpu.setReg r (s.cpu.reg r &&& constValue sym value)
  { s with cpu := c.setFlags (isa.flags i.shape (inputs sym foot i s)) }

def pushOp (w : Width) (v : Word) (s : Cpu) : Cpu :=
  let a := s.reg .esp - BitVec.ofNat 32 w.bytes
  (s.store w a v).setReg .esp a

/-- What an instruction does to the state; control goes on with the next line. -/
def step (i : Insn) (s : Proc E) : Proc E :=
  match kind i.op, i.args with
  | .push, [source] =>
    { s with cpu := pushOp (slotWidth i) (slotValue sym s.cpu (slotWidth i) source) s.cpu }
  | .pop, [target] =>
    let v := s.cpu.load (slotWidth i) (s.cpu.reg .esp)
    let c := s.cpu.setReg .esp (s.cpu.reg .esp + BitVec.ofNat 32 (slotWidth i).bytes)
    match target, address sym c target with
    | .reg r, _ => { s with cpu := c.writeReg v r }
    | _, some a => { s with cpu := c.store (slotWidth i) a v }
    | _, none => { s with cpu := c }
  | .pushf, [] => { s with cpu := pushOp .dword s.cpu.eflags s.cpu }
  | .popf, [] =>
    let v := s.cpu.load .dword (s.cpu.reg .esp)
    { s with cpu := (s.cpu.setReg .esp (s.cpu.reg .esp + 4)).setFlags v }
  | .leave, [] =>
    let v := s.cpu.load .dword (s.cpu.reg .ebp)
    { s with cpu := (s.cpu.setReg .esp (s.cpu.reg .ebp + 4)).setReg .ebp v }
  | .lea, [source, .reg r] =>
    { s with cpu := s.cpu.writeReg ((address sym s.cpu source).getD 0) r }
  | .data, [.imm value, .reg (.r32 r)] =>
    if i.op = "andl" then andOp sym foot isa i value r s else dataOp sym foot isa i s
  | .data, _ => dataOp sym foot isa i s
  | _, _ => s

def run (is : List Insn) (s : Proc E) : Proc E := is.foldl (fun s i => step sym foot isa i s) s

/-- An access to an operand in memory. -/
structure Access where
  address : Word
  read : List (BitVec 8)
  written : List (BitVec 8)

/-- The access of an instruction that computes on an operand in memory. -/
def access (i : Insn) (s : Proc E) : Option Access :=
  if kind i.op = .data then
    (place sym foot i s.cpu).map fun a =>
      ⟨a, (inputs sym foot i s).bytes, (isa.eval i.shape (inputs sym foot i s)).stored⟩
  else none

/-- The accesses of a run. -/
def accesses : List Insn → Proc E → List Access
  | [], _ => []
  | i :: is, s => (access sym foot isa i s).toList ++ accesses is (step sym foot isa i s)

end

end Pittsfield.Rewrite
