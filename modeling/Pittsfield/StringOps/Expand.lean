import Mathlib.Computability.StateTransition
import Pittsfield.Machine.Status

/-!
# `rewrite-stringops.pl`

The script replaces the string instructions of an assembly file by loops. The lines it
prints for a loop are labels and a few kinds of instructions; everything else it copies,
skips or refuses.
-/

namespace Pittsfield.StringOps

open Pittsfield.Region
open Pittsfield.Machine

/-- The instructions that the script prints. -/
inductive Insn
  /-- `movl (base), r` -/
  | loadl (base r : Reg32)
  /-- `movl r, (base)` -/
  | storel (r base : Reg32)
  /-- `movb (base), r` -/
  | loadb (base : Reg32) (r : Reg8)
  /-- `cmpb r, (base)` -/
  | cmpb (r : Reg8) (base : Reg32)
  /-- `leal disp(base), r` -/
  | leal (disp : Int) (base r : Reg32)
  | pushl (r : Reg32)
  | popl (r : Reg32)
  | jecxz (target : String)
  | jmp (target : String)
  | jz (target : String)
  | jnz (target : String)
  deriving DecidableEq

inductive Line
  | label (name : String)
  | insn (i : Insn)
  | text (line : String)
  deriving DecidableEq

section Printing

def regName : Reg32 → String
  | .eax => "%eax"
  | .ecx => "%ecx"
  | .edx => "%edx"
  | .ebx => "%ebx"
  | .esp => "%esp"
  | .ebp => "%ebp"
  | .esi => "%esi"
  | .edi => "%edi"

def reg8Name : Reg8 → String
  | .al => "%al"
  | .cl => "%cl"
  | .dl => "%dl"
  | .bl => "%bl"
  | .ah => "%ah"
  | .ch => "%ch"
  | .dh => "%dh"
  | .bh => "%bh"

def Insn.print : Insn → String
  | .loadl base r => "\tmovl\t(" ++ regName base ++ "), " ++ regName r
  | .storel r base => "\tmovl\t" ++ regName r ++ ", (" ++ regName base ++ ")"
  | .loadb base r => "\tmovb\t(" ++ regName base ++ "), " ++ reg8Name r
  | .cmpb r base => "\tcmpb\t" ++ reg8Name r ++ ", (" ++ regName base ++ ")"
  | .leal disp base r => "\tleal\t" ++ toString disp ++ "(" ++ regName base ++ "), " ++ regName r
  | .pushl r => "\tpushl\t" ++ regName r
  | .popl r => "\tpopl\t" ++ regName r
  | .jecxz l => "\tjecxz\t" ++ l
  | .jmp l => "\tjmp\t" ++ l
  | .jz l => "\tjz\t" ++ l
  | .jnz l => "\tjnz\t" ++ l

def Line.print : Line → String
  | .label name => name ++ ":"
  | .insn i => i.print
  | .text line => line

end Printing

/-- `.LRWSOPS$label_count` -/
def loopLabel (n : Nat) : String := ".LRWSOPS" ++ Nat.repr n

/-- The loop between the two labels. -/
def loopBody (repop stringop head : String) : Except String (List Insn) :=
  if stringop = "movsl" then
    .ok [.loadl .esi .eax, .storel .eax .edi, .leal 4 .esi .esi, .leal 4 .edi .edi,
      .leal (-1) .ecx .ecx, .jmp head]
  else if stringop = "stosl" then
    .ok [.storel .eax .edi, .leal 4 .edi .edi, .leal (-1) .ecx .ecx, .jmp head]
  else if repop = "repz" ∧ stringop = "cmpsb" then
    .ok [.loadb .esi .al, .cmpb .al .edi, .leal 1 .esi .esi, .leal 1 .edi .edi,
      .leal (-1) .ecx .ecx, .jz head]
  else if repop = "repnz" ∧ stringop = "scasb" then
    .ok [.cmpb .al .edi, .leal 1 .edi .edi, .leal (-1) .ecx .ecx, .jnz head]
  else .error ("Unsupported string op " ++ repop ++ " " ++ stringop)

/-- `$stringop !~ /^stos/` -/
def savesEax (stringop : String) : Bool := !("stos".toList.isPrefixOf stringop.toList)

/-- The lines printed for a repeated string instruction, with the labels `n` and `n + 1`. -/
def expand (repop stringop : String) (n : Nat) : Except String (List Line) :=
  match loopBody repop stringop (loopLabel n) with
  | .error e => .error e
  | .ok body =>
    .ok ((if savesEax stringop then [.insn (.pushl .eax)] else []) ++
      [.label (loopLabel n), .insn (.jecxz (loopLabel (n + 1)))] ++ body.map .insn ++
      [.label (loopLabel (n + 1))] ++
      if savesEax stringop then [.insn (.popl .eax)] else [])

def repOps : List String := ["repe", "repne", "repz", "repnz", "rep"]

def isWord (cs : List Char) : Bool := cs ≠ [] && cs.all fun c => c.isAlphanum || c = '_'

/-- `^\t(rep(?:e|ne|z|nz|))(?: (\w+))?$` -/
def repLine (line : String) : Option (String × Option String) :=
  repOps.findSome? fun r =>
    let before := '\t' :: r.toList
    if line.toList = before then some (r, none)
    else
      let word := line.toList.drop (before.length + 1)
      if (before ++ [' ']).isPrefixOf line.toList ∧ isWord word then
        -- the string "0" is false
        some (r, if word = ['0'] then none else some (String.ofList word))
      else none

/-- `s/^\t//` -/
def dropTab (line : String) : String :=
  match line.toList with
  | '\t' :: cs => String.ofList cs
  | _ => line

/-- `print "\tret\n"; next` or the loop, with the label count behind it. -/
def expandRep (repop stringop : String) (n : Nat) : Except String (List Line × Nat) :=
  if stringop = "ret" then .ok ([.text "\tret"], n)
  else (expand repop stringop n).map fun lines => (lines, n + 2)

/-- `while (<>)`, with the lines without their newlines. -/
def rewriteStringops : Nat → List String → Except String (List Line)
  | _, [] => .ok []
  | n, [line] =>
    match repLine line with
    | some (repop, stringop) => (expandRep repop (stringop.getD "") n).map (·.1)
    | none =>
      if "\tcld".toList.isPrefixOf line.toList then .ok []
      else if "\tstd".toList.isPrefixOf line.toList then .error "Backwards string ops are not supported"
      else .ok [.text line]
  | n, line :: next :: rest =>
    match repLine line with
    | some (repop, some stringop) => do
      let (lines, n') ← expandRep repop stringop n
      return lines ++ (← rewriteStringops n' (next :: rest))
    | some (repop, none) => do
      let (lines, n') ← expandRep repop (dropTab next) n
      return lines ++ (← rewriteStringops n' rest)
    | none =>
      if "\tcld".toList.isPrefixOf line.toList then rewriteStringops n (next :: rest)
      else if "\tstd".toList.isPrefixOf line.toList then .error "Backwards string ops are not supported"
      else do return .text line :: (← rewriteStringops n (next :: rest))

section Execution

/-- The place in the lines at which the machine stands. -/
structure At where
  pc : Nat
  cpu : Cpu

/-- The line behind which the label stands. -/
def labelIndex (l : String) : List Line → Option Nat
  | [] => none
  | .label k :: ls => if k = l then some 0 else (labelIndex l ls).map (· + 1)
  | _ :: ls => (labelIndex l ls).map (· + 1)

/-- What an instruction does to registers, flags and memory. -/
def Insn.effect : Insn → Cpu → Cpu
  | .loadl base r, s => s.setReg r (s.load .dword (s.reg base))
  | .storel r base, s => s.store .dword (s.reg base) (s.reg r)
  | .loadb base r, s => s.writeReg (s.load .byte (s.reg base)) (.r8 r)
  | .cmpb r base, s =>
    s.setFlags (subFlags (s.mem (s.reg base)) ((s.readReg (.r8 r)).setWidth 8) s.eflags)
  | .leal disp base r, s => s.setReg r (s.reg base + BitVec.ofInt 32 disp)
  | .pushl r, s =>
    (s.store .dword (s.reg .esp - 4) (s.reg r)).setReg .esp (s.reg .esp - 4)
  | .popl r, s =>
    let v := s.load .dword (s.reg .esp)
    (s.setReg .esp (s.reg .esp + 4)).setReg r v
  | .jecxz _, s | .jmp _, s | .jz _, s | .jnz _, s => s

/-- Where an instruction jumps. -/
def Insn.jumpsTo : Insn → Cpu → Option String
  | .jecxz l, s => if s.reg .ecx = 0 then some l else none
  | .jmp l, _ => some l
  | .jz l, s => if (status s.eflags).zf then some l else none
  | .jnz l, s => if (status s.eflags).zf then none else some l
  | _, _ => none

/-- One line. Behind the last line, and at a line that is no instruction of the script's,
there is no step. -/
def step (prog : List Line) (a : At) : Option At :=
  match prog[a.pc]? with
  | some (.label _) => some ⟨a.pc + 1, a.cpu⟩
  | some (.insn i) =>
    match i.jumpsTo a.cpu with
    | some l => (labelIndex l prog).map fun k => ⟨k, i.effect a.cpu⟩
    | none => some ⟨a.pc + 1, i.effect a.cpu⟩
  | _ => none

end Execution

section Hardware

/-- The string instructions with their prefixes. -/
inductive StringOp
  | movsl
  | stosl
  | cmpsb
  | scasb
  deriving DecidableEq

def StringOp.prefixText : StringOp → String
  | .movsl | .stosl => "rep"
  | .cmpsb => "repz"
  | .scasb => "repnz"

def StringOp.text : StringOp → String
  | .movsl => "movsl"
  | .stosl => "stosl"
  | .cmpsb => "cmpsb"
  | .scasb => "scasb"

def al (s : Cpu) : BitVec 8 := (s.reg .eax).setWidth 8

/-- One round with the direction flag clear. The comparison is of the source with the
destination and of `%al` with the destination. -/
def StringOp.round : StringOp → Cpu → Cpu
  | .movsl, s =>
    (((s.store .dword (s.reg .edi) (s.load .dword (s.reg .esi))).setReg .esi (s.reg .esi + 4)).setReg
      .edi (s.reg .edi + 4)).setReg .ecx (s.reg .ecx - 1)
  | .stosl, s =>
    ((s.store .dword (s.reg .edi) (s.reg .eax)).setReg .edi (s.reg .edi + 4)).setReg .ecx
      (s.reg .ecx - 1)
  | .cmpsb, s =>
    (((s.setFlags (subFlags (s.mem (s.reg .esi)) (s.mem (s.reg .edi)) s.eflags)).setReg .esi
      (s.reg .esi + 1)).setReg .edi (s.reg .edi + 1)).setReg .ecx (s.reg .ecx - 1)
  | .scasb, s =>
    ((s.setFlags (subFlags (al s) (s.mem (s.reg .edi)) s.eflags)).setReg .edi
      (s.reg .edi + 1)).setReg .ecx (s.reg .ecx - 1)

/-- The prefix asks for another round: `repz` while ZF is set, `repnz` while it is clear. -/
def StringOp.again (op : StringOp) (s : Cpu) : Bool :=
  match op with
  | .movsl | .stosl => true
  | .cmpsb => (status s.eflags).zf
  | .scasb => !(status s.eflags).zf

/-- At most `n` rounds. -/
def StringOp.repeated (op : StringOp) : Nat → Cpu → Cpu
  | 0, s => s
  | n + 1, s => if op.again (op.round s) then op.repeated n (op.round s) else op.round s

/-- The repeated string instruction. -/
def StringOp.run (op : StringOp) (s : Cpu) : Cpu := op.repeated (s.reg .ecx).toNat s

/-- The bytes that one round accesses. -/
def StringOp.operands (op : StringOp) (s : Cpu) : List Word :=
  match op with
  | .movsl =>
    (List.range 4).map (s.reg .esi + BitVec.ofNat 32 ·) ++
      (List.range 4).map (s.reg .edi + BitVec.ofNat 32 ·)
  | .stosl => (List.range 4).map (s.reg .edi + BitVec.ofNat 32 ·)
  | .cmpsb => [s.reg .esi, s.reg .edi]
  | .scasb => [s.reg .edi]

/-- None of the bytes that the rounds access is one of the given ones. -/
def StringOp.Avoids (op : StringOp) (bytes : List Word) : Nat → Cpu → Prop
  | 0, _ => True
  | n + 1, s =>
    (∀ a ∈ op.operands s, a ∉ bytes) ∧
      (op.again (op.round s) = true → op.Avoids bytes n (op.round s))

end Hardware

/-- The word just below `%esp`. -/
def belowEsp (s : Cpu) : List Word :=
  (List.range 4).map (s.reg .esp - 4 + BitVec.ofNat 32 ·)

/-- The same registers and the same status flags, and the same memory but for the bytes. -/
structure Same (bytes : List Word) (s t : Cpu) : Prop where
  reg : t.reg = s.reg
  mem : ∀ a, a ∉ bytes → t.mem a = s.mem a
  status : status t.eflags = status s.eflags

/-- The lines printed for the instruction, run from the first one on, stop behind the
last one in the state that the instruction leaves. -/
def Keeps (op : StringOp) (n : Nat) (s : Cpu) : Prop :=
  ∃ prog, expand op.prefixText op.text n = .ok prog ∧
    ∃ t, ⟨prog.length, t⟩ ∈ StateTransition.eval (step prog) ⟨0, s⟩ ∧ Same (belowEsp s) (op.run s) t

/-- The condition on the first `n` bytes to compare: `repz cmpsb` runs into no difference,
`repnz scasb` finds what it looks for. -/
def StringOp.Settled (op : StringOp) (n : Nat) (s : Cpu) : Prop :=
  match op with
  | .movsl | .stosl => True
  | .cmpsb => ∀ i < n, s.mem (s.reg .esi + BitVec.ofNat 32 i) = s.mem (s.reg .edi + BitVec.ofNat 32 i)
  | .scasb => n = 0 ∨ ∃ i < n, s.mem (s.reg .edi + BitVec.ofNat 32 i) = al s

/-- The loops as the script prints them. -/
example : (expand "repnz" "scasb" 1).map (·.map Line.print) =
    .ok ["\tpushl\t%eax", ".LRWSOPS1:", "\tjecxz\t.LRWSOPS2", "\tcmpb\t%al, (%edi)",
      "\tleal\t1(%edi), %edi", "\tleal\t-1(%ecx), %ecx", "\tjnz\t.LRWSOPS1", ".LRWSOPS2:",
      "\tpopl\t%eax"] := by rfl

end Pittsfield.StringOps
