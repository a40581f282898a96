import Pittsfield.Machine.Cpu
import Pittsfield.Offline.CheckInsn

/-!
# Assembly lines

The lines that `rewrite.pl` reads and prints, as far as its patterns take them apart:
instructions with an opcode and operands, labels and alignment directives. Constants
stay texts, so that a number and a symbol are told apart by the patterns alone.
-/

namespace Pittsfield.Rewrite

open Pittsfield.Region
open Pittsfield.Machine
open Pittsfield.Offline

section Constants

/-- `\w` -/
def wordChar (c : Char) : Bool := c.isAlphanum || c = '_'

/-- `.L\w+(?:[+-]\d+)?`, where the dot is any character. -/
def localName : List Char → Bool
  | _ :: 'L' :: cs =>
    cs.head?.any wordChar &&
      match cs.dropWhile wordChar with
      | [] => true
      | sign :: ds => (sign = '+' || sign = '-') && digits decimalDigit ds
  | _ => false

/-- `$any_const` -/
def anyConst (cs : List Char) : Bool :=
  cs ≠ [] && (cs.all fun c => wordChar c || c = '+' || c = '.' || c = '-') || localName cs

abbrev Const := {t : String // anyConst t.toList = true}

theorem anyConst_hexText (w : Word) : anyConst (hexText w).toList = true := by
  have hd : ∀ n < 16, wordChar (Nat.digitChar n) = true := by decide
  have hall : ∀ k, wordChar (Nat.digitChar (w.toNat / 16 ^ k % 16)) = true :=
    fun k => hd _ (Nat.mod_lt _ (by decide))
  have h0 : wordChar '0' = true := by decide
  have hx : wordChar 'x' = true := by decide
  simp [anyConst, hexText, hall, h0, hx]

/-- `sprintf '$0x%08x'`, without the dollar sign -/
def hexConst (w : Word) : Const := ⟨hexText w, anyConst_hexText w⟩

end Constants

abbrev Scale := {n : Nat // n ∈ [1, 2, 4, 8]}

inductive Operand
  /-- `$reg` -/
  | reg (r : Reg)
  /-- `$immed`, the text behind the dollar sign -/
  | imm (value : Const)
  /-- `$lab_complex` -/
  | mem (offset : Option Const) (base index : Option Reg32) (scale : Option Scale)
  /-- `$any_const` alone, a label or an address -/
  | const (value : Const)
  /-- `*` before another operand -/
  | star (target : Operand)
  /-- every other text -/
  | other (text : String)
  deriving DecidableEq

/-- An opcode and the operands between the commas. -/
structure Insn where
  op : String
  args : List Operand
  deriving DecidableEq

inductive Line
  | insn (i : Insn)
  | label (name : String)
  /-- `.p2align 2` -/
  | align2
  /-- every other `.p2align` -/
  | p2align
  | other (text : String)
  deriving DecidableEq

/-- `(%ebx)` -/
def atEbx : Operand := .mem none (some .ebx) none none

section Patterns

/-- The absolute value of a decimal text `-?\d+`, or `-?\d*` where `empty` is set. -/
def decimalSize (empty : Bool) (cs : List Char) : Option Nat :=
  let ds := match cs with
    | '-' :: ds => ds
    | ds => ds
  if digits decimalDigit ds || empty && ds = [] then some (ofDigits 10 decimalDigit ds) else none

/-- `/\$(-?\d+)/ and abs($1) > 127`: the digits at the front of the immediate count. -/
def wideImmediate : Operand → Bool
  | .imm value =>
    let ds := match value.val.toList with
      | '-' :: ds => ds
      | ds => ds
    let front := ds.takeWhile fun c => (decimalDigit c).isSome
    front ≠ [] && 127 < ofDigits 10 decimalDigit front
  | _ => false

/-- `$immed|$reg` -/
def Operand.source : Operand → Bool
  | .imm _ | .reg _ => true
  | _ => false

/-- `$reg` -/
def Operand.isReg : Operand → Bool
  | .reg _ => true
  | _ => false

/-- `$lab_complex` -/
def Operand.inMemory : Operand → Bool
  | .mem _ _ _ _ => true
  | _ => false

/-- `$lword` -/
def Operand.direct : Operand → Bool
  | .const value => lword value.val.toList
  | _ => false

/-- `$op =~ /^lea[blw]$/` -/
def isLea (op : String) : Bool := op ∈ cat ["lea"] size

/-- `^(test|cmp)[bwl]?$` -/
def comparesOnly (op : String) : Bool := op ∈ cat ["test", "cmp"] (opt size)

/-- The size of an offset, of which none at all counts as zero. -/
def offsetSize (empty : Bool) (offset : Option Const) : Option Nat :=
  offset.elim (some 0) fun t => decimalSize empty t.val.toList

/-- `off(%ebp)` and `off(%esp)` with an offset below the bound of the register. -/
def nearFrame (empty : Bool) (ebpBound espBound : Nat) : Operand → Option Reg32
  | .mem offset base none none =>
    if base = some .ebp ∧ ((offsetSize empty offset).any fun n => decide (n < ebpBound)) = true then
      some .ebp
    else if base = some .esp ∧ ((offsetSize empty offset).any fun n => decide (n < espBound)) = true then
      some .esp
    else none
  | _ => none

/-- The store of two operands that `maybe_rewrite` leaves as it is. -/
def keepsTwo (op : String) (source target : Operand) : Bool :=
  isLea op ||
    match nearFrame true 32767 127 target with
    | some .ebp => !wideImmediate source
    | some _ => true
    | none => false

/-- The store of one operand that `maybe_rewrite` leaves as it is. -/
def keepsOne (op : String) (target : Operand) : Bool :=
  isLea op || (nearFrame false 32768 127 target).isSome

/-- `$op =~ /^set$cond$/` -/
def isSet (op : String) : Bool := op ∈ cat ["set"] cond

/-- `jmp|cmp|inc|dec|add|sub|and|or|xor|test|s[ah]r|s[ah]l|sahf|neg`, the opcodes before
which a dirty `%esp` is masked. -/
def remasksEsp (op : String) : Bool :=
  starts (["jmp", "cmp", "inc", "dec", "add", "sub", "and", "or", "xor", "test", "sar", "shr", "sal",
    "shl", "sahf", "neg"]) op

/-- `, %esp` or `, %ebp` -/
def Insn.secondIs (i : Insn) (r : Reg32) : Bool := i.args.tail.any (· = .reg (.r32 r))

/-- `\t(leave|popl\s+%ebp)$`, or `, %ebp` in anything but `movl %esp, %ebp` -/
def setsEbp (i : Insn) : Bool :=
  i = ⟨"leave", []⟩ || i = ⟨"popl", [.reg (.r32 .ebp)]⟩ ||
    i.secondIs .ebp && i ≠ ⟨"movl", [.reg (.r32 .esp), .reg (.r32 .ebp)]⟩

/-- `$complex`: the offset is a number. -/
def Operand.numeric : Operand → Bool
  | .mem offset _ _ _ => offset.all fun t => lword t.val.toList
  | _ => false

/-- `(add|sub|lea)l` of a register, of memory or of a number above 255, to `%esp`. -/
def bumpsEspFar (i : Insn) : Bool :=
  i.op ∈ ["addl", "subl", "leal"] &&
    match i.args with
    | [.reg (.r32 _), .reg (.r32 .esp)] => true
    | [.mem offset base index scale, .reg (.r32 .esp)] => (Operand.mem offset base index scale).numeric
    | [.imm value, .reg (.r32 .esp)] =>
      (anyHex value.val.toList || digits decimalDigit value.val.toList) && 255 < hex value.val
    | _ => false

end Patterns

section Liveness

/-- `^\t(j|set)$cond\t` -/
def Line.readsCondition : Line → Bool
  | .insn i => (i.op ∈ cat ["j"] cond || isSet i.op) && i.args ≠ []
  | _ => false

/-- The opcodes that end the life of the flags in the backward pass. -/
def Line.killsFlags : Line → Bool
  | .insn i =>
    starts ["cmp", "test", "inc", "dec", "add", "sub", "and", "or", "xor", "sar", "shr", "sal", "shl",
      "sahf"] i.op || starts ["jmp", "call", "ret"] i.op
  | _ => false

/-- The entry of `@eflags_live_before` for the first of the lines. -/
def eflags_live_before : List Line → Bool
  | [] => false
  | l :: ls =>
    if l.readsCondition then true else if l.killsFlags then false else eflags_live_before ls

/-- `$forward_eflags_live` as the checks before an instruction leave it. -/
def forwardBefore (i : Insn) (live : Bool) : Bool :=
  if starts ["test", "cmp", "dec"] i.op then false else live

/-- `$forward_eflags_live` behind an instruction that was printed as it is. -/
def forwardAfter (i : Insn) (live : Bool) : Bool :=
  if starts ["test", "cmp"] i.op then true
  else if (i.op ∈ cat ["j", "set"] cond ++ ["jmp", "call", "ret"]) ∧ i.args ≠ [] then false
  else if i.op = "sbbl" then
    match i.args with
    | [.reg r, .reg q] => if r = q then false else live
    | _ => live
  else live

end Liveness

end Pittsfield.Rewrite
