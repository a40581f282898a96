import Pittsfield.Rewrite.Assembly

/-!
# `insn_len` of `rewrite.pl`

The lengths that the script guesses, as the list of its patterns in their order. A pattern
looks at an opcode and at the shapes of the operands.
-/

namespace Pittsfield.Rewrite

open Pittsfield.Machine
open Pittsfield.Offline

namespace Operand

/-- `$ereg` -/
def ereg : Operand → Bool
  | .reg (.r32 _) => true
  | _ => false

/-- `$breg` -/
def breg : Operand → Bool
  | .reg (.r8 _) => true
  | _ => false

/-- `$freg` -/
def freg : Operand → Bool
  | .reg (.other _) => true
  | _ => false

/-- `%eax` -/
def isEax : Operand → Bool
  | .reg (.r32 .eax) => true
  | _ => false

/-- `$immed` -/
def immed : Operand → Bool
  | .imm _ => true
  | _ => false

/-- `$imb_sign` -/
def imbSign : Operand → Bool
  | .imm value => lbyte value.val.toList
  | _ => false

/-- `$any_const` -/
def isConst : Operand → Bool
  | .const _ => true
  | _ => false

/-- An offset that the pattern matches, and a base register. -/
def based (offset : Option Const → Bool) (base : Reg32 → Bool) : Operand → Bool
  | .mem d (some b) none none => offset d && base b
  | _ => false

/-- An offset that the pattern matches, a base register and an index. -/
def indexed (offset : Option Const → Bool) : Operand → Bool
  | .mem d (some _) (some _) _ => offset d
  | _ => false

/-- `$any_const(,$ereg(,[1248])?)`, with a base register where `base` is set. -/
def scaled (base : Bool) : Operand → Bool
  | .mem (some _) none (some _) _ => true
  | .mem (some _) (some _) (some _) _ => base
  | _ => false

end Operand

section Patterns

/-- No offset. -/
def noOffset (offset : Option Const) : Bool := offset = none

/-- `$b_sign` -/
def bSign (offset : Option Const) : Bool := offset.any fun d => lbyte d.val.toList

/-- `$w_sign` -/
def wSign (offset : Option Const) : Bool := offset.any fun d => lword d.val.toList

def anyBase (_ : Reg32) : Bool := true

/-- `$ereg_no_esp` -/
def noEsp (b : Reg32) : Bool := b ≠ .esp

def isEsp (b : Reg32) : Bool := b = .esp

/-- `($ereg)` -/
def atEreg : Operand → Bool := Operand.based noOffset anyBase

/-- `$eb_off` -/
def ebOff : Operand → Bool := Operand.based bSign noEsp

/-- `$e_off` -/
def eOff : Operand → Bool := Operand.based wSign noEsp

/-- `$b_sign(%esp)` -/
def bEsp : Operand → Bool := Operand.based bSign isEsp

def operands0 (args : List Operand) : Bool := args = []

def operands1 (p : Operand → Bool) : List Operand → Bool
  | [a] => p a
  | _ => false

def operands2 (p q : Operand → Bool) : List Operand → Bool
  | [a, b] => p a && q b
  | _ => false

def oneOf (words : Words) (op : String) : Bool := op ∈ words

def withSize (words : Words) (size : String) : String → Bool := oneOf (cat words [size])

/-- `f\w+` -/
def floating (op : String) : Bool :=
  match op.toList with
  | 'f' :: cs => cs ≠ [] && cs.all wordChar
  | _ => false

/-- `mov[zs][bw]l` -/
def extending : Words := cat ["mov"] (cat ["z", "s"] ["bl", "wl"])

/-- `.L(?:RWSOPS)?\d+` -/
def labelText (cs : List Char) : Bool :=
  let rest := if "RWSOPS".toList.isPrefixOf (cs.drop 2) then cs.drop 8 else cs.drop 2
  ".L".toList.isPrefixOf cs && digits decimalDigit rest

def isLabel : Operand → Bool
  | .const name => labelText name.val.toList
  | _ => false

/-- `\w+` -/
def isWord : Operand → Bool
  | .const name => name.val.toList.all wordChar
  | _ => false

/-- `[a-zA-Z_\.]` or a digit -/
def nameChar (c : Char) : Bool := wordChar c || c = '.'

/-- `-?\d+|[a-zA-Z_\.]+` at the front -/
def startsNumberOrName : List Char → Bool
  | '-' :: c :: _ => (decimalDigit c).isSome
  | c :: _ => nameChar c
  | [] => false

/-- `\$(-?\d+|[a-zA-Z_\.]+)` -/
def showsImmediate : Operand → Bool
  | .imm value => startsNumberOrName value.val.toList
  | .other text => text.toList.tails.any fun cs => cs.head? = some '$' && startsNumberOrName cs.tail
  | _ => false

/-- `-?(\d+|[a-zA-Z_\.]+)\(`, also in a register `%st(1)` -/
def showsOffset : Operand → Bool
  | .mem (some d) _ _ _ => d.val.toList.getLast?.any nameChar
  | .reg (.other n) => 0 < n
  | .star (.mem (some d) _ _ _) => d.val.toList.getLast?.any nameChar
  | .other text => text.toList.tails.any fun cs => cs.head?.any nameChar && cs.tail.head? = some '('
  | _ => false

/-- An immediate and an offset anywhere in the line. -/
def immediateAndOffset (args : List Operand) : Bool := args.any showsImmediate && args.any showsOffset

/-- `%cl` -/
def isCl : Operand → Bool
  | .reg (.r8 .cl) => true
  | _ => false

/-- `($arith8|mov|test)` -/
def arithMov : Words := arith8 ++ ["mov", "test"]

end Patterns

/-- A pattern and the length that the script returns for it. -/
structure Rule where
  ops : String → Bool
  args : List Operand → Bool
  len : Nat

def Rule.pattern (r : Rule) (i : Insn) : Bool := r.ops i.op && r.args i.args

open Operand in
/-- The patterns in the order of the script. -/
def rules : List Rule :=
  [⟨withSize ["inc", "dec", "pop", "push"] "l", operands1 ereg, 1⟩,
    ⟨oneOf ["leave", "ret", "cltd", "nop", "sahf", "cwtl"], operands0, 1⟩,
    ⟨oneOf ["fld1"], operands0, 2⟩,
    ⟨oneOf (cat ["f"] ["abs", "chs", "compp", "coms", "cos", "ldz", "ld1", "sin", "sqrt"]), operands0, 3⟩,
    ⟨oneOf ["movl"], operands2 ereg ereg, 2⟩,
    ⟨oneOf ["movb", "movl"], operands2 (fun a => breg a || ereg a) atEreg, 3⟩,
    ⟨withSize shift "l", fun args => operands1 ereg args || operands2 isCl ereg args, 2⟩,
    ⟨withSize (cat (opt ["i"]) ["mul", "div"] ++ ["neg", "not"]) "l", operands1 ereg, 3⟩,
    ⟨withSize arithMov "l", operands2 ereg ereg, 2⟩,
    ⟨withSize arithMov "l", operands2 (based noOffset noEsp) ereg, 2⟩,
    ⟨withSize arithMov "l", operands2 (based noOffset isEsp) ereg, 3⟩,
    ⟨withSize (arith8 ++ ["test"]) "b", operands2 (fun a => imbSign a || breg a) breg, 3⟩,
    ⟨oneOf ["fstp"], operands1 freg, 2⟩,
    ⟨withSize arithMov "b", operands2 imbSign atEreg, 3⟩,
    ⟨floating, operands1 freg, 3⟩,
    ⟨floating, operands1 atEreg, 3⟩,
    ⟨floating, operands2 freg freg, 3⟩,
    ⟨oneOf ["movl"], operands2 (indexed noOffset) ereg, 3⟩,
    ⟨oneOf ["movsbl", "movzbl"], operands2 atEreg ereg, 3⟩,
    ⟨oneOf ["movsbl", "movzbl"], operands2 breg ereg, 3⟩,
    ⟨oneOf ["imull"], operands2 ereg ereg, 3⟩,
    ⟨oneOf ["fnstsw"], operands1 (· = .reg (.r16 .eax)), 3⟩,
    ⟨oneOf (cat ["set"] cond), operands1 breg, 3⟩,
    ⟨oneOf (cat arith8 ["b", "l"]), operands2 imbSign ebOff, 4⟩,
    ⟨withSize shift "l", operands2 imbSign ebOff, 4⟩,
    ⟨oneOf ["movb"], operands2 imbSign ebOff, 4⟩,
    ⟨withSize (arith8 ++ ["mov"]) "l", operands2 ereg ebOff, 4⟩,
    ⟨withSize (arith8 ++ ["mov"]) "l", operands2 ereg bEsp, 4⟩,
    ⟨withSize (arith8 ++ shift) "l", operands2 imbSign ereg, 3⟩,
    ⟨withSize (arith8 ++ ["mov", "lea"]) "l", operands2 ebOff ereg, 3⟩,
    ⟨withSize (arith8 ++ ["mov", "lea"]) "l", operands2 bEsp ereg, 4⟩,
    ⟨oneOf ["leal"], operands2 (indexed noOffset) ereg, 3⟩,
    ⟨withSize ["inc", "dec", "push"] "l", operands1 ebOff, 3⟩,
    ⟨floating, operands1 (based bSign anyBase), 4⟩,
    ⟨floating, operands1 (indexed noOffset), 4⟩,
    ⟨floating, operands1 (indexed bSign), 4⟩,
    ⟨oneOf ["leal"], operands2 (indexed bSign) ereg, 4⟩,
    ⟨oneOf ("movl" :: extending), operands2 (indexed bSign) ereg, 5⟩,
    ⟨oneOf extending, operands2 (indexed noOffset) ereg, 5⟩,
    ⟨oneOf ("movl" :: extending ++ ["leal"]), operands2 ebOff ereg, 4⟩,
    ⟨oneOf ["jmp"], operands1 isLabel, 5⟩,
    ⟨withSize (arith8 ++ ["mov"]) "l", operands2 immed ereg, 6⟩,
    ⟨oneOf ["movl"], operands2 isConst isEax, 5⟩,
    ⟨oneOf ["movl"], operands2 isEax isConst, 5⟩,
    ⟨oneOf ["call"], operands1 isWord, 5⟩,
    ⟨oneOf (cat ["j"] cond), operands1 isLabel, 6⟩,
    ⟨oneOf ["movl"], operands2 ereg eOff, 6⟩,
    ⟨oneOf ["movl"], operands2 eOff ereg, 6⟩,
    ⟨oneOf ["movl"], operands2 isConst ereg, 6⟩,
    ⟨oneOf ["movl"], operands2 imbSign ebOff, 7⟩,
    ⟨withSize arith8 "l", operands2 imbSign eOff, 7⟩,
    ⟨oneOf ["leal"], operands2 (scaled false) ereg, 7⟩,
    ⟨oneOf ["movl"], operands2 immed (based noOffset isEsp), 7⟩,
    ⟨oneOf ["movl"], operands2 (scaled true) ereg, 7⟩,
    ⟨withSize (arith8 ++ ["mov"]) "l", operands2 immed ebOff, 7⟩,
    ⟨withSize (arith8 ++ ["mov"]) "l", operands2 immed bEsp, 8⟩,
    ⟨oneOf ["movl"], operands2 imbSign bEsp, 8⟩,
    ⟨fun _ => true, immediateAndOffset, 11⟩,
    ⟨oneOf (cat arithMov ["w", "l"]), operands2 immed isConst, 10⟩]

/-- The length of the first pattern that matches; `8?` counts as 8. -/
def insn_len (i : Insn) : Nat := ((rules.find? (·.pattern i)).map Rule.len).getD 8

end Pittsfield.Rewrite
