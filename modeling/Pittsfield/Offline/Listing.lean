import Mathlib.Data.Finset.Insert
import Mathlib.Data.Finset.SDiff
import Pittsfield.Machine.Cpu
import Pittsfield.Offline.Text

/-!
# Listings

What objdump prints, as far as `verify.pl` reads it: rows with an address, the bytes
shown and an instruction, that is an opcode and operands. The operands are kept
apart, in the shapes that the patterns of `x86_common.pm` tell from one another;
numbers and symbols in them stay texts.
-/

namespace Pittsfield.Offline

open Pittsfield.Region
open Pittsfield.Machine

inductive Operand
  /-- `$reg` -/
  | reg (r : Reg)
  /-- `$immed`, the text behind the dollar sign -/
  | imm (value : String)
  /-- `$complex` -/
  | mem (offset : Option {t : String // lword t.toList = true}) (base index : Option Reg32)
      (scale : Option Nat)
  /-- `$lword` alone, a literal address -/
  | abs (address : {t : String // lword t.toList = true})
  /-- the target of a direct transfer, with the name in angle brackets -/
  | target (address symbol : String)
  /-- `*` before a register -/
  | star (r : Reg)
  /-- every other text -/
  | other (text : String)
  deriving DecidableEq

structure Insn where
  op : String
  args : List Operand
  size : Nat
  deriving DecidableEq

/-- A row of the listing: an instruction, or text that the pattern of the main loop
passes over. -/
inductive Row
  | insn (addr : Nat) (i : Insn)
  | other (addr size : Nat)

section Printing

def reg32Text : Reg32 → String
  | .eax => "%eax"
  | .ecx => "%ecx"
  | .edx => "%edx"
  | .ebx => "%ebx"
  | .esp => "%esp"
  | .ebp => "%ebp"
  | .esi => "%esi"
  | .edi => "%edi"

def reg16Text : Reg32 → String
  | .eax => "%ax"
  | .ecx => "%cx"
  | .edx => "%dx"
  | .ebx => "%bx"
  | .esp => "%sp"
  | .ebp => "%bp"
  | .esi => "%si"
  | .edi => "%di"

def reg8Text : Reg8 → String
  | .al => "%al"
  | .cl => "%cl"
  | .dl => "%dl"
  | .bl => "%bl"
  | .ah => "%ah"
  | .ch => "%ch"
  | .dh => "%dh"
  | .bh => "%bh"

def regText : Reg → String
  | .r32 r => reg32Text r
  | .r16 r => reg16Text r
  | .r8 r => reg8Text r
  | .other n => "%st(" ++ toString n ++ ")"

def Operand.text : Operand → String
  | .reg r => regText r
  | .imm value => "$" ++ value
  | .mem offset base index scale =>
    (offset.map (·.val)).getD "" ++ "(" ++ (base.map reg32Text).getD "" ++
      ((index.map fun r => "," ++ reg32Text r).getD "") ++
      ((scale.map fun n => "," ++ toString n).getD "") ++ ")"
  | .abs address => address.val
  | .target address symbol => address ++ " <" ++ symbol ++ ">"
  | .star r => "*" ++ regText r
  | .other text => text

/-- The operands as one text, separated by commas. -/
def argsText (args : List Operand) : String := ",".intercalate (args.map Operand.text)

end Printing

section Shapes

/-- The offset of `off(base)`, the empty text where none is printed. With `one` the
shape `off(base,1)` counts as well. -/
def Operand.offsetFrom (base : Reg32) (one : Bool) : Operand → Option String
  | .mem offset b index scale =>
    if b = some base ∧ index = none ∧ (scale = none ∨ one = true ∧ scale = some 1) then
      some ((offset.map (·.val)).getD "")
    else none
  | _ => none

/-- `(%ebx)` -/
def atEbx : Operand := .mem none (some .ebx) none none

/-- `abs(signed_word(offset)) < bound` for a text that matches the pattern;
`signed_word` reads every such text. -/
def smallOffset (pattern : List Char → Bool) (bound : Nat) (offset : String) : Bool :=
  pattern offset.toList && ((signed_word offset).any fun k => decide (k.natAbs < bound))

end Shapes

/-- The flags of `verify.pl`. A set of them stands for the bits that are set. -/
inductive Flag
  | USE_ESP
  | IJUMP
  | IWRITE
  | IREAD
  | USE_EBP
  | CHANGE_EBP
  | EBX_DATA_SAFE
  | EBX_CODE_SAFE
  | JUMP
  | EBP_DATA_SAFE
  | CHANGE_ESP
  | BUMP_ESP
  | STACK_TOP_SAFE
  | EBX_DATA_XSAFE
  | EBX_CODE_XSAFE
  | STACK_TOP_XSAFE
  | EBP_DATA_XSAFE
  | ESP_DATA_SAFE
  deriving DecidableEq

abbrev Flags := Finset Flag

end Pittsfield.Offline
