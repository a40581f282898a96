import Pittsfield.Loader.Stubs
import Pittsfield.Rewrite.Execute

/-!
# Machine code of the lines that `rewrite.pl` adds

The encodings that the assembler chooses for the instructions in the masks, the calls, the
stubs and the fillers: an immediate that is a sign-extended byte is encoded as one. The
displacement of a call is what the linker fills in.
-/

namespace Pittsfield.Rewrite

open Pittsfield.Region
open Pittsfield.Machine
open Pittsfield.Offline
open Pittsfield.Loader (Image codedBytes)

/-- The number of a register in opcodes and ModRM bytes. -/
def regCode : Reg32 → BitVec 8
  | .eax => 0
  | .ecx => 1
  | .edx => 2
  | .ebx => 3
  | .esp => 4
  | .ebp => 5
  | .esi => 6
  | .edi => 7

/-- The value of an immediate operand. -/
def immediate (value : Const) : Option Word := (number value.val).map (BitVec.ofInt 32)

/-- A group-1 operation with an immediate, behind the ModRM bytes for its operand. -/
def encodeImmediate (operand : Image) (v : Word) : Image :=
  if -128 ≤ v.toInt ∧ v.toInt ≤ 127 then 0x83 :: operand ++ [v.setWidth 8]
  else 0x81 :: operand ++ codedBytes v

/-- A group-1 operation with an immediate on a register; `%eax` has an opcode of its own. -/
def encodeOnReg (operation : BitVec 8) (r : Reg32) (v : Word) : Image :=
  if r = .eax ∧ ¬ (-128 ≤ v.toInt ∧ v.toInt ≤ 127) then (5 + 8 * operation) :: codedBytes v
  else encodeImmediate [0xc0 + 8 * operation + regCode r] v

section

variable (displacement : String → Word)

/-- The code of an instruction of one operand. -/
def encodeUnary (op : String) : Operand → Option Image
  | .reg (.r32 r) =>
    if op = "pushl" then some [0x50 + regCode r]
    else if op = "popl" then some [0x58 + regCode r]
    else none
  | .const name => if op = "call" then some (0xe8 :: codedBytes (displacement name.val)) else none
  | .star (.reg (.r32 r)) =>
    if op = "call" then some [0xff, 0xd0 + regCode r]
    else if op = "jmp" then some [0xff, 0xe0 + regCode r]
    else none
  | _ => none

/-- The code of an instruction of two operands. -/
def encodeBinary (op : String) (source target : Operand) : Option Image :=
  match source, target with
  | .reg (.r32 src), .reg (.r32 dest) =>
    if op = "mov" then some [0x89, 0xc0 + 8 * regCode src + regCode dest] else none
  | .imm value, .reg (.r32 r) =>
    if op = "andl" then (immediate value).map (encodeOnReg 4 r)
    else if op = "addl" then (immediate value).map (encodeOnReg 0 r)
    else none
  | .imm value, .mem none (some .esp) none none =>
    if op = "andl" then (immediate value).map (encodeImmediate [0x24, 0x24]) else none
  | _, _ => none

def encode (i : Insn) : Option Image :=
  match i.args with
  | [] =>
    if i.op = "nop" then some [0x90]
    else if i.op = "ret" then some [0xc3]
    else if i.op = "pushf" then some [0x9c]
    else if i.op = "popf" then some [0x9d]
    else none
  | [target] => encodeUnary displacement i.op target
  | [source, target] => encodeBinary i.op source target
  | _ => none

end

theorem immediate_hexConst (w : Word) : immediate (hexConst w) = some w := by
  have hnumber : number (hexText w) = some w.toInt := by
    rw [number, ← signed_word_hexText w, hexText, String.toList_ofList]
    rfl
  rw [immediate, hexConst, hnumber, Option.map_some, BitVec.ofInt_toInt]

/-- The immediate needs four bytes. -/
def Wide (w : Word) : Prop := ¬ (-128 ≤ w.toInt ∧ w.toInt ≤ 127)

instance (w : Word) : Decidable (Wide w) := inferInstanceAs (Decidable (¬ _))

theorem codedBytes_length (w : Word) : (codedBytes w).length = 4 := rfl

/-- A mask of a register in its full length. -/
theorem encode_andMask_reg {w : Word} (hw : Wide w) {r : Reg32} (hr : r ≠ .eax)
    (displacement : String → Word) :
    encode displacement (andMask w (.reg (.r32 r))) =
      some ([0x81, 0xe0 + regCode r] ++ codedBytes w) := by
  have himm := immediate_hexConst w
  have hwide : ¬ (-128 ≤ w.toInt ∧ w.toInt ≤ 127) := hw
  have hcode : encodeOnReg 4 r w = [0x81, 0xe0 + regCode r] ++ codedBytes w := by
    rw [encodeOnReg, if_neg fun h => hr h.1, encodeImmediate, if_neg hwide]
    rfl
  rw [← hcode]
  show (immediate (hexConst w)).map (encodeOnReg 4 r) = _
  rw [himm, Option.map_some]

theorem encode_andMask_top {w : Word} (hw : Wide w) (displacement : String → Word) :
    encode displacement (andMask w (.mem none (some .esp) none none)) =
      some ([0x81, 0x24, 0x24] ++ codedBytes w) := by
  have himm := immediate_hexConst w
  have hwide : ¬ (-128 ≤ w.toInt ∧ w.toInt ≤ 127) := hw
  have hcode : encodeImmediate [0x24, 0x24] w = [0x81, 0x24, 0x24] ++ codedBytes w := by
    rw [encodeImmediate, if_neg hwide]
  rw [← hcode]
  show (immediate (hexConst w)).map (encodeImmediate [0x24, 0x24]) = _
  rw [himm, Option.map_some]

/-- No mask is a sign-extended byte. -/
theorem masks_wide (g : Settings) (sz : Size) :
    Wide (compute_sizes g sz).data_mask ∧ Wide (compute_sizes g sz).jump_mask := by
  obtain ⟨style, log_chunk_size, rfl | rfl⟩ := g
  · cases sz <;> cases style <;> decide +kernel
  · cases sz <;> cases style <;> decide +kernel

end Pittsfield.Rewrite
