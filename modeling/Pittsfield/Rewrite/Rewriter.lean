import Pittsfield.Rewrite.Assembly

/-!
# The main loop of `rewrite.pl`

The script with its default options: stores, jumps, calls and returns are sandboxed in
the style `and`. What `insn_len` guesses for the length of a line is a parameter of the
definitions. Comments that the script prints are left out.
-/

namespace Pittsfield.Rewrite

open Pittsfield.Region
open Pittsfield.Machine
open Pittsfield.Offline

/-- What is printed: a line, an alignment directive or the bytes of `nop_pad`. -/
inductive Item
  | insn (i : Insn)
  | align
  | nops (bytes : Nat)
  | label (name : String)
  | align2
  | text (line : String)
  deriving DecidableEq

/-- The globals of the script and what it has printed so far. -/
structure Out where
  this_chunk : Nat := 0
  dirty_esp : Bool := false
  forward_eflags_live : Bool := false
  printed : List Item := []

namespace Out

def print (o : Out) (item : Item) : Out := { o with printed := o.printed ++ [item] }

def align (o : Out) : Out := { o.print .align with this_chunk := 0 }

def emit (o : Out) (i : Insn) (len : Nat) : Out :=
  { o.print (.insn i) with this_chunk := o.this_chunk + len }

def nop_pad (o : Out) (bytes : Nat) : Out := if bytes = 0 then o else o.print (.nops bytes)

end Out

def pushf : Insn := ⟨"pushf", []⟩
def popf : Insn := ⟨"popf", []⟩

/-- `leal target, %ebx` -/
def leaEbx (target : Operand) : Insn := ⟨"leal", [target, .reg (.r32 .ebx)]⟩

/-- `movl target, %ebx` -/
def movEbx (target : Operand) : Insn := ⟨"movl", [target, .reg (.r32 .ebx)]⟩

/-- `andl mask, place` -/
def andMask (mask : Word) (place : Operand) : Insn := ⟨"andl", [.imm (hexConst mask), place]⟩

/-- `^\.?[\w.]+$` -/
def plainName (cs : List Char) : Bool := cs ≠ [] && cs.all fun c => wordChar c || c = '.'

section

variable (L : Layout) (insn_len : Insn → Nat)

/-- `andl $DATA_MASK, r` -/
def andData (r : Reg32) : Insn := andMask L.data_mask (.reg (.r32 r))

/-- `andl $JUMP_MASK, place` -/
def andJump (place : Operand) : Insn := andMask L.jump_mask place

def maybe_align_for (o : Out) (len : Nat) : Out :=
  if L.chunk_size < o.this_chunk + len then o.align else o

def a_emit (o : Out) (i : Insn) (len : Nat) : Out := (maybe_align_for L o len).emit i len

/-- The branch of `maybe_rewrite` for a store of two operands. -/
def storeTwo (o : Out) (precious_eflags : Bool) (op : String) (source target : Operand) : Out :=
  let o := if precious_eflags then a_emit L o pushf 1 else o
  let o := a_emit L o (leaEbx target) 7
  let o := maybe_align_for L o (6 + precious_eflags.toNat + 6)
  let o := (o.emit (andData L .ebx) 6).emit ⟨op, [source, atEbx]⟩ 6
  if precious_eflags then o.emit popf 1 else o

/-- The branch of `maybe_rewrite` for a store of one operand. -/
def storeOne (o : Out) (precious_eflags : Bool) (op : String) (target : Operand) : Out :=
  let o := if precious_eflags then a_emit L o pushf 1 else o
  let o := a_emit L o (leaEbx target) 6
  let o := maybe_align_for L o (6 + precious_eflags.toNat + 3)
  let o := o.emit (andData L .ebx) 6
  let o := if precious_eflags && isSet op then o.emit popf 1 else o
  let o := o.emit ⟨op, [atEbx]⟩ 3
  if precious_eflags && !isSet op then o.emit popf 1 else o

/-- `maybe_rewrite` on a return. -/
def rewriteRet (o : Out) (i : Insn) : Out :=
  let len := if i.args = [] then 1 else 3
  let o := maybe_align_for L { o with dirty_esp := false } (7 + len)
  (o.emit (andJump L (.mem none (some .esp) none none)) 7).emit i len

/-- The call, `call_len` bytes long, at the end of a chunk. -/
def placeCall (o : Out) (real_call : List Insn) (call_len : Nat) : Out :=
  let o :=
    if o.dirty_esp then
      if call_len + 6 ≤ L.chunk_size then
        (o.align.nop_pad (L.chunk_size - 6 - call_len)).emit (andData L .esp) 6
      else
        (((maybe_align_for L o 6).emit (andData L .esp) 6).align).nop_pad (L.chunk_size - call_len)
    else o.align.nop_pad (L.chunk_size - call_len)
  { real_call.foldl (fun o i => o.print (.insn i)) o with this_chunk := 0, dirty_esp := false }

/-- `maybe_rewrite` on a call. -/
def rewriteCall (o : Out) (i : Insn) : Except String Out :=
  match i.args with
  | [.const name] =>
    if plainName name.val.toList then .ok (placeCall L o [i] 5) else .error "Strange call"
  | [.star (.reg r)] =>
    .ok (placeCall L (a_emit L o (movEbx (.reg r)) 6)
      [andJump L (.reg (.r32 .ebx)), ⟨"call", [.star (.reg (.r32 .ebx))]⟩] 8)
  | [.star (.mem offset base index scale)] =>
    .ok (placeCall L (a_emit L o (movEbx (.mem offset base index scale)) 6)
      [andJump L (.reg (.r32 .ebx)), ⟨"call", [.star (.reg (.r32 .ebx))]⟩] 8)
  | [.star (.const value)] =>
    .ok (placeCall L (a_emit L o (movEbx (.const value)) 6)
      [andJump L (.reg (.r32 .ebx)), ⟨"call", [.star (.reg (.r32 .ebx))]⟩] 8)
  | _ => .error "Strange call"

/-- The end of `maybe_rewrite` on an indirect jump, with the target in `%ebx`. -/
def placeJump (o : Out) : Out :=
  ((maybe_align_for L o 8).emit (andJump L (.reg (.r32 .ebx))) 6).emit
    ⟨"jmp", [.star (.reg (.r32 .ebx))]⟩ 2

/-- `maybe_rewrite` on a jump. -/
def rewriteJmp (o : Out) (i : Insn) : Option Out :=
  match i.args with
  | [.star (.mem offset base index scale)] =>
    some (placeJump L (a_emit L o (movEbx (.mem offset base index scale)) 7))
  | [.star (.reg r)] => some (placeJump L (a_emit L o (movEbx (.reg r)) 7))
  | _ => none

/-- The branches of `maybe_rewrite` that look at the opcode alone. -/
def rewriteTransfer (o : Out) (i : Insn) : Except String (Option Out) :=
  if i.op = "ret" then .ok (some (rewriteRet L o i))
  else if i.op = "call" then (rewriteCall L o i).map some
  else if i.op = "jmp" then .ok (rewriteJmp L o i)
  else .ok none

/-- The output after the instruction, or nothing where `maybe_rewrite` returns 0. A direct
access is skipped: nothing is printed for it. -/
def maybe_rewrite (o : Out) (precious_eflags : Bool) (i : Insn) : Except String (Option Out) :=
  match i.args with
  | [source, target] =>
    if source.source && target.inMemory && !comparesOnly i.op then
      .ok (if keepsTwo i.op source target then none
        else some (storeTwo L o precious_eflags i.op source target))
    else if source.source && target.direct then .ok (some o)
    else if source.direct && target.isReg then .ok (some o)
    else rewriteTransfer L o i
  | [target] =>
    if target.inMemory && unaryStore i.op then
      .ok (if keepsOne i.op target then none else some (storeOne L o precious_eflags i.op target))
    else rewriteTransfer L o i
  | _ => rewriteTransfer L o i

/-- A dirty `%esp` is masked before some opcodes. -/
def remask (o : Out) (i : Insn) : Out :=
  if o.dirty_esp && remasksEsp i.op then
    { (maybe_align_for L o 6).emit (andData L .esp) 6 with dirty_esp := false }
  else o

/-- `$dirty_esp` and `$forward_eflags_live` before an instruction. -/
def note (o : Out) (i : Insn) : Out :=
  { o with
    dirty_esp :=
      if starts ["push", "pop"] i.op then false else if i.secondIs .esp then true else o.dirty_esp
    forward_eflags_live := forwardBefore i o.forward_eflags_live }

/-- The masks behind a line that was printed as it is. -/
def maskAfter (o : Out) (precious_eflags : Bool) (i : Insn) : Out :=
  if setsEbp i then
    let o := if precious_eflags then a_emit L o pushf 1 else o
    let o := (maybe_align_for L o 6).emit (andData L .ebp) 6
    if precious_eflags then a_emit L o popf 1 else o
  else if bumpsEspFar i then (maybe_align_for L o 6).emit (andData L .esp) 6
  else o

/-- An instruction line, with its entry of `@eflags_live_before`. -/
def visitInsn (o : Out) (live : Bool) (i : Insn) : Except String Out :=
  let o := note (remask L o i) i
  let precious_eflags := o.forward_eflags_live || live
  let o := if L.chunk_size < o.this_chunk + insn_len i then o.align else o
  (maybe_rewrite L o precious_eflags i).map fun
    | some o' => o'
    | none =>
      let o := maskAfter L (o.emit i (insn_len i)) precious_eflags i
      { o with forward_eflags_live := forwardAfter i o.forward_eflags_live }

/-- The body of the main loop. -/
def visit (o : Out) (live : Bool) : Line → Except String Out
  | .insn i => visitInsn L insn_len o live i
  | .label name => .ok (o.align.print (.label name))
  | .align2 => .ok { o.print .align2 with this_chunk := o.this_chunk + 4 }
  | .p2align => .ok o
  | .other text => .ok (o.print (.text text))

/-- The main loop, from the code section on. -/
def rewriteLines : Out → List Line → Except String Out
  | o, [] => .ok o
  | o, l :: ls => do
    let o ← visit L insn_len o (eflags_live_before (l :: ls)) l
    rewriteLines o ls

end

end Pittsfield.Rewrite
