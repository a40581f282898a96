import Pittsfield.Foundation.Pass
import Pittsfield.Loader.Arms

/-!
# `verify()`

The loop over the code: alignment, decoding, the group and type tests, the switch
over the operands, the flag tests and the update of the state words. libdisasm is
the parameter `x86_disasm`, from the code buffer and an offset to the instruction
there, or nothing where the source sees a length of 0 or less. The loop keeps
every instruction it has examined, so that the claims about it can speak of them.
-/

namespace Pittsfield.Loader

open Pittsfield.Foundation
open Pittsfield.Region
open Pittsfield.Machine
open InsnGroup InsnType OpType

abbrev Image := List (BitVec 8)

/-- libdisasm: the buffer and the offset to the instruction decoded there. -/
abbrev Disasm := Image → Nat → Option X86Insn

structure VState where
  offset : Nat := 0
  next_aligned : Nat := 0
  safety : Flags := NONE
  unsafety : Flags := NONE
  bump_count : Nat := 0
  deriving DecidableEq

def legalGroup : InsnGroup → Bool
  | insn_controlflow | insn_arithmetic | insn_logic | insn_stack | insn_comparison => true
  | insn_move | insn_bit_manip | insn_fpu | insn_interrupt | insn_other => true
  | _ => false

def legalType : InsnType → Bool
  | .unlisted _ => false
  | _ => true

section

variable (L : Layout)

/-- The arms for one operand. -/
def unaryFlags (safety unsafety : Flags) (insn : X86Insn) (offset : Nat) (a : X86Op) :
    Except Failure Flags :=
  match a.type with
  | op_relative_near | op_relative_far => relativeFlags L insn offset a
  | op_register => registerFlags safety insn offset a
  | op_immediate => immediateFlags insn offset
  | op_expression => exprFlags L safety unsafety insn offset a.expression
  | op1 => illegalArgs offset (UNARY op1)

/-- The arms for two operands. -/
def binaryFlags (safety unsafety : Flags) (insn : X86Insn) (offset : Nat) (a b : X86Op) :
    Except Failure Flags :=
  match a.type, b.type with
  | op_register, op_immediate => regImmFlags L insn offset a b
  | op_register, op_register => regRegFlags unsafety insn offset a b
  | op_register, op_expression => regExprFlags insn offset a
  | op_expression, op_register => exprRegFlags L safety unsafety insn offset a.expression
  | op_expression, op_immediate => exprImmFlags L safety unsafety insn offset a.expression b
  | op_offset, op_register => offsetRegFlags L insn offset a.offset
  | op_register, op_offset => regOffsetFlags insn offset
  | op1, op2 => illegalArgs offset (BINARY op1 op2)

/-- The arms for three operands. The case labels use the macro too, so the third
operand decides nothing. -/
def ternaryFlags (insn : X86Insn) (offset : Nat) (a b c : X86Op) : Except Failure Flags :=
  match TERNARY a.type b.type c.type with
  | .ternary op_register op_register op_register => regRegRegFlags insn offset b c
  | .ternary op_register op_expression op_register => regExprRegFlags insn offset
  | .ternary op_relative_far op_register op_relative_far =>
    fail_verify_insn offset "Unknown 3-arg relative insn" (.type insn.type)
  | arg_types => illegalArgs offset arg_types

/-- `switch (arg_types)`. -/
def operandFlags (safety unsafety : Flags) (insn : X86Insn) (offset : Nat) : Except Failure Flags :=
  match insn.args with
  | [] => nullaryFlags safety unsafety insn offset
  | [a] => unaryFlags L safety unsafety insn offset a
  | [a, b] => binaryFlags L safety unsafety insn offset a b
  | [a, b, c] => ternaryFlags insn offset a b c
  | _ => illegalArgs offset .many

/-- The tests after the switch. -/
def checkFlags (flags unsafety : Flags) (offset : Nat) : Option Failure :=
  if flags.ijump then some (.verification "Unsafe indirect jump" (.flags flags) offset)
  else if flags.iwrite then some (.verification "Unsafe indirect write" (.flags flags) offset)
  else if flags.jump && (unsafety.change_esp || unsafety.bump_esp) then
    some (.verification "Unsafe %esp escapes by jump" (.flags flags) offset)
  else if flags.jump && unsafety.change_ebp then
    some (.verification "Unsafe %ebp escapes by jump" (.flags flags) offset)
  else none

/-- The safety bits that are left before an instruction's own are added. -/
def expireSafety (safety : Flags) (insn : X86Insn) : Flags :=
  if insn.type = insn_popflags then safety.ebxSafe else NONE

/-- The weakenings as the automaton of `checks.txt` sees them. -/
def VState.weak (st : VState) : Weak where
  change_ebp := st.unsafety.change_ebp
  change_esp := st.unsafety.change_esp
  bump_esp := st.unsafety.bump_esp
  bump_count := st.bump_count

/-- The update of the state words at the end of the loop body. -/
def updateState (st : VState) (next_aligned : Nat) (insn : X86Insn) (flags : Flags) : VState :=
  let unsafety := st.unsafety ||| flags.weakenings
  let bump_count := if flags.bump_esp then st.bump_count + 1 else st.bump_count
  let unsafety := if 250 ≤ bump_count then unsafety ||| CHANGE_ESP else unsafety
  let unsafety := if flags.use_esp then unsafety.clearEsp else unsafety
  let bump_count := if flags.use_esp then 0 else bump_count
  let unsafety := if flags.ebp_data_safe then unsafety.clearEbp else unsafety
  { offset := st.offset + insn.size
    next_aligned := next_aligned
    safety := expireSafety st.safety insn ||| flags.strengthenings
    unsafety := unsafety
    bump_count := bump_count }

/-- The alignment test at the top of the loop: the next chunk start to look for. -/
def nextAligned (st : VState) : Option Nat :=
  if st.offset = st.next_aligned then some (st.next_aligned + L.chunk_size)
  else if st.next_aligned < st.offset then none
  else some st.next_aligned

/-- The tests on one decoded instruction, from the type of the instruction on. -/
def checkInsn (st : VState) (insn : X86Insn) : Except Failure Flags :=
  if !legalGroup insn.group then
    .error (.verification "Illegal insn group" (.group insn.group) st.offset)
  else if !legalType insn.type then
    .error (.verification "Illegal insn type" (.type insn.type) st.offset)
  else if 3 < insn.explicit_count then .error (.assertion st.offset)
  else
    match operandFlags L st.safety st.unsafety insn st.offset with
    | .error e => .error e
    | .ok flags =>
      match checkFlags flags st.unsafety st.offset with
      | some e => .error e
      | none => .ok flags

variable (x86_disasm : Disasm)

/-- The body of the loop. -/
def loopBody (image : Image) (st : VState) : Except Failure (X86Insn × VState) :=
  match nextAligned L st with
  | none => .error (.verification "Bad chunk alignment" .none st.offset)
  | some next_aligned =>
    match x86_disasm image st.offset with
    | none => .error (.verification "Illegal instruction" .none st.offset)
    | some insn =>
      if insn.size = 0 then .error (.verification "Illegal instruction" .none st.offset)
      else
        match checkInsn L st insn with
        | .error e => .error e
        | .ok flags => .ok (insn, updateState st next_aligned insn flags)

abbrev Examined := Visit VState X86Insn

/-- `while (offset < code_len)`, with every examined instruction and the states
around it as the result. -/
def verifyLoop (image : Image) : Nat → VState → Except Failure (List Examined)
  | 0, st => if st.offset < image.length then .error .fuel else .ok []
  | fuel + 1, st =>
    if st.offset < image.length then
      match loopBody L x86_disasm image st with
      | .error e => .error e
      | .ok (insn, st') =>
        match verifyLoop image fuel st' with
        | .error e => .error e
        | .ok es => .ok (⟨st, insn, st'⟩ :: es)
    else .ok []

/-- `verify(code_len)` on a buffer of `code_len` bytes. Every round takes at least
one byte, so the length of the buffer bounds the rounds. -/
def verify (image : Image) : Except Failure (List Examined) :=
  verifyLoop L x86_disasm image image.length {}

/-- One round of the loop as a relation. -/
def Examines (image : Image) (st : VState) (insn : X86Insn) (st' : VState) : Prop :=
  st.offset < image.length ∧ loopBody L x86_disasm image st = .ok (insn, st')

variable {L x86_disasm}
variable {image : Image} {st st' : VState} {insn : X86Insn} {es : List Examined}

/-- Everything a round of the loop can do. -/
theorem loopBody_ok (h : loopBody L x86_disasm image st = .ok (insn, st')) :
    ∃ next_aligned flags, nextAligned L st = some next_aligned ∧
      x86_disasm image st.offset = some insn ∧ 0 < insn.size ∧
      checkInsn L st insn = .ok flags ∧ st' = updateState st next_aligned insn flags := by
  unfold loopBody at h
  split at h
  · cases h
  rename_i next_aligned hn
  split at h
  · cases h
  rename_i insn' hd
  split at h
  · cases h
  rename_i hsize
  split at h
  · cases h
  rename_i flags hc
  obtain ⟨rfl, rfl⟩ := Prod.mk.inj (Except.ok.inj h)
  exact ⟨next_aligned, flags, hn, hd, Nat.pos_of_ne_zero hsize, hc, rfl⟩

/-- What the flag tests let through. -/
theorem checkFlags_none {flags unsafety : Flags} {offset : Nat}
    (h : checkFlags flags unsafety offset = none) :
    flags.ijump = false ∧ flags.iwrite = false ∧
      (flags.jump = true → unsafety.weak = false) := by
  unfold checkFlags at h
  simp only [Flags.weak]
  split at h
  · cases h
  split at h
  · cases h
  split at h
  · cases h
  split at h
  · cases h
  simp_all

theorem checkInsn_ok {flags : Flags} (h : checkInsn L st insn = .ok flags) :
    legalType insn.type = true ∧
      operandFlags L st.safety st.unsafety insn st.offset = .ok flags ∧
      checkFlags flags st.unsafety st.offset = none := by
  unfold checkInsn at h
  split at h
  · cases h
  split at h
  · cases h
  rename_i ht
  split at h
  · cases h
  split at h
  · cases h
  rename_i flags' ho
  split at h
  · cases h
  rename_i hf
  cases h
  exact ⟨by simpa using ht, ho, hf⟩

private theorem or_change_esp_if (c : Prop) [Decidable c] (f : Flags) :
    (if c then f ||| CHANGE_ESP else f) = { f with change_esp := f.change_esp || decide c } := by
  by_cases hc : c
  · simp only [hc, if_true, decide_true, Bool.or_true]
    change f.union CHANGE_ESP = _
    simp [Flags.union, CHANGE_ESP]
  · simp [hc]

/-- The state words change as the automaton of the weakenings says. -/
theorem weak_updateState (st : VState) (n : Nat) (insn : X86Insn) (flags : Flags) :
    (updateState st n insn flags).weak = st.weak.after flags.post := by
  cases hb : flags.bump_esp <;> cases hu : flags.use_esp <;> cases he : flags.ebp_data_safe <;>
    simp [updateState, VState.weak, Weak.after, Flags.post, Flags.weakenings, hb, hu, he,
      or_change_esp_if, Bool.or_comm]

@[simp] theorem updateState_offset (st : VState) (n : Nat) (insn : X86Insn) (flags : Flags) :
    (updateState st n insn flags).offset = st.offset + insn.size := rfl

theorem offset_lt (h : Examines L x86_disasm image st insn st') : st.offset < st'.offset := by
  obtain ⟨n, flags, -, -, hs, -, rfl⟩ := loopBody_ok h.2
  simp only [updateState_offset]
  omega

/-- The offset as the position of a pass. -/
theorem offset_pos (L : Layout) (x86_disasm : Disasm) (image : Image) (st : VState) (insn : X86Insn)
    (st' : VState) : Examines L x86_disasm image st insn st' → st.offset < st'.offset :=
  offset_lt

theorem offset_after (h : Examines L x86_disasm image st insn st') :
    st'.offset = st.offset + insn.size := by
  obtain ⟨n, flags, -, -, -, -, rfl⟩ := loopBody_ok h.2
  rfl

theorem verifyLoop_pass {fuel : Nat} (h : verifyLoop L x86_disasm image fuel st = .ok es) :
    ∃ t, Pass (Examines L x86_disasm image) st es t ∧ image.length ≤ t.offset := by
  induction fuel generalizing st es with
  | zero =>
    unfold verifyLoop at h
    split at h
    · cases h
    · cases h
      exact ⟨st, .done st, by omega⟩
  | succ fuel ih =>
    unfold verifyLoop at h
    split at h
    · rename_i hlt
      split at h
      · cases h
      rename_i insn st' hb
      split at h
      · cases h
      rename_i es' hv
      cases h
      obtain ⟨t, hp, ht⟩ := ih hv
      exact ⟨t, .visit ⟨hlt, hb⟩ hp, ht⟩
    · cases h
      exact ⟨st, .done st, by omega⟩

/-- The bound on the rounds is never reached: more rounds change nothing. -/
theorem verifyLoop_rounds {fuel : Nat} (k : Nat) (hf : image.length ≤ st.offset + fuel) :
    verifyLoop L x86_disasm image (fuel + k) st = verifyLoop L x86_disasm image fuel st := by
  induction fuel generalizing st with
  | zero =>
    have hlt : ¬ st.offset < image.length := by omega
    cases k <;> simp only [verifyLoop, hlt, if_false]
  | succ fuel ih =>
    rw [Nat.add_right_comm]
    simp only [verifyLoop]
    split
    · rename_i hlt
      cases hb : loopBody L x86_disasm image st with
      | error e => rfl
      | ok r =>
        have hlt' := offset_lt (L := L) ⟨hlt, hb⟩
        simp only
        rw [ih (by omega)]
    · rfl

end

end Pittsfield.Loader
