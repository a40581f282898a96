import Pittsfield.Rewrite.Lengths

/-!
# Lengths of instructions

The encodings of the processor in 32-bit code, as a table: an encoding has its opcode with the
prefixes, and a place for every operand. The length of a line is that of its shortest encoding,
as the assembler chooses it. Opcodes are those of `x86_common.pm` and of `insn_len`, and
the other general and floating-point instructions that compilers for these processors print.
-/

namespace Pittsfield.Rewrite

open Pittsfield.Machine
open Pittsfield.Offline

section Constants

def numeral (base : Nat) (digit : Char → Option Nat) (ds : List Char) : Option Int :=
  if digits digit ds then some (ofDigits base digit ds : Int) else none

/-- A number without a sign, as the assembler reads it. -/
def literal (cs : List Char) : Option Int :=
  if cs.head? ≠ some '0' then numeral 10 decimalDigit cs
  else if cs.tail = [] then some 0
  else if cs.tail.head? = some 'x' ∨ cs.tail.head? = some 'X' then
    numeral 16 (fun c => hexDigit c.toLower) (cs.drop 2)
  else if cs.tail.head? = some 'b' ∨ cs.tail.head? = some 'B' then
    numeral 2 (fun c => (decimalDigit c).filter (· < 2)) (cs.drop 2)
  else numeral 8 (fun c => (decimalDigit c).filter (· < 8)) cs.tail

/-- A sum of numbers. A sign with no number before it belongs to the next number. -/
def sum (negative : Bool) (term : List Char) (total : Int) : List Char → Option Int
  | [] => (literal term).map fun v => if negative then total - v else total + v
  | c :: cs =>
    if c = '+' ∨ c = '-' then
      if term = [] then sum (negative ^^ decide (c = '-')) [] total cs
      else (literal term).bind fun v => sum (c = '-') [] (if negative then total - v else total + v) cs
    else sum negative (term ++ [c]) total cs

/-- The value of a constant that does not wait for the linker. -/
def absolute (c : Const) : Option Int := sum false [] 0 c.val.toList

/-- A sign-extended byte stands for the constant. -/
def short (w : Width) (c : Const) : Bool :=
  (absolute c).any fun v =>
    let x := (BitVec.ofInt (8 * w.bytes) v).toInt
    decide (-128 ≤ x ∧ x ≤ 127)

/-- The offset is zero and is left out. -/
def vanishes (offset : Option Const) : Bool :=
  offset.all fun c => (absolute c).any fun v => decide (BitVec.ofInt 32 v = 0)

/-- The offset takes at most one byte. -/
def narrow (offset : Option Const) : Bool := offset.all (short .dword)

end Constants

section Operands

/-- The displacement. There is no way to leave out that of `%ebp`. -/
def displacementBytes (offset : Option Const) (base : Reg32) : Nat :=
  if vanishes offset = true ∧ base ≠ .ebp then 0 else if narrow offset then 1 else 4

/-- The ModRM byte, the SIB byte and the displacement of an operand in memory. `%esp` is no index, and as a
base it needs the SIB byte; without a base the displacement has four bytes. -/
def addressBytes (offset : Option Const) (base index : Option Reg32) : Option Nat :=
  if index = some .esp then none
  else base.elim (if index = none then none else some 6) fun b =>
    some (1 + (if index = none ∧ b ≠ .esp then 0 else 1) + displacementBytes offset b)

namespace Operand

/-- The operand is a register of the width. -/
def ofWidth (w : Width) : Operand → Bool
  | .reg (.r32 _) => w = .dword
  | .reg (.r16 _) => w = .word
  | .reg (.r8 _) => w = .byte
  | _ => false

/-- `%al`, `%ax` or `%eax` -/
def accumulator (w : Width) : Operand → Bool
  | .reg (.r32 r) => w = .dword ∧ r = .eax
  | .reg (.r16 r) => w = .word ∧ r = .eax
  | .reg (.r8 r) => w = .byte ∧ r = .al
  | _ => false

/-- The bytes for an operand in memory, in which a direct address is a displacement. -/
def memoryBytes : Operand → Option Nat
  | .mem offset base index _ => addressBytes offset base index
  | .const _ => some 5
  | _ => none

/-- The operand behind the `*` of a jump or a call. -/
def starred : Operand → Option Operand
  | .star target => some target
  | _ => none

/-- A displacement of four bytes. -/
def farOffset : Operand → Bool
  | .mem offset base _ _ => base = none || !narrow offset
  | .const _ => true
  | .star target => target.farOffset
  | _ => false

/-- A SIB byte. -/
def sib : Operand → Bool
  | .mem _ base index _ => index ≠ none || base = some .esp
  | .star target => target.sib
  | _ => false

def immediateIs (p : Const → Bool) : Operand → Bool
  | .imm value => p value
  | _ => false

end Operand

end Operands

/-- The places for operands in an encoding. -/
inductive Slot
  /-- a register, in the opcode or in the ModRM byte -/
  | r (w : Width)
  /-- the accumulator -/
  | acc (w : Width)
  /-- a register as the second operand of the ModRM byte -/
  | modreg (w : Width)
  /-- a register or memory as the second operand of the ModRM byte -/
  | rm (w : Width)
  | mem
  | imm (w : Width)
  /-- an immediate that is sign-extended from a byte -/
  | simm (w : Width)
  /-- an immediate of a byte that is not -/
  | ubyte
  /-- `$1` -/
  | one
  | cl
  /-- a direct address without a ModRM byte -/
  | moffs
  | rel8
  | rel32
  /-- `*` before a register or memory -/
  | star
  /-- a register of the floating-point stack -/
  | st
  deriving DecidableEq

/-- The opcode of an encoding with its prefixes, and the places for the operands. -/
structure Form where
  opcode : Nat
  slots : List Slot
  deriving DecidableEq

section Table

/-- The opcode with the prefix for the width. -/
def prefixed (w : Width) (opcode : Nat) : Nat := if w = .word then opcode + 1 else opcode

/-- `add` and the like -/
def group1 (w : Width) : List Form :=
  [⟨prefixed w 1, [.simm w, .rm w]⟩, ⟨prefixed w 1, [.imm w, .acc w]⟩, ⟨prefixed w 1, [.imm w, .rm w]⟩,
    ⟨prefixed w 1, [.r w, .rm w]⟩, ⟨prefixed w 1, [.rm w, .r w]⟩]

def testForms (w : Width) : List Form :=
  [⟨prefixed w 1, [.imm w, .acc w]⟩, ⟨prefixed w 1, [.imm w, .rm w]⟩, ⟨prefixed w 1, [.r w, .rm w]⟩,
    ⟨prefixed w 1, [.rm w, .r w]⟩]

def movForms (w : Width) : List Form :=
  [⟨prefixed w 1, [.imm w, .r w]⟩, ⟨prefixed w 1, [.imm w, .rm w]⟩, ⟨prefixed w 1, [.moffs, .acc w]⟩,
    ⟨prefixed w 1, [.acc w, .moffs]⟩, ⟨prefixed w 1, [.r w, .rm w]⟩, ⟨prefixed w 1, [.rm w, .r w]⟩]

def leaForms (w : Width) : List Form := [⟨prefixed w 1, [.mem, .r w]⟩]

/-- `movs` and `movz` between the widths -/
def extendForms (source target : Width) : List Form := [⟨prefixed target 2, [.rm source, .r target]⟩]

/-- `inc` and `dec`, and `pop` -/
def incForms (w : Width) : List Form :=
  if w = .byte then [⟨1, [.rm w]⟩] else [⟨prefixed w 1, [.r w]⟩, ⟨prefixed w 1, [.rm w]⟩]

def pushForms (w : Width) : List Form :=
  incForms w ++ [⟨prefixed w 1, [.simm w]⟩, ⟨prefixed w 1, [.imm w]⟩]

/-- `neg` and the like, and the products and quotients of the accumulator -/
def group3 (w : Width) : List Form := [⟨prefixed w 1, [.rm w]⟩]

/-- `imul`, also with two or three operands -/
def imulForms (w : Width) : List Form :=
  group3 w ++ [⟨prefixed w 2, [.rm w, .r w]⟩, ⟨prefixed w 1, [.simm w, .modreg w]⟩, ⟨prefixed w 1, [.imm w, .modreg w]⟩,
    ⟨prefixed w 1, [.simm w, .rm w, .r w]⟩, ⟨prefixed w 1, [.imm w, .rm w, .r w]⟩]

/-- `bsf`, `bsr` and `cmov` -/
def scanForms (w : Width) : List Form := [⟨prefixed w 2, [.rm w, .r w]⟩]

def shiftForms (w : Width) : List Form :=
  [⟨prefixed w 1, [.rm w]⟩, ⟨prefixed w 1, [.one, .rm w]⟩, ⟨prefixed w 1, [.ubyte, .rm w]⟩,
    ⟨prefixed w 1, [.cl, .rm w]⟩]

/-- `shld` and `shrd` -/
def dshiftForms (w : Width) : List Form :=
  [⟨prefixed w 2, [.ubyte, .r w, .rm w]⟩, ⟨prefixed w 2, [.cl, .r w, .rm w]⟩, ⟨prefixed w 2, [.r w, .rm w]⟩]

/-- `bt` and the like -/
def btForms (w : Width) : List Form :=
  [⟨prefixed w 2, [.r w, .rm w]⟩, ⟨prefixed w 2, [.ubyte, .rm w]⟩]

def xchgForms (w : Width) : List Form :=
  (if w = .byte then [] else [⟨prefixed w 1, [.r w, .acc w]⟩, ⟨prefixed w 1, [.acc w, .r w]⟩]) ++
    [⟨prefixed w 1, [.r w, .rm w]⟩, ⟨prefixed w 1, [.rm w, .r w]⟩]

/-- `xadd` and `cmpxchg` -/
def xaddForms (w : Width) : List Form := [⟨prefixed w 2, [.r w, .rm w]⟩]

/-- The place takes registers of one width only. -/
def Slot.tellsWidth : Slot → Bool
  | .r _ | .acc _ | .modreg _ => true
  | _ => false

def Slot.withoutMemory : Slot → Slot
  | .rm w => .modreg w
  | s => s

/-- The form where a register tells the width. -/
def Form.named (f : Form) : Form :=
  if f.slots.any Slot.tellsWidth then f else ⟨f.opcode, f.slots.map Slot.withoutMemory⟩

/-- Opcodes with their suffixes, or without where a register tells the width. -/
def sized (words : Words) (widths : List Width) (forms : Width → List Form) : List (Words × List Form) :=
  (widths.map fun w =>
    (cat words [if w = .byte then "b" else if w = .word then "w" else "l"], forms w)) ++
    [(words, (widths.flatMap forms).map Form.named)]

def allWidths : List Width := [.byte, .word, .dword]
def wideWidths : List Width := [.word, .dword]

/-- Instructions of the processor. -/
def integerForms : List (Words × List Form) :=
  [(cat ["set"] cond, [⟨2, [.rm .byte]⟩]), (cat ["j"] cond, [⟨1, [.rel8]⟩, ⟨2, [.rel32]⟩])] ++
    sized arith8 allWidths group1 ++ sized ["mov"] allWidths movForms ++ sized ["test"] allWidths testForms ++
    sized ["lea"] wideWidths leaForms ++
    [(["movsbl", "movzbl"], extendForms .byte .dword), (["movswl", "movzwl"], extendForms .word .dword),
      (["movsbw", "movzbw"], extendForms .byte .word), (["push", "pushl"], pushForms .dword),
      (["pop", "popl"], incForms .dword), (["pushw"], pushForms .word), (["popw"], incForms .word),
      (["jmp"], [⟨1, [.rel8]⟩, ⟨1, [.rel32]⟩, ⟨1, [.star]⟩]), (["call"], [⟨1, [.rel32]⟩, ⟨1, [.star]⟩]),
      (["ret"], [⟨1, []⟩, ⟨1, [.imm .word]⟩]), (["leave", "cltd", "nop", "sahf", "cwtl", "popf", "pushf"], [⟨1, []⟩])] ++
    sized shift allWidths shiftForms ++ sized ["inc", "dec"] allWidths incForms ++
    sized ["imul"] wideWidths imulForms ++ sized (["neg", "not"] ++ ariths) allWidths group3 ++
    sized ["bsf", "bsr"] wideWidths scanForms ++ sized ["shld", "shrd"] wideWidths dshiftForms ++
    sized ["bt", "btc", "btr", "bts"] wideWidths btForms ++ sized ["xchg"] allWidths xchgForms ++
    sized ["xadd", "cmpxchg"] allWidths xaddForms ++ sized (cat ["cmov"] cond) wideWidths scanForms ++
    [(["lahf", "pushfl", "popfl", "pusha", "popa", "cld", "std", "clc", "stc", "cmc", "int3", "hlt", "wait", "lock",
        "rep", "repz", "repnz", "movsb", "movsl", "stosb", "stosl", "lodsb", "lodsl", "cmpsb", "cmpsl", "scasb",
        "scasl", "xlat"], [⟨1, []⟩]),
      (["cbtw", "cwtd", "cpuid", "rdtsc", "ud2", "movsw", "stosw", "lodsw", "cmpsw", "scasw", "pushfw", "popfw"],
        [⟨2, []⟩]),
      (["cmpxchg8b"], [⟨2, [.mem]⟩]), (["bswap"], [⟨2, [.r .dword]⟩]), (["int"], [⟨1, [.ubyte]⟩]),
      (["enter"], [⟨1, [.imm .word, .ubyte]⟩]),
      (["jecxz", "loop", "loope", "loopz", "loopne", "loopnz"], [⟨1, [.rel8]⟩])]

/-- The floating-point instructions that wait for the one before them. -/
def waiting : Words := ["fstsw", "fstcw", "fstenv", "fsave"]

/-- Instructions of the floating-point unit. -/
def floatingForms : List (Words × List Form) :=
  [(fbin ++ fload ++ fstore ++ funary ++ fcload ++
      ["fnstsw", "fnstcw", "fldenv", "fnstenv", "frstor", "fnsave", "fbld", "fbstp"], [⟨1, [.mem]⟩]),
    (waiting, [⟨2, [.mem]⟩]),
    (fbin ++ fload ++ fstore ++ funary ++ ["ffree", "fcomi", "fcomip", "fucomi", "fucomip"] ++
      cat ["fcmov"] ["b", "e", "be", "u", "nb", "ne", "nbe", "nu"], [⟨2, [.st]⟩, ⟨2, [.st, .st]⟩]),
    (fconst ++ funary ++ fbin ++ ["fxam", "fprem", "fprem1", "fyl2xp1", "fptan", "fxtract", "fnop", "fdecstp",
      "fincstp", "fnclex", "fninit"], [⟨2, []⟩]),
    (["fwait"], [⟨1, []⟩]), (["fclex", "finit"], [⟨3, []⟩]), (["fnstsw"], [⟨2, [.acc .word]⟩]), (["fstsw"], [⟨3, [.acc .word]⟩])]

/-- The encodings of an opcode. -/
def formsOf (op : String) : List Form :=
  if floating op = true then floatingForms.flatMap fun e => if op ∈ e.1 then e.2 else []
  else ((integerForms.find? fun e => decide (op ∈ e.1)).map Prod.snd).getD []

end Table

section Length

-- whether a jump reaches its target with a displacement of one byte
variable (near : Operand → Bool)

def given (p : Bool) (bytes : Nat) : Option Nat := if p then some bytes else none

/-- The bytes that an operand takes in its place. -/
def Slot.bytes (o : Operand) : Slot → Option Nat
  | .r w => given (o.ofWidth w) 0
  | .acc w => given (o.accumulator w) 0
  | .modreg w => given (o.ofWidth w) 1
  | .rm w => if o.ofWidth w then some 1 else o.memoryBytes
  | .mem => o.memoryBytes
  | .imm w => given o.immed w.bytes
  | .simm w => given (o.immediateIs (short w)) 1
  | .ubyte => given o.immed 1
  | .one => given (o.immediateIs fun c => absolute c = some 1) 0
  | .cl => given (isCl o) 0
  | .moffs => given o.isConst 4
  | .rel8 => given (o.isConst && near o) 1
  | .rel32 => given o.isConst 4
  | .star => o.starred.bind fun target => if target.ofWidth .dword then some 1 else target.memoryBytes
  | .st => given o.freg 0

def slotsBytes : List Slot → List Operand → Option Nat
  | [], [] => some 0
  | s :: ss, o :: os => (s.bytes near o).bind fun k => (slotsBytes ss os).map (k + ·)
  | _, _ => none

/-- The bytes of a place that do not depend on an address. -/
def Slot.fixed : Slot → Nat
  | .modreg _ | .simm _ | .ubyte => 1
  | .imm w => w.bytes
  | _ => 0

/-- The place can be taken by an address. -/
def Slot.addresses : Slot → Bool
  | .rm _ | .mem | .moffs | .rel8 | .rel32 | .star => true
  | _ => false

/-- The bytes of the opcode and of the immediate. -/
def Form.fixed (f : Form) : Nat := f.opcode + (f.slots.map Slot.fixed).sum

/-- The length of an instruction in an encoding. -/
def Form.bytes (args : List Operand) (f : Form) : Option Nat := (slotsBytes near f.slots args).map (f.opcode + ·)

/-- The length of the shortest encoding. -/
def shortest (i : Insn) : Option Nat := ((formsOf i.op).filterMap (·.bytes near i.args)).min?

end Length

section Displacements

variable {offset : Option Const} {b x : Reg32}

theorem narrow_of_vanishes (h : vanishes offset = true) : narrow offset = true := by
  cases offset with
  | none => rfl
  | some c =>
    obtain ⟨v, hv, hzero⟩ := (Option.any_eq_true _ _).mp h
    refine (Option.any_eq_true _ _).mpr ⟨v, hv, ?_⟩
    have hword : BitVec.ofInt (8 * Width.dword.bytes) v = 0 := of_decide_eq_true hzero
    rw [hword]
    decide

/-- The displacement takes a byte at most, or four. -/
theorem displacementBytes_cases (offset : Option Const) (b : Reg32) :
    narrow offset = true ∧ displacementBytes offset b ≤ 1 ∨ narrow offset = false ∧ displacementBytes offset b = 4 := by
  rw [displacementBytes]
  by_cases hzero : vanishes offset = true ∧ b ≠ .ebp
  · rw [if_pos hzero]
    exact Or.inl ⟨narrow_of_vanishes hzero.1, Nat.zero_le 1⟩
  rw [if_neg hzero]
  cases hnarrow : narrow offset with
  | true => exact Or.inl ⟨rfl, Nat.le_refl 1⟩
  | false => exact Or.inr ⟨rfl, rfl⟩

theorem displacementBytes_eq_zero : displacementBytes offset b = 0 ↔ vanishes offset = true ∧ b ≠ .ebp := by
  rw [displacementBytes]
  by_cases hzero : vanishes offset = true ∧ b ≠ .ebp
  · rw [if_pos hzero]
    exact iff_of_true rfl hzero
  · rw [if_neg hzero]
    refine iff_of_false ?_ hzero
    split <;> decide

theorem displacementBytes_none : displacementBytes none b = if b = .ebp then 1 else 0 := by
  cases b <;> rfl

theorem addressBytes_base : addressBytes offset (some b) none =
    some ((if b = .esp then 2 else 1) + displacementBytes offset b) := by
  cases b <;> rfl

theorem addressBytes_index (h : x ≠ .esp) : addressBytes offset (some b) (some x) =
    some (2 + displacementBytes offset b) := by
  rw [addressBytes, if_neg fun heq => h (Option.some.inj heq)]
  rfl

theorem addressBytes_esp {base : Option Reg32} : addressBytes offset base (some .esp) = none := rfl

/-- The ModRM byte is there, and it is all but the SIB byte and the displacement. -/
theorem addressBytes_bounds {base index : Option Reg32} {a : Nat} (h : addressBytes offset base index = some a) :
    1 ≤ a ∧ a ≤ 6 := by
  rw [addressBytes] at h
  split at h
  · cases h
  cases base with
  | none =>
    cases index with
    | none => cases h
    | some x =>
      obtain rfl := Option.some.inj h
      decide
  | some b =>
    obtain rfl := Option.some.inj h
    have hcases := displacementBytes_cases offset b
    constructor
    · omega
    · split <;> omega

end Displacements

section Parts

variable {near : Operand → Bool} {f : Form} {s : Slot} {slots : List Slot} {o : Operand} {args : List Operand}
  {k : Nat}

/-- A register or an immediate. -/
def Operand.plain : Operand → Bool
  | .reg _ | .imm _ => true
  | _ => false

theorem given_eq_some {p : Bool} {n : Nat} : given p n = some k ↔ p = true ∧ n = k := by
  cases p with
  | false => exact ⟨fun h => (nomatch h), fun h => (nomatch h.1)⟩
  | true => exact ⟨fun h => ⟨rfl, Option.some.inj h⟩, fun h => congrArg some h.2⟩

theorem ofWidth_plain {w : Width} (h : o.ofWidth w = true) : o.plain = true := by
  cases o with
  | reg r => rfl
  | _ => cases h

/-- A place that no address takes has its own number of bytes. -/
theorem bytes_fixed (hs : s.addresses = false) (h : s.bytes near o = some k) : k = s.fixed ∧ o.plain = true := by
  have hreg : ∀ {w n}, given (o.ofWidth w) n = some k → k = n ∧ o.plain = true := by
    intro w n hgiven
    obtain ⟨hwidth, rfl⟩ := given_eq_some.mp hgiven
    exact ⟨rfl, ofWidth_plain hwidth⟩
  have himm : ∀ {n}, given o.immed n = some k → k = n ∧ o.plain = true := by
    intro n hgiven
    obtain ⟨himmed, rfl⟩ := given_eq_some.mp hgiven
    cases o with
    | imm value => exact ⟨rfl, rfl⟩
    | _ => cases himmed
  have hvalue : ∀ {p n}, given (o.immediateIs p) n = some k → k = n ∧ o.plain = true := by
    intro p n hgiven
    obtain ⟨himmed, rfl⟩ := given_eq_some.mp hgiven
    cases o with
    | imm value => exact ⟨rfl, rfl⟩
    | _ => cases himmed
  cases s with
  | r w => exact hreg h
  | modreg w => exact hreg h
  | imm w => exact himm h
  | ubyte => exact himm h
  | simm w => exact hvalue h
  | one => exact hvalue h
  | acc w =>
    obtain ⟨hacc, rfl⟩ := given_eq_some.mp h
    cases o with
    | reg r => exact ⟨rfl, rfl⟩
    | _ => cases hacc
  | cl =>
    obtain ⟨hcl, rfl⟩ := given_eq_some.mp h
    cases o with
    | reg r => exact ⟨rfl, rfl⟩
    | _ => cases hcl
  | st =>
    obtain ⟨hst, rfl⟩ := given_eq_some.mp h
    cases o with
    | reg r => exact ⟨rfl, rfl⟩
    | _ => cases hst
  | _ => cases hs

theorem slotsBytes_cons : slotsBytes near (s :: slots) (o :: args) = some k ↔
    ∃ a n, s.bytes near o = some a ∧ slotsBytes near slots args = some n ∧ a + n = k := by
  simp only [slotsBytes, Option.bind_eq_some_iff, Option.map_eq_some_iff]
  constructor
  · rintro ⟨a, ha, n, hn, hk⟩
    exact ⟨a, n, ha, hn, hk⟩
  · rintro ⟨a, n, ha, hn, hk⟩
    exact ⟨a, ha, n, hn, hk⟩

theorem slotsBytes_fixed (hslots : ∀ s ∈ slots, s.addresses = false) (h : slotsBytes near slots args = some k) :
    k = (slots.map Slot.fixed).sum ∧ ∀ o ∈ args, o.plain = true := by
  induction slots generalizing args k with
  | nil =>
    cases args with
    | nil => exact ⟨(Option.some.inj h).symm, fun o ho => nomatch ho⟩
    | cons o args => cases h
  | cons s slots ih =>
    cases args with
    | nil => cases h
    | cons o args =>
      obtain ⟨a, n, ha, hn, rfl⟩ := slotsBytes_cons.mp h
      obtain ⟨rfl, ho⟩ := bytes_fixed (hslots s List.mem_cons_self) ha
      obtain ⟨rfl, hargs⟩ := ih (fun s hs => hslots s (List.mem_cons_of_mem _ hs)) hn
      exact ⟨rfl, List.forall_mem_cons.mpr ⟨ho, hargs⟩⟩

/-- Every operand takes a place. -/
theorem slotsBytes_mem (h : slotsBytes near slots args = some k) (ho : o ∈ args) :
    ∃ s ∈ slots, ∃ a, s.bytes near o = some a := by
  induction slots generalizing args k with
  | nil =>
    cases args with
    | nil => cases ho
    | cons p args => cases h
  | cons s slots ih =>
    cases args with
    | nil => cases ho
    | cons p args =>
      obtain ⟨a, n, ha, hn, -⟩ := slotsBytes_cons.mp h
      rcases List.mem_cons.mp ho with rfl | ho
      · exact ⟨s, List.mem_cons_self, a, ha⟩
      · obtain ⟨t, ht, b, hb⟩ := ih hn ho
        exact ⟨t, List.mem_cons_of_mem _ ht, b, hb⟩

/-- With at most one place for an address, only the operand there can be in memory. -/
theorem slotsBytes_split (hslots : (slots.filter Slot.addresses).length ≤ 1)
    (h : slotsBytes near slots args = some k) :
    (k = (slots.map Slot.fixed).sum ∧ ∀ o ∈ args, o.plain = true) ∨
      ∃ s ∈ slots, ∃ o ∈ args, ∃ a, s.addresses = true ∧ s.bytes near o = some a ∧
        k = (slots.map Slot.fixed).sum + a ∧ ∀ p ∈ args, p = o ∨ p.plain = true := by
  induction slots generalizing args k with
  | nil => exact Or.inl (slotsBytes_fixed (fun s hs => nomatch hs) h)
  | cons s slots ih =>
    cases args with
    | nil => cases h
    | cons o args =>
      obtain ⟨a, n, ha, hn, rfl⟩ := slotsBytes_cons.mp h
      by_cases hs : s.addresses = true
      · -- the places behind it take no address
        rw [List.filter_cons_of_pos hs, List.length_cons] at hslots
        have hnone := List.eq_nil_of_length_eq_zero (Nat.le_zero.mp (Nat.le_of_succ_le_succ hslots))
        have hplain : ∀ t ∈ slots, t.addresses = false := by
          intro t ht
          by_contra htrue
          exact List.filter_eq_nil_iff.mp hnone t ht (Bool.not_eq_false _ ▸ htrue)
        obtain ⟨rfl, hargs⟩ := slotsBytes_fixed hplain hn
        have hzero : s.fixed = 0 := by
          cases s with
          | modreg | simm | ubyte | imm => cases hs
          | _ => rfl
        refine Or.inr ⟨s, List.mem_cons_self, o, List.mem_cons_self, a, hs, ha, ?_, ?_⟩
        · rw [List.map_cons, List.sum_cons, hzero]
          omega
        · exact List.forall_mem_cons.mpr ⟨Or.inl rfl, fun p hp => Or.inr (hargs p hp)⟩
      · have hfalse := Bool.eq_false_iff.mpr hs
        obtain ⟨rfl, ho⟩ := bytes_fixed hfalse ha
        rw [List.filter_cons_of_neg hs] at hslots
        rcases ih hslots hn with ⟨rfl, hargs⟩ | ⟨t, ht, q, hq, b, haddr, hb, rfl, hargs⟩
        · exact Or.inl ⟨rfl, List.forall_mem_cons.mpr ⟨ho, hargs⟩⟩
        · refine Or.inr ⟨t, List.mem_cons_of_mem _ ht, q, List.mem_cons_of_mem _ hq, b, haddr, hb, ?_, ?_⟩
          · rw [List.map_cons, List.sum_cons]
            omega
          · exact List.forall_mem_cons.mpr ⟨Or.inr ho, hargs⟩

end Parts

section Regular

variable {near : Operand → Bool} {op : String} {args : List Operand} {f : Form} {s : Slot} {o : Operand} {a k : Nat}

/-- The place takes a number of bytes for an address that does not depend on the address. -/
def Slot.direct : Slot → Bool
  | .moffs | .rel8 | .rel32 => true
  | _ => false

/-- What holds of every form of the table. -/
structure Form.Regular (f : Form) : Prop where
  fixed_le : f.fixed ≤ 6
  one_address : (f.slots.filter Slot.addresses).length ≤ 1
  address_le : ∀ s ∈ f.slots, s.addresses = true → f.fixed ≤ 5
  direct_le : ∀ s ∈ f.slots, s.direct = true → f.fixed ≤ 2
  single_le : ∀ s ∈ f.slots, f.slots.length = 1 → s.addresses = true → f.fixed ≤ 2

instance (f : Form) : Decidable f.Regular :=
  decidable_of_iff (f.fixed ≤ 6 ∧ (f.slots.filter Slot.addresses).length ≤ 1 ∧
    (∀ s ∈ f.slots, s.addresses = true → f.fixed ≤ 5) ∧ (∀ s ∈ f.slots, s.direct = true → f.fixed ≤ 2) ∧
      ∀ s ∈ f.slots, f.slots.length = 1 → s.addresses = true → f.fixed ≤ 2)
    ⟨fun ⟨hfixed, hone, haddress, hdirect, hsingle⟩ => ⟨hfixed, hone, haddress, hdirect, hsingle⟩,
      fun ⟨hfixed, hone, haddress, hdirect, hsingle⟩ => ⟨hfixed, hone, haddress, hdirect, hsingle⟩⟩

theorem mem_floating (h : floating op = true) : f ∈ formsOf op ↔ ∃ e ∈ floatingForms, op ∈ e.1 ∧ f ∈ e.2 := by
  rw [formsOf, if_pos h, List.mem_flatMap]
  constructor
  · rintro ⟨e, he, hf⟩
    by_cases hop : op ∈ e.1
    · rw [if_pos hop] at hf
      exact ⟨e, he, hop, hf⟩
    · rw [if_neg hop] at hf
      cases hf
  · rintro ⟨e, he, hop, hf⟩
    exact ⟨e, he, by rwa [if_pos hop]⟩

theorem mem_integer (h : floating op = false) (hf : f ∈ formsOf op) : ∃ e ∈ integerForms, f ∈ e.2 := by
  rw [formsOf, if_neg (Bool.eq_false_iff.mp h)] at hf
  cases hfind : integerForms.find? fun e => decide (op ∈ e.1) with
  | none =>
    rw [hfind] at hf
    cases hf
  | some e =>
    rw [hfind] at hf
    exact ⟨e, List.mem_of_find?_eq_some hfind, hf⟩

theorem formsOf_regular (hf : f ∈ formsOf op) : f.Regular := by
  have hinteger : ∀ e ∈ integerForms, ∀ f ∈ e.2, f.Regular := by decide +kernel
  have hfloating : ∀ e ∈ floatingForms, ∀ f ∈ e.2, f.Regular := by decide +kernel
  cases h : floating op with
  | true =>
    obtain ⟨e, he, -, hmem⟩ := (mem_floating h).mp hf
    exact hfloating e he f hmem
  | false =>
    obtain ⟨e, he, hmem⟩ := mem_integer h hf
    exact hinteger e he f hmem

/-- The bytes for an address with or without a displacement of four bytes, and with or without a SIB byte. -/
def Extent (far sib : Bool) (a : Nat) : Prop :=
  1 ≤ a ∧ a ≤ 6 ∧ (far = false → a ≤ 3) ∧ (far = true → 5 ≤ a ∧ (a ≤ 5 ↔ sib = false))

theorem extent_of_parts {c d : Nat} {far sib : Bool} (hc : c = if sib then 2 else 1)
    (hd : if far then d = 4 else d ≤ 1) : Extent far sib (c + d) := by
  cases far <;> cases sib <;> simp only [Bool.false_eq_true, ↓reduceIte] at hc hd <;> simp [Extent] <;> omega

theorem memoryBytes_extent (h : o.memoryBytes = some a) : Extent o.farOffset o.sib a := by
  cases o with
  | const value =>
    obtain rfl := Option.some.inj h
    exact @extent_of_parts 1 4 true false rfl rfl
  | mem offset base index scale =>
    have hindex : index ≠ some .esp := by
      rintro rfl
      cases h
    rw [Operand.memoryBytes, addressBytes, if_neg hindex] at h
    cases base with
    | none =>
      cases index with
      | none => cases h
      | some x =>
        obtain rfl := Option.some.inj h
        exact @extent_of_parts 2 4 true true rfl rfl
    | some b =>
      obtain rfl := Option.some.inj h
      refine extent_of_parts ?_ ?_
      · show _ = if (decide (index ≠ none) || decide (some b = some .esp)) = true then 2 else 1
        by_cases hplain : index = none ∧ b ≠ .esp
        · rw [if_pos hplain, if_neg (by simp [hplain])]
        · rw [if_neg hplain, if_pos (by simp; tauto)]
      · show if (decide (some b = none) || !narrow offset) = true then _ else _
        rcases displacementBytes_cases offset b with ⟨hnarrow, hbytes⟩ | ⟨hnarrow, hbytes⟩
        · rw [hnarrow]
          exact hbytes
        · rw [hnarrow]
          exact hbytes
  | _ => cases h

theorem farOffset_plain (h : o.plain = true) : o.farOffset = false := by
  cases o with
  | reg r => rfl
  | imm value => rfl
  | _ => cases h

theorem sib_plain (h : o.plain = true) : o.sib = false := by
  cases o with
  | reg r => rfl
  | imm value => rfl
  | _ => cases h

theorem register_extent {w : Width} (h : o.ofWidth w = true) : Extent o.farOffset o.sib 1 := by
  rw [farOffset_plain (ofWidth_plain h)]
  exact ⟨by decide, by decide, fun _ => by decide, fun h => nomatch h⟩

/-- The bytes of a place that an address takes. -/
theorem slot_extent (hs : s.addresses = true) (hd : s.direct = false) (h : s.bytes near o = some a) :
    Extent o.farOffset o.sib a := by
  cases s with
  | rm w =>
    rw [Slot.bytes] at h
    by_cases hw : o.ofWidth w = true
    · rw [if_pos hw] at h
      obtain rfl := Option.some.inj h
      exact register_extent hw
    · rw [if_neg hw] at h
      exact memoryBytes_extent h
  | mem => exact memoryBytes_extent h
  | star =>
    cases o with
    | star target =>
      have hbytes : (if target.ofWidth .dword = true then some 1 else target.memoryBytes) = some a := h
      show Extent target.farOffset target.sib a
      by_cases hw : target.ofWidth .dword = true
      · rw [if_pos hw] at hbytes
        obtain rfl := Option.some.inj hbytes
        exact register_extent hw
      · rw [if_neg hw] at hbytes
        exact memoryBytes_extent hbytes
    | _ => cases h
  | moffs | rel8 | rel32 => cases hd
  | _ => cases hs

theorem direct_le_four (hd : s.direct = true) (h : s.bytes near o = some a) : a ≤ 4 := by
  cases s with
  | moffs | rel8 | rel32 =>
    obtain ⟨-, rfl⟩ := given_eq_some.mp h
    decide
  | _ => cases hd

/-- A form with the operands of a line: at most one of them is an address. -/
theorem bytes_split (hf : f.Regular) (h : f.bytes near args = some k) :
    (k = f.fixed ∧ ∀ o ∈ args, o.plain = true) ∨
      ∃ s ∈ f.slots, ∃ o ∈ args, ∃ a, s.addresses = true ∧ s.bytes near o = some a ∧ k = f.fixed + a ∧
        ∀ p ∈ args, p = o ∨ p.plain = true := by
  obtain ⟨n, hn, rfl⟩ := Option.map_eq_some_iff.mp h
  rcases slotsBytes_split hf.one_address hn with ⟨rfl, hargs⟩ | ⟨s, hs, o, ho, a, haddr, ha, rfl, hargs⟩
  · exact Or.inl ⟨rfl, hargs⟩
  · exact Or.inr ⟨s, hs, o, ho, a, haddr, ha, (Nat.add_assoc _ _ _).symm, hargs⟩

end Regular

section Shortest

variable {near : Operand → Bool} {i : Insn} {f : Form} {k m n : Nat}

theorem mem_lengths : k ∈ (formsOf i.op).filterMap (·.bytes near i.args) ↔
    ∃ f ∈ formsOf i.op, f.bytes near i.args = some k := List.mem_filterMap

/-- One of the encodings has the length. -/
theorem shortest_mem (h : shortest near i = some m) : ∃ f ∈ formsOf i.op, f.bytes near i.args = some m :=
  mem_lengths.mp (List.min?_mem h)

theorem shortest_le (hf : f ∈ formsOf i.op) (hbytes : f.bytes near i.args = some k)
    (h : shortest near i = some m) : m ≤ k :=
  (List.le_min?_iff h).mp (Nat.le_refl m) k (mem_lengths.mpr ⟨f, hf, hbytes⟩)

/-- An operand in memory of a line that has an encoding. -/
theorem address_of_shortest {offset : Option Const} {base index : Option Reg32} {scale : Option Scale}
    (h : shortest near i = some m) (ho : .mem offset base index scale ∈ i.args) :
    ∃ a, addressBytes offset base index = some a := by
  obtain ⟨f, -, hbytes⟩ := shortest_mem h
  obtain ⟨n, hn, -⟩ := Option.map_eq_some_iff.mp hbytes
  obtain ⟨s, -, a, ha⟩ := slotsBytes_mem hn ho
  cases s with
  | rm w => exact ⟨a, ha⟩
  | mem => exact ⟨a, ha⟩
  | _ => cases ha

end Shortest

end Pittsfield.Rewrite
