import Pittsfield.Region.Sizes

/-!
# The machine under the sandbox

Registers, flat memory and the stack primitives of a 32-bit x86, as far as the
two verifiers reason about them. An access to a guard zone has no result: the
program stops there. What an instruction computes beyond moves, masks, sums and
stack traffic is left to a parameter `Alu`, over the instruction type of either
disassembler.
-/

namespace Pittsfield.Machine

open Pittsfield.Foundation
open Pittsfield.Region

inductive Reg32
  | eax
  | ecx
  | edx
  | ebx
  | esp
  | ebp
  | esi
  | edi
  deriving DecidableEq

inductive Reg8
  | al
  | cl
  | dl
  | bl
  | ah
  | ch
  | dh
  | bh
  deriving DecidableEq

/-- A register operand: a general register or a part of one, or any other register. -/
inductive Reg
  | r32 (r : Reg32)
  | r16 (r : Reg32)
  | r8 (r : Reg8)
  | other (n : Nat)
  deriving DecidableEq

/-- The general register whose low byte, or second byte if the flag is set, is named. -/
def Reg8.whole : Reg8 → Reg32 × Bool
  | .al => (.eax, false)
  | .cl => (.ecx, false)
  | .dl => (.edx, false)
  | .bl => (.ebx, false)
  | .ah => (.eax, true)
  | .ch => (.ecx, true)
  | .dh => (.edx, true)
  | .bh => (.ebx, true)

/-- The general register that a register operand names or is a part of. -/
def Reg.whole : Reg → Option Reg32
  | .r32 r => some r
  | .r16 r => some r
  | .r8 r => some r.whole.1
  | .other _ => none

inductive Width
  | byte
  | word
  | dword
  deriving DecidableEq

def Width.bytes : Width → Nat
  | .byte => 1
  | .word => 2
  | .dword => 4

theorem Width.bytes_le (w : Width) : w.bytes ≤ 4 := by cases w <;> decide

structure Cpu where
  eip : Word
  reg : Reg32 → Word
  eflags : Word
  mem : Word → BitVec 8

namespace Cpu

def setReg (s : Cpu) (r : Reg32) (v : Word) : Cpu := { s with reg := Function.update s.reg r v }

def jump (s : Cpu) (a : Word) : Cpu := { s with eip := a }

def setFlags (s : Cpu) (v : Word) : Cpu := { s with eflags := v }

@[simp] theorem setReg_eip (s : Cpu) (r : Reg32) (v : Word) : (s.setReg r v).eip = s.eip := rfl
@[simp] theorem setReg_mem (s : Cpu) (r : Reg32) (v : Word) : (s.setReg r v).mem = s.mem := rfl
@[simp] theorem jump_eip (s : Cpu) (a : Word) : (s.jump a).eip = a := rfl
@[simp] theorem jump_reg (s : Cpu) (a : Word) : (s.jump a).reg = s.reg := rfl
@[simp] theorem jump_mem (s : Cpu) (a : Word) : (s.jump a).mem = s.mem := rfl
@[simp] theorem setFlags_eip (s : Cpu) (v : Word) : (s.setFlags v).eip = s.eip := rfl
@[simp] theorem setFlags_reg (s : Cpu) (v : Word) : (s.setFlags v).reg = s.reg := rfl
@[simp] theorem setFlags_mem (s : Cpu) (v : Word) : (s.setFlags v).mem = s.mem := rfl

@[simp] theorem setReg_same (s : Cpu) (r : Reg32) (v : Word) : (s.setReg r v).reg r = v := by
  simp [setReg]

theorem setReg_other (s : Cpu) {r q : Reg32} (v : Word) (h : q ≠ r) :
    (s.setReg r v).reg q = s.reg q := by
  simp [setReg, h]

/-- The little-endian value of `n` bytes. -/
def bytesAt (mem : Word → BitVec 8) (a : Word) : Nat → Word
  | 0 => 0
  | n + 1 => (mem a).setWidth 32 ||| (bytesAt mem (a + 1) n) <<< 8

/-- Store the low `n` bytes of a word in little-endian order. -/
def putBytes (mem : Word → BitVec 8) (a v : Word) : Nat → Word → BitVec 8
  | 0 => mem
  | n + 1 => Function.update (putBytes mem (a + 1) (v >>> 8) n) a (v.setWidth 8)

theorem add_one_ofNat (a : Word) (k : Nat) :
    a + 1 + BitVec.ofNat 32 k = a + BitVec.ofNat 32 (k + 1) := by
  rw [BitVec.add_assoc, BitVec.add_comm 1, show (1 : Word) = BitVec.ofNat 32 1 from rfl,
    ← BitVec.ofNat_add]

/-- A store changes only the bytes that it covers. -/
theorem putBytes_other {mem : Word → BitVec 8} {a v x : Word} {n : Nat}
    (h : ∀ k < n, x ≠ a + BitVec.ofNat 32 k) : putBytes mem a v n x = mem x := by
  induction n generalizing a v with
  | zero => rfl
  | succ n ih =>
    have h0 : x ≠ a := by simpa using h 0 (Nat.succ_pos n)
    rw [putBytes, Function.update_of_ne h0, ih]
    intro k hk
    rw [add_one_ofNat]
    exact h (k + 1) (Nat.succ_lt_succ hk)

/-- Where two memories agree, they agree behind the same store. -/
theorem putBytes_eqOn {mem mem' : Word → BitVec 8} {A : Set Word} (h : Set.EqOn mem mem' A)
    (a v : Word) (n : Nat) : Set.EqOn (putBytes mem a v n) (putBytes mem' a v n) A := by
  induction n generalizing a v with
  | zero => exact h
  | succ n ih =>
    intro x hx
    by_cases ha : x = a
    · rw [putBytes, putBytes, ha, Function.update_self, Function.update_self]
    · rw [putBytes, putBytes, Function.update_of_ne ha, Function.update_of_ne ha, ih (a + 1) _ hx]

theorem bytesAt_congr {mem mem' : Word → BitVec 8} {a : Word} {n : Nat}
    (h : ∀ k < n, mem' (a + BitVec.ofNat 32 k) = mem (a + BitVec.ofNat 32 k)) :
    bytesAt mem' a n = bytesAt mem a n := by
  induction n generalizing a with
  | zero => rfl
  | succ n ih =>
    have h0 : mem' a = mem a := by simpa using h 0 (Nat.succ_pos n)
    rw [bytesAt, bytesAt, h0, ih]
    intro k hk
    rw [add_one_ofNat]
    exact h (k + 1) (Nat.succ_lt_succ hk)

/-- Loading a word gives what was stored there. -/
theorem bytesAt_putBytes (mem : Word → BitVec 8) (a v : Word) :
    bytesAt (putBytes mem a v 4) a 4 = v := by
  have h1 : a + 1 ≠ a := by bv_omega
  have h2 : a + 1 + 1 ≠ a := by bv_omega
  have h3 : a + 1 + 1 + 1 ≠ a := by bv_omega
  have h4 : a + 1 + 1 ≠ a + 1 := by bv_omega
  have h5 : a + 1 + 1 + 1 ≠ a + 1 := by bv_omega
  have h6 : a + 1 + 1 + 1 ≠ a + 1 + 1 := by bv_omega
  simp only [bytesAt, putBytes, Function.update_self, Function.update_of_ne, ne_eq, h1, h2, h3, h4,
    h5, h6, not_false_eq_true]
  apply BitVec.eq_of_getLsbD_eq
  intro i hi
  simp only [BitVec.getLsbD_or, BitVec.getLsbD_setWidth, BitVec.getLsbD_shiftLeft,
    BitVec.getLsbD_ushiftRight]
  by_cases h8 : i < 8
  · simp [h8, hi]
  by_cases h16 : i - 8 < 8
  · rw [show 8 + (i - 8) = i by omega]
    simp [h8, h16, hi, show i - 8 < 32 by omega]
  by_cases h24 : i - 8 - 8 < 8
  · rw [show 8 + (8 + (i - 8 - 8)) = i by omega]
    simp [h8, h16, h24, hi, show i - 8 < 32 by omega, show i - 8 - 8 < 32 by omega]
  · have h32 : i - 8 - 8 - 8 < 8 := by omega
    rw [show 8 + (8 + (8 + (i - 8 - 8 - 8))) = i by omega]
    simp [h8, h16, h24, h32, hi, show i - 8 < 32 by omega, show i - 8 - 8 < 32 by omega,
      show i - 8 - 8 - 8 < 32 by omega]

def load (s : Cpu) (w : Width) (a : Word) : Word := bytesAt s.mem a w.bytes

def store (s : Cpu) (w : Width) (a v : Word) : Cpu :=
  { s with mem := putBytes s.mem a v w.bytes }

@[simp] theorem store_eip (s : Cpu) (w : Width) (a v : Word) : (s.store w a v).eip = s.eip := rfl
@[simp] theorem store_reg (s : Cpu) (w : Width) (a v : Word) : (s.store w a v).reg = s.reg := rfl

@[simp] theorem load_store (s : Cpu) (a v : Word) : (s.store .dword a v).load .dword a = v :=
  bytesAt_putBytes s.mem a v

@[simp] theorem load_setReg (s : Cpu) (r : Reg32) (v : Word) (w : Width) (a : Word) :
    (s.setReg r v).load w a = s.load w a := rfl
@[simp] theorem load_jump (s : Cpu) (t : Word) (w : Width) (a : Word) :
    (s.jump t).load w a = s.load w a := rfl

/-- A store changes no byte but those it covers. -/
theorem store_changes {s : Cpu} {w : Width} {a v x : Word} (h : (s.store w a v).mem x ≠ s.mem x) :
    ∃ k < 4, x = a + BitVec.ofNat 32 k := by
  by_contra hno
  refine h (putBytes_other fun k hk he => hno ⟨k, ?_, he⟩)
  exact hk.trans_le w.bytes_le

/-- The value of a register operand; the parts are extended by zeros. -/
def readReg (s : Cpu) : Reg → Word
  | .r32 r => s.reg r
  | .r16 r => (s.reg r).setWidth 16 |>.setWidth 32
  | .r8 r =>
    if r.whole.2 then ((s.reg r.whole.1) >>> 8).setWidth 8 |>.setWidth 32
    else (s.reg r.whole.1).setWidth 8 |>.setWidth 32
  | .other _ => 0

/-- Writing a part of a register keeps the rest of it. -/
def writeReg (s : Cpu) (v : Word) : Reg → Cpu
  | .r32 r => s.setReg r v
  | .r16 r => s.setReg r ((s.reg r &&& 0xffff0000) ||| (v &&& 0xffff))
  | .r8 r =>
    if r.whole.2 then s.setReg r.whole.1 ((s.reg r.whole.1 &&& 0xffff00ff) ||| ((v &&& 0xff) <<< 8))
    else s.setReg r.whole.1 ((s.reg r.whole.1 &&& 0xffffff00) ||| (v &&& 0xff))
  | .other _ => s

@[simp] theorem writeReg_eip (s : Cpu) (v : Word) (r : Reg) : (s.writeReg v r).eip = s.eip := by
  cases r <;> simp only [writeReg]
  · rfl
  · rfl
  · split <;> rfl

@[simp] theorem writeReg_mem (s : Cpu) (v : Word) (r : Reg) : (s.writeReg v r).mem = s.mem := by
  cases r <;> simp only [writeReg]
  · rfl
  · rfl
  · split <;> rfl

@[simp] theorem writeReg_eflags (s : Cpu) (v : Word) (r : Reg) :
    (s.writeReg v r).eflags = s.eflags := by
  cases r <;> simp only [writeReg]
  · rfl
  · rfl
  · split <;> rfl

/-- Writing an operand touches only the general register it is a part of. -/
theorem writeReg_other (s : Cpu) (v : Word) {r : Reg} {q : Reg32} (h : r.whole ≠ some q) :
    (s.writeReg v r).reg q = s.reg q := by
  cases r with
  | r32 r => exact setReg_other _ _ (by rintro rfl; exact h rfl)
  | r16 r => exact setReg_other _ _ (by rintro rfl; exact h rfl)
  | r8 r =>
    have hq : q ≠ r.whole.1 := by rintro rfl; exact h rfl
    simp only [writeReg]
    split <;> exact setReg_other _ _ hq
  | other n => rfl

theorem readReg_word (s : Cpu) (r : Reg32) : s.readReg (.r16 r) = s.reg r &&& 0xffff := by
  apply BitVec.eq_of_toNat_eq
  have hmask : (0xffff : Word).toNat = 2 ^ 16 - 1 := rfl
  rw [BitVec.toNat_and, hmask, Nat.and_two_pow_sub_one_eq_mod, readReg, BitVec.toNat_setWidth,
    BitVec.toNat_setWidth]
  omega

/-- Writing back what the low half of a register holds changes nothing. -/
theorem word_written_back (x : Word) : (x &&& 0xffff0000) ||| (x &&& 0xffff &&& 0xffff) = x := by
  rw [BitVec.and_assoc, BitVec.and_self, ← BitVec.and_or_distrib_left,
    show (0xffff0000 ||| 0xffff : Word) = BitVec.allOnes 32 by decide, BitVec.and_allOnes]

/-- No byte register is a part of the stack or the frame pointer. -/
theorem reg8_whole (r : Reg8) : r.whole.1 ≠ .esp ∧ r.whole.1 ≠ .ebp := by
  cases r <;> decide

end Cpu

section Stack

variable (L : Layout)

/-- `push` of `w` bytes. -/
def Cpu.push (s : Cpu) (w : Width) (v : Word) : Option Cpu :=
  let a := s.reg .esp - BitVec.ofNat 32 w.bytes
  if a ∈ L.guardZone then none else some ((s.store w a v).setReg .esp a)

/-- `pop` of `w` bytes: the value and the state after it. -/
def Cpu.pop (s : Cpu) (w : Width) : Option (Word × Cpu) :=
  if s.reg .esp ∈ L.guardZone then none
  else some (s.load w (s.reg .esp), s.setReg .esp (s.reg .esp + BitVec.ofNat 32 w.bytes))

variable {L}

theorem Cpu.push_some {s s' : Cpu} {w : Width} {v : Word} (h : s.push L w v = some s') :
    s.reg .esp - BitVec.ofNat 32 w.bytes ∉ L.guardZone ∧
      s' = (s.store w (s.reg .esp - BitVec.ofNat 32 w.bytes) v).setReg .esp
        (s.reg .esp - BitVec.ofNat 32 w.bytes) := by
  simp only [Cpu.push] at h
  split at h
  · cases h
  · exact ⟨‹_›, (Option.some.inj h).symm⟩

theorem Cpu.push_changes {s s' : Cpu} {w : Width} {v x : Word} (h : s.push L w v = some s')
    (hx : s'.mem x ≠ s.mem x) :
    s.reg .esp - BitVec.ofNat 32 w.bytes ∉ L.guardZone ∧
      ∃ k < 4, x = s.reg .esp - BitVec.ofNat 32 w.bytes + BitVec.ofNat 32 k := by
  obtain ⟨hg, rfl⟩ := push_some h
  exact ⟨hg, store_changes hx⟩

theorem Cpu.pop_some {s s' : Cpu} {w : Width} {v : Word} (h : s.pop L w = some (v, s')) :
    s.reg .esp ∉ L.guardZone ∧ v = s.load w (s.reg .esp) ∧
      s' = s.setReg .esp (s.reg .esp + BitVec.ofNat 32 w.bytes) := by
  simp only [Cpu.pop] at h
  split at h
  · cases h
  · obtain ⟨hv, hs⟩ := Prod.mk.inj (Option.some.inj h)
    exact ⟨‹_›, hv.symm, hs.symm⟩

end Stack

/-- What the instructions compute that neither verifier looks into: the result of
an operation, the carry that `adc` and `sbb` add, whether a conditional jump is
taken, the registers written implicitly (by `mul`, `div`, `cltd`, `loop`) and the
flags. The theorems hold for every such function. -/
structure Alu (ι : Type) where
  result : ι → Cpu → Word
  carry : ι → Cpu → Bool
  taken : ι → Cpu → Bool
  scratch : ι → Cpu → Reg32 → Word
  flags : ι → Cpu → Word

namespace Alu

variable {ι : Type} (alu : Alu ι)

/-- The implicit writes of an instruction: flags and the three scratch registers. -/
def clobber (i : ι) (s : Cpu) : Cpu :=
  ((s.setReg .eax (alu.scratch i s .eax)).setReg .ecx (alu.scratch i s .ecx)).setReg .edx
    (alu.scratch i s .edx) |>.setFlags (alu.flags i s)

@[simp] theorem clobber_eip (i : ι) (s : Cpu) : (alu.clobber i s).eip = s.eip := rfl
@[simp] theorem clobber_mem (i : ι) (s : Cpu) : (alu.clobber i s).mem = s.mem := rfl

theorem clobber_reg (i : ι) (s : Cpu) {r : Reg32} (h : r ≠ .eax ∧ r ≠ .ecx ∧ r ≠ .edx) :
    (alu.clobber i s).reg r = s.reg r := by
  simp [clobber, Cpu.setReg, h]

@[simp] theorem clobber_esp (i : ι) (s : Cpu) : (alu.clobber i s).reg .esp = s.reg .esp :=
  alu.clobber_reg i s (by decide)

@[simp] theorem clobber_ebp (i : ι) (s : Cpu) : (alu.clobber i s).reg .ebp = s.reg .ebp :=
  alu.clobber_reg i s (by decide)

@[simp] theorem clobber_ebx (i : ι) (s : Cpu) : (alu.clobber i s).reg .ebx = s.reg .ebx :=
  alu.clobber_reg i s (by decide)

/-- The processor as it is on instructions without implicit writes: nothing is
computed and no register is scratched. -/
def idle (ι : Type) : Alu ι where
  result _ _ := 0
  carry _ _ := false
  taken _ _ := false
  scratch _ s r := s.reg r
  flags _ s := s.eflags

end Alu

end Pittsfield.Machine
