import Pittsfield.Machine.Cpu

/-!
# Status flags

The bits of `%eflags` that comparisons set and conditional instructions read.
-/

namespace Pittsfield.Machine

open Pittsfield.Region

/-- CF, ZF, SF and OF. -/
structure Status where
  cf : Bool
  zf : Bool
  sf : Bool
  of : Bool
  deriving DecidableEq

/-- The word with bit `k` set or clear. -/
def statusBit (b : Bool) (k : Nat) : Word := BitVec.ofNat 32 (b.toNat <<< k)

/-- CF, PF, AF, ZF, SF and OF. -/
def statusMask : Word := 0x8d5

def status (eflags : Word) : Status :=
  ⟨eflags.getLsbD 0, eflags.getLsbD 6, eflags.getLsbD 7, eflags.getLsbD 11⟩

/-- The flags of the difference `a - b` of two bytes, as `cmpb` leaves them. -/
def subFlags (a b : BitVec 8) (eflags : Word) : Word :=
  (eflags &&& ~~~statusMask) ||| statusBit (a.ult b) 0 |||
    statusBit ((List.range 8).countP (a - b).getLsbD % 2 = 0) 2 |||
    statusBit ((a.setWidth 4).ult (b.setWidth 4)) 4 ||| statusBit (a = b) 6 |||
    statusBit (a - b).msb 7 ||| statusBit (a.ssubOverflow b) 11

theorem getLsbD_statusBit {b : Bool} {j k : Nat} (hj : j < 32) :
    (statusBit b k).getLsbD j = (b && decide (j = k)) := by
  rw [statusBit, BitVec.getLsbD_ofNat, Nat.testBit_shiftLeft]
  by_cases h : k ≤ j
  · have h0 : (b.toNat).testBit (j - k) = (b && decide (j - k = 0)) := by
      cases b
      · simp
      · cases hjk : j - k with
        | zero => rfl
        | succ n => simp [Nat.testBit_succ]
    rw [h0]
    by_cases he : j = k
    · subst he
      simp [hj]
    · simp [he, show ¬ j - k = 0 by omega]
  · simp [h, show ¬ j = k by omega]

theorem status_subFlags (a b : BitVec 8) (eflags : Word) :
    status (subFlags a b eflags) = ⟨a.ult b, a = b, (a - b).msb, a.ssubOverflow b⟩ := by
  have hmask : (~~~statusMask).getLsbD 0 = false ∧ (~~~statusMask).getLsbD 6 = false ∧
      (~~~statusMask).getLsbD 7 = false ∧ (~~~statusMask).getLsbD 11 = false := by decide
  obtain ⟨h0, h6, h7, h11⟩ := hmask
  simp only [status, subFlags, BitVec.getLsbD_or, BitVec.getLsbD_and, h0, h6, h7, h11, Bool.and_false,
    Bool.false_or, getLsbD_statusBit (show 0 < 32 by decide),
    getLsbD_statusBit (show 6 < 32 by decide), getLsbD_statusBit (show 7 < 32 by decide),
    getLsbD_statusBit (show 11 < 32 by decide)]
  simp

/-- Turning a comparison around keeps its flags exactly if the bytes are equal. -/
theorem status_subFlags_swap {a b : BitVec 8} {e e' : Word} :
    status (subFlags a b e) = status (subFlags b a e') ↔ a = b := by
  rw [status_subFlags, status_subFlags]
  constructor
  · intro h
    have hcf : a.ult b = b.ult a := congrArg Status.cf h
    apply BitVec.eq_of_toNat_eq
    simp only [BitVec.ult, decide_eq_decide] at hcf
    omega
  · rintro rfl
    rfl

/-- The zero flag of a comparison. -/
theorem zf_subFlags (a b : BitVec 8) (e : Word) : (status (subFlags a b e)).zf = decide (a = b) := by
  rw [status_subFlags]

theorem zf_subFlags_swap (a b : BitVec 8) (e e' : Word) :
    (status (subFlags a b e)).zf = (status (subFlags b a e')).zf := by
  rw [zf_subFlags, zf_subFlags, decide_eq_decide]
  exact eq_comm

end Pittsfield.Machine
