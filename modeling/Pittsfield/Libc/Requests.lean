import Pittsfield.Libc.Morecore

/-!
# Requests that are refused

Half of the address space is never to be had, and the size class above it asks for one byte
only: the shift count of `morecore` is 32 there. So a request is refused exactly if its
list is empty and the region has no room for what `morecore` asks for.
-/

namespace Pittsfield.Libc

open Pittsfield.Region
open Pittsfield.Machine
open Pittsfield.Wrappers

section Buckets

variable {n : Word}

theorem bucketFor_le (n : Word) : bucketFor n ≤ 29 := by
  obtain ⟨hlog, hlt⟩ := bucketFor_log n
  rw [hlog]
  generalize ((((n + 4 + 3) &&& ~~~3) - 1) >>> 2 : Word).toNat = x at *
  by_cases hz : x = 0
  · rw [hz]
    decide
  · exact Nat.le_of_lt_succ ((Nat.log2_lt hz).mpr hlt)

/-- Requests for up to half of the address space, and more than a quarter of it. -/
theorem bucketFor_half (hlo : 2 ^ 30 - 4 < n.toNat) (hhi : n.toNat ≤ 2 ^ 31 - 4) : bucketFor n = 28 := by
  rw [(bucketFor_log n).1, words_toNat (by omega)]
  have hz : (n.toNat + 3) / 4 ≠ 0 := by omega
  apply Nat.le_antisymm
  · exact Nat.le_of_lt_succ ((Nat.log2_lt hz).mpr (by omega))
  · exact (Nat.le_log2 hz).mpr (by omega)

end Buckets

/-- The exponent of what `morecore` asks for. -/
theorem exponent_cases {b : Nat} (hb : b ≤ 29) : ∃ rnu, (if b ≤ 8 then 11 else b + 3) = rnu ∧
    b ≤ rnu ∧ rnu ≤ 32 ∧ (rnu = 31 ↔ b = 28) ∧ (rnu = 32 ↔ b = 29) := by
  by_cases h8 : b ≤ 8
  · exact ⟨11, if_pos h8, by omega⟩
  · exact ⟨b + 3, if_neg h8, by omega⟩

theorem shl_one_mod (k : Nat) : (shl 1 k).toNat = 2 ^ (k % 32) := by
  have hmod : shl 1 k = shl 1 (k % 32) := by rw [shl, shl, Nat.mod_mod]
  rw [hmod]
  exact shl_one (Nat.mod_lt k (by decide))

namespace Inv

variable {L : Layout} {start : Nat} {C : Set Cell} {fl : Nat → List Word} {h : Heap}
  {live : List Block} {b : Nat}

/-- There is no half of the address space behind the break. -/
theorem sbrk_half (inv : Inv L start C fl h live) (hhalf : L.data_end + 8192 ≤ L.data_start + 2 ^ 31) :
    h.sbrk L (shl 1 31) = (-1, h) := by
  have hlo := inv.break_above.2
  have hhi := inv.break_below
  have hincr : (shl 1 31).toNat = 2 ^ 31 := shl_one (by decide)
  have hout : ¬ (L.data_start < (h.data_break + shl 1 31).toNat ∧
      (h.data_break + shl 1 31).toNat < L.data_end) := by
    rw [BitVec.toNat_add, hincr]
    omega
  simp only [Heap.sbrk, wrap_sbrk, if_neg hout]

variable (inv : Inv L start C fl h live) (hfit : L.data_end + 8192 + 2 ^ 30 < 2 ^ 32)
  (hhalf : L.data_end + 8192 ≤ L.data_start + 2 ^ 31)

include inv hfit hhalf

/-- Without room `morecore` changes nothing. -/
theorem morecore_full (hb : b ≤ 29)
    (hroom : b = 28 ∨ L.data_end ≤ h.data_break.toNat + 2 ^ ((if b ≤ 8 then 11 else b + 3) % 32)) :
    morecore L b h = h := by
  obtain ⟨rnu, hrnu, hle, hmax, h31, h32⟩ := exponent_cases hb
  have hhi := inv.break_below
  have hsbrk : h.sbrk L (shl 1 rnu) = (-1, h) := by
    by_cases hhalf' : b = 28
    · rw [h31.mpr hhalf']
      exact inv.sbrk_half hhalf
    · have hpow : 2 ^ (rnu % 32) ≤ 2 ^ 30 := Nat.pow_le_pow_right (by decide) (by omega)
      have hincr : shl 1 rnu = BitVec.ofNat 32 (2 ^ (rnu % 32)) := by
        rw [← shl_one_mod, BitVec.ofNat_toNat, BitVec.setWidth_eq]
      rw [hrnu] at hroom
      rw [hincr]
      exact sbrk_refuses (by omega) (by omega)
  unfold morecore
  by_cases hempty : h.nextf b = 0
  · rw [if_neg (not_not.mpr hempty)]
    simp only [hrnu, inv.page_kept hfit, if_neg (show ¬ rnu < b by omega), hsbrk]
    exact if_pos trivial
  · exact if_pos hempty

omit hhalf in
/-- With room `morecore` puts a block at the break. -/
theorem morecore_served (hb : b ≤ 29) (hempty : h.nextf b = 0)
    (hroom : h.data_break.toNat + 2 ^ ((if b ≤ 8 then 11 else b + 3) % 32) < L.data_end) :
    (morecore L b h).nextf b = h.data_break := by
  obtain ⟨rnu, hrnu, hle, hmax, h31, h32⟩ := exponent_cases hb
  have hincr : shl 1 rnu = BitVec.ofNat 32 (2 ^ (rnu % 32)) := by
    rw [← shl_one_mod, BitVec.ofNat_toNat, BitVec.setWidth_eq]
  have h8 : h.data_break &&& 7 = 0 :=
    low_bits_zero 3 ((show 2 ^ 3 ∣ 1024 by decide).trans inv.break_aligned)
  have hvalid : h.data_break ≠ -1 := by
    intro he
    rw [he] at h8
    exact absurd h8 (by decide)
  rw [hrnu] at hroom
  unfold morecore
  rw [if_neg (not_not.mpr hempty)]
  simp only [hrnu, inv.page_kept hfit, if_neg (show ¬ rnu < b by omega), hincr,
    sbrk_accepts inv.break_above.2 (by omega) hroom, if_neg hvalid, if_neg (not_not.mpr h8),
    Function.update_self]

theorem malloc_full {n : Word} (hfull : Full L h n) : malloc L n h = (0, h) := by
  obtain ⟨hempty, hroom⟩ := hfull
  rw [malloc]
  simp only [hempty, if_true, inv.morecore_full hfit hhalf (bucketFor_le n) hroom]

end Inv

end Pittsfield.Libc
