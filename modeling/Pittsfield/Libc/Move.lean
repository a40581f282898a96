import Mathlib.Logic.Function.Basic
import Pittsfield.Libc.Compare

/-!
# `memmove` of `libc.h`

The order of the two pointers decides the direction of the copy, so that no byte is
overwritten before it is read. The descending loop ends when its unsigned index wraps.
-/

namespace Pittsfield.Libc

open Pittsfield.Region

/-- `for (i = 0; i < n; i++) d[i] = s[i];` from the index `i` on, none if it takes more than the
given number of rounds. -/
def moveUp (d s n : Word) : Nat → Word → (Word → BitVec 8) → Option (Word → BitVec 8)
  | 0, _, _ => none
  | fuel + 1, i, mem =>
    if i < n then moveUp d s n fuel (i + 1) (Function.update mem (d + i) (mem (s + i))) else some mem

/-- `for (…; i != (unsigned)-1; i--) d[i] = s[i];` -/
def moveDown (d s : Word) : Nat → Word → (Word → BitVec 8) → Option (Word → BitVec 8)
  | 0, _, _ => none
  | fuel + 1, i, mem =>
    if i ≠ -1 then moveDown d s fuel (i - 1) (Function.update mem (d + i) (mem (s + i))) else some mem

def memmove (fuel : Nat) (mem : Word → BitVec 8) (dest src n : Word) :
    Option (Word × (Word → BitVec 8)) :=
  (if dest < src then moveUp dest src n fuel 0 mem else moveDown dest src fuel (n - 1) mem).map
    fun mem => (dest, mem)

/-- The bytes with the indices from `lo` on and below `hi` are copied, and nothing else is
changed. -/
structure Moved (mem mem' : Word → BitVec 8) (dest src : Word) (lo hi : Nat) : Prop where
  bytes : ∀ i, lo ≤ i → i < hi → mem' (dest + BitVec.ofNat 32 i) = mem (src + BitVec.ofNat 32 i)
  rest : ∀ x : Word, ¬ (dest.toNat + lo ≤ x.toNat ∧ x.toNat < dest.toNat + hi) → mem' x = mem x

section

variable {mem mem' : Word → BitVec 8} {dest src n : Word} {lo hi i k : Nat}

theorem toNat_index {p : Word} (h : p.toNat + i < 2 ^ 32) : (p + BitVec.ofNat 32 i).toNat = p.toNat + i := by
  rw [BitVec.toNat_add, BitVec.toNat_ofNat, Nat.mod_eq_of_lt (by omega : i < 2 ^ 32), Nat.mod_eq_of_lt h]

theorem Moved.none (mem : Word → BitVec 8) : Moved mem mem dest src k k where
  bytes _ hlo hhi := absurd hhi (Nat.not_lt.mpr hlo)
  rest _ _ := rfl

/-- One more byte, read from where nothing has been written. -/
theorem Moved.store (h : Moved mem mem' dest src lo hi) {lo' hi' : Nat}
    (hdest : dest.toNat + i < 2 ^ 32) (hsrc : src.toNat + i < 2 ^ 32)
    (hread : ¬ (dest.toNat + lo ≤ src.toNat + i ∧ src.toNat + i < dest.toNat + hi))
    (hmore : ∀ j, lo' ≤ j ∧ j < hi' ↔ j = i ∨ lo ≤ j ∧ j < hi) (hfit : dest.toNat + hi' ≤ 2 ^ 32) :
    Moved mem (Function.update mem' (dest + BitVec.ofNat 32 i) (mem' (src + BitVec.ofNat 32 i)))
      dest src lo' hi' := by
  have hsame : mem' (src + BitVec.ofNat 32 i) = mem (src + BitVec.ofNat 32 i) := by
    apply h.rest
    rw [toNat_index hsrc]
    exact hread
  rw [hsame]
  constructor
  · intro j hlo hhi
    rw [Function.update_apply]
    by_cases hj : j = i
    · rw [hj, if_pos rfl]
    · have hne : dest + BitVec.ofNat 32 j ≠ dest + BitVec.ofNat 32 i := by
        intro heq
        have hnat := congrArg BitVec.toNat heq
        rw [toNat_index (by omega), toNat_index hdest] at hnat
        omega
      obtain ⟨hlo', hhi'⟩ := ((hmore j).mp ⟨hlo, hhi⟩).resolve_left hj
      rw [if_neg hne]
      exact h.bytes j hlo' hhi'
  · intro x hx
    have hne : x ≠ dest + BitVec.ofNat 32 i := by
      intro heq
      obtain ⟨hlo, hhi⟩ := (hmore i).mpr (Or.inl rfl)
      rw [heq, toNat_index hdest] at hx
      omega
    rw [Function.update_apply, if_neg hne]
    apply h.rest
    intro hin
    obtain ⟨hlo, hhi⟩ := (hmore (x.toNat - dest.toNat)).mpr (Or.inr (by omega))
    omega

/-- The ascending loop copies what is left, where the source lies above the destination. -/
theorem moveUp_spec (hlt : dest.toNat < src.toNat) (hsrc : src.toNat + n.toNat ≤ 2 ^ 32)
    (hk : k ≤ n.toNat) (h : Moved mem mem' dest src 0 k) :
    ∃ mem'', (∀ fuel, n.toNat - k < fuel →
        moveUp dest src n fuel (BitVec.ofNat 32 k) mem' = some mem'') ∧
      Moved mem mem'' dest src 0 n.toNat := by
  have hn := n.isLt
  have hindex : (BitVec.ofNat 32 k).toNat = k := by rw [BitVec.toNat_ofNat, Nat.mod_eq_of_lt (by omega)]
  generalize hleft : n.toNat - k = left
  induction left generalizing k mem' with
  | zero =>
    have hend : k = n.toNat := by omega
    refine ⟨mem', ?_, hend ▸ h⟩
    intro fuel hfuel
    obtain ⟨fuel, rfl⟩ := Nat.exists_eq_succ_of_ne_zero (Nat.ne_zero_of_lt hfuel)
    rw [moveUp, if_neg]
    rw [BitVec.lt_def, hindex]
    omega
  | succ left ih =>
    have hnext : (BitVec.ofNat 32 (k + 1)).toNat = k + 1 := by
      rw [BitVec.toNat_ofNat, Nat.mod_eq_of_lt (by omega)]
    have hstep : Moved mem (Function.update mem' (dest + BitVec.ofNat 32 k) (mem' (src + BitVec.ofNat 32 k)))
        dest src 0 (k + 1) :=
      h.store (by omega) (by omega) (by omega) (by omega) (by omega)
    obtain ⟨mem'', hrun, hmoved⟩ := ih (by omega) hstep hnext (by omega)
    refine ⟨mem'', ?_, hmoved⟩
    intro fuel hfuel
    obtain ⟨fuel, rfl⟩ := Nat.exists_eq_succ_of_ne_zero (Nat.ne_zero_of_lt hfuel)
    rw [moveUp, if_pos]
    · rw [← hrun fuel (by omega), BitVec.ofNat_add]
      rfl
    · rw [BitVec.lt_def, hindex]
      omega

/-- The descending loop copies what is left, where the source does not lie above. Its index is
one below the number of bytes left. -/
theorem moveDown_spec (hle : src.toNat ≤ dest.toNat) (hdest : dest.toNat + n.toNat ≤ 2 ^ 32)
    (hk : k ≤ n.toNat) (h : Moved mem mem' dest src k n.toNat) :
    ∃ mem'', (∀ fuel, k < fuel → moveDown dest src fuel (BitVec.ofNat 32 k - 1) mem' = some mem'') ∧
      Moved mem mem'' dest src 0 n.toNat := by
  have hn := n.isLt
  induction k generalizing mem' with
  | zero =>
    refine ⟨mem', ?_, h⟩
    intro fuel hfuel
    obtain ⟨fuel, rfl⟩ := Nat.exists_eq_succ_of_ne_zero (Nat.ne_zero_of_lt hfuel)
    rw [moveDown, if_neg]
    exact not_not.mpr rfl
  | succ k ih =>
    have hindex : BitVec.ofNat 32 (k + 1) - 1 = BitVec.ofNat 32 k := by
      rw [BitVec.ofNat_add]
      exact BitVec.add_sub_cancel _ _
    have hnot : BitVec.ofNat 32 k ≠ -1 := by
      intro heq
      have hnat := congrArg BitVec.toNat heq
      rw [BitVec.toNat_ofNat, Nat.mod_eq_of_lt (by omega)] at hnat
      have hmax : (-1 : Word).toNat = 2 ^ 32 - 1 := by decide
      omega
    have hstep : Moved mem (Function.update mem' (dest + BitVec.ofNat 32 k) (mem' (src + BitVec.ofNat 32 k)))
        dest src k n.toNat :=
      h.store (by omega) (by omega) (by omega) (by omega) (by omega)
    obtain ⟨mem'', hrun, hmoved⟩ := ih (by omega) hstep
    refine ⟨mem'', ?_, hmoved⟩
    intro fuel hfuel
    obtain ⟨fuel, rfl⟩ := Nat.exists_eq_succ_of_ne_zero (Nat.ne_zero_of_lt hfuel)
    rw [hindex, moveDown, if_pos hnot]
    exact hrun fuel (by omega)

/-- `memmove` ends, and every byte arrives as it was before the call, however the two ranges
overlap. -/
theorem memmove_moves (mem : Word → BitVec 8) (hdest : dest.toNat + n.toNat ≤ 2 ^ 32)
    (hsrc : src.toNat + n.toNat ≤ 2 ^ 32) :
    ∃ mem', (∀ fuel, n.toNat < fuel → memmove fuel mem dest src n = some (dest, mem')) ∧
      Moved mem mem' dest src 0 n.toNat := by
  by_cases hlt : dest < src
  · obtain ⟨mem', hrun, hmoved⟩ := moveUp_spec (BitVec.lt_def.mp hlt) hsrc (Nat.zero_le _)
      (Moved.none mem)
    refine ⟨mem', ?_, hmoved⟩
    intro fuel hfuel
    rw [memmove, if_pos hlt]
    exact congrArg (Option.map _) (hrun fuel (by omega))
  · have hle : src.toNat ≤ dest.toNat := Nat.not_lt.mp hlt
    obtain ⟨mem', hrun, hmoved⟩ := moveDown_spec hle hdest le_rfl (Moved.none mem)
    refine ⟨mem', ?_, hmoved⟩
    intro fuel hfuel
    rw [BitVec.ofNat_toNat, BitVec.setWidth_eq] at hrun
    rw [memmove, if_neg hlt, hrun fuel hfuel]
    rfl

/-- Two bytes, moved up by one. -/
theorem memmove_moves_up_by_one : ∃ mem', (∀ fuel, 2 < fuel →
      memmove fuel (fun x => x.setWidth 8) 17 16 2 = some (17, mem')) ∧
    Moved (fun x => x.setWidth 8) mem' 17 16 0 2 :=
  @memmove_moves 17 16 2 _ (by decide) (by decide)

end

end Pittsfield.Libc
