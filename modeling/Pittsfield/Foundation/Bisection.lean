import Mathlib.Data.Int.Order.Basic
import Mathlib.Tactic.Ring

/-!
# Search by halving

`c k` is the sign of what is looked for against the entry `k` of a sequence: positive
where the entry is still too small. `bisect` halves a window of the sequence until it meets
an entry with the sign 0 or the window is empty. If the signs fall it finds such an entry
wherever there is one, and a window of fewer than `2 ^ n` entries takes at most `n` rounds
and the last test.
-/

namespace Pittsfield.Foundation

/-- The search in the `n` entries from `lo` on, none if it takes more than the given number
of rounds. -/
def bisect (c : Nat → Int) : Nat → Nat → Nat → Option (Option Nat)
  | 0, _, _ => none
  | fuel + 1, lo, n =>
    if n = 0 then some none
    else if c (lo + n / 2) < 0 then bisect c fuel lo (n / 2)
    else if 0 < c (lo + n / 2) then bisect c fuel (lo + n / 2 + 1) (n - (n / 2 + 1))
    else some (some (lo + n / 2))

/-- The signs of the `n` entries from `lo` on fall. -/
def Falls (c : Nat → Int) (lo n : Nat) : Prop :=
  ∀ i j, lo ≤ i → i < j → j < lo + n → (0 < c j → 0 < c i) ∧ (c i < 0 → c j < 0)

/-- An entry with the sign 0, or nothing if there is none. -/
def Meets (c : Nat → Int) (lo n : Nat) : Option Nat → Prop
  | some k => lo ≤ k ∧ k < lo + n ∧ c k = 0
  | none => ∀ k, lo ≤ k → k < lo + n → c k ≠ 0

variable {c : Nat → Int} {lo n m fuel : Nat}

theorem Falls.sub (h : Falls c lo n) {lo' n' : Nat} (hlo : lo ≤ lo') (hhi : lo' + n' ≤ lo + n) :
    Falls c lo' n' :=
  fun i j hi hij hj => h i j (by omega) hij (by omega)

/-- What is met below a negative entry is met in the whole window. -/
theorem Meets.below {r : Option Nat} (hf : Falls c lo n) (hm : m < n) (hneg : c (lo + m) < 0)
    (h : Meets c lo m r) : Meets c lo n r := by
  cases r with
  | some k => exact ⟨h.1, by have := h.2.1; omega, h.2.2⟩
  | none =>
    intro k hlo hk
    by_cases hkm : k < lo + m
    · exact h k hlo hkm
    by_cases he : k = lo + m
    · rw [he]
      exact hneg.ne
    · exact ((hf (lo + m) k (Nat.le_add_right _ _) (by omega) hk).2 hneg).ne

/-- What is met above a positive entry is met in the whole window. -/
theorem Meets.above {r : Option Nat} (hf : Falls c lo n) (hm : m < n) (hpos : 0 < c (lo + m))
    (h : Meets c (lo + m + 1) (n - (m + 1)) r) : Meets c lo n r := by
  cases r with
  | some k => exact ⟨by have := h.1; omega, by have := h.2.1; omega, h.2.2⟩
  | none =>
    intro k hlo hk
    by_cases hkm : lo + m + 1 ≤ k
    · exact h k hkm (by omega)
    by_cases he : k = lo + m
    · rw [he]
      exact hpos.ne'
    · exact ((hf k (lo + m) hlo (by omega) (by omega)).1 hpos).ne'

theorem bisect_meets (hf : Falls c lo n) (hn : n < 2 ^ fuel) :
    ∃ r, bisect c (fuel + 1) lo n = some r ∧ Meets c lo n r := by
  induction fuel generalizing lo n with
  | zero =>
    have hzero : n = 0 := by omega
    subst hzero
    exact ⟨none, rfl, fun k hlo hk => by omega⟩
  | succ fuel ih =>
    rw [bisect]
    by_cases hzero : n = 0
    · subst hzero
      exact ⟨none, rfl, fun k hlo hk => by omega⟩
    have hpow : 2 ^ (fuel + 1) = 2 * 2 ^ fuel := by ring
    have hhalf : n / 2 < n := by omega
    rw [if_neg hzero]
    by_cases hneg : c (lo + n / 2) < 0
    · rw [if_pos hneg]
      obtain ⟨r, hr, hmeets⟩ := ih (hf.sub le_rfl (by omega)) (n := n / 2) (by omega)
      exact ⟨r, hr, hmeets.below hf hhalf hneg⟩
    rw [if_neg hneg]
    by_cases hpos : 0 < c (lo + n / 2)
    · rw [if_pos hpos]
      obtain ⟨r, hr, hmeets⟩ := @ih (lo + n / 2 + 1) (n - (n / 2 + 1))
        (hf.sub (by omega) (by omega)) (by omega)
      exact ⟨r, hr, hmeets.above hf hhalf hpos⟩
    · rw [if_neg hpos]
      exact ⟨_, rfl, by omega, by omega, by omega⟩

end Pittsfield.Foundation
