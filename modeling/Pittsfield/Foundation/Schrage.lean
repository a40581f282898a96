import Mathlib.Data.Int.ModEq
import Mathlib.Tactic.LinearCombination

/-!
# Schrage's decomposition of a modular product

With `m = a * q + r` and `r < q`, the difference `a * (x % q) - r * (x / q)` differs from
`a * x` by a multiple of `m`, and neither of its products reaches `m`. The product modulo
`m` is therefore the difference itself, or the difference plus `m` where it is negative.
-/

namespace Pittsfield.Foundation

variable {a q r x : Nat}

def schrage (a q r x : Nat) : Int := a * (x % q : Nat) - r * (x / q : Nat)

theorem mul_eq_schrage : (a * x : Nat) = (a * q + r : Nat) * (x / q : Nat) + schrage a q r x := by
  have h : (x : Int) = q * (x / q : Nat) + (x % q : Nat) := by exact_mod_cast (Nat.div_add_mod x q).symm
  rw [schrage]
  push_cast at h ⊢
  linear_combination a * h

theorem mul_mod_lt (ha : 0 < a) (hq : 0 < q) : a * (x % q) < a * q + r :=
  Nat.lt_add_right r (Nat.mul_lt_mul_of_pos_left (Nat.mod_lt x hq) ha)

theorem mul_div_lt (ha : 0 < a) (hr : r < q) (hx : x < a * q + r) : r * (x / q) < a * q + r := by
  have hq : 0 < q := Nat.zero_lt_of_lt hr
  have hdiv : x / q ≤ a := by
    apply Nat.le_of_lt_succ
    apply Nat.div_lt_of_lt_mul
    rw [Nat.mul_succ, Nat.mul_comm q a]
    omega
  calc r * (x / q) ≤ r * a := Nat.mul_le_mul_left r hdiv
    _ < q * a := Nat.mul_lt_mul_of_pos_right hr ha
    _ ≤ a * q + r := by rw [Nat.mul_comm q a]; exact Nat.le_add_right _ r

/-- The difference is the product modulo `m`, unless it is negative; then `m` is missing. -/
theorem mul_mod_eq_schrage (ha : 0 < a) (hr : r < q) (hx : x < a * q + r) :
    ((a * x % (a * q + r) : Nat) : Int) =
      if schrage a q r x < 0 then schrage a q r x + (a * q + r : Nat) else schrage a q r x := by
  have hq : 0 < q := Nat.zero_lt_of_lt hr
  have hlow : (a * (x % q) : Nat) < (a * q + r : Nat) := mul_mod_lt ha hq
  have hhigh : (r * (x / q) : Nat) < (a * q + r : Nat) := mul_div_lt ha hr hx
  have hd : schrage a q r x = (a * (x % q) : Nat) - (r * (x / q) : Nat) := by
    rw [schrage]
    push_cast
    rfl
  rw [Int.natCast_mod, mul_eq_schrage (a := a) (q := q) (r := r), Int.mul_add_emod_self_left]
  split
  · rw [← Int.add_emod_right]
    exact Int.emod_eq_of_lt (by omega) (by omega)
  · exact Int.emod_eq_of_lt (by omega) (by omega)

end Pittsfield.Foundation
