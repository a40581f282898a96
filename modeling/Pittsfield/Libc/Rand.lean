import Mathlib.Data.Nat.GCD.Basic
import Pittsfield.Foundation.Schrage
import Pittsfield.Region.Sizes

/-!
# `srand` and `rand` of `libc.c`

The state is the word `random_seed`. A call of `rand` multiplies it by 48271 modulo
`2^31 - 1` with Schrage's decomposition, but adds 48271 and not the modulus to a difference
that is negative. The results are those of the generator up to the first such difference.
-/

namespace Pittsfield.Libc

open Pittsfield.Foundation
open Pittsfield.Region

/-- The value of a signed operation, none if it is not an `int`. -/
def int (z : Int) : Option Int := if -2 ^ 31 ≤ z ∧ z < 2 ^ 31 then some z else none

theorem int_some {z : Int} (hlow : -2 ^ 31 ≤ z) (hhigh : z < 2 ^ 31) : int z = some z :=
  if_pos ⟨hlow, hhigh⟩

def srand (seed : Word) : Word := seed

/-- The result and the new `random_seed`. -/
def rand (random_seed : Word) : Option (Int × Word) := do
  let x := random_seed.toInt
  let a ← int (48271 * x.tmod 44488)
  let b ← int (3399 * x.tdiv 44488)
  let x ← int (a - b)
  let x ← if x < 0 then int (x + 48271) else some x
  return (x, BitVec.ofInt 32 x)

/-- The results of `n` calls, and the `random_seed` behind them. -/
def rands : Nat → Word → Option (List Int × Word)
  | 0, random_seed => some ([], random_seed)
  | n + 1, random_seed => do
    let (x, random_seed) ← rand random_seed
    let (xs, random_seed) ← rands n random_seed
    return (x :: xs, random_seed)

/-- The state of the generator after `k` steps from `s`. -/
def minstd (s k : Nat) : Nat := 48271 ^ k * s % (2 ^ 31 - 1)

/-- The next `n` calls return what the generator does from `s`, and nothing overflows. -/
def FollowsMinstd (s n : Nat) (random_seed : Word) : Prop :=
  ∃ xs w, rands n random_seed = some (xs, w) ∧ xs.length = n ∧
    (∀ k < n, xs[k]? = some (minstd s (k + 1) : Int)) ∧ ∀ x ∈ xs, 1 ≤ x ∧ x ≤ 2 ^ 31 - 2

theorem minstd_zero {s : Nat} (h : s < 2 ^ 31 - 1) : minstd s 0 = s := by
  rw [minstd, Nat.pow_zero, Nat.one_mul, Nat.mod_eq_of_lt h]

theorem minstd_add (s j k : Nat) : minstd (minstd s j) k = minstd s (j + k) := by
  rw [minstd, minstd, minstd, Nat.mul_mod_mod, ← Nat.mul_assoc, ← Nat.pow_add, Nat.add_comm k j]

/-- The generator never reaches zero. -/
theorem minstd_pos {s : Nat} (hpos : 0 < s) (h : s < 2 ^ 31 - 1) (k : Nat) : 0 < minstd s k := by
  apply Nat.pos_of_ne_zero
  intro hzero
  have hdvd : 2 ^ 31 - 1 ∣ 48271 ^ k * s := Nat.dvd_of_mod_eq_zero hzero
  have hcop : Nat.Coprime (2 ^ 31 - 1) (48271 ^ k) := Nat.Coprime.pow_right k (by decide)
  have hs : 2 ^ 31 - 1 ∣ s := hcop.dvd_of_dvd_mul_left hdvd
  exact absurd (Nat.le_of_dvd hpos hs) (Nat.not_le.mpr h)

theorem minstd_lt (s k : Nat) : minstd s k < 2 ^ 31 - 1 := Nat.mod_lt _ (by decide)

theorem rands_succ {n : Nat} {x : Int} {w w' : Word} (hr : rand w = some (x, w')) :
    rands (n + 1) w = (rands n w').map fun ys => (x :: ys.1, ys.2) := by
  simp only [rands, hr, Option.bind_eq_bind, Option.bind_some]
  cases rands n w' with
  | none => rfl
  | some ys => rfl

section Call

variable {s : Nat}

/-- One call: Schrage's difference, with 48271 added where it is negative. -/
theorem rand_schrage (h : s < 2 ^ 31 - 1) : rand (BitVec.ofNat 32 s) =
    let d := schrage 48271 44488 3399 s
    let x := if d < 0 then d + 48271 else d
    some (x, BitVec.ofInt 32 x) := by
  have hlow : 48271 * (s % 44488) < 48271 * 44488 + 3399 := mul_mod_lt (by decide) (by decide)
  have hhigh : 3399 * (s / 44488) < 48271 * 44488 + 3399 :=
    mul_div_lt (by decide) (by decide) (by omega)
  have hx : (BitVec.ofNat 32 s).toInt = (s : Int) := by
    rw [BitVec.toInt_eq_toNat_of_lt (by rw [BitVec.toNat_ofNat]; omega), BitVec.toNat_ofNat,
      Nat.mod_eq_of_lt (by omega)]
  have ha : int (48271 * (s : Int).tmod 44488) = some (48271 * ((s % 44488 : Nat) : Int)) := by
    rw [show (44488 : Int) = ((44488 : Nat) : Int) from rfl, ← Int.ofNat_tmod]
    exact int_some (by omega) (by omega)
  have hb : int (3399 * (s : Int).tdiv 44488) = some (3399 * ((s / 44488 : Nat) : Int)) := by
    rw [show (44488 : Int) = ((44488 : Nat) : Int) from rfl, ← Int.ofNat_tdiv]
    exact int_some (by omega) (by omega)
  have hd : int (48271 * ((s % 44488 : Nat) : Int) - 3399 * ((s / 44488 : Nat) : Int)) =
      some (schrage 48271 44488 3399 s) := int_some (by omega) (by omega)
  have hfix : schrage 48271 44488 3399 s < 0 →
      int (schrage 48271 44488 3399 s + 48271) = some (schrage 48271 44488 3399 s + 48271) := by
    intro hneg
    rw [schrage] at hneg ⊢
    exact int_some (by omega) (by omega)
  rw [rand, hx]
  simp only [ha, hb, hd, Option.bind_eq_bind, Option.bind_some]
  by_cases hneg : schrage 48271 44488 3399 s < 0
  · simp only [if_pos hneg, hfix hneg]
    rfl
  · simp only [if_neg hneg]
    rfl

/-- The generator makes the same call with the whole modulus. -/
theorem minstd_schrage (h : s < 2 ^ 31 - 1) : (minstd s 1 : Int) =
    let d := schrage 48271 44488 3399 s
    if d < 0 then d + (2 ^ 31 - 1) else d := by
  rw [minstd, Nat.pow_one]
  exact mul_mod_eq_schrage (a := 48271) (q := 44488) (r := 3399) (by decide) (by decide) (by omega)

/-- A call returns what the generator does exactly if Schrage's difference is not negative. -/
theorem rand_minstd (h : s < 2 ^ 31 - 1) : ∃ x, rand (BitVec.ofNat 32 s) = some (x, BitVec.ofInt 32 x) ∧
    (x = minstd s 1 ↔ 3399 * (s / 44488) ≤ 48271 * (s % 44488)) := by
  refine ⟨_, rand_schrage h, ?_⟩
  have hd : schrage 48271 44488 3399 s < 0 ↔ ¬ 3399 * (s / 44488) ≤ 48271 * (s % 44488) := by
    rw [schrage]
    omega
  rw [minstd_schrage h]
  by_cases hneg : schrage 48271 44488 3399 s < 0
  · simp only [if_pos hneg]
    have hnot := hd.mp hneg
    constructor
    · intro heq
      omega
    · intro hle
      exact absurd hle hnot
  · simp only [if_neg hneg]
    exact iff_of_true trivial (not_not.mp fun hle => hneg (hd.mpr hle))

/-- The first of the calls returns what the generator does, and the others go on from there. -/
theorem followsMinstd_succ {n : Nat} {x : Int} {w w' : Word} (hpos : 0 < s) (h : s < 2 ^ 31 - 1)
    (hr : rand w = some (x, w')) :
    FollowsMinstd s (n + 1) w ↔ x = minstd s 1 ∧ FollowsMinstd (minstd s 1) n w' := by
  have hstep : ∀ k, minstd (minstd s 1) k = minstd s (k + 1) := by
    intro k
    rw [minstd_add, Nat.add_comm]
  constructor
  · rintro ⟨xs, v, hrun, hlen, hval, hrange⟩
    rw [rands_succ hr] at hrun
    obtain ⟨⟨ys, u⟩, hys, hxs⟩ := Option.map_eq_some_iff.mp hrun
    cases hxs
    refine ⟨Option.some.inj (hval 0 (Nat.succ_pos n)), ys, u, hys, Nat.succ.inj hlen, ?_, ?_⟩
    · intro k hk
      rw [hstep]
      exact hval (k + 1) (Nat.succ_lt_succ hk)
    · intro y hy
      exact hrange y (List.mem_cons_of_mem x hy)
  · rintro ⟨hx, ys, u, hys, hlen, hval, hrange⟩
    refine ⟨x :: ys, u, ?_, congrArg Nat.succ hlen, ?_, ?_⟩
    · rw [rands_succ hr, hys]
      rfl
    · intro k hk
      cases k with
      | zero => rw [hx]; rfl
      | succ k =>
        rw [← hstep]
        exact hval k (Nat.lt_of_succ_lt_succ hk)
    · intro y hy
      rcases List.mem_cons.mp hy with rfl | hy
      · have hp := minstd_pos hpos h 1
        have hlt := minstd_lt s 1
        omega
      · exact hrange y hy

end Call

theorem followsMinstd_iff {s : Nat} (hpos : 0 < s) (h : s < 2 ^ 31 - 1) (n : Nat) :
    FollowsMinstd s n (BitVec.ofNat 32 s) ↔
      ∀ k < n, 3399 * (minstd s k / 44488) ≤ 48271 * (minstd s k % 44488) := by
  induction n generalizing s with
  | zero =>
    apply iff_of_true
    · exact ⟨[], _, rfl, rfl, fun k hk => absurd hk (Nat.not_lt_zero k), fun x hx => nomatch hx⟩
    · exact fun k hk => absurd hk (Nat.not_lt_zero k)
  | succ n ih =>
    obtain ⟨x, hr, hx⟩ := rand_minstd h
    have hrest := ih (minstd_pos hpos h 1) (minstd_lt s 1)
    rw [followsMinstd_succ hpos h hr]
    constructor
    · rintro ⟨hfirst, hfollows⟩ k hk
      cases k with
      | zero =>
        rw [minstd_zero h]
        exact hx.mp hfirst
      | succ k =>
        rw [hfirst] at hfollows
        rw [Nat.add_comm k 1, ← minstd_add]
        exact hrest.mp hfollows k (Nat.lt_of_succ_lt_succ hk)
    · intro hall
      have hfirst : x = minstd s 1 := by
        apply hx.mpr
        have h0 := hall 0 (Nat.succ_pos n)
        rwa [minstd_zero h] at h0
      refine ⟨hfirst, ?_⟩
      rw [hfirst]
      apply hrest.mpr
      intro k hk
      rw [minstd_add, Nat.add_comm]
      exact hall (k + 1) (Nat.succ_lt_succ hk)

/-- The calls from a seed return what the generator does as long as Schrage's difference is
nowhere negative, and no longer. -/
theorem rands_minstd_iff (s : Word) (hpos : 1 ≤ s.toNat) (hs : s.toNat ≤ 2 ^ 31 - 2) (n : Nat) :
    FollowsMinstd s.toNat n (srand s) ↔
      ∀ k < n, 3399 * (minstd s.toNat k / 44488) ≤ 48271 * (minstd s.toNat k % 44488) := by
  have h := followsMinstd_iff hpos (Nat.lt_succ_of_le hs) n
  rwa [BitVec.ofNat_toNat, BitVec.setWidth_eq] at h

/-- The first result from the seed 1 is 48271. -/
theorem rands_minstd_one : FollowsMinstd 1 1 (srand 1) :=
  (rands_minstd_iff 1 (by decide) (by decide) 1).mpr (by decide)

/-- The first result from the seed 44488 is 44872, the generator says 2147480248. -/
theorem rand_misses_modulus : ¬ ∀ s : Word, 1 ≤ s.toNat → s.toNat ≤ 2 ^ 31 - 2 → ∀ n,
    FollowsMinstd s.toNat n (srand s) := by
  intro h
  obtain ⟨xs, w, hrun, -, hval, -⟩ := h 44488 (by decide) (by decide) 1
  have hfirst : rands 1 (srand 44488) = some ([44872], 44872) := by decide
  rw [hfirst] at hrun
  cases hrun
  exact absurd (hval 0 Nat.one_pos) (by decide)

end Pittsfield.Libc
