import Mathlib.Data.Nat.Bitwise
import Mathlib.Data.Set.Basic
import Mathlib.Data.Int.Order.Basic
import Mathlib.Algebra.Order.Group.Unbundled.Int

/-!
# Displaced words and tagged masks

Words of any width, and how far a word can have drifted from a set of words.
`near S d` collects what up to `d` steps in either direction reach from `S`,
modulo the word size. Around an interval that drift stays in the interval and a
fringe of `d` words on either side. A mask whose high part is one tag bit sends
every word into one of two intervals.
-/

namespace Pittsfield.Foundation

variable {w : Nat}

/-- The words reached from `S` by a displacement of absolute value at most `d`. -/
def near (S : Set (BitVec w)) (d : Nat) : Set (BitVec w) :=
  {x | ∃ b ∈ S, ∃ k : Int, k.natAbs ≤ d ∧ x = b + BitVec.ofInt w k}

theorem mem_near_self {S : Set (BitVec w)} {x : BitVec w} (hx : x ∈ S) (d : Nat) : x ∈ near S d :=
  ⟨x, hx, 0, by simp, by simp⟩

theorem near_mono {S : Set (BitVec w)} {d e : Nat} (h : d ≤ e) : near S d ⊆ near S e := by
  rintro x ⟨b, hb, k, hk, rfl⟩
  exact ⟨b, hb, k, hk.trans h, rfl⟩

theorem near_subset {S T : Set (BitVec w)} (h : S ⊆ T) (d : Nat) : near S d ⊆ near T d := by
  rintro x ⟨b, hb, k, hk, rfl⟩
  exact ⟨b, h hb, k, hk, rfl⟩

/-- Displacements add up. -/
theorem near_add {S : Set (BitVec w)} {d : Nat} {x : BitVec w} (hx : x ∈ near S d) (k : Int) :
    x + BitVec.ofInt w k ∈ near S (d + k.natAbs) := by
  obtain ⟨b, hb, j, hj, rfl⟩ := hx
  refine ⟨b, hb, j + k, ?_, ?_⟩
  · have h := Int.natAbs_add_le j k
    omega
  · rw [BitVec.ofInt_add, BitVec.add_assoc]

theorem near_near {S : Set (BitVec w)} {d e : Nat} : near (near S d) e ⊆ near S (d + e) := by
  rintro x ⟨b, hb, k, hk, rfl⟩
  exact near_mono (by omega) (near_add hb k)

/-- A displacement can be taken back. -/
theorem near_of_add {S : Set (BitVec w)} {d : Nat} {x : BitVec w} (k : Int)
    (hx : x + BitVec.ofInt w k ∈ near S d) : x ∈ near S (d + k.natAbs) := by
  have h := near_add hx (-k)
  rw [BitVec.add_assoc, ← BitVec.ofInt_add, Int.add_right_neg, Int.natAbs_neg] at h
  simpa using h

/-- The `n` words from `lo` on. -/
def span (w lo n : Nat) : Set (BitVec w) := {x | lo ≤ x.toNat ∧ x.toNat < lo + n}

/-- The `d` words just before and just after the `n` words from `lo` on, wrapping around. -/
def fringe (w lo n d : Nat) : Set (BitVec w) :=
  {x | (x - BitVec.ofNat w (lo + n)).toNat < d ∨ (BitVec.ofNat w lo - 1 - x).toNat < d}

instance (lo n : Nat) (x : BitVec w) : Decidable (x ∈ span w lo n) :=
  inferInstanceAs (Decidable (_ ∧ _))

instance (lo n d : Nat) (x : BitVec w) : Decidable (x ∈ fringe w lo n d) :=
  inferInstanceAs (Decidable (_ ∨ _))

private theorem toNat_ofNat_le (m : Nat) : (BitVec.ofNat w m).toNat ≤ m := by
  rw [BitVec.toNat_ofNat]
  exact Nat.mod_le _ _

private theorem ofNat_self (b : BitVec w) : BitVec.ofNat w b.toNat = b := by
  apply BitVec.eq_of_toNat_eq
  rw [BitVec.toNat_ofNat, Nat.mod_eq_of_lt b.isLt]

/-- Upward drift from an interval stays in it or ends just after it. -/
theorem span_add {lo n d m : Nat} {b : BitVec w} (hfit : lo + n ≤ 2 ^ w) (hb : b ∈ span w lo n)
    (hm : m ≤ d) : b + BitVec.ofNat w m ∈ span w lo n ∨ b + BitVec.ofNat w m ∈ fringe w lo n d := by
  obtain ⟨hlo, hhi⟩ := hb
  by_cases hin : b.toNat + m < lo + n
  · have he : (b + BitVec.ofNat w m).toNat = b.toNat + m := by
      rw [BitVec.toNat_add, BitVec.toNat_ofNat, Nat.add_mod_mod, Nat.mod_eq_of_lt (by omega)]
    exact Or.inl ⟨by omega, by omega⟩
  · obtain ⟨r, hr⟩ : ∃ r, b.toNat + m = lo + n + r := ⟨b.toNat + m - (lo + n), by omega⟩
    have he : b + BitVec.ofNat w m - BitVec.ofNat w (lo + n) = BitVec.ofNat w r := by
      rw [← ofNat_self b, ← BitVec.ofNat_add, hr, BitVec.ofNat_add, BitVec.add_comm,
        BitVec.add_sub_cancel]
    have hle := toNat_ofNat_le (w := w) r
    refine Or.inr (Or.inl ?_)
    rw [he]
    omega

/-- Downward drift from an interval stays in it or ends just before it. -/
theorem span_sub {lo n d m : Nat} {b : BitVec w} (hb : b ∈ span w lo n) (hm : m ≤ d) :
    b - BitVec.ofNat w m ∈ span w lo n ∨ b - BitVec.ofNat w m ∈ fringe w lo n d := by
  obtain ⟨hlo, hhi⟩ := hb
  by_cases hin : lo + m ≤ b.toNat
  · have he : b - BitVec.ofNat w m = BitVec.ofNat w (b.toNat - m) := by
      have h : b = BitVec.ofNat w (b.toNat - m) + BitVec.ofNat w m := by
        rw [← BitVec.ofNat_add, Nat.sub_add_cancel (by omega), ofNat_self]
      conv_lhs => rw [h]
      exact BitVec.add_sub_cancel _ _
    have hn : (BitVec.ofNat w (b.toNat - m)).toNat = b.toNat - m := by
      rw [BitVec.toNat_ofNat, Nat.mod_eq_of_lt (by have := b.isLt; omega)]
    rw [he]
    exact Or.inl ⟨by omega, by omega⟩
  · obtain ⟨r, hr⟩ : ∃ r, lo + m = r + 1 + b.toNat := ⟨lo + m - 1 - b.toNat, by omega⟩
    have h : BitVec.ofNat w lo + BitVec.ofNat w m = BitVec.ofNat w r + 1 + b := by
      rw [← BitVec.ofNat_add, hr, BitVec.ofNat_add, BitVec.ofNat_add, ofNat_self]
      rfl
    have he : BitVec.ofNat w lo - 1 - (b - BitVec.ofNat w m) = BitVec.ofNat w r := by
      have h' : BitVec.ofNat w lo = BitVec.ofNat w r + 1 + b - BitVec.ofNat w m := by
        rw [← h, BitVec.add_sub_cancel]
      rw [h']
      grind
    have hle := toNat_ofNat_le (w := w) r
    refine Or.inr (Or.inr ?_)
    rw [he]
    omega

/-- Drift around an interval stays in the interval and its fringe. -/
theorem near_span {lo n d : Nat} (hfit : lo + n ≤ 2 ^ w) {x : BitVec w}
    (hx : x ∈ near (span w lo n) d) : x ∈ span w lo n ∨ x ∈ fringe w lo n d := by
  obtain ⟨b, hb, k, hk, rfl⟩ := hx
  rcases Int.eq_nat_or_neg k with ⟨m, rfl | rfl⟩
  · rw [BitVec.ofInt_natCast]
    exact span_add hfit hb (by omega)
  · rw [BitVec.ofInt_neg, BitVec.ofInt_natCast, ← BitVec.sub_eq_add_neg]
    exact span_sub hb (by omega)

/-- A mask made of a tag and `k` ones keeps the tagged part and the low `k` bits. -/
theorem land_tag (x t k : Nat) :
    x &&& (t * 2 ^ k + (2 ^ k - 1)) = ((x / 2 ^ k) &&& t) * 2 ^ k + x % 2 ^ k := by
  have hp : 0 < 2 ^ k := Nat.two_pow_pos k
  have hlt : 2 ^ k - 1 < 2 ^ k := by omega
  have hd : (x &&& (t * 2 ^ k + (2 ^ k - 1))) / 2 ^ k = (x / 2 ^ k) &&& t := by
    rw [Nat.and_div_two_pow, Nat.mul_comm t, Nat.mul_add_div hp, Nat.div_eq_of_lt hlt, Nat.add_zero]
  have hm : (x &&& (t * 2 ^ k + (2 ^ k - 1))) % 2 ^ k = x % 2 ^ k := by
    rw [Nat.and_mod_two_pow, Nat.mul_add_mod_self_right, Nat.mod_eq_of_lt hlt,
      Nat.and_two_pow_sub_one_eq_mod, Nat.mod_mod]
  rw [← Nat.div_add_mod' (x &&& (t * 2 ^ k + (2 ^ k - 1))) (2 ^ k), hd, hm]

/-- With a single tag bit the masked word lies in one of two intervals. -/
theorem and_tag_mem {j k : Nat} {m : BitVec w} (hm : m.toNat = 2 ^ j * 2 ^ k + (2 ^ k - 1))
    (x : BitVec w) : x &&& m ∈ span w (2 ^ j * 2 ^ k) (2 ^ k) ∪ span w 0 (2 ^ k) := by
  have hx : (x &&& m).toNat = ((x.toNat / 2 ^ k) &&& 2 ^ j) * 2 ^ k + x.toNat % 2 ^ k := by
    rw [BitVec.toNat_and, hm, land_tag]
  have hlt : x.toNat % 2 ^ k < 2 ^ k := Nat.mod_lt _ (Nat.two_pow_pos k)
  rw [Nat.and_two_pow] at hx
  cases hb : (x.toNat / 2 ^ k).testBit j with
  | false =>
    simp only [hb, Bool.toNat_false, Nat.zero_mul, Nat.zero_add] at hx
    exact Or.inr ⟨Nat.zero_le _, by omega⟩
  | true =>
    simp only [hb, Bool.toNat_true, Nat.one_mul] at hx
    exact Or.inl ⟨by omega, by omega⟩

/-- The words with the tag `t` are those whose part above the low `k` bits is `t`. -/
theorem mem_span_tag {t k : Nat} {x : BitVec w} :
    x ∈ span w (t * 2 ^ k) (2 ^ k) ↔ x.toNat / 2 ^ k = t := by
  have hp : 0 < 2 ^ k := Nat.two_pow_pos k
  rw [Nat.div_eq_iff hp]
  constructor
  · rintro ⟨hlo, hhi⟩
    exact ⟨hlo, by omega⟩
  · rintro ⟨hlo, hhi⟩
    exact ⟨hlo, by omega⟩

/-- Where a mask with the tag `t` sends a word depends on the tag bits of the word alone. -/
theorem and_tag_mem_iff {t k : Nat} {m : BitVec w} (hm : m.toNat / 2 ^ k = t) (x : BitVec w) :
    x &&& m ∈ span w (t * 2 ^ k) (2 ^ k) ∪ span w 0 (2 ^ k) ↔
      (x.toNat / 2 ^ k) &&& t = t ∨ (x.toNat / 2 ^ k) &&& t = 0 := by
  have hx : (x &&& m).toNat / 2 ^ k = (x.toNat / 2 ^ k) &&& t := by
    rw [BitVec.toNat_and, Nat.and_div_two_pow, hm]
  have h0 : x &&& m ∈ span w 0 (2 ^ k) ↔ (x &&& m).toNat / 2 ^ k = 0 := by
    have h := mem_span_tag (t := 0) (k := k) (x := x &&& m)
    rwa [Nat.zero_mul] at h
  rw [Set.mem_union, mem_span_tag, h0, hx]

/-- Clearing the low `k` bits rounds down to a multiple of `2 ^ k`. -/
theorem toNat_and_high (k : Nat) (x : BitVec w) :
    (x &&& ~~~BitVec.ofNat w (2 ^ k - 1)).toNat = x.toNat / 2 ^ k * 2 ^ k := by
  apply Nat.eq_of_testBit_eq
  intro i
  rw [BitVec.testBit_toNat, BitVec.getLsbD_and, Nat.testBit_mul_two_pow, Nat.testBit_div_two_pow]
  by_cases hi : i < w
  · simp only [BitVec.getLsbD_not, BitVec.getLsbD_ofNat, Nat.testBit_two_pow_sub_one, hi,
      decide_true, Bool.true_and]
    by_cases hki : k ≤ i
    · simp [hki, BitVec.testBit_toNat]
    · simp [hki, Nat.lt_of_not_le hki]
  · have h : x.toNat.testBit i = false := by
      rw [BitVec.testBit_toNat]
      exact BitVec.getLsbD_of_ge _ _ (Nat.le_of_not_lt hi)
    by_cases hki : k ≤ i
    · simp [hi, hki, h]
    · simp [hi, hki]

end Pittsfield.Foundation
