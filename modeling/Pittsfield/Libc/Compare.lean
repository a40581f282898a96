import Pittsfield.Foundation.Lexicographic
import Pittsfield.Machine.Cpu

/-!
# `memcmp`, `strcmp` and `strncmp` of `libc.h`

The three loops subtract plain `char`s, which are signed. They stop at the same places as
the functions of the standard and decide a total preorder, but it is the one of signed
bytes: it differs from the one of unsigned bytes where the first two bytes that differ
lie on both sides of 128.
-/

namespace Pittsfield.Libc

open Pittsfield.Foundation
open Pittsfield.Region
open Pittsfield.Machine

/-- `memcmp` from the index `i` on, with `n` bytes to go. -/
def memcmpFrom (mem : Word → BitVec 8) (s1 s2 : Word) : Nat → Nat → Int
  | _, 0 => 0
  | i, n + 1 =>
    let a := mem (s1 + BitVec.ofNat 32 i)
    let b := mem (s2 + BitVec.ofNat 32 i)
    if a ≠ b then a.toInt - b.toInt else memcmpFrom mem s1 s2 (i + 1) n

def memcmp (mem : Word → BitVec 8) (v1 v2 count : Word) : Int := memcmpFrom mem v1 v2 0 count.toNat

/-- `strcmp`, none if it takes more than the given number of rounds. -/
def strcmp (mem : Word → BitVec 8) : Nat → Word → Word → Option Int
  | 0, _, _ => none
  | n + 1, s1, s2 =>
    if mem s1 ≠ 0 ∧ mem s1 = mem s2 then strcmp mem n (s1 + 1) (s2 + 1)
    else some ((mem s1).toInt - (mem s2).toInt)

/-- `strncmp` from the index `i` on, with `n` bytes to go. -/
def strncmpFrom (mem : Word → BitVec 8) (s1 s2 : Word) : Nat → Nat → Int
  | _, 0 => 0
  | i, n + 1 =>
    let a := mem (s1 + BitVec.ofNat 32 i)
    let b := mem (s2 + BitVec.ofNat 32 i)
    if a ≠ b then a.toInt - b.toInt else if a = 0 then 0 else strncmpFrom mem s1 s2 (i + 1) n

def strncmp (mem : Word → BitVec 8) (s1 s2 limit : Word) : Int := strncmpFrom mem s1 s2 0 limit.toNat

/-- The `n` bytes at an address. -/
def bytes (mem : Word → BitVec 8) : Nat → Word → List (BitVec 8)
  | 0, _ => []
  | n + 1, p => mem p :: bytes mem n (p + 1)

/-- What stands up to the first NUL, and the NUL. -/
def upToNul : List (BitVec 8) → List (BitVec 8)
  | [] => []
  | x :: l => if x = 0 then [x] else x :: upToNul l

/-- The string at `p` has the length `n`. -/
structure HasLength (mem : Word → BitVec 8) (p : Word) (n : Nat) : Prop where
  nul : mem (p + BitVec.ofNat 32 n) = 0
  chars : ∀ k < n, mem (p + BitVec.ofNat 32 k) ≠ 0

/-- The order of the bytes 0 to 255. -/
abbrev unsigned : BitVec 8 → BitVec 8 → Ordering := compareOn fun x => (x.toNat : Int)

/-- The order of `char`s on this target. -/
abbrev signed : BitVec 8 → BitVec 8 → Ordering := compareOn BitVec.toInt

/-- The two bytes lie on the same side of 128. -/
def SameHalf (x y : BitVec 8) : Prop := x.msb = y.msb

section Loops

variable {mem : Word → BitVec 8} {p q s1 s2 : Word} {i m n : Nat}

theorem next_byte (p : Word) (i : Nat) : p + BitVec.ofNat 32 i + 1 = p + BitVec.ofNat 32 (i + 1) := by
  rw [BitVec.ofNat_add, BitVec.add_assoc]
  rfl

theorem bytes_length (mem : Word → BitVec 8) (n : Nat) (p : Word) : (bytes mem n p).length = n := by
  induction n generalizing p with
  | zero => rfl
  | succ n ih => rw [bytes, List.length_cons, ih]

theorem memcmpFrom_eq : memcmpFrom mem s1 s2 i n =
    firstDiff BitVec.toInt (bytes mem n (s1 + BitVec.ofNat 32 i)) (bytes mem n (s2 + BitVec.ofNat 32 i)) := by
  induction n generalizing i with
  | zero => rfl
  | succ n ih =>
    rw [memcmpFrom, bytes, bytes, firstDiff, next_byte, next_byte]
    by_cases h : mem (s1 + BitVec.ofNat 32 i) = mem (s2 + BitVec.ofNat 32 i)
    · rw [if_pos h, if_neg (not_not.mpr h), ih]
    · rw [if_neg h, if_pos h]

theorem memcmp_eq (count : Word) : memcmp mem s1 s2 count =
    firstDiff BitVec.toInt (bytes mem count.toNat s1) (bytes mem count.toNat s2) := by
  rw [memcmp, memcmpFrom_eq, BitVec.add_zero, BitVec.add_zero]

theorem strncmpFrom_eq : strncmpFrom mem s1 s2 i n =
    firstDiff BitVec.toInt (upToNul (bytes mem n (s1 + BitVec.ofNat 32 i)))
      (upToNul (bytes mem n (s2 + BitVec.ofNat 32 i))) := by
  induction n generalizing i with
  | zero => rfl
  | succ n ih =>
    rw [strncmpFrom, bytes, bytes, upToNul, upToNul, next_byte, next_byte]
    by_cases h : mem (s1 + BitVec.ofNat 32 i) = mem (s2 + BitVec.ofNat 32 i)
    · rw [if_neg (not_not.mpr h), ← h]
      by_cases hnul : mem (s1 + BitVec.ofNat 32 i) = 0
      · rw [if_pos hnul, if_pos hnul, if_pos hnul, firstDiff, if_pos rfl]
        rfl
      · rw [if_neg hnul, if_neg hnul, if_neg hnul, firstDiff, if_pos rfl, ih]
    · rw [if_pos h]
      split <;> split <;> rw [firstDiff, if_neg h]

theorem strncmp_eq (limit : Word) : strncmp mem s1 s2 limit =
    firstDiff BitVec.toInt (upToNul (bytes mem limit.toNat s1)) (upToNul (bytes mem limit.toNat s2)) := by
  rw [strncmp, strncmpFrom_eq, BitVec.add_zero, BitVec.add_zero]

theorem hasLength_zero : HasLength mem p 0 ↔ mem p = 0 := by
  constructor
  · intro h
    have hnul := h.nul
    rwa [BitVec.add_zero] at hnul
  · intro h
    refine ⟨?_, fun k hk => absurd hk (Nat.not_lt_zero k)⟩
    rwa [BitVec.add_zero]

theorem hasLength_succ : HasLength mem p (n + 1) ↔ mem p ≠ 0 ∧ HasLength mem (p + 1) n := by
  have hoff := Cpu.add_one_ofNat p
  constructor
  · intro h
    refine ⟨?_, ?_, ?_⟩
    · have hfirst := h.chars 0 (Nat.succ_pos n)
      rwa [BitVec.add_zero] at hfirst
    · rw [hoff]
      exact h.nul
    · intro k hk
      rw [hoff]
      exact h.chars (k + 1) (Nat.succ_lt_succ hk)
  · rintro ⟨hfirst, hnul, hchars⟩
    refine ⟨?_, ?_⟩
    · rw [← hoff]
      exact hnul
    · intro k hk
      cases k with
      | zero => rwa [BitVec.add_zero]
      | succ k =>
        rw [← hoff]
        exact hchars k (Nat.lt_of_succ_lt_succ hk)

/-- Two strings differ in their first byte, or are both empty, or go on behind a common
character. -/
theorem strings_cases (hp : HasLength mem p m) (hq : HasLength mem q n) :
    mem p ≠ mem q ∨ (mem p = mem q ∧ mem p = 0 ∧ m = 0 ∧ n = 0) ∨
      ∃ j k, m = j + 1 ∧ n = k + 1 ∧ mem p = mem q ∧ mem p ≠ 0 ∧
        HasLength mem (p + 1) j ∧ HasLength mem (q + 1) k := by
  by_cases hpq : mem p = mem q
  · apply Or.inr
    cases m with
    | zero =>
      have hnul := hasLength_zero.mp hp
      cases n with
      | zero => exact Or.inl ⟨hpq, hnul, rfl, rfl⟩
      | succ k => exact absurd (hpq.symm.trans hnul) (hasLength_succ.mp hq).1
    | succ j =>
      obtain ⟨hne, hj⟩ := hasLength_succ.mp hp
      cases n with
      | zero => exact absurd (hpq.trans (hasLength_zero.mp hq)) hne
      | succ k => exact Or.inr ⟨j, k, rfl, rfl, hpq, hne, hj, (hasLength_succ.mp hq).2⟩
  · exact Or.inl hpq

/-- The difference of two strings at the first place where they differ. -/
def stringDiff (mem : Word → BitVec 8) (p q : Word) (m n : Nat) : Int :=
  firstDiff BitVec.toInt (bytes mem (m + 1) p) (bytes mem (n + 1) q)

theorem stringDiff_first (h : mem p ≠ mem q) :
    stringDiff mem p q m n = (mem p).toInt - (mem q).toInt := if_neg h

theorem stringDiff_tail (h : mem p = mem q) :
    stringDiff mem p q (m + 1) (n + 1) = stringDiff mem (p + 1) (q + 1) m n := if_pos h

theorem stringDiff_empty (h : mem p = mem q) : stringDiff mem p q 0 0 = 0 := if_pos h

theorem matched_strings (hp : HasLength mem p m) (hq : HasLength mem q n) :
    Matched (bytes mem (m + 1) p) (bytes mem (n + 1) q) := by
  induction m generalizing p q n with
  | zero =>
    intro h
    obtain hne | ⟨-, -, -, rfl⟩ | ⟨j, k, hm, -⟩ := strings_cases hp hq
    · exact absurd h hne
    · exact trivial
    · cases hm
  | succ m ih =>
    intro h
    obtain hne | ⟨-, -, hm, -⟩ | ⟨j, k, hm, rfl, -, -, hj, hk⟩ := strings_cases hp hq
    · exact absurd h hne
    · cases hm
    · cases hm
      exact ih hj hk

/-- `strcmp` returns after at most as many rounds as the shorter string has bytes. -/
theorem strcmp_eq {fuel : Nat} (hp : HasLength mem p m) (hq : HasLength mem q n) (hf : min m n < fuel) :
    strcmp mem fuel p q = some (stringDiff mem p q m n) := by
  induction fuel generalizing p q m n with
  | zero => exact absurd hf (Nat.not_lt_zero _)
  | succ fuel ih =>
    rw [strcmp]
    obtain hne | ⟨hpq, hnul, rfl, rfl⟩ | ⟨j, k, rfl, rfl, hpq, hne, hj, hk⟩ := strings_cases hp hq
    · rw [if_neg fun h => hne h.2, stringDiff_first hne]
    · rw [if_neg fun h => h.1 hnul, stringDiff_empty hpq, hpq, Int.sub_self]
    · rw [if_pos ⟨hne, hpq⟩, stringDiff_tail hpq]
      exact ih hj hk (by omega)

/-- With a limit behind the end of the shorter string `strncmp` compares the whole strings. -/
theorem limited_eq {limit : Nat} (hp : HasLength mem p m) (hq : HasLength mem q n)
    (hl : min m n < limit) :
    firstDiff BitVec.toInt (upToNul (bytes mem limit p)) (upToNul (bytes mem limit q)) =
      stringDiff mem p q m n := by
  induction limit generalizing p q m n with
  | zero => exact absurd hl (Nat.not_lt_zero _)
  | succ limit ih =>
    rw [bytes, bytes, upToNul, upToNul]
    obtain hne | ⟨hpq, hnul, rfl, rfl⟩ | ⟨j, k, rfl, rfl, hpq, hne, hj, hk⟩ := strings_cases hp hq
    · rw [stringDiff_first hne]
      split <;> split <;> rw [firstDiff, if_neg hne]
    · rw [if_pos hnul, if_pos (hpq ▸ hnul), stringDiff_empty hpq, firstDiff, if_pos hpq]
      rfl
    · rw [if_neg hne, if_neg (hpq ▸ hne), stringDiff_tail hpq, firstDiff, if_pos hpq]
      exact ih hj hk (by omega)

/-- Up to the end of the shorter string `memcmp` and `strncmp` do the same. -/
theorem counted_eq {count : Nat} (hp : HasLength mem p m) (hq : HasLength mem q n)
    (hc : count ≤ min m n + 1) :
    firstDiff BitVec.toInt (bytes mem count p) (bytes mem count q) =
      firstDiff BitVec.toInt (upToNul (bytes mem count p)) (upToNul (bytes mem count q)) := by
  induction count generalizing p q m n with
  | zero => rfl
  | succ count ih =>
    rw [bytes, bytes, upToNul, upToNul]
    obtain hne | ⟨hpq, hnul, rfl, rfl⟩ | ⟨j, k, rfl, rfl, hpq, hne, hj, hk⟩ := strings_cases hp hq
    · rw [firstDiff, if_neg hne]
      split <;> split <;> rw [firstDiff, if_neg hne]
    · have hzero : count = 0 := by omega
      subst hzero
      rw [if_pos hnul, if_pos (hpq ▸ hnul)]
      rfl
    · rw [if_neg hne, if_neg (hpq ▸ hne), firstDiff, if_pos hpq, firstDiff, if_pos hpq]
      exact ih hj hk (by omega)

theorem HasLength.lt (h : HasLength mem p n) : n < 2 ^ 32 := by
  apply Nat.lt_of_not_le
  intro hle
  have hwrap : BitVec.ofNat 32 (n - 2 ^ 32) = BitVec.ofNat 32 n := by
    apply BitVec.eq_of_toNat_eq
    rw [BitVec.toNat_ofNat, BitVec.toNat_ofNat]
    omega
  have hne := h.chars (n - 2 ^ 32) (by omega)
  rw [hwrap] at hne
  exact hne h.nul

end Loops

section Orders

variable {l m : List (BitVec 8)}

theorem signed_eq_iff (x y : BitVec 8) : signed x y = .eq ↔ x = y :=
  compareOn_eq_iff fun _ _ h => BitVec.eq_of_toInt_eq h

theorem toNat_injective : Function.Injective fun x : BitVec 8 => (x.toNat : Int) :=
  fun _ _ h => BitVec.eq_of_toNat_eq (Int.ofNat.inj h)

theorem unsigned_eq_iff (x y : BitVec 8) : unsigned x y = .eq ↔ x = y :=
  compareOn_eq_iff toNat_injective

/-- Two different bytes are in the same order as `char`s and as bytes 0 to 255 exactly if they
lie on the same side of 128. -/
theorem signed_eq_unsigned_iff {x y : BitVec 8} (h : x ≠ y) :
    signed x y = unsigned x y ↔ SameHalf x y := by
  have hne : x.toNat ≠ y.toNat := fun he => h (BitVec.eq_of_toNat_eq he)
  have hx := x.isLt
  have hy := y.isLt
  rw [SameHalf, BitVec.msb_eq_decide, BitVec.msb_eq_decide, decide_eq_decide, signed, unsigned,
    compareOn, compareOn, BitVec.toInt_eq_toNat_cond, BitVec.toInt_eq_toNat_cond]
  by_cases hlx : 2 * x.toNat < 2 ^ 8
  · by_cases hly : 2 * y.toNat < 2 ^ 8
    · rw [if_pos hlx, if_pos hly]
      exact iff_of_true rfl (by omega)
    · rw [if_pos hlx, if_neg hly]
      apply iff_of_false
      · rw [compare_gt_iff_gt.mpr (by omega), compare_lt_iff_lt.mpr (by omega)]
        decide
      · omega
  · by_cases hly : 2 * y.toNat < 2 ^ 8
    · rw [if_neg hlx, if_pos hly]
      apply iff_of_false
      · rw [compare_lt_iff_lt.mpr (by omega), compare_gt_iff_gt.mpr (by omega)]
        decide
      · omega
    · rw [if_neg hlx, if_neg hly]
      refine iff_of_true ?_ (by omega)
      exact compare_congr (by omega) (by omega)

/-- A matched comparison of `char`s is that of unsigned bytes exactly if the first pair that
differs lies on the same side of 128. -/
theorem firstDiff_unsigned_iff (h : Matched l m) :
    compare (firstDiff BitVec.toInt l m) 0 = List.compareLex unsigned l m ↔ AtFirst SameHalf l m := by
  rw [compare_firstDiff (fun _ _ h => BitVec.eq_of_toInt_eq h) h,
    compareLex_eq_iff signed_eq_iff unsigned_eq_iff h]
  exact atFirst_congr fun x y hxy => signed_eq_unsigned_iff hxy

theorem matched_upToNul (h : l.length = m.length) : Matched (upToNul l) (upToNul m) := by
  induction l generalizing m with
  | nil => rw [List.length_eq_zero_iff.mp h.symm]; exact trivial
  | cons x l ih =>
    cases m with
    | nil => cases h
    | cons y m =>
      rw [upToNul, upToNul]
      by_cases hxy : x = y
      · rw [← hxy]
        by_cases hx : x = 0
        · rw [if_pos hx, if_pos hx]
          exact fun _ => trivial
        · rw [if_neg hx, if_neg hx]
          exact fun _ => ih (Nat.succ.inj h)
      · split <;> split <;> exact fun he => absurd he hxy

end Orders

section Claims

variable (mem : Word → BitVec 8)

/-- `memcmp` orders by the bytes from 0 to 255. -/
def MemcmpUnsigned (s1 s2 count : Word) : Prop :=
  compare (memcmp mem s1 s2 count) 0 =
    List.compareLex unsigned (bytes mem count.toNat s1) (bytes mem count.toNat s2)

/-- `strncmp` orders by the bytes from 0 to 255, up to the first NUL. -/
def StrncmpUnsigned (s1 s2 limit : Word) : Prop :=
  compare (strncmp mem s1 s2 limit) 0 =
    List.compareLex unsigned (upToNul (bytes mem limit.toNat s1)) (upToNul (bytes mem limit.toNat s2))

/-- `strcmp` returns and orders two strings by the bytes from 0 to 255. -/
def StrcmpUnsigned (s1 s2 : Word) (m n : Nat) : Prop :=
  ∃ r, (∀ fuel, min m n < fuel → strcmp mem fuel s1 s2 = some r) ∧
    compare r 0 = List.compareLex unsigned (bytes mem (m + 1) s1) (bytes mem (n + 1) s2)

/-- Each of the functions is a total preorder. -/
structure TotalPreorders : Prop where
  memcmp (count : Word) : Std.TransCmp fun p q => compare (memcmp mem p q count) 0
  strncmp (limit : Word) : Std.TransCmp fun p q => compare (strncmp mem p q limit) 0
  strcmp : Std.TransCmp fun p q : {p : Word // ∃ n, HasLength mem p n} =>
    compare ((strcmp mem (2 ^ 32) p q).getD 0) 0

/-- The functions agree on two strings of the lengths `m` and `n`. -/
structure Agreement (p q : Word) (m n : Nat) : Prop where
  counted (count : Word) : count.toNat ≤ min m n + 1 → memcmp mem p q count = strncmp mem p q count
  limited (limit : Word) (fuel : Nat) : min m n < limit.toNat → min m n < fuel →
    strcmp mem fuel p q = some (strncmp mem p q limit)

variable {mem}

theorem totalPreorders : TotalPreorders mem where
  memcmp count := by
    apply transCmp_of_eq (c := List.compareLex signed) (bytes mem count.toNat)
    intro p q
    rw [memcmp_eq]
    refine compare_firstDiff (fun _ _ h => BitVec.eq_of_toInt_eq h) (matched_of_length ?_)
    rw [bytes_length, bytes_length]
  strncmp limit := by
    apply transCmp_of_eq (c := List.compareLex signed) fun p => upToNul (bytes mem limit.toNat p)
    intro p q
    rw [strncmp_eq]
    refine compare_firstDiff (fun _ _ h => BitVec.eq_of_toInt_eq h) (matched_upToNul ?_)
    rw [bytes_length, bytes_length]
  strcmp := by
    apply transCmp_of_eq (c := List.compareLex signed)
      fun p : {p : Word // ∃ n, HasLength mem p n} => bytes mem (p.2.choose + 1) p
    intro p q
    have hp := p.2.choose_spec
    have hq := q.2.choose_spec
    rw [strcmp_eq hp hq (Nat.lt_of_le_of_lt (Nat.min_le_left _ _) hp.lt), Option.getD_some]
    exact compare_firstDiff (fun _ _ h => BitVec.eq_of_toInt_eq h) (matched_strings hp hq)

theorem agreement {p q : Word} {m n : Nat} (hp : HasLength mem p m) (hq : HasLength mem q n) :
    Agreement mem p q m n where
  counted count hc := by
    rw [memcmp_eq, strncmp_eq]
    exact counted_eq hp hq hc
  limited limit fuel hl hf := by
    rw [strcmp_eq hp hq hf, strncmp_eq, limited_eq hp hq hl]

/-- The three functions are total preorders and agree with one another, and each is the order
of unsigned bytes exactly where the first two bytes that differ lie on the same side of 128. -/
theorem comparisons_unsigned_iff :
    (∀ s1 s2 count, MemcmpUnsigned mem s1 s2 count ↔
      AtFirst SameHalf (bytes mem count.toNat s1) (bytes mem count.toNat s2)) ∧
    (∀ s1 s2 limit, StrncmpUnsigned mem s1 s2 limit ↔
      AtFirst SameHalf (upToNul (bytes mem limit.toNat s1)) (upToNul (bytes mem limit.toNat s2))) ∧
    (∀ s1 s2 m n, HasLength mem s1 m → HasLength mem s2 n → (StrcmpUnsigned mem s1 s2 m n ↔
      AtFirst SameHalf (bytes mem (m + 1) s1) (bytes mem (n + 1) s2))) ∧
    TotalPreorders mem ∧
    ∀ s1 s2 m n, HasLength mem s1 m → HasLength mem s2 n → Agreement mem s1 s2 m n := by
  refine ⟨?_, ?_, ?_, totalPreorders, fun _ _ _ _ => agreement⟩
  · intro s1 s2 count
    rw [MemcmpUnsigned, memcmp_eq]
    apply firstDiff_unsigned_iff (matched_of_length _)
    rw [bytes_length, bytes_length]
  · intro s1 s2 limit
    rw [StrncmpUnsigned, strncmp_eq]
    apply firstDiff_unsigned_iff (matched_upToNul _)
    rw [bytes_length, bytes_length]
  · intro s1 s2 m n hp hq
    have hiff := firstDiff_unsigned_iff (matched_strings hp hq)
    constructor
    · rintro ⟨r, hr, hcmp⟩
      have hret := (hr _ (Nat.lt_succ_self _)).symm.trans (strcmp_eq hp hq (Nat.lt_succ_self _))
      rw [Option.some.inj hret] at hcmp
      exact hiff.mp hcmp
    · intro h
      exact ⟨_, fun fuel hf => strcmp_eq hp hq hf, hiff.mpr h⟩

/-- The byte 128 at the address 1 compares below the byte 0 at the address 0. -/
theorem high_byte_below : ¬ ∀ (mem : Word → BitVec 8) (s1 s2 count : Word),
    MemcmpUnsigned mem s1 s2 count := by
  intro h
  have hbelow := h (fun a => if a = 1 then 128 else 0) 1 0 1
  rw [MemcmpUnsigned] at hbelow
  exact absurd hbelow (by decide)

end Claims

end Pittsfield.Libc
