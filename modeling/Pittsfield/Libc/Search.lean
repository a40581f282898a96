import Pittsfield.Libc.Compare

/-!
# `memchr`, `strchr` and `strrchr` of `libc.h`

The loops compare a plain `char`, which is signed, with the `int` that was passed, and
those on strings stop in front of the NUL. So a `c` outside the range of `char` is never
found, and the NUL is never found either.
-/

namespace Pittsfield.Libc

open Pittsfield.Region

section

variable (mem : Word → BitVec 8) (c : Word)

/-- `memchr` from the index `i` on, with `n` bytes to go; the null pointer is `none`. -/
def memchrFrom (s : Word) : Nat → Nat → Option Word
  | _, 0 => none
  | i, n + 1 =>
    if (mem (s + BitVec.ofNat 32 i)).toInt = c.toInt then some (s + BitVec.ofNat 32 i)
    else memchrFrom s (i + 1) n

def memchr (s n : Word) : Option Word := memchrFrom mem c s 0 n.toNat

/-- `strchr`, none if it takes more than the given number of rounds. -/
def strchr : Nat → Word → Option (Option Word)
  | 0, _ => none
  | n + 1, p =>
    if mem p ≠ 0 then if (mem p).toInt = c.toInt then some (some p) else strchr n (p + 1)
    else some none

/-- The loop of `strrchr`, with the last hit so far. -/
def strrchrFrom : Nat → Word → Option Word → Option (Option Word)
  | 0, _, _ => none
  | n + 1, p, q =>
    if mem p ≠ 0 then strrchrFrom n (p + 1) (if (mem p).toInt = c.toInt then some p else q)
    else some q

def strrchr (fuel : Nat) (s : Word) : Option (Option Word) := strrchrFrom mem c fuel s none

/-- The byte with the index `i` is `c`, converted to a byte. -/
def Hit (s : Word) (i : Nat) : Prop := mem (s + BitVec.ofNat 32 i) = c.setWidth 8

/-- What the loops compare. -/
def Found (s : Word) (i : Nat) : Prop := (mem (s + BitVec.ofNat 32 i)).toInt = c.toInt

/-- The value of a `char`. -/
def CharValue : Prop := -128 ≤ c.toInt ∧ c.toInt ≤ 127

end

/-- The pointer to a hit among `n` positions such that no hit comes ahead of it, or the null
pointer if there is no hit. -/
def Picks (ahead : Nat → Nat → Prop) (hit : Nat → Prop) (s : Word) (n : Nat) : Option Word → Prop
  | none => ∀ i < n, ¬ hit i
  | some p => ∃ i < n, p = s + BitVec.ofNat 32 i ∧ hit i ∧ ∀ j < n, ahead j i → ¬ hit j

section

variable {mem : Word → BitVec 8} {c s : Word} {i m n len : Nat}

theorem charValue_iff (b : BitVec 8) (c : Word) :
    b.toInt = c.toInt ↔ b = c.setWidth 8 ∧ CharValue c := by
  have hb := b.isLt
  have hc := c.isLt
  have hconv : b = c.setWidth 8 ↔ b.toNat = c.toNat % 2 ^ 8 := by
    rw [← BitVec.toNat_setWidth]
    exact BitVec.toNat_eq
  rw [hconv, CharValue, BitVec.toInt_eq_toNat_cond, BitVec.toInt_eq_toNat_cond]
  omega

theorem found_iff : Found mem c s i ↔ Hit mem c s i ∧ CharValue c := charValue_iff _ c

/-- The loops settle the first `m` of the `n` positions, and `ok` says that what they find are
the hits among them and that there are no others. -/
theorem picks_iff {ahead : Nat → Nat → Prop} {found hit : Nat → Prop} {ok : Prop} {r : Option Word}
    (h : Picks ahead found s m r) (hmn : m ≤ n)
    (hok : ok → (∀ i < m, found i ↔ hit i) ∧ ∀ i, m ≤ i → i < n → ¬ hit i)
    (hnot : ¬ ok → ∀ i < m, ¬ found i) :
    Picks ahead hit s n r ↔ ok ∨ ∀ i < n, ¬ hit i := by
  by_cases hcase : ok
  · obtain ⟨hfound, hrest⟩ := hok hcase
    refine ⟨fun _ => Or.inl hcase, fun _ => ?_⟩
    have hno : ∀ j < n, (j < m → ¬ found j) → ¬ hit j := by
      intro j hj hsmall
      by_cases hjm : j < m
      · rw [← hfound j hjm]
        exact hsmall hjm
      · exact hrest j (Nat.le_of_not_lt hjm) hj
    cases r with
    | none => exact fun i hi => hno i hi (h i)
    | some p =>
      obtain ⟨i, hi, hp, hhit, hahead⟩ := h
      refine ⟨i, Nat.lt_of_lt_of_le hi hmn, hp, (hfound i hi).mp hhit, ?_⟩
      intro j hj hji
      exact hno j hj fun hjm => hahead j hjm hji
  · cases r with
    | none => exact (or_iff_right hcase).symm
    | some p =>
      obtain ⟨i, hi, _, hhit, _⟩ := h
      exact absurd hhit (hnot hcase i hi)

theorem memchrFrom_picks (h : ∀ j < i, ¬ Found mem c s j) :
    Picks (· < ·) (Found mem c s) s (i + n) (memchrFrom mem c s i n) := by
  induction n generalizing i with
  | zero => exact h
  | succ n ih =>
    rw [memchrFrom]
    by_cases hfound : (mem (s + BitVec.ofNat 32 i)).toInt = c.toInt
    · rw [if_pos hfound]
      exact ⟨i, by omega, rfl, hfound, fun j _ hj => h j hj⟩
    · rw [if_neg hfound, Nat.add_comm n, ← Nat.add_assoc]
      apply ih
      intro j hj
      by_cases hji : j = i
      · rw [hji]
        exact hfound
      · exact h j (by omega)

/-- The loop of `strchr` from the index `i` on. -/
theorem strchr_picks (hlen : HasLength mem s len) (hi : i ≤ len) (h : ∀ j < i, ¬ Found mem c s j) :
    ∃ r, (∀ fuel, len - i < fuel → strchr mem c fuel (s + BitVec.ofNat 32 i) = some r) ∧
      Picks (· < ·) (Found mem c s) s len r := by
  generalize hleft : len - i = left
  induction left generalizing i with
  | zero =>
    have hend : i = len := by omega
    refine ⟨none, ?_, hend ▸ h⟩
    intro fuel hfuel
    obtain ⟨fuel, rfl⟩ := Nat.exists_eq_succ_of_ne_zero (Nat.ne_zero_of_lt hfuel)
    rw [strchr, hend, if_neg (not_not.mpr hlen.nul)]
  | succ left ih =>
    have hchar := hlen.chars i (by omega)
    by_cases hfound : (mem (s + BitVec.ofNat 32 i)).toInt = c.toInt
    · refine ⟨some (s + BitVec.ofNat 32 i), ?_, i, by omega, rfl, hfound, fun j _ hj => h j hj⟩
      intro fuel hfuel
      obtain ⟨fuel, rfl⟩ := Nat.exists_eq_succ_of_ne_zero (Nat.ne_zero_of_lt hfuel)
      rw [strchr, if_pos hchar, if_pos hfound]
    · have hnext : ∀ j < i + 1, ¬ Found mem c s j := by
        intro j hj
        by_cases hji : j = i
        · rw [hji]
          exact hfound
        · exact h j (by omega)
      obtain ⟨r, hrun, hpicks⟩ := ih (by omega) hnext (by omega)
      refine ⟨r, ?_, hpicks⟩
      intro fuel hfuel
      obtain ⟨fuel, rfl⟩ := Nat.exists_eq_succ_of_ne_zero (Nat.ne_zero_of_lt hfuel)
      rw [strchr, if_pos hchar, if_neg hfound, next_byte]
      exact hrun fuel (by omega)

/-- One more position for the loop of `strrchr`. -/
theorem Picks.step {q : Option Word} (h : Picks (· > ·) (Found mem c s) s i q) :
    Picks (· > ·) (Found mem c s) s (i + 1)
      (if (mem (s + BitVec.ofNat 32 i)).toInt = c.toInt then some (s + BitVec.ofNat 32 i) else q) := by
  by_cases hfound : (mem (s + BitVec.ofNat 32 i)).toInt = c.toInt
  · rw [if_pos hfound]
    exact ⟨i, by omega, rfl, hfound, fun j hj hji => absurd hji (by omega)⟩
  · rw [if_neg hfound]
    have hlast : ∀ j < i + 1, (j < i → ¬ Found mem c s j) → ¬ Found mem c s j := by
      intro j hj hsmall
      by_cases hji : j = i
      · rw [hji]
        exact hfound
      · exact hsmall (by omega)
    cases q with
    | none => exact fun j hj => hlast j hj (h j)
    | some p =>
      obtain ⟨k, hk, hp, hhit, hahead⟩ := h
      exact ⟨k, by omega, hp, hhit, fun j hj hjk => hlast j hj fun hji => hahead j hji hjk⟩

theorem strrchrFrom_picks (hlen : HasLength mem s len) (hi : i ≤ len) {q : Option Word}
    (h : Picks (· > ·) (Found mem c s) s i q) :
    ∃ r, (∀ fuel, len - i < fuel → strrchrFrom mem c fuel (s + BitVec.ofNat 32 i) q = some r) ∧
      Picks (· > ·) (Found mem c s) s len r := by
  generalize hleft : len - i = left
  induction left generalizing i q with
  | zero =>
    have hend : i = len := by omega
    refine ⟨q, ?_, hend ▸ h⟩
    intro fuel hfuel
    obtain ⟨fuel, rfl⟩ := Nat.exists_eq_succ_of_ne_zero (Nat.ne_zero_of_lt hfuel)
    rw [strrchrFrom, hend, if_neg (not_not.mpr hlen.nul)]
  | succ left ih =>
    obtain ⟨r, hrun, hpicks⟩ := ih (by omega) h.step (by omega)
    refine ⟨r, ?_, hpicks⟩
    intro fuel hfuel
    obtain ⟨fuel, rfl⟩ := Nat.exists_eq_succ_of_ne_zero (Nat.ne_zero_of_lt hfuel)
    rw [strrchrFrom, if_pos (hlen.chars i (by omega)), next_byte]
    exact hrun fuel (by omega)

/-- What a string function finds are the hits if `c` is the value of a `char` that is not NUL. -/
theorem string_found (hlen : HasLength mem s len) (hok : CharValue c ∧ c ≠ 0) :
    (∀ i < len, Found mem c s i ↔ Hit mem c s i) ∧ ∀ i, len ≤ i → i < len + 1 → ¬ Hit mem c s i := by
  constructor
  · intro i _
    rw [found_iff, and_iff_left hok.1]
  · intro i hlow hhigh hhit
    have hend : i = len := by omega
    have hfound := found_iff.mpr ⟨hhit, hok.1⟩
    rw [Found, hend, hlen.nul] at hfound
    exact hok.2 (BitVec.eq_of_toInt_eq hfound.symm)

theorem string_not_found (hlen : HasLength mem s len) (hnot : ¬ (CharValue c ∧ c ≠ 0)) :
    ∀ i < len, ¬ Found mem c s i := by
  intro i hi hfound
  apply hnot
  refine ⟨(found_iff.mp hfound).2, ?_⟩
  intro hzero
  rw [Found, hzero] at hfound
  exact hlen.chars i hi (BitVec.eq_of_toInt_eq hfound)

/-- The three functions find the position asked for exactly where `c` is the value of a `char`
(for the functions on strings, other than NUL) or no position is asked for. -/
theorem search_iff (mem : Word → BitVec 8) (c : Word) :
    (∀ s n : Word, Picks (· < ·) (Hit mem c s) s n.toNat (memchr mem c s n) ↔
      CharValue c ∨ ∀ i < n.toNat, ¬ Hit mem c s i) ∧
    (∀ (s : Word) (len : Nat), HasLength mem s len → ∃ r,
      (∀ fuel, len < fuel → strchr mem c fuel s = some r) ∧
      (Picks (· < ·) (Hit mem c s) s (len + 1) r ↔
        (CharValue c ∧ c ≠ 0) ∨ ∀ i < len + 1, ¬ Hit mem c s i)) ∧
    ∀ (s : Word) (len : Nat), HasLength mem s len → ∃ r,
      (∀ fuel, len < fuel → strrchr mem c fuel s = some r) ∧
      (Picks (· > ·) (Hit mem c s) s (len + 1) r ↔
        (CharValue c ∧ c ≠ 0) ∨ ∀ i < len + 1, ¬ Hit mem c s i) := by
  refine ⟨?_, ?_, ?_⟩
  · intro s n
    have hpicks : Picks (· < ·) (Found mem c s) s (0 + n.toNat) (memchr mem c s n) :=
      memchrFrom_picks fun j hj => absurd hj (Nat.not_lt_zero j)
    rw [Nat.zero_add] at hpicks
    refine picks_iff hpicks le_rfl ?_ ?_
    · intro hchar
      refine ⟨?_, fun i hlow hhigh => absurd hlow (Nat.not_le.mpr hhigh)⟩
      intro i _
      rw [found_iff, and_iff_left hchar]
    · intro hnot i _ hfound
      exact hnot (found_iff.mp hfound).2
  · intro s len hlen
    have hnone : ∀ j < 0, ¬ Found mem c s j := fun j hj => absurd hj (Nat.not_lt_zero j)
    obtain ⟨r, hrun, hpicks⟩ := strchr_picks hlen (Nat.zero_le len) hnone
    rw [BitVec.add_zero, Nat.sub_zero] at hrun
    exact ⟨r, hrun, picks_iff hpicks (Nat.le_succ len) (string_found hlen) (string_not_found hlen)⟩
  · intro s len hlen
    have hnone : Picks (· > ·) (Found mem c s) s 0 none := fun j hj => absurd hj (Nat.not_lt_zero j)
    obtain ⟨r, hrun, hpicks⟩ := strrchrFrom_picks hlen (Nat.zero_le len) hnone
    rw [BitVec.add_zero, Nat.sub_zero] at hrun
    exact ⟨r, hrun, picks_iff hpicks (Nat.le_succ len) (string_found hlen) (string_not_found hlen)⟩

/-- The string `a` at 16. -/
def stringA : Word → BitVec 8 := fun x => if x = 16 then 0x61 else 0

/-- The letter of the string `a` is found. -/
theorem search_iff_string_a : ∃ r, (∀ fuel, 1 < fuel → strchr stringA 0x61 fuel 16 = some r) ∧
    (Picks (· < ·) (Hit stringA 0x61 16) 16 (1 + 1) r ↔
      (CharValue 0x61 ∧ (0x61 : Word) ≠ 0) ∨ ∀ i < 1 + 1, ¬ Hit stringA 0x61 16 i) :=
  (search_iff stringA 0x61).2.1 16 1 (hasLength_succ.mpr ⟨by decide, hasLength_zero.mpr rfl⟩)

/-- The byte 200 is not found, as it is the `char` -56. -/
theorem byte_200_missed : ¬ ∀ (mem : Word → BitVec 8) (c : Word),
    (∀ s n : Word, Picks (· < ·) (Hit mem c s) s n.toNat (memchr mem c s n)) ∧
    (∀ (s : Word) (len : Nat), HasLength mem s len → ∃ r,
      (∀ fuel, len < fuel → strchr mem c fuel s = some r) ∧
      Picks (· < ·) (Hit mem c s) s (len + 1) r) ∧
    ∀ (s : Word) (len : Nat), HasLength mem s len → ∃ r,
      (∀ fuel, len < fuel → strrchr mem c fuel s = some r) ∧
      Picks (· > ·) (Hit mem c s) s (len + 1) r := by
  intro h
  have hnone : ∀ i < 1, ¬ Hit (fun _ => 200) 200 16 i := (h (fun _ => 200) 200).1 16 1
  exact hnone 0 Nat.one_pos rfl

end

end Pittsfield.Libc
