import Pittsfield.Libc.Sort

/-!
# `qsort` sorts

The partition keeps the pivot at `r` until it has split the range: the scans stop inside
the array, each round exchanges a pair and collects keys equal to the pivot at the ends.
What is left after the keys are moved back to the middle are two shorter ranges.
-/

namespace Pittsfield.Libc

open Pittsfield.Foundation
open Pittsfield.Region

/-- The sign of an element against the pivot. -/
def sign (A : Vec) (compar : List (BitVec 8) → List (BitVec 8) → Int) (pivot : List (BitVec 8))
    (mem : Word → BitVec 8) (k : Int) : Int := compar (entry A mem k) pivot

/-- The range of `Qsort` lies in the array, and its indices in a `long`. -/
structure InRange (A : Vec) (l r : Int) : Prop where
  low : 0 ≤ l
  high : r < A.nmemb.toNat
  long : r < 2 ^ 31

section Partition

variable {A : Vec} {compar : List (BitVec 8) → List (BitVec 8) → Int} {pivot : List (BitVec 8)}
variable {mem mem' : Word → BitVec 8} {l r i j p q k e : Int} {n : Nat}

theorem InRange.at (h : InRange A l r) (hl : l ≤ k) (hr : k ≤ r) : 0 ≤ k ∧ k < A.nmemb.toNat :=
  ⟨Int.le_trans h.low hl, Int.lt_of_le_of_lt hr h.high⟩

variable (compar pivot) in
theorem sign_swap (h : entry A mem' = entry A mem ∘ Equiv.swap i j) :
    sign A compar pivot mem' = sign A compar pivot mem ∘ Equiv.swap i j := by
  funext k
  rw [sign, h]
  rfl

variable (compar pivot) in
theorem sign_outside (h : Exchanged A i j mem mem') (hk : k < i ∨ j < k) :
    sign A compar pivot mem' k = sign A compar pivot mem k := by
  rw [sign, sign, h.entries.outside hk]

/-- An exchange inside the range. -/
theorem swap_exchanged (hfit : A.Fits) (h : InRange A l r) (mem : Word → BitVec 8)
    (hi : l ≤ i ∧ i ≤ r) (hj : l ≤ j ∧ j ≤ r) :
    ∃ mem', swap A mem i j = some mem' ∧ entry A mem' = entry A mem ∘ Equiv.swap i j ∧
      ∀ a b, a ≤ i → i ≤ b → a ≤ j → j ≤ b → Exchanged A a b mem mem' := by
  obtain ⟨mem', hswap, hentry, hout⟩ := iswapAt_idx hfit mem (h.at hi.1 hi.2) (h.at hj.1 hj.2)
  refine ⟨mem', hswap, hentry, ?_⟩
  intro a b hai hib haj hjb
  refine ⟨?_, hout⟩
  rw [hentry]
  exact rearranged_swap ⟨hai, hib⟩ ⟨haj, hjb⟩

theorem comparAt_pivot (h : InRange A l r) (hlr : l ≤ r) (hp : entry A mem r = pivot) (hl : l ≤ k)
    (hk : k ≤ r) : comparAt A compar mem (idx A.base A.size k) (idx A.base A.size r) =
      some (sign A compar pivot mem k) := by
  rw [comparAt_idx (h.at hl hk) (h.at hlr (Int.le_refl r)), hp, sign]

/-- The scan from below stops at the first element that is not smaller than the pivot. -/
theorem scanUp_stops (h : InRange A l r) (hp : entry A mem r = pivot) (hi : l - 1 ≤ i) (hie : i < e)
    (her : e ≤ r) (he : 0 ≤ sign A compar pivot mem e) (hn : e - i ≤ n) :
    ∃ k, scanUp A compar mem (idx A.base A.size r) n i = some k ∧ i < k ∧ k ≤ e ∧
      (∀ x, i < x → x < k → sign A compar pivot mem x < 0) ∧ 0 ≤ sign A compar pivot mem k := by
  have hlow := h.low
  have hlong := h.long
  induction n generalizing i with
  | zero => omega
  | succ n ih =>
    simp only [scanUp, long_eq (k := i + 1) (by omega) (by omega)]
    rw [comparAt_pivot h (by omega) hp (by omega) (by omega), Option.bind_eq_bind, Option.bind_some]
    by_cases hlt : sign A compar pivot mem (i + 1) < 0
    · rw [if_pos hlt]
      have hne : i + 1 ≠ e := by
        rintro rfl
        omega
      obtain ⟨k, hk, hik, hke, hless, hstop⟩ := ih (i := i + 1) (by omega) (by omega) (by omega)
      refine ⟨k, hk, by omega, hke, ?_, hstop⟩
      intro x hix hxk
      by_cases hx : x = i + 1
      · rw [hx]
        exact hlt
      · exact hless x (by omega) hxk
    · rw [if_neg hlt]
      exact ⟨i + 1, rfl, by omega, by omega, fun x hix hxk => by omega, Int.not_lt.mp hlt⟩

variable (compar) in
/-- The scan from above stops at the first element that is not greater, or at `l`. -/
theorem scanDown_stops (h : InRange A l r) (hp : entry A mem r = pivot) (hlj : l < j) (hjr : j ≤ r)
    (hn : j - l ≤ n) :
    ∃ k, scanDown A compar mem (idx A.base A.size r) l n j = some k ∧ l ≤ k ∧ k < j ∧
      (∀ x, k < x → x < j → 0 < sign A compar pivot mem x) ∧
      (k = l ∨ sign A compar pivot mem k ≤ 0) := by
  have hlow := h.low
  have hlong := h.long
  induction n generalizing j with
  | zero => omega
  | succ n ih =>
    simp only [scanDown, long_eq (k := j - 1) (by omega) (by omega)]
    rw [comparAt_pivot h (by omega) hp (by omega) (by omega), Option.bind_eq_bind, Option.bind_some]
    by_cases hgt : sign A compar pivot mem (j - 1) > 0
    · rw [if_pos hgt]
      by_cases hl : j - 1 = l
      · rw [if_pos hl]
        exact ⟨j - 1, rfl, by omega, by omega, fun x hkx hxj => by omega, Or.inl hl⟩
      · rw [if_neg hl]
        obtain ⟨k, hk, hlk, hkj, hmore, hstop⟩ := ih (j := j - 1) (by omega) (by omega) (by omega)
        refine ⟨k, hk, hlk, by omega, ?_, hstop⟩
        intro x hkx hxj
        by_cases hx : x = j - 1
        · rw [hx]
          exact hgt
        · exact hmore x hkx (by omega)
    · rw [if_neg hgt]
      exact ⟨j - 1, rfl, by omega, by omega, fun x hkx hxj => by omega, Or.inr (Int.not_lt.mp hgt)⟩

theorem collectLeft_low (hfit : A.Fits) (h : InRange A l r) (hp : entry A mem r = pivot)
    (hlow : Low (sign A compar pivot mem) l p (i - 1)) (hi : sign A compar pivot mem i ≤ 0)
    (hir : i < r) :
    ∃ p' mem', collectLeft A compar mem (idx A.base A.size r) p i = some (p', mem') ∧
      Exchanged A l i mem mem' ∧ Low (sign A compar pivot mem') l p' i := by
  have hstart := hlow.start
  have hstop := hlow.stop
  have h0 := h.low
  have hlong := h.long
  simp only [collectLeft, comparAt_pivot h (by omega : l ≤ r) hp (by omega : l ≤ i) hir.le,
    Option.bind_eq_bind, Option.bind_some]
  by_cases hzero : sign A compar pivot mem i = 0
  · rw [if_pos hzero, long_eq (by omega) (by omega)]
    obtain ⟨mem', hswap, hentry, hex⟩ := swap_exchanged hfit h mem (i := p + 1) (j := i)
      (by omega) (by omega)
    refine ⟨p + 1, mem', by rw [hswap]; rfl, hex l i (by omega) (by omega) (by omega) le_rfl, ?_⟩
    have hcollect := hlow.collect (by rwa [Int.sub_add_cancel])
    rw [Int.sub_add_cancel] at hcollect
    rwa [sign_swap compar pivot hentry]
  · rw [if_neg hzero]
    refine ⟨p, mem, rfl, Exchanged.refl _ _ _ _, hlow.extend (by omega) ?_⟩
    intro k hk hki
    rw [show k = i by omega]
    omega

theorem collectRight_high (hfit : A.Fits) (h : InRange A l r) (hp : entry A mem r = pivot)
    (hhigh : High (sign A compar pivot mem) (j + 1) q r) (hj : 0 ≤ sign A compar pivot mem j)
    (hlj : l < j) (hq : q ≤ r) :
    ∃ q' mem', collectRight A compar mem (idx A.base A.size r) q j = some (q', mem') ∧ q' ≤ r ∧
      Exchanged A j (r - 1) mem mem' ∧ High (sign A compar pivot mem') j q' r := by
  have hbounds := hhigh.bounds
  have h0 := h.low
  have hlong := h.long
  simp only [collectRight, comparAt_pivot h (by omega : l ≤ r) hp hlj.le (by omega : j ≤ r),
    Option.bind_eq_bind, Option.bind_some]
  by_cases hzero : sign A compar pivot mem j = 0
  · rw [if_pos hzero, long_eq (by omega) (by omega)]
    obtain ⟨mem', hswap, hentry, hex⟩ := swap_exchanged hfit h mem (i := q - 1) (j := j)
      (by omega) (by omega)
    refine ⟨q - 1, mem', by rw [hswap]; rfl, by omega,
      hex j (r - 1) (by omega) (by omega) le_rfl (by omega), ?_⟩
    have hcollect := hhigh.collect (by rwa [Int.add_sub_cancel])
    rw [Int.add_sub_cancel] at hcollect
    rwa [sign_swap compar pivot hentry]
  · rw [if_neg hzero]
    refine ⟨q, mem, rfl, hq, Exchanged.refl _ _ _ _, hhigh.extend (by omega) ?_⟩
    intro k hk hkj
    rw [show k = j by omega]
    omega

/-- The range when the scans have met at `i`. -/
structure Met (c : Int → Int) (l r i p q : Int) : Prop where
  low : Low c l p (i - 1)
  start : l ≤ i
  stop : i ≤ q
  bound : q ≤ r
  at_least : 0 ≤ c i
  greater : ∀ k, i < k → k < q → 0 < c k
  equal : ∀ k, q ≤ k → k ≤ r → c k = 0

theorem partition_meets (hfit : A.Fits) (h : InRange A l r) (hp : entry A mem r = pivot)
    (fuel : Nat) (hfuel : r - l + 1 ≤ fuel) (hlow : Low (sign A compar pivot mem) l p i)
    (hhigh : High (sign A compar pivot mem) j q r) (hij : i < j) (hlj : l < j) (hq : q ≤ r)
    (hn : j - i ≤ n) :
    ∃ P : Parted, partition A compar fuel (idx A.base A.size r) l n i j p q mem = some P ∧
      Exchanged A l (r - 1) mem P.mem ∧ Met (sign A compar pivot P.mem) l r P.i P.p P.q := by
  induction n generalizing i j p q mem with
  | zero => omega
  | succ n ih =>
    have hstart := hlow.start
    have hstop := hlow.stop
    have hbounds := hhigh.bounds
    obtain ⟨i', hi', hii', hi'j, hless, hnotless⟩ := scanUp_stops h hp (by omega) hij (by omega)
      (hhigh.ge le_rfl (by omega)) (n := fuel) (by omega)
    obtain ⟨j', hj', hlj', hj'j, hmore, hnotmore⟩ := scanDown_stops compar h hp hlj
      (by omega) (n := fuel) (by omega)
    simp only [partition, hi', hj', Option.bind_eq_bind, Option.bind_some]
    by_cases hmet : i' ≥ j'
    · rw [if_pos hmet]
      have hends : Met (sign A compar pivot mem) l r i' p q := by
        refine ⟨hlow.extend (by omega) fun k hk hki => hless k hk (by omega), by omega, by omega, hq,
          hnotless, ?_, fun k hqk hkr => hhigh.equal hqk hkr⟩
        intro k hk hkq
        by_cases hkj : k < j
        · exact hmore k (by omega) hkj
        · exact hhigh.greater (by omega) hkq
      exact ⟨_, rfl, Exchanged.refl _ _ _ _, hends⟩
    · rw [if_neg hmet]
      -- the pair changes places, then each side takes in its new key
      have hjle : sign A compar pivot mem j' ≤ 0 := by
        rcases hnotmore with hl | hle
        · omega
        · exact hle
      obtain ⟨mem₁, hswap, hentry, hex₁⟩ := swap_exchanged hfit h mem (i := i') (j := j')
        (by omega) (by omega)
      have hsign := sign_swap compar pivot hentry
      have hrange₁ := hex₁ l (r - 1) (by omega) (by omega) (by omega) (by omega)
      have hp₁ : entry A mem₁ r = pivot := by rw [hrange₁.entries.outside (Or.inr (by omega)), hp]
      have hlow₁ : Low (sign A compar pivot mem₁) l p (i' - 1) := by
        apply (hlow.extend (by omega) fun k hk hki => hless k hk (by omega)).congr
        intro k hk
        rw [hsign, Function.comp_apply, Equiv.swap_apply_of_ne_of_ne (by omega) (by omega)]
      have hhigh₁ : High (sign A compar pivot mem₁) (j' + 1) q r := by
        apply (hhigh.extend (by omega) fun k hk hkj => hmore k (by omega) hkj).congr
        intro k hk
        rw [hsign, Function.comp_apply, Equiv.swap_apply_of_ne_of_ne (by omega) (by omega)]
      have hi₁ : sign A compar pivot mem₁ i' ≤ 0 := by
        rw [hsign, Function.comp_apply, Equiv.swap_apply_left]
        exact hjle
      obtain ⟨p', mem₂, hleft, hex₂, hlow₂⟩ := collectLeft_low hfit h hp₁ hlow₁ hi₁ (by omega)
      have hp₂ : entry A mem₂ r = pivot := by rw [hex₂.entries.outside (Or.inr (by omega)), hp₁]
      have hhigh₂ := hhigh₁.congr fun k hk =>
        sign_outside compar pivot hex₂ (Or.inr (by omega))
      have hj₂ : 0 ≤ sign A compar pivot mem₂ j' := by
        rw [sign_outside compar pivot hex₂ (Or.inr (by omega)), hsign, Function.comp_apply, Equiv.swap_apply_right]
        exact hnotless
      obtain ⟨q', mem₃, hright, hq', hex₃, hhigh₃⟩ := collectRight_high hfit h hp₂ hhigh₂ hj₂
        (by omega) hq
      have hp₃ : entry A mem₃ r = pivot := by rw [hex₃.entries.outside (Or.inr (by omega)), hp₂]
      have hlow₃ := hlow₂.congr fun k hk =>
        sign_outside compar pivot hex₃ (Or.inl (by omega))
      obtain ⟨P, hP, hex, hends⟩ := ih hp₃ hlow₃ hhigh₃ (by omega) (by omega) hq' (by omega)
      refine ⟨P, ?_, ?_, hends⟩
      · simp only [hswap, hleft, hright, Option.bind_some]
        exact hP
      · exact hrange₁.trans ((hex₂.mono (by omega) (by omega)).trans
          ((hex₃.mono (by omega) (by omega)).trans hex))

theorem moveLeft_moves (hfit : A.Fits) (h : InRange A l r) (her : e < r)
    (hm : Moving (sign A compar pivot mem) l p e k j) (hpos : 0 < n) (hn : p - k < n) :
    ∃ k' j' mem', moveLeft A p n k j mem = some (j', mem') ∧ Exchanged A l e mem mem' ∧ p ≤ k' ∧
      (k' = k ∨ k' = p) ∧ Moving (sign A compar pivot mem') l p e k' j' := by
  induction n generalizing k j mem with
  | zero => exact absurd hpos (Nat.lt_irrefl 0)
  | succ n ih =>
    have hsum := hm.sum
    have hstart := hm.start
    have hbound := hm.bound
    have h0 := h.low
    have hlong := h.long
    rw [moveLeft]
    by_cases hk : k < p
    · rw [if_pos hk]
      obtain ⟨mem₁, hswap, hentry, hex⟩ := swap_exchanged hfit h mem (i := k) (j := j)
        (by omega) (by omega)
      have hstep := hm.step hk
      rw [← sign_swap compar pivot hentry] at hstep
      obtain ⟨k', j', mem', hrun, hex', hk', hend, hm'⟩ := ih hstep (by omega) (by omega)
      refine ⟨k', j', mem', ?_, (hex l e hstart (by omega) (by omega) (by omega)).trans hex', hk',
        by omega, hm'⟩
      rw [hswap, Option.bind_eq_bind, Option.bind_some, long_eq (by omega) (by omega),
        long_eq (by omega) (by omega), hrun]
    · rw [if_neg hk]
      exact ⟨k, j, mem, rfl, Exchanged.refl _ _ _ _, by omega, Or.inl rfl, hm⟩

/-- The same on the other side, where the index may be one past the last `long`. -/
theorem moveRight_moves (hfit : A.Fits) (h : InRange A l r) (hle : l ≤ e)
    (hm : Moving (mirror (sign A compar pivot mem)) (-(r - 1)) (-q) (-e) (-k) (-i)) (hpos : 0 < n)
    (hn : k - q < n) :
    ∃ k' i' mem', moveRight A q n k (long i) mem = some (long i', mem') ∧
      Exchanged A e (r - 1) mem mem' ∧ k' ≤ q ∧
      (k' = k ∨ k' = q) ∧ Moving (mirror (sign A compar pivot mem')) (-(r - 1)) (-q) (-e) (-k') (-i') := by
  induction n generalizing k i mem with
  | zero => exact absurd hpos (Nat.lt_irrefl 0)
  | succ n ih =>
    have hsum := hm.sum
    have hstart := hm.start
    have hbound := hm.bound
    have h0 := h.low
    have hlong := h.long
    rw [moveRight]
    by_cases hk : k > q
    · rw [if_pos hk]
      obtain ⟨mem₁, hswap, hentry, hex⟩ := swap_exchanged hfit h mem (i := k) (j := i)
        (by omega) (by omega)
      have hstep := hm.step (by omega)
      rw [← mirror_swap, ← sign_swap compar pivot hentry, show -k + 1 = -(k - 1) by omega,
        show -i - 1 = -(i + 1) by omega] at hstep
      obtain ⟨k', i', mem', hrun, hex', hk', hend, hm'⟩ := ih hstep (by omega) (by omega)
      refine ⟨k', i', mem', ?_, (hex e (r - 1) (by omega) (by omega) (by omega) (by omega)).trans hex',
        hk', by omega, hm'⟩
      rw [long_eq (k := i) (by omega) (by omega), hswap, Option.bind_eq_bind, Option.bind_some,
        long_eq (k := k - 1) (by omega) (by omega), hrun]
    · rw [if_neg hk]
      exact ⟨k, i, mem, rfl, Exchanged.refl _ _ _ _, by omega, Or.inl rfl, hm⟩

/-- The range behind the partition: two shorter ranges with nothing greater than the pivot
before `i` and nothing smaller behind `j`. -/
structure Divided (c : Int → Int) (l r i j : Int) : Prop where
  left : j < r
  right : l < i
  between : j < i
  stop : i ≤ r + 1
  le : ∀ x, l ≤ x → x < i → c x ≤ 0
  ge : ∀ x, j < x → x ≤ r → 0 ≤ c x

/-- The pivot goes to `i`, and the keys equal to it go next to it. -/
theorem met_divided (hfit : A.Fits) (h : InRange A l r) (hlr : l ≤ r) (hn : r - l + 1 ≤ n)
    (hm : Met (sign A compar pivot mem) l r i p q) :
    ∃ mem₁ j mem₂ i' mem₃, swap A mem i r = some mem₁ ∧
      moveLeft A p n l (long (i - 1)) mem₁ = some (j, mem₂) ∧
      moveRight A q n (long (r - 1)) (long (i + 1)) mem₂ = some (long i', mem₃) ∧
      Exchanged A l r mem mem₃ ∧ Divided (sign A compar pivot mem₃) l r i' j := by
  have h0 := h.low
  have hlong := h.long
  have hli := hm.start
  have hiq := hm.stop
  have hqr := hm.bound
  have hstop := hm.low.stop
  obtain ⟨mem₁, hswap, hentry, hex⟩ := swap_exchanged hfit h mem (i := i) (j := r) (by omega) (by omega)
  have hother : ∀ x, x ≠ i → x ≠ r → sign A compar pivot mem₁ x = sign A compar pivot mem x := by
    intro x hxi hxr
    rw [sign_swap compar pivot hentry, Function.comp_apply, Equiv.swap_apply_of_ne_of_ne hxi hxr]
  have hati : sign A compar pivot mem₁ i = 0 := by
    rw [sign_swap compar pivot hentry, Function.comp_apply, Equiv.swap_apply_left]
    exact hm.equal r hqr le_rfl
  have hatr : 0 ≤ sign A compar pivot mem₁ r := by
    rw [sign_swap compar pivot hentry, Function.comp_apply, Equiv.swap_apply_right]
    exact hm.at_least
  have hleft : Moving (sign A compar pivot mem₁) l p (i - 1) l (i - 1) := by
    apply Moving.init (by omega)
    · intro x hlx hxi
      rw [hother x (by omega) (by omega)]
      exact hm.low.le x hlx hxi
    · intro x hlx hxp
      rw [hother x (by omega) (by omega)]
      exact hm.low.equal x hlx hxp
  obtain ⟨k, j, mem₂, hrun₂, hex₂, hk, hkend, hm₂⟩ := moveLeft_moves hfit h (by omega) hleft
    (n := n) (by omega) (by omega)
  have hright : Moving (mirror (sign A compar pivot mem₂)) (-(r - 1)) (-q) (-(i + 1)) (-(r - 1))
      (-(i + 1)) := by
    apply Moving.init (by omega)
    · intro x hrx hxi
      rw [mirror, sign_outside compar pivot hex₂ (Or.inr (by omega)), hother _ (by omega) (by omega)]
      by_cases hxq : -x < q
      · have hgt := hm.greater (-x) (by omega) hxq
        omega
      · rw [hm.equal (-x) (by omega) (by omega)]
        omega
    · intro x hrx hxq
      rw [mirror, sign_outside compar pivot hex₂ (Or.inr (by omega))]
      by_cases hxi : -x = i
      · rw [hxi, hati]
        rfl
      · rw [hother _ hxi (by omega), hm.equal (-x) (by omega) (by omega)]
        rfl
  obtain ⟨k', i', mem₃, hrun₃, hex₃, hk', hkend', hm₃⟩ := moveRight_moves hfit h (by omega) hright
    (n := n) (by omega) (by omega)
  have hsum := hm₂.sum
  have hsum' := hm₃.sum
  have hstart := hm₂.start
  have hstart' := hm₃.start
  refine ⟨mem₁, j, mem₂, i', mem₃, hswap, ?_, ?_, ?_, ?_⟩
  · rw [long_eq (by omega) (by omega), hrun₂]
  · rw [long_eq (k := r - 1) (by omega) (by omega), hrun₃]
  · exact (hex l r hli (by omega) hlr le_rfl).trans
      ((hex₂.mono le_rfl (by omega)).trans (hex₃.mono (by omega) (by omega)))
  · have hlow : ∀ x, x < i → sign A compar pivot mem₃ x = sign A compar pivot mem₂ x :=
      fun x hx => sign_outside compar pivot hex₃ (Or.inl (by omega))
    have hmid : sign A compar pivot mem₃ i = 0 := by
      rw [sign_outside compar pivot hex₃ (Or.inl (by omega)), sign_outside compar pivot hex₂ (Or.inr (by omega)), hati]
    have hend : 0 ≤ sign A compar pivot mem₃ r := by
      rw [sign_outside compar pivot hex₃ (Or.inr (by omega)), sign_outside compar pivot hex₂ (Or.inr (by omega))]
      exact hatr
    refine ⟨by omega, by omega, by omega, by omega, ?_, ?_⟩
    · intro x hlx hxi'
      by_cases hxi : x < i
      · rw [hlow x hxi]
        exact hm₂.le x hlx (by omega)
      · by_cases hx : x = i
        · rw [hx, hmid]
        · have hmoved := hm₃.moved (-x) (by omega) (by omega)
          rw [mirror, Int.neg_neg] at hmoved
          omega
    · intro x hjx hxr
      by_cases hxi : x < i
      · rw [hlow x hxi, hm₂.moved x hjx (by omega)]
      · by_cases hx : x = i
        · rw [hx, hmid]
        · by_cases hx' : x = r
          · rw [hx']
            exact hend
          · have hle := hm₃.le (-x) (by omega) (by omega)
            rw [mirror, Int.neg_neg] at hle
            omega

theorem high_pivot (hc : Std.TransCmp fun a b => compare (compar a b) 0) (hp : entry A mem r = pivot) :
    High (sign A compar pivot mem) r r r := by
  refine ⟨by omega, le_rfl, ?_, fun k hk hkr => by omega⟩
  intro k hk hkr
  rw [show k = -r by omega, mirror, Int.neg_neg, sign, hp, compar_self hc]
  rfl

end Partition

section Recursion

variable {A : Vec} {compar : List (BitVec 8) → List (BitVec 8) → Int}

/-- Below eleven elements `Qsort` is `isort`. -/
theorem Qsort_small (hfit : A.Fits) (hc : Std.TransCmp fun a b => compare (compar a b) 0)
    (mem : Word → BitVec 8) {n : Nat} {l r : Int} (h : InRange A l r) (hlr : l ≤ r + 1)
    (hsmall : r - l < 10) :
    ∃ mem', Qsort A compar (n + 1) l r mem = some mem' ∧ Exchanged A l r mem mem' ∧
      Ordered A compar l r mem' := by
  have h0 := h.low
  have hlong := h.long
  have hhigh := h.high
  have hcount : (BitVec.ofInt 32 (r - l + 1)).toNat = (r - l + 1).toNat := by
    rw [BitVec.toNat_ofInt]
    omega
  rw [Qsort, long_eq (k := r - l) (by omega) (by omega), if_pos hsmall,
    long_eq (k := r - l + 1) (by omega) (by omega), hcount]
  have hsorts := isort_sorts hfit hc mem (n := (r - l + 1).toNat) (l := l) h0 (by omega)
  rwa [show l + ((r - l + 1).toNat : Int) - 1 = r by omega] at hsorts

/-- Where the index `i` has passed the last `long`, there is nothing above it. -/
theorem Qsort_wrapped (mem : Word → BitVec 8) {n : Nat} {r : Int} (hr : r = 2 ^ 31 - 1) :
    Qsort A compar (n + 1) (long (r + 1)) r mem = some mem := by
  subst hr
  rfl

/-- Two sorted ranges on the two sides of the pivot make a sorted range. -/
theorem Ordered.join (hc : Std.TransCmp fun a b => compare (compar a b) 0)
    {mem mem₁ mem₂ : Word → BitVec 8} {pivot : List (BitVec 8)} {l r i j : Int}
    (hd : Divided (sign A compar pivot mem) l r i j) (hex₁ : Exchanged A l j mem mem₁)
    (hord₁ : Ordered A compar l j mem₁) (hex₂ : Exchanged A i r mem₁ mem₂)
    (hord₂ : Ordered A compar i r mem₂) : Ordered A compar l r mem₂ := by
  have hbetween := hd.between
  have hle : ∀ x, l ≤ x → x < i → compar (entry A mem₂ x) pivot ≤ 0 := by
    intro x hlx hxi
    rw [hex₂.entries.outside (Or.inl hxi)]
    by_cases hxj : x ≤ j
    · exact hex₁.entries.forall (P := fun e => compar e pivot ≤ 0)
        (fun y hly hyj => hd.le y hly (by omega)) x hlx hxj
    · rw [hex₁.entries.outside (Or.inr (by omega))]
      exact hd.le x hlx hxi
  have hge : ∀ x, j < x → x ≤ r → 0 ≤ compar (entry A mem₂ x) pivot := by
    have hge₁ : ∀ x, j < x → x ≤ r → 0 ≤ compar (entry A mem₁ x) pivot := by
      intro x hjx hxr
      rw [hex₁.entries.outside (Or.inr hjx)]
      exact hd.ge x hjx hxr
    intro x hjx hxr
    by_cases hix : i ≤ x
    · exact hex₂.entries.forall (P := fun e => 0 ≤ compar e pivot)
        (fun y hiy hyr => hge₁ y (by omega) hyr) x hix hxr
    · rw [hex₂.entries.outside (Or.inl (by omega))]
      exact hge₁ x hjx hxr
  intro k hlk hkr
  by_cases hki : i ≤ k
  · exact hord₂ k hki hkr
  · by_cases hkj : k < j
    · rw [hex₂.entries.outside (Or.inl (by omega)), hex₂.entries.outside (Or.inl (by omega))]
      exact hord₁ k hlk hkj
    · have hpk : compar pivot (entry A mem₂ (k + 1)) ≤ 0 := by
        apply Int.not_lt.mp
        intro hlt
        exact absurd (hge (k + 1) (by omega) (by omega)) (Int.not_le.mpr ((compar_neg hc).mpr hlt))
      exact compar_trans hc (hle k hlk (by omega)) hpk

theorem Qsort_sorts (hfit : A.Fits) (hc : Std.TransCmp fun a b => compare (compar a b) 0) (n : Nat) :
    ∀ {l r : Int} (mem : Word → BitVec 8), InRange A l r → l ≤ r + 1 → r - l + 1 < n →
      ∃ mem', Qsort A compar n l r mem = some mem' ∧ Exchanged A l r mem mem' ∧
        Ordered A compar l r mem' := by
  induction n with
  | zero => intro l r mem h hlr hn; omega
  | succ n ih =>
    intro l r mem h hlr hn
    by_cases hsmall : r - l < 10
    · exact Qsort_small hfit hc mem h hlr hsmall
    · have h0 := h.low
      have hlong := h.long
      have hhigh := h.high
      obtain ⟨P, hP, hexP, hmet⟩ := partition_meets hfit h (rfl : entry A mem r = _) (n := n + 1)
        (n + 1) (by omega) (Low.empty _ l) (high_pivot hc rfl) (by omega) (by omega) le_rfl (by omega)
      obtain ⟨mem₁, j, mem₂, i, mem₃, hswap, hleft, hright, hex, hdiv⟩ :=
        met_divided hfit h (by omega) (n := n + 1) (by omega) hmet
      have hjr := hdiv.left
      have hli := hdiv.right
      have hstop := hdiv.stop
      obtain ⟨mem₄, hrun₄, hex₄, hord₄⟩ : ∃ mem₄,
          (if j > l then Qsort A compar n l j mem₃ else some mem₃) = some mem₄ ∧
            Exchanged A l j mem₃ mem₄ ∧ Ordered A compar l j mem₄ := by
        by_cases hjl : j > l
        · rw [if_pos hjl]
          exact ih mem₃ ⟨h0, by omega, by omega⟩ (by omega) (by omega)
        · rw [if_neg hjl]
          exact ⟨mem₃, rfl, Exchanged.refl _ _ _ _, fun k hk hkj => by omega⟩
      obtain ⟨mem₅, hrun₅, hex₅, hord₅⟩ : ∃ mem₅,
          (if r > long i then Qsort A compar n (long i) r mem₄ else some mem₄) = some mem₅ ∧
            Exchanged A i r mem₄ mem₅ ∧ Ordered A compar i r mem₅ := by
        by_cases hir : i ≤ r
        · rw [long_eq (by omega) (by omega)]
          by_cases hlt : r > i
          · rw [if_pos hlt]
            exact ih mem₄ ⟨by omega, hhigh, hlong⟩ (by omega) (by omega)
          · rw [if_neg hlt]
            exact ⟨mem₄, rfl, Exchanged.refl _ _ _ _, fun k hk hkr => by omega⟩
        · have hi : i = r + 1 := by omega
          refine ⟨mem₄, ?_, Exchanged.refl _ _ _ _, fun k hk hkr => by omega⟩
          by_cases hlast : r = 2 ^ 31 - 1
          · obtain ⟨m, rfl⟩ : ∃ m, n = m + 1 := ⟨n - 1, by omega⟩
            rw [hi, Qsort_wrapped mem₄ hlast, ite_self]
          · rw [long_eq (by omega) (by omega), if_neg (by omega)]
      refine ⟨mem₅, ?_, ?_, Ordered.join hc hdiv hex₄ hord₄ hex₅ hord₅⟩
      · rw [Qsort, long_eq (k := r - l) (by omega) (by omega), if_neg hsmall,
          long_eq (k := l - 1) (by omega) (by omega)]
        simp only [hP, hswap, hleft, hright, hrun₄, hrun₅, Option.bind_eq_bind, Option.bind_some]
      · exact (hexP.mono le_rfl (by omega)).trans (hex.trans
          ((hex₄.mono le_rfl (by omega)).trans (hex₅.mono (by omega) le_rfl)))

end Recursion

/-- What `qsort` is for: the array is sorted in place. -/
structure Sorted (A : Vec) (compar : List (BitVec 8) → List (BitVec 8) → Int)
    (mem mem' : Word → BitVec 8) : Prop where
  perm : (entries A.nmemb.toNat (entry A mem')).Perm (entries A.nmemb.toNat (entry A mem))
  ordered : ∀ k : Nat, k + 1 < A.nmemb.toNat → compar (entry A mem' k) (entry A mem' (k + 1 : Nat)) ≤ 0
  outside : ∀ x : Word, x.toNat < A.base.toNat ∨ A.base.toNat + A.nmemb.toNat * A.size.toNat ≤ x.toNat →
    mem' x = mem x

theorem sorted_of_ordered {A : Vec} {compar : List (BitVec 8) → List (BitVec 8) → Int}
    {mem mem' : Word → BitVec 8} (hex : Exchanged A 0 (A.nmemb.toNat - 1) mem mem')
    (hord : Ordered A compar 0 (A.nmemb.toNat - 1) mem') : Sorted A compar mem mem' :=
  ⟨hex.entries.perm, fun k hk => hord k (by omega) (by omega), hex.outside⟩

/-- The index of the last element, converted to a `long`. -/
theorem last_index (nmemb : Word) : (nmemb - 1).toInt =
    if nmemb.toNat ≤ 2 ^ 31 then (nmemb.toNat : Int) - 1 else (nmemb.toNat : Int) - 1 - 2 ^ 32 := by
  have hn := nmemb.isLt
  have hone : (1 : Word).toNat = 1 := rfl
  rw [BitVec.toInt_eq_toNat_cond, BitVec.toNat_sub, hone]
  split <;> split <;> omega

section Whole

variable {A : Vec} {compar : List (BitVec 8) → List (BitVec 8) → Int} {fuel : Nat}

/-- From 2^31 + 1 elements on the index of the last one is negative, and `isort` gets them all. -/
theorem qsort_long (hfit : A.Fits) (hc : Std.TransCmp fun a b => compare (compar a b) 0)
    (mem : Word → BitVec 8) (hlong : 2 ^ 31 < A.nmemb.toNat) (hf : 0 < fuel) :
    ∃ mem', qsort A compar fuel mem = some mem' ∧
      Exchanged A 0 (A.nmemb.toNat - 1) mem mem' ∧ Ordered A compar 0 (A.nmemb.toNat - 1) mem' := by
  have hn := A.nmemb.isLt
  have hcount : BitVec.ofInt 32 ((A.nmemb.toNat : Int) - 1 - 2 ^ 32 - 0 + 1) = A.nmemb := by
    apply BitVec.eq_of_toNat_eq
    rw [BitVec.toNat_ofInt]
    omega
  obtain ⟨n, rfl⟩ : ∃ n, fuel = n + 1 := ⟨fuel - 1, by omega⟩
  have hsorts := isort_sorts hfit hc mem (n := A.nmemb.toNat) (l := 0) le_rfl (by omega)
  rw [Int.zero_add] at hsorts
  rw [qsort, last_index, if_neg (by omega), Qsort, long_eq (k := _ - 0) (by omega) (by omega),
    if_pos (by omega), long_eq (by omega) (by omega), hcount]
  exact hsorts

/-- For every array and every total preorder `qsort` returns, without an access outside of the
array, and has sorted it. -/
theorem qsort_sorts (mem : Word → BitVec 8) (hfit : A.Fits)
    (hc : Std.TransCmp fun a b => compare (compar a b) 0) (hf : A.nmemb.toNat < fuel) :
    ∃ mem', qsort A compar fuel mem = some mem' ∧ Sorted A compar mem mem' := by
  by_cases hlong : A.nmemb.toNat ≤ 2 ^ 31
  · have hrange : InRange A 0 (A.nmemb.toNat - 1) := ⟨le_rfl, by omega, by omega⟩
    obtain ⟨mem', hrun, hex, hord⟩ := Qsort_sorts hfit hc fuel mem hrange (by omega) (by omega)
    refine ⟨mem', ?_, sorted_of_ordered hex hord⟩
    rw [qsort, last_index, if_pos hlong, hrun]
  · obtain ⟨mem', hrun, hex, hord⟩ := qsort_long hfit hc mem (Nat.lt_of_not_le hlong)
      (Nat.zero_lt_of_lt hf)
    exact ⟨mem', hrun, sorted_of_ordered hex hord⟩

/-- Words of one byte in the order of their values. -/
def byFirst (a b : List (BitVec 8)) : Int := (a.headD 0).toNat - (b.headD 0).toNat

/-- Fifteen bytes from the address 256 on. -/
theorem qsort_fifteen : ∃ mem', qsort ⟨256, 15, 1⟩ byFirst 16 (fun x => x.setWidth 8 * 7) = some mem' ∧
    Sorted ⟨256, 15, 1⟩ byFirst (fun x => x.setWidth 8 * 7) mem' :=
  qsort_sorts _ (by unfold Vec.Fits; decide)
    (transCmp_of_eq (c := compare) (fun a => ((a.headD 0).toNat : Int)) fun _ _ => compare_sub _ _)
    (by decide)

end Whole

end Pittsfield.Libc
