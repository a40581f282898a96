import Mathlib.Data.Int.Order.Basic
import Mathlib.Data.List.Nodup
import Mathlib.Data.List.Perm.Basic
import Mathlib.Logic.Equiv.Basic

/-!
# Exchanges in a sequence and the three-way partition

A sequence is indexed by the integers. `Rearranged` is what exchanges between two bounds
make of it. The partition only looks at the sign `c k` of the entry `k` against a pivot:
keys equal to it are collected at the outer end of each side (`Low`, and its mirror image
for the upper side), and at the end moved to the middle (`Moving`).
-/

namespace Pittsfield.Foundation

section Rearranged

variable {α : Type} {s t u : Int → α} {l r i j k : Int}

/-- The entries between the bounds have changed places, the others have not. -/
def Rearranged (l r : Int) (s t : Int → α) : Prop :=
  ∃ σ : Equiv.Perm Int, (∀ k, k < l ∨ r < k → σ k = k) ∧ t = s ∘ σ

theorem Rearranged.refl (l r : Int) (s : Int → α) : Rearranged l r s s :=
  ⟨Equiv.refl Int, fun _ _ => rfl, rfl⟩

theorem Rearranged.trans (h : Rearranged l r s t) (h' : Rearranged l r t u) : Rearranged l r s u := by
  obtain ⟨σ, hσ, rfl⟩ := h
  obtain ⟨τ, hτ, rfl⟩ := h'
  refine ⟨τ.trans σ, ?_, rfl⟩
  intro k hk
  show σ (τ k) = k
  rw [hτ k hk, hσ k hk]

theorem Rearranged.mono {l' r' : Int} (h : Rearranged l r s t) (hl : l' ≤ l) (hr : r ≤ r') :
    Rearranged l' r' s t := by
  obtain ⟨σ, hσ, ht⟩ := h
  exact ⟨σ, fun k hk => hσ k (by omega), ht⟩

theorem rearranged_swap (hi : l ≤ i ∧ i ≤ r) (hj : l ≤ j ∧ j ≤ r) :
    Rearranged l r s (s ∘ Equiv.swap i j) := by
  refine ⟨Equiv.swap i j, ?_, rfl⟩
  intro k hk
  exact Equiv.swap_apply_of_ne_of_ne (by omega) (by omega)

theorem Rearranged.outside (h : Rearranged l r s t) (hk : k < l ∨ r < k) : t k = s k := by
  obtain ⟨σ, hσ, rfl⟩ := h
  exact congrArg s (hσ k hk)

/-- Every entry between the bounds has come from between the bounds. -/
theorem Rearranged.origin (h : Rearranged l r s t) (hl : l ≤ k) (hr : k ≤ r) :
    ∃ m, l ≤ m ∧ m ≤ r ∧ t k = s m := by
  obtain ⟨σ, hσ, rfl⟩ := h
  refine ⟨σ k, ?_, ?_, rfl⟩
  · apply Int.not_lt.mp
    intro hlt
    have hfix := σ.injective (hσ (σ k) (Or.inl hlt))
    omega
  · apply Int.not_lt.mp
    intro hlt
    have hfix := σ.injective (hσ (σ k) (Or.inr hlt))
    omega

theorem Rearranged.forall {P : α → Prop} (h : Rearranged l r s t) (hs : ∀ k, l ≤ k → k ≤ r → P (s k)) :
    ∀ k, l ≤ k → k ≤ r → P (t k) := by
  intro k hl hr
  obtain ⟨m, hml, hmr, hm⟩ := h.origin hl hr
  rw [hm]
  exact hs m hml hmr

/-- The first `n` entries as a list. -/
def entries (n : Nat) (s : Int → α) : List α := (List.range n).map fun k : Nat => s k

theorem Rearranged.perm {n : Nat} (h : Rearranged 0 (n - 1) s t) : (entries n t).Perm (entries n s) := by
  obtain ⟨σ, hσ, rfl⟩ := h
  have hfrom : ∀ k : Int, 0 ≤ k ∧ k < n → 0 ≤ σ.symm k ∧ σ.symm k < n := by
    intro k hk
    by_contra hout
    have hfix := hσ (σ.symm k) (by omega)
    rw [σ.apply_symm_apply] at hfix
    omega
  have hto : ∀ k : Int, 0 ≤ k ∧ k < n → 0 ≤ σ k ∧ σ k < n := by
    intro k hk
    by_contra hout
    have hfix := σ.injective (hσ (σ k) (by omega))
    omega
  have hperm : ((List.range n).map fun k : Nat => σ k).Perm ((List.range n).map fun k : Nat => (k : Int)) := by
    apply (List.perm_ext_iff_of_nodup _ _).mpr
    · intro x
      rw [List.mem_map, List.mem_map]
      constructor
      · rintro ⟨k, hk, rfl⟩
        have hx := hto k (by rw [List.mem_range] at hk; omega)
        exact ⟨(σ k).toNat, List.mem_range.mpr (by omega), by omega⟩
      · rintro ⟨k, hk, rfl⟩
        have hx := hfrom k (by rw [List.mem_range] at hk; omega)
        refine ⟨(σ.symm k).toNat, List.mem_range.mpr (by omega), ?_⟩
        rw [Int.toNat_of_nonneg hx.1, σ.apply_symm_apply]
    · exact List.Nodup.map (fun a b hab => Int.ofNat.inj (σ.injective hab)) List.nodup_range
    · exact List.Nodup.map (fun a b hab => Int.ofNat.inj hab) List.nodup_range
  have hmap := hperm.map s
  rwa [List.map_map, List.map_map] at hmap

end Rearranged

section Signs

variable {c d : Int → Int} {l p i e k j : Int}

/-- The signs seen from the other side. -/
def mirror (c : Int → Int) : Int → Int := fun k => -c (-k)

theorem mirror_swap (i j : Int) :
    mirror (c ∘ Equiv.swap i j) = mirror c ∘ Equiv.swap (-i) (-j) := by
  funext k
  show -c (Equiv.swap i j (-k)) = -c (-Equiv.swap (-i) (-j) k)
  congr 2
  rw [Equiv.swap_apply_def, Equiv.swap_apply_def]
  split_ifs <;> omega

/-- The lower side of the partition: keys equal to the pivot up to `p`, then smaller ones
up to `i`. -/
structure Low (c : Int → Int) (l p i : Int) : Prop where
  start : l - 1 ≤ p
  stop : p ≤ i
  equal : ∀ k, l ≤ k → k ≤ p → c k = 0
  less : ∀ k, p < k → k ≤ i → c k < 0

theorem Low.empty (c : Int → Int) (l : Int) : Low c l (l - 1) (l - 1) :=
  ⟨le_rfl, le_rfl, fun k hl hr => by omega, fun k hl hr => by omega⟩

theorem Low.congr (h : Low c l p i) (hd : ∀ k, k ≤ i → d k = c k) : Low d l p i := by
  refine ⟨h.start, h.stop, ?_, ?_⟩
  · intro k hl hp
    rw [hd k (Int.le_trans hp h.stop)]
    exact h.equal k hl hp
  · intro k hp hi
    rw [hd k hi]
    exact h.less k hp hi

/-- Nothing up to `i` is greater than the pivot. -/
theorem Low.le (h : Low c l p i) : ∀ k, l ≤ k → k ≤ i → c k ≤ 0 := by
  intro k hl hi
  by_cases hk : k ≤ p
  · exact Int.le_of_eq (h.equal k hl hk)
  · exact Int.le_of_lt (h.less k (by omega) hi)

/-- The side grows by smaller keys. -/
theorem Low.extend (h : Low c l p i) (hie : i ≤ e) (hless : ∀ k, i < k → k ≤ e → c k < 0) :
    Low c l p e := by
  refine ⟨h.start, Int.le_trans h.stop hie, h.equal, ?_⟩
  intro k hp hk
  by_cases hi : k ≤ i
  · exact h.less k hp hi
  · exact hless k (by omega) hk

/-- The side grows by a key equal to the pivot, which changes places with the first smaller
one. -/
theorem Low.collect (h : Low c l p i) (heq : c (i + 1) = 0) :
    Low (c ∘ Equiv.swap (p + 1) (i + 1)) l (p + 1) (i + 1) := by
  have hs := h.start
  have hp := h.stop
  refine ⟨by omega, by omega, ?_, ?_⟩
  · intro k hl hk
    rw [Function.comp_apply, Equiv.swap_apply_def]
    split_ifs
    · exact heq
    · omega
    · exact h.equal k hl (by omega)
  · intro k hk hi
    rw [Function.comp_apply, Equiv.swap_apply_def]
    split_ifs
    · omega
    · exact h.less (p + 1) (by omega) (by omega)
    · exact h.less k (by omega) (by omega)

/-- The upper side: greater keys from `j` on, then those equal to the pivot from `q` to `r`. -/
def High (c : Int → Int) (j q r : Int) : Prop := Low (mirror c) (-r) (-q) (-j)

namespace High

variable {q r : Int}

theorem bounds (h : High c j q r) : j ≤ q ∧ q ≤ r + 1 := by
  have hs := h.start
  have hp := h.stop
  omega

theorem equal (h : High c j q r) (hq : q ≤ k) (hr : k ≤ r) : c k = 0 := by
  have hk := Low.equal h (-k) (by omega) (by omega)
  rw [mirror, Int.neg_neg] at hk
  omega

theorem greater (h : High c j q r) (hj : j ≤ k) (hq : k < q) : 0 < c k := by
  have hk := Low.less h (-k) (by omega) (by omega)
  rw [mirror, Int.neg_neg] at hk
  omega

theorem ge (h : High c j q r) (hj : j ≤ k) (hr : k ≤ r) : 0 ≤ c k := by
  have hk := Low.le h (-k) (by omega) (by omega)
  rw [mirror, Int.neg_neg] at hk
  omega

theorem congr (h : High c j q r) (hd : ∀ k, j ≤ k → d k = c k) : High d j q r := by
  apply Low.congr h
  intro k hk
  rw [mirror, mirror, hd (-k) (by omega)]

theorem extend (h : High c j q r) (hej : e ≤ j) (hmore : ∀ k, e ≤ k → k < j → 0 < c k) :
    High c e q r := by
  apply Low.extend h (by omega)
  intro k hj he
  have hk := hmore (-k) (by omega) (by omega)
  rw [mirror]
  omega

theorem collect (h : High c j q r) (heq : c (j - 1) = 0) :
    High (c ∘ Equiv.swap (q - 1) (j - 1)) (j - 1) (q - 1) r := by
  have hzero : mirror c (-j + 1) = 0 := by
    rw [mirror, show -(-j + 1) = j - 1 by omega, heq, Int.neg_zero]
  have hlow := Low.collect h hzero
  rw [High, mirror_swap]
  rwa [show -(q - 1) = -q + 1 by omega, show -(j - 1) = -j + 1 by omega]

end High

/-- The keys equal to the pivot change places with those at the other end of the side, of
which `j` is the next. The two indices may cross, then pairs change back. -/
structure Moving (c : Int → Int) (l p e k j : Int) : Prop where
  sum : k + j = l + e
  start : l ≤ k
  bound : p ≤ e + 1
  le : ∀ x, l ≤ x → x ≤ e → c x ≤ 0
  kept : ∀ x, l ≤ x → x ≤ p → (x < k → k + j - x ≤ p) → c x = 0
  moved : ∀ x, j < x → x ≤ e → c x = 0

theorem Moving.init (hp : p ≤ e + 1) (hle : ∀ x, l ≤ x → x ≤ e → c x ≤ 0)
    (heq : ∀ x, l ≤ x → x ≤ p → c x = 0) : Moving c l p e l e :=
  ⟨rfl, le_rfl, hp, hle, fun x hl hx _ => heq x hl hx, fun x hj he => by omega⟩

theorem Moving.step (h : Moving c l p e k j) (hk : k < p) :
    Moving (c ∘ Equiv.swap k j) l p e (k + 1) (j - 1) := by
  have hsum := h.sum
  have hstart := h.start
  have hbound := h.bound
  have hck : c k = 0 := h.kept k hstart (by omega) (by omega)
  -- what comes to `k` is equal to the pivot if it lay among the keys to be moved
  have hcj : j ≤ p → c j = 0 := fun hj => h.kept j (by omega) hj (by omega)
  refine ⟨by omega, by omega, hbound, ?_, ?_, ?_⟩
  · intro x hl hx
    rw [Function.comp_apply, Equiv.swap_apply_def]
    split_ifs
    · exact h.le j (by omega) (by omega)
    · exact Int.le_of_eq hck
    · exact h.le x hl hx
  · intro x hl hx hback
    rw [Function.comp_apply, Equiv.swap_apply_def]
    split_ifs
    · exact hcj (by omega)
    · exact hck
    · exact h.kept x hl hx (by omega)
  · intro x hj he
    rw [Function.comp_apply, Equiv.swap_apply_def]
    split_ifs
    · exact hcj (by omega)
    · exact hck
    · exact h.moved x (by omega) he

end Signs

end Pittsfield.Foundation
