import Mathlib.Logic.Function.Basic

/-!
# Lists compared at the first place where they differ

A loop that walks along two lists and stops at the first pair that differs decides a
lexicographic order, provided neither list ends while the other goes on. Two orders of
the elements give the same answer exactly if they agree on that pair.
-/

namespace Pittsfield.Foundation

theorem then_left {o p : Ordering} (h : o ≠ .eq) : o.then p = o := by
  cases o with
  | eq => exact absurd rfl h
  | lt => rfl
  | gt => rfl

theorem compare_congr {a b c d : Int} (hlt : a < b ↔ c < d) (heq : a = b ↔ c = d) :
    compare a b = compare c d := by
  show compareOfLessAndEq a b = compareOfLessAndEq c d
  simp only [compareOfLessAndEq, hlt, heq]

theorem compare_sub (a b : Int) : compare (a - b) 0 = compare a b :=
  compare_congr (by omega) (by omega)

section

variable {α β : Type} {l m : List α}

theorem compareOn_eq_iff {f : α → Int} (hf : Function.Injective f) {x y : α} :
    compareOn f x y = .eq ↔ x = y := by
  rw [compareOn, Std.compare_eq_iff_eq]
  exact hf.eq_iff

/-- A comparison that factors through a total preorder is one. -/
theorem transCmp_of_eq {c : β → β → Ordering} [Std.TransCmp c] (g : α → β)
    {d : α → α → Ordering} (h : ∀ x y, d x y = c (g x) (g y)) : Std.TransCmp d where
  eq_swap := by
    intro x y
    rw [h, h]
    exact Std.OrientedCmp.eq_swap
  isLE_trans := by
    intro x y z hxy hyz
    rw [h] at hxy hyz ⊢
    exact Std.TransCmp.isLE_trans hxy hyz

/-- Neither list ends while the other goes on, as long as they do not differ. -/
def Matched : List α → List α → Prop
  | [], [] => True
  | x :: l, y :: m => x = y → Matched l m
  | _, _ => False

theorem matched_of_length (h : l.length = m.length) : Matched l m := by
  induction l generalizing m with
  | nil => rw [List.length_eq_zero_iff.mp h.symm]; exact trivial
  | cons x l ih =>
    cases m with
    | nil => cases h
    | cons y m => exact fun _ => ih (Nat.succ.inj h)

end

variable {α : Type} [DecidableEq α] {f : α → Int} {l m : List α}

/-- The difference of the values at the first place where the lists differ, zero if there
is none. -/
def firstDiff (f : α → Int) : List α → List α → Int
  | x :: l, y :: m => if x = y then firstDiff f l m else f x - f y
  | _, _ => 0

/-- Something holds of the first pair that differs, if there is one. -/
def AtFirst (R : α → α → Prop) : List α → List α → Prop
  | x :: l, y :: m => if x = y then AtFirst R l m else R x y
  | _, _ => True

instance AtFirst.decidable (R : α → α → Prop) [DecidableRel R] :
    ∀ l m : List α, Decidable (AtFirst R l m)
  | x :: l, y :: m =>
    have := AtFirst.decidable R l m
    inferInstanceAs (Decidable (if x = y then AtFirst R l m else R x y))
  | [], _ => .isTrue trivial
  | _ :: _, [] => .isTrue trivial

/-- The sign of the difference is the lexicographic order. -/
theorem compare_firstDiff (hf : Function.Injective f) (h : Matched l m) :
    compare (firstDiff f l m) 0 = List.compareLex (compareOn f) l m := by
  induction l generalizing m with
  | nil =>
    cases m with
    | nil => rfl
    | cons y m => exact h.elim
  | cons x l ih =>
    cases m with
    | nil => exact h.elim
    | cons y m =>
      rw [firstDiff, List.compareLex_cons_cons]
      by_cases hxy : x = y
      · rw [if_pos hxy, (compareOn_eq_iff hf).mpr hxy, ih (h hxy)]
        rfl
      · rw [if_neg hxy, compare_sub]
        exact (then_left fun he => hxy ((compareOn_eq_iff hf).mp he)).symm

/-- Two orders of the elements agree on two lists exactly if they agree on the first pair
that differs. -/
theorem compareLex_eq_iff {c d : α → α → Ordering} (hc : ∀ x y, c x y = .eq ↔ x = y)
    (hd : ∀ x y, d x y = .eq ↔ x = y) (h : Matched l m) :
    List.compareLex c l m = List.compareLex d l m ↔ AtFirst (fun x y => c x y = d x y) l m := by
  induction l generalizing m with
  | nil =>
    cases m with
    | nil => exact iff_of_true rfl trivial
    | cons y m => exact h.elim
  | cons x l ih =>
    cases m with
    | nil => exact h.elim
    | cons y m =>
      rw [List.compareLex_cons_cons, List.compareLex_cons_cons, AtFirst]
      by_cases hxy : x = y
      · rw [if_pos hxy, (hc x y).mpr hxy, (hd x y).mpr hxy]
        exact ih (h hxy)
      · rw [if_neg hxy]
        have hnc : c x y ≠ .eq := fun he => hxy ((hc x y).mp he)
        have hnd : d x y ≠ .eq := fun he => hxy ((hd x y).mp he)
        rw [then_left hnc, then_left hnd]

theorem atFirst_congr {R S : α → α → Prop} (h : ∀ x y, x ≠ y → (R x y ↔ S x y)) :
    AtFirst R l m ↔ AtFirst S l m := by
  induction l generalizing m with
  | nil => exact Iff.rfl
  | cons x l ih =>
    cases m with
    | nil => exact Iff.rfl
    | cons y m =>
      rw [AtFirst, AtFirst]
      by_cases hxy : x = y
      · rw [if_pos hxy, if_pos hxy]
        exact ih
      · rw [if_neg hxy, if_neg hxy]
        exact h x y hxy

end Pittsfield.Foundation
