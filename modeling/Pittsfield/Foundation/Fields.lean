import Mathlib.Data.List.TakeWhile

/-!
# The fields of a list

A predicate tells the separators of a list. Its fields are the runs of other entries
between them, without the empty ones.
-/

namespace Pittsfield.Foundation

variable {α : Type*} (sep : α → Bool)

def fields (xs : List α) : List (List α) := (xs.splitOnP sep).filter fun u => !u.isEmpty

variable {sep} {x : α} {u v xs : List α}

theorem fields_nil : fields sep [] = [] := rfl

theorem fields_sep (hx : sep x = true) : fields sep (x :: xs) = fields sep xs := by
  rw [fields, List.splitOnP_cons_eq_if_modifyHead, if_pos hx, List.filter_cons_of_neg (by simp), fields]

/-- Separators in front do not matter. -/
theorem fields_dropWhile : fields sep (xs.dropWhile sep) = fields sep xs := by
  induction xs with
  | nil => rfl
  | cons x xs ih =>
    cases hx : sep x with
    | true => rw [List.dropWhile_cons_of_pos hx, ih, fields_sep hx]
    | false => rw [List.dropWhile_cons_of_neg (by rw [hx]; decide)]

/-- A word in front is the first field. -/
theorem fields_word (hu : ∀ y ∈ u, sep y = false) (hne : u ≠ [])
    (hv : ∀ y ∈ v.head?, sep y = true) : fields sep (u ++ v) = u :: fields sep v.tail := by
  have hkeep : ∀ us : List (List α), (u :: us).filter (fun w => !w.isEmpty) =
      u :: us.filter fun w => !w.isEmpty := by
    intro us
    cases u with
    | nil => exact absurd rfl hne
    | cons y u => rfl
  cases v with
  | nil => rw [List.append_nil, fields, List.splitOnP_eq_singleton hu, hkeep]; rfl
  | cons y v =>
    rw [fields, List.splitOnP_append_cons_of_forall_mem hu y (hv y rfl), hkeep]
    rfl

/-- Behind the separators in front there is a word, if there is anything. -/
theorem word_ne_nil (hv : xs.dropWhile sep = v) (hne : v ≠ []) :
    v.takeWhile (fun y => !sep y) ≠ [] := by
  cases v with
  | nil => exact absurd rfl hne
  | cons y v =>
    have hy := List.head?_dropWhile_not sep xs
    rw [hv] at hy
    rw [List.takeWhile_cons_of_pos (by simpa using hy)]
    exact List.cons_ne_nil _ _

/-- How the fields of a list are found from its front. -/
theorem fields_step (hv : xs.dropWhile sep = v) : fields sep xs =
    if v = [] then [] else v.takeWhile (fun y => !sep y) ::
      fields sep (v.dropWhile fun y => !sep y).tail := by
  rw [← fields_dropWhile, hv]
  by_cases hnil : v = []
  · rw [if_pos hnil, hnil, fields_nil]
  rw [if_neg hnil]
  have hsplit : fields sep v =
      fields sep (v.takeWhile (fun y => !sep y) ++ v.dropWhile fun y => !sep y) := by
    rw [List.takeWhile_append_dropWhile]
  rw [hsplit]
  apply fields_word
  · intro y hy
    have hnot := List.mem_takeWhile_imp hy
    simpa using hnot
  · exact word_ne_nil hv hnil
  · intro y hy
    have hhead := List.head?_dropWhile_not (fun y => !sep y) v
    rw [Option.mem_def.mp hy] at hhead
    simpa using hhead

end Pittsfield.Foundation
