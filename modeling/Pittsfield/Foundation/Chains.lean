import Mathlib.Data.List.Nodup

/-!
# Linked lists

A memory in which every cell holds one link is a function `next`. `Chain next nil p as`
says that from `p` on the links visit exactly the cells `as` and then `nil`.
-/

namespace Pittsfield.Foundation

/-- The links from `p` on visit the cells of the list and end. -/
def Chain {α : Type*} (next : α → α) (nil : α) : α → List α → Prop
  | p, [] => p = nil
  | p, a :: as => p = a ∧ a ≠ nil ∧ Chain next nil (next a) as

namespace Chain

variable {α : Type*} {next next' : α → α} {nil p a : α} {as bs : List α}

theorem nil_nil : Chain next nil nil [] := rfl

theorem eq_nil (h : Chain next nil nil as) : as = [] := by
  cases as with
  | nil => rfl
  | cons a as => exact absurd h.1.symm h.2.1

theorem ne_nil (h : Chain next nil p as) (ha : a ∈ as) : a ≠ nil := by
  induction as generalizing p with
  | nil => cases ha
  | cons b as ih =>
    rcases List.mem_cons.mp ha with rfl | ha
    · exact h.2.1
    · exact ih h.2.2 ha

/-- A chain that does not start at `nil` has a first cell. -/
theorem exists_cons (h : Chain next nil p as) (hp : p ≠ nil) :
    ∃ bs, as = p :: bs ∧ Chain next nil (next p) bs := by
  cases as with
  | nil => exact absurd h hp
  | cons a as =>
    obtain ⟨rfl, -, hrest⟩ := h
    exact ⟨as, rfl, hrest⟩

/-- The start decides the cells. -/
theorem unique (h : Chain next nil p as) (h' : Chain next nil p bs) : as = bs := by
  induction as generalizing p bs with
  | nil =>
    subst h
    exact (eq_nil h').symm
  | cons a as ih =>
    obtain ⟨rfl, hne, hrest⟩ := h
    obtain ⟨cs, rfl, hrest'⟩ := h'.exists_cons hne
    rw [ih hrest hrest']

/-- Only the links of the cells matter. -/
theorem congr (h : Chain next nil p as) (hnext : ∀ a ∈ as, next' a = next a) :
    Chain next' nil p as := by
  induction as generalizing p with
  | nil => exact h
  | cons a as ih =>
    obtain ⟨rfl, hne, hrest⟩ := h
    refine ⟨rfl, hne, ?_⟩
    rw [hnext p List.mem_cons_self]
    exact ih hrest fun b hb => hnext b (List.mem_cons_of_mem _ hb)

/-- From each of its cells on, a chain goes on with no more cells than it has. -/
theorem from_mem (h : Chain next nil p as) (ha : a ∈ as) :
    ∃ cs, Chain next nil a (a :: cs) ∧ cs.length < as.length := by
  induction as generalizing p with
  | nil => cases ha
  | cons b as ih =>
    obtain ⟨rfl, hne, hrest⟩ := h
    rcases List.mem_cons.mp ha with rfl | ha
    · exact ⟨as, ⟨rfl, hne, hrest⟩, Nat.lt_succ_self _⟩
    · obtain ⟨cs, hcs, hlt⟩ := ih hrest ha
      exact ⟨cs, hcs, Nat.lt_succ_of_lt hlt⟩

/-- A chain that ends visits no cell twice. -/
theorem nodup (h : Chain next nil p as) : as.Nodup := by
  induction as generalizing p with
  | nil => exact List.nodup_nil
  | cons a as ih =>
    obtain ⟨rfl, hne, hrest⟩ := h
    refine List.nodup_cons.mpr ⟨fun hmem => ?_, ih hrest⟩
    -- the cells from `p` on would be shorter than themselves
    obtain ⟨cs, hcs, hlt⟩ := hrest.from_mem hmem
    have he := unique (show Chain next nil p (p :: as) from ⟨rfl, hne, hrest⟩) hcs
    rw [(List.cons.inj he).2] at hlt
    exact Nat.lt_irrefl _ hlt

/-- A link leads to another cell of the chain or to its end. -/
theorem next_mem (h : Chain next nil p as) (ha : a ∈ as) : next a = nil ∨ next a ∈ as := by
  induction as generalizing p with
  | nil => cases ha
  | cons b as ih =>
    obtain ⟨rfl, -, hrest⟩ := h
    rcases List.mem_cons.mp ha with rfl | ha
    · cases as with
      | nil => exact Or.inl hrest
      | cons c as =>
        rw [hrest.1]
        exact Or.inr (List.mem_cons_of_mem _ List.mem_cons_self)
    · rcases ih hrest ha with he | he
      · exact Or.inl he
      · exact Or.inr (List.mem_cons_of_mem _ he)

end Chain

end Pittsfield.Foundation
