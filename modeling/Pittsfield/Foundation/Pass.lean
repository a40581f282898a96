import Mathlib.Logic.Relation
import Mathlib.Data.List.Basic

/-!
# One pass over a sequence of items

A one-pass checker reads its input once, item by item, and carries a state.
`Pass step s vs t` says that the checker started in `s`, took one `step` for
every visit in `vs` and stopped in `t`. The lemmas need only a position that
every step increases. The last section relates a pass to the runs of a machine
that executes the items the pass has seen.
-/

namespace Pittsfield.Foundation

/-- One item of a pass, with the checker's state before and after it. -/
structure Visit (σ ι : Type*) where
  before : σ
  item : ι
  after : σ
  deriving DecidableEq

/-- The checker goes from `s` to `t` and makes exactly the visits `vs`. -/
inductive Pass {σ ι : Type*} (step : σ → ι → σ → Prop) : σ → List (Visit σ ι) → σ → Prop
  | done (s : σ) : Pass step s [] s
  | visit {s s' t : σ} {i : ι} {vs : List (Visit σ ι)} :
      step s i s' → Pass step s' vs t → Pass step s (⟨s, i, s'⟩ :: vs) t

namespace Pass

variable {σ ι : Type*} {step : σ → ι → σ → Prop} {s t : σ} {vs : List (Visit σ ι)}

theorem step_of_mem (h : Pass step s vs t) {v : Visit σ ι} (hv : v ∈ vs) :
    step v.before v.item v.after := by
  induction h with
  | done => cases hv
  | visit hs _ ih =>
    rcases List.mem_cons.mp hv with rfl | hv
    · exact hs
    · exact ih hv

/-- Every state a visit starts from is the first state or was left by a visit. -/
theorem before_eq (h : Pass step s vs t) {v : Visit σ ι} (hv : v ∈ vs) :
    v.before = s ∨ ∃ u ∈ vs, u.after = v.before := by
  induction h with
  | done => cases hv
  | visit _ _ ih =>
    rcases List.mem_cons.mp hv with rfl | hv
    · exact Or.inl rfl
    · rcases ih hv with he | ⟨u, hu, he⟩
      · exact Or.inr ⟨_, List.mem_cons_self, he.symm⟩
      · exact Or.inr ⟨u, List.mem_cons_of_mem _ hu, he⟩

/-- The last visit leaves the last state. -/
theorem last_after (h : Pass step s vs t) {v : Visit σ ι} (hv : vs.getLast? = some v) :
    v.after = t := by
  induction h with
  | done => cases hv
  | visit _ hp ih =>
    cases hp with
    | done => cases hv; rfl
    | visit hs' hp' => exact ih hv

/-- Every visit is the last one or the next visit starts from the state it left. -/
theorem next (h : Pass step s vs t) {v : Visit σ ι} (hv : v ∈ vs) :
    vs.getLast? = some v ∨ ∃ w ∈ vs, w.before = v.after := by
  induction h with
  | done => cases hv
  | visit _ hp ih =>
    cases hp with
    | done =>
      cases List.mem_singleton.mp hv
      exact Or.inl rfl
    | visit hs' hp' =>
      rcases List.mem_cons.mp hv with rfl | hv
      · exact Or.inr ⟨_, List.mem_cons_of_mem _ List.mem_cons_self, rfl⟩
      · rcases ih hv with hl | ⟨w, hw, he⟩
        · exact Or.inl hl
        · exact Or.inr ⟨w, List.mem_cons_of_mem _ hw, he⟩

/-- A pass goes on with one more visit. -/
theorem snoc {t' : σ} {i : ι} (h : Pass step s vs t) (hs : step t i t') :
    Pass step s (vs ++ [⟨t, i, t'⟩]) t' := by
  induction h with
  | done => exact .visit hs (.done _)
  | visit hfirst _ ih => exact .visit hfirst (ih hs)

/-- A property that every step keeps holds before and after every visit. -/
theorem invariant {I : σ → Prop} (h : Pass step s vs t) (h0 : I s)
    (hstep : ∀ a i b, step a i b → I a → I b) :
    (∀ v ∈ vs, I v.before ∧ I v.after) ∧ I t := by
  induction h with
  | done => exact ⟨by simp, h0⟩
  | visit hs _ ih =>
    obtain ⟨hvs, ht⟩ := ih (hstep _ _ _ hs h0)
    refine ⟨?_, ht⟩
    intro v hv
    rcases List.mem_cons.mp hv with rfl | hv
    · exact ⟨h0, hstep _ _ _ hs h0⟩
    · exact hvs v hv

section Position

variable {pos : σ → Nat} (hpos : ∀ a i b, step a i b → pos a < pos b)

include hpos

theorem pos_le (h : Pass step s vs t) : pos s ≤ pos t := by
  induction h with
  | done => exact Nat.le_refl _
  | visit hs _ ih => exact Nat.le_trans (Nat.le_of_lt (hpos _ _ _ hs)) ih

theorem pos_bounds (h : Pass step s vs t) {v : Visit σ ι} (hv : v ∈ vs) :
    pos s ≤ pos v.before ∧ pos v.before < pos v.after ∧ pos v.after ≤ pos t := by
  induction h with
  | done => cases hv
  | visit hs hp ih =>
    have hlt := hpos _ _ _ hs
    rcases List.mem_cons.mp hv with rfl | hv
    · exact ⟨Nat.le_refl _, hlt, pos_le hpos hp⟩
    · obtain ⟨h1, h2, h3⟩ := ih hv
      exact ⟨Nat.le_trans (Nat.le_of_lt hlt) h1, h2, h3⟩

/-- Where one visit ends, the visit at that position starts from its state. -/
theorem before_eq_after (h : Pass step s vs t) {v w : Visit σ ι} (hv : v ∈ vs) (hw : w ∈ vs)
    (he : pos w.before = pos v.after) : w.before = v.after := by
  induction h with
  | done => cases hv
  | visit hs hp ih =>
    rcases List.mem_cons.mp hw with rfl | hw'
    · have hb := pos_bounds hpos (.visit hs hp) hv
      simp only at he hb
      omega
    rcases List.mem_cons.mp hv with rfl | hv'
    · rcases hp with _ | ⟨hs', hp'⟩
      · cases hw'
      rcases List.mem_cons.mp hw' with rfl | hw''
      · rfl
      · have hb := pos_bounds hpos hp' hw''
        have hlt := hpos _ _ _ hs'
        simp only at he hb
        omega
    · exact ih hv' hw'

/-- No position is visited twice. -/
theorem eq_of_pos (h : Pass step s vs t) {v w : Visit σ ι} (hv : v ∈ vs) (hw : w ∈ vs)
    (he : pos v.before = pos w.before) : v = w := by
  induction h with
  | done => cases hv
  | visit hs hp ih =>
    have hlt := hpos _ _ _ hs
    rcases List.mem_cons.mp hv with rfl | hv' <;> rcases List.mem_cons.mp hw with rfl | hw'
    · rfl
    · have hb := (pos_bounds hpos hp hw').1
      simp only at he
      omega
    · have hb := (pos_bounds hpos hp hv').1
      simp only at he
      omega
    · exact ih hv' hw'

/-- The stretches of two visits do not overlap. -/
theorem after_le_before (h : Pass step s vs t) {v w : Visit σ ι} (hv : v ∈ vs) (hw : w ∈ vs)
    (hlt : pos v.before < pos w.before) : pos v.after ≤ pos w.before := by
  induction h with
  | done => cases hv
  | visit hs hp ih =>
    rcases List.mem_cons.mp hv with rfl | hv' <;> rcases List.mem_cons.mp hw with rfl | hw'
    · omega
    · exact (pos_bounds hpos hp hw').1
    · have hb := (pos_bounds hpos hp hv').1
      have hs' := hpos _ _ _ hs
      simp only at hlt
      omega
    · exact ih hv' hw'

/-- No two visits end at the same position. -/
theorem eq_of_after (h : Pass step s vs t) {v w : Visit σ ι} (hv : v ∈ vs) (hw : w ∈ vs)
    (he : pos v.after = pos w.after) : v = w := by
  have hbv := pos_bounds hpos h hv
  have hbw := pos_bounds hpos h hw
  rcases Nat.lt_trichotomy (pos v.before) (pos w.before) with hlt | heq | hlt
  · have hle := after_le_before hpos h hv hw hlt
    omega
  · exact eq_of_pos hpos h hv hw heq
  · have hle := after_le_before hpos h hw hv hlt
    omega

/-- No visit starts behind the last one. -/
theorem before_le_last (h : Pass step s vs t) {u v : Visit σ ι} (hu : u ∈ vs)
    (hv : vs.getLast? = some v) : pos u.before ≤ pos v.before := by
  induction h with
  | done => cases hu
  | visit hs hp ih =>
    cases hp with
    | done =>
      cases List.mem_singleton.mp hu
      cases hv
      exact Nat.le_refl _
    | visit hs' hp' =>
      rcases List.mem_cons.mp hu with rfl | hu'
      · have hlt := hpos _ _ _ hs
        have hb := (pos_bounds hpos (.visit hs' hp') (List.mem_of_getLast? (by exact hv))).1
        exact Nat.le_trans (Nat.le_of_lt hlt) hb
      · exact ih hu' hv

end Position

/-- Every position between the two ends lies inside the stretch of some visit. -/
theorem covers (pos : σ → Nat) (h : Pass step s vs t) {x : Nat} (hx : pos s ≤ x) (hx' : x < pos t) :
    ∃ v ∈ vs, pos v.before ≤ x ∧ x < pos v.after := by
  induction h with
  | done => omega
  | @visit a b _ i _ hs hp ih =>
    by_cases hb : x < pos b
    · exact ⟨_, List.mem_cons_self, hx, hb⟩
    · obtain ⟨v, hv, hle, hlt⟩ := ih (by omega) hx'
      exact ⟨v, List.mem_cons_of_mem _ hv, hle, hlt⟩

end Pass

section Machine

variable {σ ι M : Type*} {step : σ → ι → σ → Prop} {s t : σ} {vs : List (Visit σ ι)}
variable (pos : σ → Nat) (loc : M → Option Nat) (exec : ι → M → Option M)

/-- The machine stands at the item of the visit `v`. -/
def Stands (vs : List (Visit σ ι)) (m : M) (v : Visit σ ι) : Prop :=
  v ∈ vs ∧ loc m = some (pos v.before)

/-- One step of the machine at a visited item for which `ok` holds. -/
def Moves (vs : List (Visit σ ι)) (ok : Visit σ ι → M → Prop) (m m' : M) : Prop :=
  ∃ v, Stands pos loc vs m v ∧ ok v m ∧ exec v.item m = some m'

/-- Runs all of whose steps are made at visited items for which `ok` holds. -/
def RunsTo (vs : List (Visit σ ι)) (ok : Visit σ ι → M → Prop) : M → M → Prop :=
  Relation.ReflTransGen (Moves pos loc exec vs ok)

variable {pos loc exec}

/-- The run rule. If executing an item either falls through into the state the
checker computed or enters somewhere in a state that suits every visit, then the
checker's state before each visit describes the machine whenever it gets there. -/
theorem Pass.run_invariant (h : Pass step s vs t) (hpos : ∀ a i b, step a i b → pos a < pos b)
    {ok : Visit σ ι → M → Prop} {m m' : M} (Inv : σ → M → Prop)
    (h0 : ∀ v, Stands pos loc vs m v → Inv v.before m)
    (hexec : ∀ v a b, Stands pos loc vs a v → ok v a → Inv v.before a →
      exec v.item a = some b →
      loc b = some (pos v.after) ∧ Inv v.after b ∨ ∀ w, Stands pos loc vs b w → Inv w.before b)
    (hrun : RunsTo pos loc exec vs ok m m') :
    ∀ v, Stands pos loc vs m' v → Inv v.before m' := by
  induction hrun with
  | refl => exact h0
  | tail _ hmove ih =>
    obtain ⟨v, hv, hok, he⟩ := hmove
    rcases hexec v _ _ hv hok (ih v hv) he with ⟨hloc, hinv⟩ | hentry
    · intro w hw
      have hp : pos w.before = pos v.after := Option.some.inj (hw.2.symm.trans hloc)
      rw [h.before_eq_after hpos hv.1 hw.1 hp]
      exact hinv
    · exact hentry

/-- A property of machine states that every step keeps holds at the end of a run. -/
theorem RunsTo.invariant {ok : Visit σ ι → M → Prop} {I : M → Prop} {m m' : M}
    (hrun : RunsTo pos loc exec vs ok m m') (h0 : I m)
    (hmove : ∀ a b, Moves pos loc exec vs ok a b → I a → I b) : I m' := by
  induction hrun with
  | refl => exact h0
  | tail _ hm ih => exact hmove _ _ hm ih

/-- A weaker condition on the steps allows more runs. -/
theorem RunsTo.mono {ok ok' : Visit σ ι → M → Prop} (h : ∀ v m, ok v m → ok' v m) {m m' : M}
    (hrun : RunsTo pos loc exec vs ok m m') : RunsTo pos loc exec vs ok' m m' := by
  induction hrun with
  | refl => exact .refl
  | tail _ hmove ih =>
    obtain ⟨v, hv, hok, hs⟩ := hmove
    exact .tail ih ⟨v, hv, h v _ hok, hs⟩

end Machine

end Pittsfield.Foundation
