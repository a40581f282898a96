import Pittsfield.Rewrite.Flags

/-!
# What rewriting keeps of the state

Beyond the flags: the run of what the script prints for a straight-line sequence ends in
the state in which the sequence as written ends, up to `%ebx`, the flags that the masks
have spoiled last, and the words just below `%esp` to which flags were pushed.
-/

namespace Pittsfield.Rewrite

open Pittsfield.Region
open Pittsfield.Machine

section

variable {E : Type} (sym : String → Word) (foot : Footprint) (isa : Isa E)

/-- The instructions of a sequence. -/
def instructions : List Line → List Insn
  | [] => []
  | .insn i :: ls => i :: instructions ls
  | _ :: ls => instructions ls

/-- The words just below `%esp` on the way through a run. -/
def below : List Insn → Proc E → Set Word
  | [], s => slot s.cpu
  | i :: is, s => slot s.cpu ∪ below is (step sym foot isa i s)

/-- What is known of the two runs behind a sequence. -/
def Track.along (tail : List Line) : Track → List Line → Proc E → Track
  | k, [], _ => k
  | k, .insn i :: ls, s =>
    (k.next sym foot isa (preciousAt k.forward_eflags_live i ls tail) i s).along tail ls
      (step sym foot isa i s)
  | k, _ :: ls, s => k.along tail ls s

variable {sym foot isa} {g : Settings} {sz : Size} {insn_len : Insn → Nat} {tail ls : List Line}
variable {k : Track} {s t : Proc E} {o : Out} {i : Insn}

theorem slot_below (is : List Insn) (s : Proc E) : slot s.cpu ⊆ below sym foot isa is s := by
  cases is with
  | nil => exact subset_rfl
  | cons i is => exact Set.subset_union_left

/-- One line leaves behind differing bytes only just below `%esp`. -/
theorem staleAfter_below (p : Bool) :
    k.staleAfter sym foot isa p i s ⊆ k.stale ∪ (slot s.cpu ∪ slot (step sym foot isa i s).cpu) := by
  intro x hx
  rw [Track.staleAfter] at hx
  split at hx
  · rename_i hm
    have hat := hx.1
    rw [Track.staleAt, if_pos hm] at hat
    exact hat.imp id fun h => Or.inl h.2
  · refine hx.imp (fun h => h.1) fun h => Or.inr ?_
    split at h
    · exact h
    · exact h.elim

/-- All bytes that differ behind a sequence have stood just below `%esp`. -/
theorem along_below : (k.along sym foot isa tail ls s).stale ⊆
    k.stale ∪ below sym foot isa (instructions ls) s := by
  induction ls generalizing k s with
  | nil => exact Set.subset_union_left
  | cons l ls ih =>
    cases l with
    | insn i =>
      intro x hx
      rcases ih hx with h | h
      · rcases staleAfter_below _ h with h | h | h
        · exact Or.inl h
        · exact Or.inr (Or.inl h)
        · exact Or.inr (Or.inr (slot_below _ _ h))
      · exact Or.inr (Or.inr h)
    | label | align2 | p2align | other => exact ih

/-- The script goes over a sequence to the lines behind it, and the runs agree there. -/
theorem sequence_agree (hdirty : k.dirty_esp = o.dirty_esp)
    (hlive : k.forward_eflags_live = o.forward_eflags_live) (h : Agree {.ebx} k.spoiled k.stale s t)
    (hs : Along sym foot isa (Supported (compute_sizes g sz) sym) ls s)
    (hok : LinesOk (compute_sizes g sz) sym foot isa tail k ls s) :
    ∃ o' is, rewriteLines (compute_sizes g sz) insn_len o (ls ++ tail) =
        rewriteLines (compute_sizes g sz) insn_len o' tail ∧ o'.code = o.code ++ is ∧
      Agree {.ebx} (k.along sym foot isa tail ls s).spoiled (k.along sym foot isa tail ls s).stale
        (run sym foot isa (instructions ls) s) (run sym foot isa is t) := by
  induction ls generalizing o k s t with
  | nil => exact ⟨o, [], rfl, (List.append_nil _).symm, h⟩
  | cons l ls ih =>
    -- a line that prints no instruction
    have hquiet : ∀ o₁ : Out,
        visit (compute_sizes g sz) insn_len o (eflags_live_before (l :: ls ++ tail)) l = .ok o₁ →
        o₁.code = o.code → o₁.dirty_esp = o.dirty_esp →
        o₁.forward_eflags_live = o.forward_eflags_live →
        Along sym foot isa (Supported (compute_sizes g sz) sym) ls s →
        LinesOk (compute_sizes g sz) sym foot isa tail k ls s →
        ∃ o' is, rewriteLines (compute_sizes g sz) insn_len o (l :: ls ++ tail) =
            rewriteLines (compute_sizes g sz) insn_len o' tail ∧ o'.code = o.code ++ is ∧
          Agree {.ebx} (k.along sym foot isa tail ls s).spoiled
            (k.along sym foot isa tail ls s).stale
            (run sym foot isa (instructions ls) s) (run sym foot isa is t) := by
      intro o₁ hvisit hcode hd hl hs' hok'
      obtain ⟨o', is, hrest, hcode', hagree⟩ :=
        ih (hdirty.trans hd.symm) (hlive.trans hl.symm) h hs' hok'
      refine ⟨o', is, ?_, hcode ▸ hcode', hagree⟩
      rw [List.cons_append, rewriteLines, ← List.cons_append, hvisit]
      exact hrest
    cases l with
    | insn i =>
      obtain ⟨hline, hrest⟩ := hok
      obtain ⟨hsup, hsrest⟩ := hs
      obtain ⟨o₁, ho, hcode, hodirty, holive⟩ := visitInsn_spec (compute_sizes g sz) insn_len o
        (eflags_live_before (.insn i :: ls ++ tail)) hsup.straight hsup.printed rfl
      have hp : preciousAt k.forward_eflags_live i ls tail =
          (forwardBefore i o.forward_eflags_live || eflags_live_before (.insn i :: ls ++ tail)) := by
        rw [preciousAt, hlive]
      rw [← hp, ← hdirty] at hcode
      obtain ⟨-, hagree⟩ := line_agree (fun x => data_mask_keeps g sz) h hsup hline
      have hd : (k.next sym foot isa (preciousAt k.forward_eflags_live i ls tail) i s).dirty_esp =
          o₁.dirty_esp := by
        rw [hodirty, ← hdirty]
        rfl
      have hl : (k.next sym foot isa (preciousAt k.forward_eflags_live i ls tail) i
          s).forward_eflags_live = o₁.forward_eflags_live := by
        rw [holive, ← hlive]
        rfl
      obtain ⟨o', is, hgo, hcode', hagree'⟩ := ih hd hl hagree hsrest hrest
      refine ⟨o', before (compute_sizes g sz) k.dirty_esp i ++ body (compute_sizes g sz)
        (preciousAt k.forward_eflags_live i ls tail) i ++ is, ?_, ?_, ?_⟩
      · rw [List.cons_append, rewriteLines, ← List.cons_append]
        exact (congrArg (· >>= fun o => rewriteLines _ _ o (ls ++ tail)) ho).trans hgo
      · rw [hcode', hcode, List.append_assoc]
      · rw [run_append]
        exact hagree'
    | label name =>
      exact hquiet _ rfl (by rw [code_print, code_align]; exact List.append_nil _) rfl rfl hs hok
    | align2 => exact hquiet _ rfl ((code_print .align2).trans (List.append_nil _)) rfl rfl hs hok
    | p2align => exact hquiet _ rfl rfl rfl rfl hs hok
    | other text =>
      exact hquiet _ rfl ((code_print (.text text)).trans (List.append_nil _)) rfl rfl hs hok

end

end Pittsfield.Rewrite
