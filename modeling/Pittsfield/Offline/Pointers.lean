import Mathlib.Order.CompletePartialOrder
import Pittsfield.Offline.Masking

/-!
# What `verify.pl` knows of the two pointers

The loop keeps the weakenings of `Machine.Weakening` as bits of `$unsafety`. Every branch
that lets an instruction through either flags what the instruction does to `%esp` and
`%ebp`, or is one of a few cases; `Effect` lists them.
-/

namespace Pittsfield.Offline

open Pittsfield.Foundation
open Pittsfield.Region
open Pittsfield.Machine
open Offline.Flag

def VState.weak (st : VState) : Weak where
  change_ebp := CHANGE_EBP ∈ st.unsafety
  change_esp := CHANGE_ESP ∈ st.unsafety
  bump_esp := BUMP_ESP ∈ st.unsafety
  bump_count := st.bump_count

def post (f : Flags) : Post where
  change_ebp := CHANGE_EBP ∈ f
  change_esp := CHANGE_ESP ∈ f
  bump_esp := BUMP_ESP ∈ f
  use_esp := USE_ESP ∈ f
  ebp_safe := ebp_safety ∈ f

theorem mem_ite_union {c : Prop} [Decidable c] {A B : Flags} {x : Flag} :
    x ∈ (if c then A ∪ B else A) ↔ x ∈ A ∨ c ∧ x ∈ B := by
  by_cases hc : c <;> simp [hc]

theorem mem_ite_sdiff {c : Prop} [Decidable c] {A B : Flags} {x : Flag} :
    x ∈ (if c then A \ B else A) ↔ x ∈ A ∧ ¬ (c ∧ x ∈ B) := by
  by_cases hc : c <;> simp [hc]

/-- The loop updates the weakenings as `checks.txt` says. -/
theorem weak_updateState (st : VState) (safety : Flags) (op : String) (f : Flags) :
    (updateState st safety op f).weak = st.weak.after (post f) := by
  have hw : CHANGE_EBP ∈ weakenings ∧ CHANGE_ESP ∈ weakenings ∧ BUMP_ESP ∈ weakenings := by decide
  simp only [updateState, VState.weak, post, Weak.after, Weak.mk.injEq, decide_eq_true_eq,
    mem_ite_union, mem_ite_sdiff, Finset.mem_union, Finset.mem_inter, hw, and_true]
  refine ⟨?_, ?_, ?_⟩ <;> simp

section Texts

theorem argsText_pair (x y : Operand) :
    (argsText [x, y]).toList = x.text.toList ++ ',' :: y.text.toList := by
  simp [argsText]

/-- The base register stands in the text of an operand, with something behind it. -/
theorem text_base (offset : Option {t : String // lword t.toList = true}) (r : Reg32)
    (index : Option Reg32) (scale : Option Nat) :
    ∃ a b, (Operand.mem offset (some r) index scale).text.toList =
      a ++ ((reg32Text r).toList ++ b) ∧ b ≠ [] := by
  refine ⟨((offset.map (·.val)).getD "" ++ "(").toList, (((index.map fun r => "," ++ reg32Text r).getD "") ++
      ((scale.map fun n => "," ++ toString n).getD "") ++ ")").toList, ?_, ?_⟩
  · simp [Operand.text, String.toList_append]
  · simp [String.toList_append]

theorem found_of_infix {p text : String} {a b : List Char} (h : text.toList = a ++ (p.toList ++ b)) :
    found [p] text = true := by
  rw [found, List.any_eq_true]
  refine ⟨p.toList ++ b, ?_, ?_⟩
  · rw [List.mem_tails, h]
    exact List.suffix_append _ _
  · simp

theorem usesEsp_of_infix {text : String} {a b : List Char}
    (h : text.toList = a ++ ("%esp".toList ++ b)) (hb : b ≠ []) : usesEsp text = true := by
  rw [usesEsp, List.any_eq_true]
  refine ⟨"%esp".toList ++ b, ?_, ?_⟩
  · rw [List.mem_tails, h]
    exact List.suffix_append _ _
  · have hlen := List.length_pos_of_ne_nil hb
    simp
    omega

end Texts

/-- What counts as a bump of `%esp`. -/
inductive Bump (op : String) : List Operand → Prop
  | sum {value : String} (hop : op ∈ cat ["add", "sub"] (opt ["l"]))
    (h : startsWithByte value = true) : Bump op [.imm value, .reg (.r32 .esp)]
  | align (hop : op = "and") : Bump op [.imm "0xfffffff0", .reg (.r32 .esp)]
  | lea {src : Operand} {r : Reg} (h : isBumpLea op src = true) : Bump op [src, .reg r]

/-- The flags tell of a write to the register, a write of an immediate to `%sp` aside. -/
structure Noted (op : String) (args : List Operand) (f : Flags) (r : Reg) : Prop where
  ebp : r.whole = some .ebp → CHANGE_EBP ∈ f
  esp : r.whole = some .esp → CHANGE_ESP ∈ f ∨ BUMP_ESP ∈ f ∧ Bump op args ∨
    ∃ value, args = [.imm value, .reg (.r16 .esp)]

/-- `andl $JUMP_MASK,off(%esp)` and `orl $CODE_START,off(%esp)` -/
def MarksTop (L : Layout) (op : String) (args : List Operand) (t : String) : Prop :=
  ∃ value dest, args = [.imm value, dest] ∧ dest.offsetFrom .esp true = some t ∧
    (op = "andl" ∧ value = hexText L.jump_mask ∨
      op = "orl" ∧ value = hexText (BitVec.ofNat 32 L.code_start))

/-- What an instruction without control or stack effect does to the pointers, as the
branches take it to be. -/
inductive Effect (L : Layout) (op : String) (safety unsafety f : Flags) : List Operand → Prop
  | maskEbp (hop : op = "and") (hf : f = {EBP_DATA_SAFE}) :
    Effect L op safety unsafety f [.imm (hexText L.data_mask), .reg (.r32 .ebp)]
  | orEbp (hop : op = "or") (hset : EBP_DATA_SAFE ∈ safety) (hf : f = {EBP_DATA_XSAFE}) :
    Effect L op safety unsafety f [.imm (hexText (BitVec.ofNat 32 L.data_start)), .reg (.r32 .ebp)]
  | maskEsp (hop : op = "and") (hf : f = {USE_ESP}) :
    Effect L op safety unsafety f [.imm (hexText L.data_mask), .reg (.r32 .esp)]
  | orEsp {args} (hset : ESP_DATA_SAFE ∈ safety) : Effect L op safety unsafety f args
  | frame (hop : op = "mov") (hc : CHANGE_ESP ∉ unsafety) (hb : BUMP_ESP ∉ unsafety)
    (hf : f = {EBP_DATA_SAFE}) : Effect L op safety unsafety f [.reg (.r32 .esp), .reg (.r32 .ebp)]
  | unframe (hop : op = "mov") (hc : CHANGE_EBP ∉ unsafety) (hf : f = {USE_ESP}) :
    Effect L op safety unsafety f [.reg (.r32 .ebp), .reg (.r32 .esp)]
  | access {args dest t} (hlast : args.getLast? = some dest)
    (ht : dest.offsetFrom .esp true = some t)
    (hc : CHANGE_ESP ∉ unsafety ∧ smallOffset (fun _ => true) 127 t = true ∨ MarksTop L op args t)
    (hf : f ⊆ {USE_ESP, STACK_TOP_SAFE, STACK_TOP_XSAFE}) : Effect L op safety unsafety f args
  | plain {args} (hu : USE_ESP ∉ f) (he : EBP_DATA_SAFE ∉ f)
    (hlast : (op = "xchg" → ∀ a b, args ≠ [.reg a, .reg b]) →
      ∀ r, args.getLast? = some (.reg r) → Noted op args f r)
    (hswap : op = "xchg" → ∀ a b, args = [.reg a, .reg b] →
      a = b ∨ Noted op args f a ∧ Noted op args f b) : Effect L op safety unsafety f args

section

variable {L : Layout} {op : String} {safety unsafety f : Flags} {args : List Operand}

/-- No register is the last operand. -/
theorem Effect.of_memory {dest : Operand} (hlast : args.getLast? = some dest)
    (hdest : ∀ r, dest ≠ .reg r) (hu : USE_ESP ∉ f) (he : EBP_DATA_SAFE ∉ f) :
    Effect L op safety unsafety f args := by
  refine .plain hu he (fun _ r hr => ?_) (fun _ a b hargs => ?_)
  · rw [hlast] at hr
    exact absurd (Option.some.inj hr) (hdest r)
  · rw [hargs] at hlast
    exact absurd (Option.some.inj hlast).symm (hdest b)

theorem noted_of_change {r : Reg} (h : change r ⊆ f) : Noted op args f r := by
  refine ⟨fun hr => h ?_, fun hr => Or.inl (h ?_)⟩
  · exact Finset.mem_union_left _ (by rw [if_pos hr]; decide)
  · exact Finset.mem_union_right _ (by rw [if_pos hr]; decide)

/-- The last operand is a register and flagged. -/
theorem Effect.of_change {r : Reg} (hlast : args.getLast? = some (.reg r)) (hr : change r ⊆ f)
    (hf : f ⊆ weakenings ∪ {IREAD, USE_EBP})
    (hx : op = "xchg" → ∀ a b, args = [.reg a, .reg b] → a = b ∨ change a ⊆ f) :
    Effect L op safety unsafety f args := by
  refine .plain (fun h => ?_) (fun h => ?_) (fun _ q hq => ?_) (fun hop a b hargs => ?_)
  · exact absurd (hf h) (by decide)
  · exact absurd (hf h) (by decide)
  · rw [hlast] at hq
    cases hq
    exact noted_of_change hr
  · refine (hx hop a b hargs).imp id fun ha => ⟨noted_of_change ha, ?_⟩
    rw [hargs] at hlast
    cases hlast
    exact noted_of_change hr

theorem StoreFlags.effect {src dest : Operand} {half : List Char → Bool} {bound : Nat}
    (h : StoreFlags safety unsafety op dest half bound f) (hw : IWRITE ∉ f)
    (hdest : ∀ r, dest ≠ .reg r) : Effect L op safety unsafety f [src, dest] := by
  have hlast : [src, dest].getLast? = some dest := rfl
  rcases h with ⟨-, -, rfl⟩ | ⟨-, simple, hs, hf⟩
  · exact .of_memory hlast hdest (by decide) (by decide)
  cases hs with
  | none =>
    rcases hf with rfl | ⟨-, rfl⟩
    · exact absurd (Finset.mem_singleton_self _) hw
    · exact .of_memory hlast hdest (by decide) (by decide)
  | ebp t ht hu hoff =>
    have hf' : f = {USE_EBP} := by rcases hf with rfl | ⟨-, rfl⟩ <;> rfl
    rw [hf']
    exact .of_memory hlast hdest (by decide) (by decide)
  | esp t ht hu hoff =>
    have hf' : f = {USE_ESP} := by rcases hf with rfl | ⟨-, rfl⟩ <;> rfl
    rw [hf']
    exact .access hlast ht (Or.inl ⟨hu, hoff⟩) (by decide)

theorem offsetFrom_not_reg {dest : Operand} {r : Reg32} {one : Bool} {t : String}
    (ht : dest.offsetFrom r one = some t) (q : Reg) : dest ≠ .reg q := by
  rintro rfl
  cases ht

/-- The change of the registers that `immRegFlags` takes an instruction to make. -/
theorem immRegChange_effect {value : String} {r : Reg} :
    Effect L op safety unsafety (immRegChange op value r) [.imm value, .reg r] := by
  have hsub := immRegChange_subset op value r
  refine .plain (fun h => absurd (hsub h) (by decide)) (fun h => absurd (hsub h) (by decide))
    (fun _ q hq => ?_) (fun _ a b hargs => by cases hargs)
  cases hq
  refine ⟨fun hr => ?_, fun hr => ?_⟩
  · rw [immRegChange, if_pos hr]
    exact Finset.mem_union_left _ (by decide)
  · cases r with
    | r32 r =>
      obtain rfl := Option.some.inj hr
      rw [immRegChange, if_pos rfl]
      by_cases hsum : op ∈ cat ["add", "sub"] (opt ["l"]) ∧ startsWithByte value
      · rw [if_pos hsum]
        exact Or.inr (Or.inl ⟨Finset.mem_union_right _ (by decide), .sum hsum.1 hsum.2⟩)
      rw [if_neg hsum]
      by_cases halign : op = "and" ∧ value = "0xfffffff0"
      · rw [if_pos halign]
        refine Or.inr (Or.inl ⟨Finset.mem_union_right _ (by decide), ?_⟩)
        rw [halign.2]
        exact .align halign.1
      · rw [if_neg halign]
        exact Or.inl (Finset.mem_union_right _ (by decide))
    | r16 r =>
      obtain rfl := Option.some.inj hr
      exact Or.inr (Or.inr ⟨value, rfl⟩)
    | r8 r => cases r <;> cases hr
    | other n => cases hr

theorem loadChange_noted {src : Operand} {r : Reg} (h : loadChange op src r ⊆ f) :
    Noted op [src, .reg r] f r := by
  refine ⟨fun hr => h ?_, fun hr => ?_⟩
  · rw [loadChange, if_pos hr]
    exact Finset.mem_union_left _ (by decide)
  · by_cases hb : isBumpLea op src = true
    · refine Or.inr (Or.inl ⟨h ?_, .lea hb⟩)
      rw [loadChange, if_pos hr, if_pos hb]
      exact Finset.mem_union_right _ (by decide)
    · refine Or.inl (h ?_)
      rw [loadChange, if_pos hr, if_neg hb]
      exact Finset.mem_union_right _ (by decide)

/-- The branches for instructions without control or stack effect. -/
theorem effect_of_arm (h : Arm L op safety unsafety f args) (hk : opKind op = .data)
    (hw : IWRITE ∉ f) : Effect L op safety unsafety f args := by
  have hne : ∀ op', opKind op' ≠ .data → op ≠ op' := by
    rintro op' hop' rfl
    exact hop' hk
  have hcall : op ≠ "call" := hne _ (by decide)
  cases h with
  | none h =>
    rcases noneFlags_ok h with ⟨hop, -⟩ | ⟨hop, -⟩ | ⟨hop | hop, -⟩ | ⟨-, rfl⟩
    · exact absurd hop (hne _ (by decide))
    · exact absurd hop (hne _ (by decide))
    · exact absurd hop (hne _ (by decide))
    · exact absurd hop (hne _ (by decide))
    · exact .plain (by decide) (by decide) (fun _ r hr => by cases hr) fun _ a b he => by cases he
  | reg h =>
    rcases regFlags_ok h with ⟨hop, -⟩ | ⟨hop, -⟩ | rfl
    · exact absurd hop (hne _ (by decide))
    · exact absurd hop (hne _ (by decide))
    · exact .of_change rfl subset_rfl ((change_subset _).trans (by decide)) fun _ a b he => by cases he
  | imm h =>
    rcases (immFlags_ok h).1 with hop | hop
    · exact absurd hop (hne _ (by decide))
    · exact absurd hop (hne _ (by decide))
  | complex h =>
    have hmem : ∀ {o b i s}, f = ∅ → Effect L op safety unsafety f [.mem o b i s] := by
      rintro o b i s rfl
      exact .of_memory rfl (fun r he => by cases he) (by decide) (by decide)
    rcases complexFlags_ok h with ⟨hop, -⟩ | ⟨-, ⟨hiw, -⟩ | ⟨hf, -⟩⟩ | ⟨-, -, hf⟩
    · exact absurd hop (hne _ (by decide))
    · exact absurd hiw hw
    · exact hmem hf
    · exact hmem hf
  | immRegReg h =>
    obtain ⟨-, rfl⟩ := immRegRegFlags_ok h
    exact .of_change rfl Finset.subset_union_right (Finset.union_subset
      ((change_subset _).trans (by decide)) ((change_subset _).trans (by decide)))
      fun _ a b he => by cases he
  | regRegReg h =>
    obtain ⟨-, rfl⟩ := regRegRegFlags_ok h
    exact .of_change rfl Finset.subset_union_right (Finset.union_subset
      ((change_subset _).trans (by decide)) ((change_subset _).trans (by decide)))
      fun _ a b he => by cases he
  | immSrcReg h =>
    obtain ⟨-, rfl⟩ := immSrcRegFlags_ok h
    exact .of_change rfl subset_rfl ((change_subset _).trans (by decide)) fun _ a b he => by cases he
  | regReg h =>
    rcases regRegFlags_ok h with ⟨hop, rfl, rfl, hc, hb, rfl⟩ | ⟨hop, rfl, rfl, hc, rfl⟩ | ⟨hx, rfl⟩ |
      ⟨hx, rfl⟩
    · exact .frame hop hc hb rfl
    · exact .unframe hop hc rfl
    · exact .of_change rfl subset_rfl ((change_subset _).trans (by decide)) fun hop => absurd hop hx
    · split
      · rename_i he
        refine .plain (by decide) (by decide) (fun hno => absurd rfl (hno hx _ _)) fun _ a b hargs => ?_
        cases hargs
        exact Or.inl he
      · refine .of_change rfl Finset.subset_union_left (Finset.union_subset
          ((change_subset _).trans (by decide)) ((change_subset _).trans (by decide)))
          fun _ a b hargs => ?_
        cases hargs
        exact Or.inr Finset.subset_union_right
  | immReg h =>
    rcases (immRegFlags_ok h).2 with (⟨hop, hm⟩ | ⟨hop, hm⟩) | rfl
    · rcases hm with ⟨rfl, rfl, rfl⟩ | ⟨rfl, rfl, rfl⟩ | ⟨rfl, rfl, hf⟩ | ⟨rfl, rfl, hf⟩
      · exact .plain (by decide) (by decide) (fun _ r hr => by cases hr; exact ⟨nofun, nofun⟩)
          fun _ a b he => by cases he
      · exact .plain (by decide) (by decide) (fun _ r hr => by cases hr; exact ⟨nofun, nofun⟩)
          fun _ a b he => by cases he
      · exact .maskEbp hop hf
      · exact .maskEsp hop hf
    · rcases hm with ⟨rfl, hf⟩ | ⟨rfl, rfl, hset, hf⟩ | ⟨-, hset, -⟩
      · refine .plain ?_ ?_ (fun _ r hr => by cases hr; exact ⟨nofun, nofun⟩)
          fun _ a b he => by cases he
        · rcases hf with rfl | rfl <;> decide
        · rcases hf with rfl | rfl <;> decide
      · exact .orEbp hop hset hf
      · exact .orEsp hset
    · exact immRegChange_effect
  | immComplex h =>
    rcases immComplexFlags_ok h with ⟨⟨hop, hv, t, ht, -⟩, rfl⟩ | ⟨hop, hv, -, ⟨t, ht⟩, rfl⟩ | hs
    · exact .access rfl ht (Or.inr ⟨_, _, rfl, ht, Or.inl ⟨hop, hv⟩⟩) (by decide)
    · exact .access rfl ht (Or.inr ⟨_, _, rfl, ht, Or.inr ⟨hop, hv⟩⟩) (by decide)
    · exact hs.effect hw fun r he => by cases he
  | abs h =>
    rcases (absFlags_ok h).2 with ⟨hop, -⟩ | rfl
    · exact absurd hop (hne _ (by decide))
    · exact .of_memory rfl (fun r he => by cases he) (by decide) (by decide)
  | absReg h =>
    obtain ⟨-, rfl⟩ := absRegFlags_ok h
    exact .of_change rfl subset_rfl ((change_subset _).trans (by decide)) fun _ a b he => by cases he
  | regAbs h =>
    obtain ⟨-, rfl⟩ := toAbsFlags_ok h
    exact .of_memory rfl (fun r he => by cases he) (by decide) (by decide)
  | immAbs h =>
    obtain ⟨-, rfl⟩ := toAbsFlags_ok h
    exact .of_memory rfl (fun r he => by cases he) (by decide) (by decide)
  | complexReg h =>
    have hload : ∀ {o b i s} {r : Reg}, loadChange op (.mem o b i s) r ⊆ f →
        f ⊆ weakenings ∪ {IREAD, USE_EBP} → Effect L op safety unsafety f [.mem o b i s, .reg r] := by
      intro o b i s r hl hf
      refine .plain (fun h => absurd (hf h) (by decide)) (fun h => absurd (hf h) (by decide))
        (fun _ q hq => ?_) fun _ a b he => by cases he
      cases hq
      exact loadChange_noted hl
    have hw' : ∀ o b i s r, loadChange op (.mem o b i s) r ⊆ weakenings ∪ {IREAD, USE_EBP} :=
      fun o b i s r => (loadChange_subset _ _ _).trans (by decide)
    rcases (complexRegFlags_ok h).2 with rfl | rfl | rfl
    · exact hload subset_rfl (hw' ..)
    · exact hload Finset.subset_union_left (Finset.union_subset (hw' ..) (by decide))
    · exact hload Finset.subset_union_left (Finset.union_subset (hw' ..) (by decide))
  | regComplex h => exact (regComplexFlags_ok h).effect hw fun r he => by cases he
  | target h =>
    obtain ⟨-, -, -, rfl⟩ := targetFlags_ok h
    rw [if_neg hcall]
    exact .of_memory rfl (fun r he => by cases he) (by decide) (by decide)
  | star h =>
    rcases starFlags_ok h with ⟨-, -, rfl⟩ | rfl <;> rw [if_neg hcall] <;>
      exact .of_memory rfl (fun r he => by cases he) (by decide) (by decide)
  | other h =>
    rcases otherRegFlags_ok h with ⟨-, ht, rfl⟩ | ⟨-, rfl⟩
    · refine .plain (by decide) (by decide) (fun _ r hr => ?_) fun _ a b he => by cases he
      cases hr
      rcases ht with rfl | rfl <;> exact ⟨nofun, nofun⟩
    · exact .of_change rfl subset_rfl ((change_subset _).trans (by decide)) fun _ a b he => by cases he

end

end Pittsfield.Offline
