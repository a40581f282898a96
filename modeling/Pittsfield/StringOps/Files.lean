import Pittsfield.StringOps.Runs

/-!
# Whole files

The script reads a file as lines to copy and string instructions, in this order, and
prints them with labels of its own. A loop means in the whole output what it means alone,
since its labels stand nowhere else, and a second pass finds nothing to rewrite.
-/

namespace Pittsfield.StringOps

open Pittsfield.Region
open Pittsfield.Machine
open StateTransition

/-- What the script sees in a file. -/
inductive Block
  | copy (line : String)
  | loop (op : StringOp)

/-- The string instruction that is meant by a prefix and an operation. The prefix of the
moves and stores is not looked at. -/
def stringOp (repop stringop : String) : Option StringOp :=
  if stringop = "movsl" then some .movsl
  else if stringop = "stosl" then some .stosl
  else if repop = "repz" ∧ stringop = "cmpsb" then some .cmpsb
  else if repop = "repnz" ∧ stringop = "scasb" then some .scasb
  else none

/-- What stands behind a prefix. -/
def block (repop stringop : String) : Option Block :=
  if stringop = "ret" then some (.copy "\tret") else (stringOp repop stringop).map .loop

/-- The line is neither a prefix nor one of the direction flag. -/
structure Plain (line : String) : Prop where
  no_rep : repLine line = none
  no_cld : ¬ "\tcld".toList.isPrefixOf line.toList = true
  no_std : ¬ "\tstd".toList.isPrefixOf line.toList = true

/-- The blocks of a file. -/
inductive Reads : List String → List Block → Prop
  | done : Reads [] []
  | copy {line : String} {rest : List String} {bs : List Block} :
      Plain line → Reads rest bs → Reads (line :: rest) (.copy line :: bs)
  | cld {line : String} {rest : List String} {bs : List Block} :
      repLine line = none → "\tcld".toList.isPrefixOf line.toList = true → Reads rest bs →
      Reads (line :: rest) bs
  /-- the instruction stands behind its prefix -/
  | one {line repop stringop : String} {rest : List String} {b : Block} {bs : List Block} :
      repLine line = some (repop, some stringop) → block repop stringop = some b →
      Reads rest bs → Reads (line :: rest) (b :: bs)
  /-- the instruction stands on the next line -/
  | two {line next repop : String} {rest : List String} {b : Block} {bs : List Block} :
      repLine line = some (repop, none) → block repop (dropTab next) = some b →
      Reads rest bs → Reads (line :: next :: rest) (b :: bs)

/-- The lines printed for the blocks, with the labels from `n` on. -/
def printBlocks : Nat → List Block → List Line
  | _, [] => []
  | n, .copy line :: bs => .text line :: printBlocks n bs
  | n, .loop op :: bs => op.lines (loopLabel n) (loopLabel (n + 1)) ++ printBlocks (n + 2) bs

section Reading

variable {n : Nat} {repop stringop : String} {lines : List String} {out : List Line}

theorem except_bind {α β : Type} {x : Except String α} {f : α → Except String β} {b : β}
    (h : x.bind f = .ok b) : ∃ a, x = .ok a ∧ f a = .ok b := by
  cases x with
  | error e => cases h
  | ok a => exact ⟨a, rfl, h⟩

theorem expand_stringOp (n : Nat) {ls : List Line} (h : expand repop stringop n = .ok ls) :
    ∃ op, stringOp repop stringop = some op ∧ ls = op.lines (loopLabel n) (loopLabel (n + 1)) := by
  have hsame : ∀ op : StringOp, expand repop stringop n =
      .ok (op.lines (loopLabel n) (loopLabel (n + 1))) →
      ls = op.lines (loopLabel n) (loopLabel (n + 1)) :=
    fun op he => Except.ok.inj (h.symm.trans he)
  rw [stringOp]
  by_cases h1 : stringop = "movsl"
  · subst h1
    exact ⟨.movsl, if_pos rfl, hsame _ rfl⟩
  by_cases h2 : stringop = "stosl"
  · subst h2
    exact ⟨.stosl, by rw [if_neg h1, if_pos rfl], hsame _ rfl⟩
  by_cases h3 : repop = "repz" ∧ stringop = "cmpsb"
  · obtain ⟨rfl, rfl⟩ := h3
    exact ⟨.cmpsb, rfl, hsame _ rfl⟩
  by_cases h4 : repop = "repnz" ∧ stringop = "scasb"
  · obtain ⟨rfl, rfl⟩ := h4
    exact ⟨.scasb, rfl, hsame _ rfl⟩
  · simp only [expand, loopBody, if_neg h1, if_neg h2, if_neg h3, if_neg h4] at h
    cases h

/-- What is printed for a prefix is what is printed for its block. -/
theorem expandRep_block {ls : List Line} {m : Nat} (h : expandRep repop stringop n = .ok (ls, m)) :
    ∃ b, block repop stringop = some b ∧ ∀ bs, ls ++ printBlocks m bs = printBlocks n (b :: bs) := by
  unfold expandRep at h
  unfold block
  split_ifs at h ⊢ with hret
  · obtain ⟨rfl, rfl⟩ := Prod.mk.inj (Except.ok.inj h)
    exact ⟨_, rfl, fun bs => rfl⟩
  · cases he : expand repop stringop n with
    | error e =>
      rw [he] at h
      cases h
    | ok ls' =>
      rw [he] at h
      obtain ⟨rfl, rfl⟩ := Prod.mk.inj (Except.ok.inj h)
      obtain ⟨op, hop, rfl⟩ := expand_stringOp n he
      exact ⟨.loop op, by rw [hop]; rfl, fun bs => rfl⟩

/-- The script reads the file as blocks, and prints these. -/
theorem reads_of_ok (h : rewriteStringops n lines = .ok out) :
    ∃ bs, Reads lines bs ∧ out = printBlocks n bs := by
  fun_induction rewriteStringops n lines generalizing out with
  | case1 n =>
    obtain rfl := Except.ok.inj h
    exact ⟨[], .done, rfl⟩
  | case2 n line repop stringop hrep =>
    cases he : expandRep repop (stringop.getD "") n with
    | error e =>
      rw [he] at h
      cases h
    | ok r =>
      obtain ⟨ls, m⟩ := r
      rw [he] at h
      obtain rfl := Except.ok.inj h
      obtain ⟨b, hb, hprint⟩ := expandRep_block he
      refine ⟨[b], ?_, ?_⟩
      · cases stringop with
        | none =>
          -- the file ends behind the prefix
          have hnone : block repop "" = none := by simp [block, stringOp]
          rw [Option.getD_none, hnone] at hb
          cases hb
        | some stringop => exact .one hrep hb .done
      · rw [← hprint [], printBlocks, List.append_nil]
  | case3 n line hrep hcld =>
    obtain rfl := Except.ok.inj h
    exact ⟨[], .cld hrep hcld .done, rfl⟩
  | case4 | case9 => cases h
  | case5 n line hrep hcld hstd =>
    obtain rfl := Except.ok.inj h
    exact ⟨[.copy line], .copy ⟨hrep, hcld, hstd⟩ .done, rfl⟩
  | case6 n line next rest repop stringop hrep ih =>
    obtain ⟨⟨ls, m⟩, he, h⟩ := except_bind h
    obtain ⟨out', hrest, h⟩ := except_bind h
    obtain rfl := Except.ok.inj h
    obtain ⟨b, hb, hprint⟩ := expandRep_block he
    obtain ⟨bs, hreads, rfl⟩ := ih m hrest
    exact ⟨b :: bs, .one hrep hb hreads, hprint bs⟩
  | case7 n line next rest repop hrep ih =>
    obtain ⟨⟨ls, m⟩, he, h⟩ := except_bind h
    obtain ⟨out', hrest, h⟩ := except_bind h
    obtain rfl := Except.ok.inj h
    obtain ⟨b, hb, hprint⟩ := expandRep_block he
    obtain ⟨bs, hreads, rfl⟩ := ih m hrest
    exact ⟨b :: bs, .two hrep hb hreads, hprint bs⟩
  | case8 n line next rest hrep hcld ih =>
    obtain ⟨bs, hreads, rfl⟩ := ih h
    exact ⟨bs, .cld hrep hcld hreads, rfl⟩
  | case10 n line next rest hrep hcld hstd ih =>
    obtain ⟨out', hrest, h⟩ := except_bind h
    obtain rfl := Except.ok.inj h
    obtain ⟨bs, hreads, rfl⟩ := ih hrest
    exact ⟨.copy line :: bs, .copy ⟨hrep, hcld, hstd⟩ hreads, rfl⟩

end Reading

section Labels

variable {n : Nat} {bs bs₁ bs₂ : List Block} {op : StringOp} {head tail : String}

theorem loopLabel_injective : Function.Injective loopLabel := by
  intro m n h
  have hr : Nat.repr m = Nat.repr n := (String.append_right_inj _).mp h
  have hd : Nat.toDigits 10 m = Nat.toDigits 10 n := by
    rw [← Nat.toList_repr, ← Nat.toList_repr, hr]
  have hn := congrArg (Nat.ofDigitChars 10 · 0) hd
  simpa only [Nat.ofDigitChars_ten_toDigits] using hn

/-- The labels that stand in the lines, without those of the copied lines. -/
def labels : List Line → List String
  | [] => []
  | .label l :: ls => l :: labels ls
  | _ :: ls => labels ls

/-- The loops among the blocks. -/
def loops : List Block → Nat
  | [] => 0
  | .copy _ :: bs => loops bs
  | .loop _ :: bs => loops bs + 1

theorem labels_append (as bs : List Line) : labels (as ++ bs) = labels as ++ labels bs := by
  induction as with
  | nil => rfl
  | cons a as ih =>
    cases a with
    | label l => exact congrArg (l :: ·) ih
    | insn | text => exact ih

theorem labels_lines (op : StringOp) : labels (op.lines head tail) = [head, tail] := by
  cases op <;> rfl

/-- The labels of a file are counted up from the first one. -/
theorem labels_printBlocks (n : Nat) (bs : List Block) :
    labels (printBlocks n bs) = (List.range' n (2 * loops bs)).map loopLabel := by
  induction bs generalizing n with
  | nil => rfl
  | cons b bs ih =>
    cases b with
    | copy line => exact ih n
    | loop op =>
      rw [printBlocks, labels_append, labels_lines, ih]
      rfl

theorem printBlocks_append (n : Nat) (as bs : List Block) :
    printBlocks n (as ++ bs) = printBlocks n as ++ printBlocks (n + 2 * loops as) bs := by
  induction as generalizing n with
  | nil => rfl
  | cons a as ih =>
    cases a with
    | copy line => exact congrArg (.text line :: ·) (ih n)
    | loop op =>
      rw [List.cons_append, printBlocks, ih, printBlocks, loops, List.append_assoc]
      congr 3
      omega

end Labels

section Context

variable {as prog bs : List Line} {l : String} {a b : At}

theorem labelIndex_append (h : l ∉ labels as) :
    labelIndex l (as ++ prog) = (labelIndex l prog).map (as.length + ·) := by
  induction as with
  | nil => simp
  | cons x as ih =>
    have hshift : ((labelIndex l prog).map (as.length + ·)).map (· + 1) =
        (labelIndex l prog).map ((x :: as).length + ·) := by
      rw [Option.map_map, List.length_cons]
      congr 1
      funext k
      simp only [Function.comp]
      omega
    cases x with
    | label k =>
      obtain ⟨hk, has⟩ := not_or.mp (fun h' => h (List.mem_cons.mpr h'))
      rw [List.cons_append, labelIndex, if_neg (Ne.symm hk), ih has, hshift]
    | insn | text => exact (congrArg (Option.map (· + 1)) (ih h)).trans hshift

theorem labelIndex_mem {k : Nat} (h : labelIndex l prog = some k) : l ∈ labels prog := by
  induction prog generalizing k with
  | nil => cases h
  | cons x prog ih =>
    cases x with
    | label m =>
      rw [labelIndex] at h
      split_ifs at h with hm
      · exact List.mem_cons.mpr (Or.inl hm.symm)
      · obtain ⟨j, hj, -⟩ := Option.map_eq_some_iff.mp h
        exact List.mem_cons_of_mem _ (ih hj)
    | insn | text =>
      obtain ⟨j, hj, -⟩ := Option.map_eq_some_iff.mp h
      exact ih hj

theorem labelIndex_prefix {k : Nat} (h : labelIndex l prog = some k) :
    labelIndex l (prog ++ bs) = some k := by
  induction prog generalizing k with
  | nil => cases h
  | cons x prog ih =>
    have hrest : ∀ k', (labelIndex l prog).map (· + 1) = some k' →
        (labelIndex l (prog ++ bs)).map (· + 1) = some k' := by
      intro k' h'
      obtain ⟨j, hj, rfl⟩ := Option.map_eq_some_iff.mp h'
      rw [ih hj, Option.map_some]
    cases x with
    | label m =>
      rw [labelIndex] at h
      rw [List.cons_append, labelIndex]
      split_ifs at h ⊢
      · exact h
      · exact hrest k h
    | insn | text => exact hrest k h

/-- A step of the lines alone is a step where they stand in a file, if their labels do
not stand before them. -/
theorem step_in_place (hnew : ∀ l ∈ labels prog, l ∉ labels as) (h : step prog a = some b) :
    step (as ++ (prog ++ bs)) ⟨as.length + a.pc, a.cpu⟩ = some ⟨as.length + b.pc, b.cpu⟩ := by
  have hline : ∀ line, prog[a.pc]? = some line → (as ++ (prog ++ bs))[as.length + a.pc]? = some line := by
    intro line hl
    obtain ⟨hlt, -⟩ := List.getElem?_eq_some_iff.mp hl
    rw [List.getElem?_append_right (Nat.le_add_right _ _), Nat.add_sub_cancel_left,
      List.getElem?_append_left hlt, hl]
  unfold step at h
  split at h
  · rename_i name hl
    obtain rfl := Option.some.inj h
    exact step_label (hline _ hl)
  · rename_i i hl
    split at h
    · rename_i target hj
      obtain ⟨k, hk, rfl⟩ := Option.map_eq_some_iff.mp h
      refine step_jump (hline _ hl) hj ?_
      rw [labelIndex_append (hnew target (labelIndex_mem hk)), labelIndex_prefix hk, Option.map_some]
    · rename_i hj
      obtain rfl := Option.some.inj h
      exact step_next (hline _ hl) hj
  · cases h

/-- So is a run. -/
theorem reaches_in_place (hnew : ∀ l ∈ labels prog, l ∉ labels as) (h : Reaches (step prog) a b) :
    Reaches (step (as ++ (prog ++ bs))) ⟨as.length + a.pc, a.cpu⟩ ⟨as.length + b.pc, b.cpu⟩ := by
  induction h with
  | refl => exact .refl
  | tail _ hs ih => exact ih.tail (step_in_place hnew hs)

end Context

section Meaning

variable {n : Nat} {lines : List String} {out : List Line} {bs : List Block} {op : StringOp}

/-- The `len` lines from `pc` on do what the string instruction does, but that the flags are
the same only where the bytes compared last are equal. -/
def MeansInPlace (out : List Line) (pc len : Nat) (op : StringOp) : Prop :=
  ∀ s : Cpu, op.Avoids (belowEsp s) (s.reg .ecx).toNat s →
    ∃ t, Reaches (step out) ⟨pc, s⟩ ⟨pc + len, t⟩ ∧ t.reg = (op.run s).reg ∧
      (∀ a, a ∉ belowEsp s → t.mem a = (op.run s).mem a) ∧
      (status t.eflags = status (op.run s).eflags ↔ op.Settled (s.reg .ecx).toNat s)

theorem labels_nodup (n : Nat) (bs : List Block) : (labels (printBlocks n bs)).Nodup := by
  rw [labels_printBlocks]
  exact (List.nodup_range' 1).map loopLabel_injective

/-- A loop means in the whole output what it means alone. -/
theorem loop_in_place (n : Nat) (bs₁ bs₂ : List Block) (op : StringOp) :
    MeansInPlace (printBlocks n (bs₁ ++ .loop op :: bs₂)) (printBlocks n bs₁).length
      (op.lines (loopLabel (n + 2 * loops bs₁)) (loopLabel (n + 2 * loops bs₁ + 1))).length op := by
  intro s ha
  obtain ⟨t, heval, hreg, hmem, hst⟩ := lines_run (n + 2 * loops bs₁) ha
  refine ⟨t, ?_, hreg, hmem, hst⟩
  rw [printBlocks_append, printBlocks]
  refine reaches_in_place (a := ⟨0, s⟩) (b := ⟨_, t⟩) ?_ (mem_eval.mp heval).1
  -- the labels before the loop are counted up to it
  intro l hl hbefore
  rw [labels_lines] at hl
  rw [labels_printBlocks] at hbefore
  obtain ⟨j, hj, rfl⟩ := List.mem_map.mp hbefore
  have hlt := (List.mem_range'_1.mp hj).2
  rcases List.mem_pair.mp hl with he | he <;> have hk := loopLabel_injective he <;> omega

/-- For every file that the script accepts: it is read as lines to copy and string
instructions, these are printed in order with labels that are all different, and run where
it stands in the output every loop does what its string instruction does. -/
theorem file_in_place (h : rewriteStringops n lines = .ok out) :
    ∃ bs, Reads lines bs ∧ out = printBlocks n bs ∧ (labels out).Nodup ∧
      ∀ bs₁ op bs₂, bs = bs₁ ++ .loop op :: bs₂ →
        MeansInPlace out (printBlocks n bs₁).length
          (op.lines (loopLabel (n + 2 * loops bs₁)) (loopLabel (n + 2 * loops bs₁ + 1))).length op := by
  obtain ⟨bs, hreads, rfl⟩ := reads_of_ok h
  refine ⟨bs, hreads, rfl, labels_nodup n bs, ?_⟩
  rintro bs₁ op bs₂ rfl
  exact loop_in_place n bs₁ bs₂ op

/-- A file with two copies, the prefix of the second on a line of its own. -/
def twoCopies : List String :=
  ["\tcld", "\trep movsl", "\tmovl\t$3, %ecx", "\trep", "\tstosl", "\trep ret"]

theorem twoCopies_in_place : ∃ out, rewriteStringops 1 twoCopies = .ok out ∧
    ∃ bs, Reads twoCopies bs ∧ out = printBlocks 1 bs ∧ (labels out).Nodup ∧
      ∀ bs₁ op bs₂, bs = bs₁ ++ .loop op :: bs₂ →
        MeansInPlace out (printBlocks 1 bs₁).length
          (op.lines (loopLabel (1 + 2 * loops bs₁)) (loopLabel (1 + 2 * loops bs₁ + 1))).length op :=
  ⟨_, rfl, file_in_place rfl⟩

end Meaning

section Again

variable {n : Nat} {lines : List String} {line : String} {out : List Line} {bs : List Block}

/-- What the lines rewritten begin with. -/
def marks : List (List Char) := ["\trep".toList, "\tcld".toList, "\tstd".toList]

theorem repLine_none (h : line.toList.take 4 ≠ "\trep".toList) : repLine line = none := by
  have hall : ∀ r ∈ repOps, "\trep".toList <+: '\t' :: r.toList := by decide
  have hno : ¬ "\trep".toList <+: line.toList := fun hp => h (List.prefix_iff_eq_take.mp hp).symm
  refine List.findSome?_eq_none_iff.mpr fun r hr => ?_
  have hpre := hall r hr
  dsimp only
  rw [if_neg, if_neg]
  · intro hp
    exact hno ((hpre.trans (List.prefix_append _ _)).trans (List.isPrefixOf_iff_prefix.mp hp.1))
  · intro he
    exact hno (he ▸ hpre)

theorem plain_of_take (h : line.toList.take 4 ∉ marks) : Plain line := by
  have hno : ∀ m ∈ marks, m.length = 4 → ¬ m.isPrefixOf line.toList = true := by
    intro m hm hlen hp
    have ht := List.prefix_iff_eq_take.mp (List.isPrefixOf_iff_prefix.mp hp)
    rw [hlen] at ht
    exact h (ht ▸ hm)
  exact ⟨repLine_none fun he => h (he ▸ by decide), hno _ (by decide) rfl, hno _ (by decide) rfl⟩

theorem plain_insn (i : Insn) : Plain i.print := by
  refine plain_of_take ?_
  cases i <;> simp [Insn.print, marks]

theorem plain_label (n : Nat) : Plain (Line.label (loopLabel n)).print :=
  plain_of_take (by simp [Line.print, loopLabel, marks])

theorem lines_cases {op : StringOp} {head tail : String} {l : Line} (h : l ∈ op.lines head tail) :
    l = .label head ∨ l = .label tail ∨ ∃ i, l = .insn i := by
  have hmove : ∀ i, l ∈ (if op.saves then [Line.insn i] else []) → ∃ i, l = .insn i := by
    intro i hl
    split_ifs at hl
    · exact ⟨i, List.mem_singleton.mp hl⟩
    · cases hl
  have hmiddle : l ∈ [Line.label head, .insn (.jecxz tail)] → l = .label head ∨ ∃ i, l = .insn i :=
    fun hl => (List.mem_pair.mp hl).imp id fun he => ⟨_, he⟩
  rcases List.mem_append.mp h with h | h
  · rcases List.mem_append.mp h with h | h
    · rcases List.mem_append.mp h with h | h
      · rcases List.mem_append.mp h with h | h
        · exact Or.inr (Or.inr (hmove _ h))
        · exact (hmiddle h).imp id Or.inr
      · obtain ⟨i, -, rfl⟩ := List.mem_map.mp h
        exact Or.inr (Or.inr ⟨i, rfl⟩)
    · exact Or.inr (Or.inl (List.mem_singleton.mp h))
  · exact Or.inr (Or.inr (hmove _ h))

theorem plain_lines {op : StringOp} {m : Nat} {l : Line}
    (h : l ∈ op.lines (loopLabel n) (loopLabel m)) : Plain l.print := by
  obtain rfl | rfl | ⟨i, rfl⟩ := lines_cases h
  · exact plain_label n
  · exact plain_label m
  · exact plain_insn i

theorem plain_block {repop stringop line : String} (h : block repop stringop = some (.copy line)) :
    Plain line := by
  rw [block] at h
  split_ifs at h
  · obtain rfl := Block.copy.inj (Option.some.inj h)
    exact plain_of_take (by decide)
  · obtain ⟨op, -, he⟩ := Option.map_eq_some_iff.mp h
    cases he

theorem plain_copied (h : Reads lines bs) : ∀ line, .copy line ∈ bs → Plain line := by
  induction h with
  | done => simp
  | copy hp _ ih =>
    intro l hl
    rcases List.mem_cons.mp hl with he | hl
    · exact Block.copy.inj he ▸ hp
    · exact ih l hl
  | cld _ _ _ ih => exact ih
  | one _ hb _ ih | two _ hb _ ih =>
    intro l hl
    rcases List.mem_cons.mp hl with he | hl
    · exact plain_block (he ▸ hb)
    · exact ih l hl

theorem plain_printBlocks (n : Nat) (h : ∀ line, .copy line ∈ bs → Plain line) :
    ∀ l ∈ printBlocks n bs, Plain l.print := by
  induction bs generalizing n with
  | nil => simp [printBlocks]
  | cons b bs ih =>
    have hrest := fun m => ih m fun line hl => h line (List.mem_cons_of_mem _ hl)
    intro l hl
    cases b with
    | copy line =>
      rcases List.mem_cons.mp hl with rfl | hl
      · exact h line (List.mem_cons_self ..)
      · exact hrest n l hl
    | loop op =>
      rcases List.mem_append.mp hl with hl | hl
      · exact plain_lines hl
      · exact hrest (n + 2) l hl

/-- Plain lines are copied. -/
theorem rewriteStringops_plain (n : Nat) (h : ∀ line ∈ lines, Plain line) :
    rewriteStringops n lines = .ok (lines.map .text) := by
  induction lines with
  | nil => rfl
  | cons line rest ih =>
    obtain ⟨hrep, hcld, hstd⟩ := h line (List.mem_cons_self ..)
    have hrest := ih fun l hl => h l (List.mem_cons_of_mem _ hl)
    cases rest with
    | nil =>
      rw [rewriteStringops, hrep]
      dsimp only
      rw [if_neg hcld, if_neg hstd]
      rfl
    | cons next rest =>
      rw [rewriteStringops, hrep]
      dsimp only
      rw [if_neg hcld, if_neg hstd, hrest]
      rfl

/-- A second pass leaves the output as it is. -/
theorem second_pass (m : Nat) (h : rewriteStringops n lines = .ok out) :
    rewriteStringops m (out.map Line.print) = .ok (out.map fun l => .text l.print) := by
  obtain ⟨bs, hreads, rfl⟩ := reads_of_ok h
  rw [rewriteStringops_plain, List.map_map]
  · rfl
  · intro line hline
    obtain ⟨l, hl, rfl⟩ := List.mem_map.mp hline
    exact plain_printBlocks n (plain_copied hreads) l hl

theorem twoCopies_second_pass : ∃ out, rewriteStringops 1 twoCopies = .ok out ∧
    rewriteStringops 1 (out.map Line.print) = .ok (out.map fun l => .text l.print) :=
  have ⟨out, h⟩ : ∃ out, rewriteStringops 1 twoCopies = .ok out := ⟨_, rfl⟩
  ⟨out, h, second_pass 1 h⟩

end Again

end Pittsfield.StringOps
