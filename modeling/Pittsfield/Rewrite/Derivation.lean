import Pittsfield.Loader.Acceptance
import Pittsfield.Rewrite.Blocks
import Pittsfield.Rewrite.Packing

/-!
# How the output of `rewrite.pl` comes about

Rules that tell which lines the script puts behind one another, and what a verifier may take
for granted there: the weakenings that can be set, and what has been masked by the last
instruction. The output of every run has a derivation, so a verifier that keeps the rules accepts it.
-/

namespace Pittsfield.Rewrite

open Pittsfield.Region
open Pittsfield.Machine
open Pittsfield.Offline (starts unaryStore)
open Pittsfield.Loader (Bound Fits)

section Rules

/-- What the last instruction has masked: nothing, `%ebx` for a store or a transfer, or the stack top. -/
inductive Masked
  | nothing
  | data
  | code
  | top
  deriving DecidableEq

/-- What is set within the one bound is within the other. -/
structure Wider (b b' : Bound) : Prop where
  ebp : b.ebp = true → b'.ebp = true
  esp : b.esp = true → b'.esp = true
  bump : b.bump = true → b'.bump = true

variable (L : Layout) (threadsafe_return : Bool) (input : List Line)

/-- Where the address of a store or the target of a transfer comes from. -/
inductive Loads : Insn → Prop
  | lea {target : Operand} : target.inMemory = true → Loads (leaEbx target)
  | memory {target : Operand} : target.inMemory = true → Loads (movEbx target)
  | const (value : Const) : Loads (movEbx (.const value))
  | reg {r : Reg} : r.whole ≠ some .esp → r.whole ≠ some .ebp → Loads (movEbx (.reg r))

/-- What may be left behind a line that is printed as it is: what the script masks at once, and a
bump of `%esp` that the mark remembers. -/
structure Leaves (o : Out) (i : Insn) (b : Bound) : Prop where
  ebp : setsEbp i = true → b.ebp = true
  esp : setsEbp i = false → bumpsEspFar i = true → b.esp = true
  bump : (note (remask L o i) i).dirty_esp = true → b.bump = true

/-- The rules. Where a mask is followed by what it is for, nothing else can come between but a `popf`. -/
inductive Derives : List Item → Bound → Masked → Prop
  | nil : Derives [] {} .nothing
  | wider {items : List Item} {b b' : Bound} :
    Derives items b .nothing → Wider b b' → Derives items b' .nothing
  | fill {items : List Item} {b : Bound} {item : Item} :
    Derives items b .nothing → (item = .align ∨ item = .align2 ∨ ∃ bytes, item = .nops bytes) →
      Derives (items ++ [item]) b .nothing
  | label {items : List Item} {b : Bound} (name : String) :
    Derives items b .nothing → Derives (items ++ [.label name]) b .nothing
  | text {items : List Item} {b : Bound} {line : String} :
    Derives items b .nothing → alignment line = none → Derives (items ++ [.text line]) b .nothing
  /-- a line of the input that is printed as it is -/
  | own {items : List Item} {b : Bound} {o : Out} {i : Insn} {ls : List Line} :
    Derives items { bump := (remask L o i).dirty_esp } .nothing →
      Reach L threadsafe_return input o (.insn i :: ls) →
      (∃ o p, maybe_rewriteWith L threadsafe_return o p i = .ok none) → Leaves L o i b →
      Derives (items ++ [.insn i]) b .nothing
  | pushf {items : List Item} {ebp bump : Bool} :
    Derives items { ebp := ebp, bump := bump } .nothing →
      Derives (items ++ [.insn pushf]) { ebp := ebp, bump := bump } .nothing
  | popf {items : List Item} {bump : Bool} :
    Derives items { bump := bump } .nothing → Derives (items ++ [.insn popf]) { bump := bump } .nothing
  | popl {items : List Item} {bump : Bool} :
    Derives items { bump := bump } .nothing →
      Derives (items ++ [.insn ⟨"popl", [.reg (.r32 .ebx)]⟩]) {} .nothing
  | addl {items : List Item} (value : Const) : Derives items {} .nothing →
    Derives (items ++ [.insn ⟨"addl", [.imm value, .reg (.r32 .esp)]⟩]) { esp := true, bump := true } .nothing
  | load {items : List Item} {bump : Bool} {i : Insn} :
    Derives items { bump := bump } .nothing → Loads i → Derives (items ++ [.insn i]) { bump := bump } .nothing
  | mask_data {items : List Item} {bump : Bool} :
    Derives items { bump := bump } .nothing →
      Derives (items ++ [.insn (andData L .ebx)]) { bump := bump } .data
  | mask_data_popf {items : List Item} {bump : Bool} :
    Derives items { bump := bump } .nothing →
      Derives (items ++ [.insn (andData L .ebx)] ++ [.insn popf]) { bump := bump } .data
  | mask_jump {items : List Item} :
    Derives items {} .nothing → Derives (items ++ [.insn (andJump L (.reg (.r32 .ebx)))]) {} .code
  | mask_top {items : List Item} {bump : Bool} :
    Derives items { bump := bump } .nothing →
      Derives (items ++ [.insn (andJump L (.mem none (some .esp) none none))]) {} .top
  | mask_esp {items : List Item} {esp bump : Bool} :
    Derives items { esp := esp, bump := bump } .nothing →
      Derives (items ++ [.insn (andData L .esp)]) {} .nothing
  | mask_ebp {items : List Item} {bump : Bool} :
    Derives items { ebp := true, bump := bump } .nothing →
      Derives (items ++ [.insn (andData L .ebp)]) { bump := bump } .nothing
  | store_two {items : List Item} {bump : Bool} {op : String} {source target : Operand} :
    Derives items { bump := bump } .data → .insn ⟨op, [source, target]⟩ ∈ input →
      (source.source && target.inMemory && !comparesOnly op) = true → keepsTwo op source target = false →
      Derives (items ++ [.insn ⟨op, [source, atEbx]⟩]) { bump := bump } .nothing
  | store_one {items : List Item} {bump : Bool} {op : String} {target : Operand} :
    Derives items { bump := bump } .data → .insn ⟨op, [target]⟩ ∈ input →
      (target.inMemory && unaryStore op) = true → keepsOne op target = false →
      Derives (items ++ [.insn ⟨op, [atEbx]⟩]) { bump := bump } .nothing
  | call_name {items : List Item} {name : Const} :
    Derives items {} .nothing → .insn (callName name) ∈ input →
      Derives (items ++ [.insn (callName name)]) {} .nothing
  | call_ebx {items : List Item} :
    Derives items {} .code → Derives (items ++ [.insn callEbx]) {} .nothing
  | jmp_ebx {items : List Item} :
    Derives items {} .code → Derives (items ++ [.insn ⟨"jmp", [.star (.reg (.r32 .ebx))]⟩]) {} .nothing
  | ret {items : List Item} {args : List Operand} :
    Derives items {} .top → (args = [] ∨ ∃ value, args = [.imm value]) →
      Derives (items ++ [.insn ⟨"ret", args⟩]) {} .nothing

/-- What a verifier notes about a line asks for no mask that the script does not print. -/
structure Gentle (i : Insn) (p : Post) : Prop where
  ebp : p.change_ebp = true → setsEbp i = true
  esp : p.change_esp = true → p.use_esp = true ∨ setsEbp i = false ∧ bumpsEspFar i = true
  bump : p.bump_esp = true → p.use_esp = true ∨ remasksEsp i.op = true ∧ i.secondIs .esp = true
  stack : starts ["push", "pop"] i.op = true → p.use_esp = true

/-- What the lines of the input must keep to, so that the script masks the right registers. -/
structure Tame : Prop where
  targets (op : String) (r : Reg) : op = "call" ∨ op = "jmp" → .insn ⟨op, [.star (.reg r)]⟩ ∈ input →
    r.whole ≠ some .esp ∧ r.whole ≠ some .ebp
  returns (args : List Operand) : .insn ⟨"ret", args⟩ ∈ input → args = [] ∨ ∃ value, args = [.imm value]
  pushes (i : Insn) : .insn i ∈ input → starts ["push", "pop"] i.op = true →
    ∀ o p o', maybe_rewriteWith L threadsafe_return o p i ≠ .ok (some o')
  directives (text : String) : .other text ∈ input → alignment text = none

end Rules

section Marks

variable {L : Layout} {o : Out} {i : Insn} {p : Bool}

theorem pushed_dirty : (if p then a_emit L o pushf 1 else o).dirty_esp = o.dirty_esp := by
  cases p with
  | false => rfl
  | true => exact a_emit_marks.1

theorem maskAfter_dirty : (maskAfter L o p i).dirty_esp = o.dirty_esp := by
  rw [maskAfter]
  by_cases hebp : setsEbp i = true
  · rw [if_pos hebp]
    have hmasked : ((maybe_align_for L (if p then a_emit L o pushf 1 else o) 6).emit (andData L .ebp) 6).dirty_esp =
        o.dirty_esp := maybe_align_for_marks.1.trans pushed_dirty
    cases p with
    | false => exact hmasked
    | true => exact a_emit_marks.1.trans hmasked
  rw [if_neg hebp]
  by_cases hfar : bumpsEspFar i = true
  · rw [if_pos hfar]
    exact a_emit_marks.1
  · rw [if_neg hfar]

/-- Behind `remask` no dirty `%esp` is left for the opcodes that it looks for. -/
theorem remask_clean (h : remasksEsp i.op = true) : (remask L o i).dirty_esp = false := by
  rw [remask, h, Bool.and_true]
  split
  · rfl
  · rename_i hdirty
    exact Bool.eq_false_iff.mpr hdirty

/-- The mark is not lost but at a push or a pop, which use `%esp`. -/
theorem note_dirty (h : o.dirty_esp = true ∨ i.secondIs .esp = true) :
    (note o i).dirty_esp = true ∨ starts ["push", "pop"] i.op = true := by
  by_cases hstack : starts ["push", "pop"] i.op = true
  · exact Or.inr hstack
  refine Or.inl ?_
  rw [note, if_neg hstack]
  split
  · rfl
  · rename_i hsecond
    exact h.resolve_right hsecond

/-- What is left behind a line that is printed as it is. -/
theorem Leaves.fits {b : Bound} {w : Weak} {f : Post} (hleaves : Leaves L o i b) (hgentle : Gentle i f)
    (h : Fits { bump := (remask L o i).dirty_esp } w) : Fits b (w.after f) := by
  -- the mark is set behind the line, or `%esp` has been used
  have hused : (!f.use_esp) = true → (remask L o i).dirty_esp = true ∨ i.secondIs .esp = true → b.bump = true := by
    intro hunused hcases
    refine (note_dirty hcases).elim hleaves.bump fun hstack => ?_
    rw [hgentle.stack hstack] at hunused
    cases hunused
  refine (h.post ?_).mono ?_ ?_ ?_
  · intro hset
    refine (hgentle.bump hset).symm.imp (fun hremask => ?_) id
    exact remask_clean hremask.1
  · intro hset
    rw [Bound.post, Bool.false_or, Bool.and_eq_true] at hset
    exact hleaves.ebp (hgentle.ebp hset.1)
  · intro hset
    rw [Bound.post, Bool.false_or, Bool.and_eq_true] at hset
    obtain ⟨hchange, hunused⟩ := hset
    obtain huse | ⟨hnot, hfar⟩ := hgentle.esp hchange
    · rw [huse] at hunused
      cases hunused
    · exact hleaves.esp hnot hfar
  · intro hset
    rw [Bound.post, Bool.and_eq_true, Bool.or_eq_true] at hset
    obtain ⟨hold | hset, hunused⟩ := hset
    · exact hused hunused (Or.inl hold)
    · obtain huse | ⟨-, hsecond⟩ := hgentle.bump hset
      · rw [huse] at hunused
        cases hunused
      · exact hused hunused (Or.inr hsecond)

end Marks

section Printed

variable {L : Layout} {threadsafe_return : Bool} {input : List Line} {b : Bound} {o : Out} {i : Insn}
  {p d ebp : Bool}

theorem Wider.refl : Wider b b := ⟨id, id, id⟩

/-- The mark may be set without need. -/
theorem Derives.mark {items : List Item} {d' : Bool}
    (h : Derives L threadsafe_return input items { bump := d } .nothing) (hd : d = true → d' = true) :
    Derives L threadsafe_return input items { bump := d' } .nothing :=
  h.wider ⟨nofun, nofun, hd⟩

theorem Derives.marked {items : List Item} (h : Derives L threadsafe_return input items {} .nothing) :
    Derives L threadsafe_return input items { bump := d } .nothing :=
  h.wider ⟨nofun, nofun, nofun⟩

theorem Derives.align {items : List Item} (h : Derives L threadsafe_return input items b .nothing) :
    Derives L threadsafe_return input (items ++ [.align]) b .nothing :=
  h.fill (Or.inl rfl)

theorem Derives.maybe_align_for (h : Derives L threadsafe_return input o.printed b .nothing) (n : Nat) :
    Derives L threadsafe_return input (maybe_align_for L o n).printed b .nothing := by
  rw [Rewrite.maybe_align_for]
  split
  · exact h.fill (Or.inl rfl)
  · exact h

/-- `pushf` where the flags are precious. -/
theorem Derives.pushed (h : Derives L threadsafe_return input o.printed { ebp := ebp, bump := d } .nothing) :
    Derives L threadsafe_return input (if p then a_emit L o Rewrite.pushf 1 else o).printed
      { ebp := ebp, bump := d } .nothing := by
  split
  · exact (h.maybe_align_for 1).pushf
  · exact h

theorem Derives.storeTwo {op : String} {source target : Operand} (hi : .insn ⟨op, [source, target]⟩ ∈ input)
    (hstore : (source.source && target.inMemory && !comparesOnly op) = true)
    (hkept : keepsTwo op source target = false)
    (h : Derives L threadsafe_return input o.printed { bump := d } .nothing) :
    Derives L threadsafe_return input (storeTwo L o p op source target).printed { bump := d } .nothing := by
  have hmemory : target.inMemory = true := by
    simp only [Bool.and_eq_true] at hstore
    exact hstore.1.2
  have haddress := ((h.pushed (p := p)).maybe_align_for 7).load (Loads.lea hmemory)
  have hstored := ((haddress.maybe_align_for (o := Rewrite.a_emit L _ (leaEbx target) 7)
    (6 + p.toNat + 6)).mask_data).store_two hi hstore hkept
  rw [Rewrite.storeTwo]
  cases p with
  | false => exact hstored
  | true => exact hstored.popf

theorem Derives.storeOne {op : String} {target : Operand} (hi : .insn ⟨op, [target]⟩ ∈ input)
    (hstore : (target.inMemory && unaryStore op) = true) (hkept : keepsOne op target = false)
    (h : Derives L threadsafe_return input o.printed { bump := d } .nothing) :
    Derives L threadsafe_return input (storeOne L o p op target).printed { bump := d } .nothing := by
  have hmemory : target.inMemory = true := (Bool.and_eq_true_iff.mp hstore).1
  have haddress := ((h.pushed (p := p)).maybe_align_for 6).load (Loads.lea hmemory)
  have hready := haddress.maybe_align_for (o := Rewrite.a_emit L _ (leaEbx target) 6) (6 + p.toNat + 3)
  rw [Rewrite.storeOne]
  cases p with
  | false => exact hready.mask_data.store_one hi hstore hkept
  | true =>
    by_cases hset : isSet op = true
    · simp only [hset, Bool.true_and, Bool.not_true, Bool.and_false, if_true, Bool.false_eq_true, if_false]
      exact hready.mask_data_popf.store_one hi hstore hkept
    · simp only [hset, Bool.true_and, Bool.not_false, Bool.and_false, if_true, Bool.false_eq_true, if_false]
      exact (hready.mask_data.store_one hi hstore hkept).popf

theorem Derives.rewriteRet {args : List Operand} (hargs : args = [] ∨ ∃ value, args = [.imm value])
    (h : Derives L threadsafe_return input o.printed { bump := d } .nothing) :
    Derives L threadsafe_return input (rewriteRet L o ⟨"ret", args⟩).printed {} .nothing := by
  have hmarks : Derives L threadsafe_return input ({ o with dirty_esp := false } : Out).printed { bump := d }
    .nothing := h
  exact (hmarks.maybe_align_for (7 + if args = [] then 1 else 3)).mask_top.ret hargs

/-- A jump through `%ebx`, where no weakening is left. -/
theorem Derives.jumpEbx (room mask jump : Nat) (h : Derives L threadsafe_return input o.printed {} .nothing) :
    Derives L threadsafe_return input (((Rewrite.maybe_align_for L o room).emit
      (andJump L (.reg (.r32 .ebx))) mask).emit ⟨"jmp", [.star (.reg (.r32 .ebx))]⟩ jump).printed {} .nothing :=
  (h.maybe_align_for room).mask_jump.jmp_ebx

/-- What stands in front of a call: the mask of a dirty `%esp` clears its weakening. -/
theorem Derives.beforeCall (bytes : Nat)
    (h : Derives L threadsafe_return input o.printed { bump := o.dirty_esp } .nothing) :
    Derives L threadsafe_return input
      (o.printed ++ (.align :: (padItems bytes ++ espMask L o.dirty_esp))) {} .nothing := by
  have haligned := h.align
  have hpadded : Derives L threadsafe_return input (o.printed ++ [.align] ++ padItems bytes)
      { bump := o.dirty_esp } .nothing := by
    rw [padItems]
    split
    · rwa [List.append_nil]
    · exact haligned.fill (Or.inr (Or.inr ⟨bytes, rfl⟩))
  rw [List.append_cons, ← List.append_assoc, espMask]
  by_cases hdirty : o.dirty_esp = true
  · rw [if_pos hdirty]
    exact hpadded.mask_esp
  · rw [if_neg hdirty, List.append_nil]
    rwa [Bool.eq_false_iff.mpr hdirty] at hpadded

/-- A call by name. -/
theorem Derives.callDirect (hchunk : 16 ≤ L.chunk_size) {name : Const} (hi : .insn (callName name) ∈ input)
    (h : Derives L threadsafe_return input o.printed { bump := o.dirty_esp } .nothing) :
    Derives L threadsafe_return input (placeCall L o [callName name] 5).printed {} .nothing := by
  rw [placeCall_printed (by omega), ← List.cons_append, ← List.append_assoc]
  exact (h.beforeCall _).call_name hi

/-- A call through `%ebx`. -/
theorem Derives.callEbx (hchunk : 16 ≤ L.chunk_size)
    (h : Derives L threadsafe_return input o.printed { bump := o.dirty_esp } .nothing) :
    Derives L threadsafe_return input
      (placeCall L o [andJump L (.reg (.r32 .ebx)), Rewrite.callEbx] 8).printed {} .nothing := by
  have hlist : ([andJump L (.reg (.r32 .ebx)), Rewrite.callEbx].map .insn : List Item) =
      [.insn (andJump L (.reg (.r32 .ebx)))] ++ [.insn Rewrite.callEbx] := rfl
  rw [placeCall_printed (by omega), hlist, ← List.cons_append, ← List.append_assoc, ← List.append_assoc]
  exact (h.beforeCall _).mask_jump.call_ebx

theorem Derives.rewriteCall (hchunk : 16 ≤ L.chunk_size) {args : List Operand} (hi : .insn ⟨"call", args⟩ ∈ input)
    (hreg : ∀ r, args = [.star (.reg r)] → r.whole ≠ some .esp ∧ r.whole ≠ some .ebp)
    (h : Derives L threadsafe_return input o.printed { bump := o.dirty_esp } .nothing) {o' : Out}
    (hrun : rewriteCall L o ⟨"call", args⟩ = .ok o') :
    Derives L threadsafe_return input o'.printed {} .nothing := by
  have hindirect : ∀ {target : Operand}, Loads (movEbx target) →
      Derives L threadsafe_return input (placeCall L (Rewrite.a_emit L o (movEbx target) 6)
        [andJump L (.reg (.r32 .ebx)), Rewrite.callEbx] 8).printed {} .nothing := by
    intro target htarget
    have hmark : (Rewrite.a_emit L o (movEbx target) 6).dirty_esp = o.dirty_esp := a_emit_marks.1
    have hloaded := (h.maybe_align_for 6).load htarget
    refine Derives.callEbx hchunk ?_
    rw [hmark]
    exact hloaded
  rw [Rewrite.rewriteCall] at hrun
  split at hrun
  · rename_i name hargs
    have hname : args = [.const name] := hargs
    subst hname
    split at hrun
    · rw [← Except.ok.inj hrun]
      exact h.callDirect hchunk hi
    · cases hrun
  · rename_i r hargs
    rw [← Except.ok.inj hrun]
    obtain ⟨hesp, hebp⟩ := hreg r hargs
    exact hindirect (.reg hesp hebp)
  · rw [← Except.ok.inj hrun]
    exact hindirect (.memory rfl)
  · rename_i value hargs
    rw [← Except.ok.inj hrun]
    exact hindirect (.const value)
  · cases hrun

theorem Derives.rewriteJmp {args : List Operand}
    (hreg : ∀ r, args = [.star (.reg r)] → r.whole ≠ some .esp ∧ r.whole ≠ some .ebp)
    (h : Derives L threadsafe_return input o.printed {} .nothing) {o' : Out}
    (hrun : rewriteJmp L o ⟨"jmp", args⟩ = some o') :
    Derives L threadsafe_return input o'.printed {} .nothing := by
  have hready := h.maybe_align_for 7
  rw [Rewrite.rewriteJmp] at hrun
  split at hrun
  · rw [← Option.some.inj hrun]
    exact Derives.jumpEbx 8 6 2 (hready.load (.memory rfl))
  · rename_i r hargs
    rw [← Option.some.inj hrun]
    obtain ⟨hesp, hebp⟩ := hreg r hargs
    exact Derives.jumpEbx 8 6 2 (hready.load (.reg hesp hebp))
  · cases hrun

/-- A return with `-threadsafe-return`: the pop uses `%esp`, and so does the mask behind a sum. -/
theorem Derives.rewriteRetThreadsafe {args : List Operand} (hargs : args = [] ∨ ∃ value, args = [.imm value])
    (h : Derives L threadsafe_return input o.printed { bump := d } .nothing) :
    Derives L threadsafe_return input (rewriteRetThreadsafe L o ⟨"ret", args⟩).printed {} .nothing := by
  have hpopped := h.popl
  rw [Rewrite.rewriteRetThreadsafe]
  refine Derives.jumpEbx 9 7 2 ?_
  obtain rfl | ⟨value, rfl⟩ := hargs
  · exact hpopped
  · rw [if_neg (List.cons_ne_nil _ _)]
    have hadded : Derives L threadsafe_return input
        ((o.emit ⟨"popl", [.reg (.r32 .ebx)]⟩ 1).emit ⟨"addl", [.imm value] ++ [.reg (.r32 .esp)]⟩ 3).printed
        { esp := true, bump := true } .nothing := hpopped.addl value
    exact (hadded.maybe_align_for 6).mask_esp

theorem Derives.remask (h : Derives L threadsafe_return input o.printed { bump := o.dirty_esp } .nothing) :
    Derives L threadsafe_return input (remask L o i).printed { bump := (remask L o i).dirty_esp } .nothing := by
  rw [Rewrite.remask]
  split
  · exact (h.maybe_align_for 6).mask_esp
  · exact h

/-- The masks behind a line that was printed as it is. -/
theorem Derives.maskAfter
    (hebp : setsEbp i = true → Derives L threadsafe_return input o.printed { ebp := true, bump := d } .nothing)
    (hfar : setsEbp i = false → bumpsEspFar i = true →
      Derives L threadsafe_return input o.printed { esp := true, bump := true } .nothing)
    (hplain : setsEbp i = false → bumpsEspFar i = false →
      Derives L threadsafe_return input o.printed { bump := d } .nothing) :
    Derives L threadsafe_return input (maskAfter L o p i).printed { bump := d } .nothing := by
  rw [Rewrite.maskAfter]
  by_cases hsets : setsEbp i = true
  · rw [if_pos hsets]
    have hmasked := (((hebp hsets).pushed (p := p)).maybe_align_for 6).mask_ebp
    cases p with
    | false => exact hmasked
    | true => exact (hmasked.maybe_align_for (o := Out.emit _ (andData L .ebp) 6) 1).popf
  rw [if_neg hsets]
  have hnot := Bool.eq_false_iff.mpr hsets
  by_cases hbumps : bumpsEspFar i = true
  · rw [if_pos hbumps]
    exact ((hfar hnot hbumps).maybe_align_for 6).mask_esp.marked
  · rw [if_neg hbumps]
    exact hplain hnot (Bool.eq_false_iff.mpr hbumps)

end Printed

section Lines

variable {L : Layout} {threadsafe_return : Bool} {input : List Line} {o o' : Out} {i : Insn} {p d : Bool}

/-- What is printed for a line that is rewritten. -/
theorem Derives.rewritten (hchunk : 16 ≤ L.chunk_size) (htame : Tame L threadsafe_return input)
    (hi : .insn i ∈ input) (h : Derives L threadsafe_return input o.printed { bump := d } .nothing)
    (hd : d = true → o.dirty_esp = true) (hjmp : i.op = "jmp" → d = false)
    (hrun : maybe_rewriteWith L threadsafe_return o p i = .ok (some o')) :
    Derives L threadsafe_return input o'.printed { bump := o'.dirty_esp } .nothing := by
  obtain ⟨op, args⟩ := i
  have hmark := h.mark hd
  have htransfer : rewriteTransferWith L threadsafe_return o ⟨op, args⟩ = .ok (some o') →
      Derives L threadsafe_return input o'.printed { bump := o'.dirty_esp } .nothing := by
    intro hrun
    rw [rewriteTransferWith] at hrun
    by_cases hsafe : op = "ret" ∧ threadsafe_return = true
    · rw [if_pos hsafe] at hrun
      obtain ⟨rfl, -⟩ := hsafe
      rw [← Option.some.inj (Except.ok.inj hrun)]
      exact (h.rewriteRetThreadsafe (htame.returns args hi)).marked
    rw [if_neg hsafe, rewriteTransfer] at hrun
    by_cases hret : op = "ret"
    · subst hret
      rw [if_pos rfl] at hrun
      rw [← Option.some.inj (Except.ok.inj hrun)]
      exact (h.rewriteRet (htame.returns args hi)).marked
    rw [if_neg hret] at hrun
    by_cases hcall : op = "call"
    · subst hcall
      rw [if_pos rfl] at hrun
      obtain ⟨called, hcalled, heq⟩ := of_map_ok hrun
      rw [← Option.some.inj heq]
      refine (hmark.rewriteCall hchunk hi ?_ hcalled).marked
      intro r hargs
      subst hargs
      exact htame.targets "call" r (Or.inl rfl) hi
    rw [if_neg hcall] at hrun
    by_cases hop : op = "jmp"
    · subst hop
      rw [if_pos rfl] at hrun
      rw [hjmp rfl] at h
      refine (h.rewriteJmp ?_ (Except.ok.inj hrun)).marked
      intro r hargs
      subst hargs
      exact htame.targets "jmp" r (Or.inr rfl) hi
    · rw [if_neg hop] at hrun
      cases hrun
  rw [maybe_rewriteWith] at hrun
  split at hrun
  · rename_i target hargs
    have hone : args = [target] := hargs
    subst hone
    by_cases hstore : (target.inMemory && unaryStore op) = true
    · rw [if_pos hstore] at hrun
      by_cases hkeeps : keepsOne op target = true
      · rw [if_pos hkeeps] at hrun
        cases hrun
      · rw [if_neg hkeeps] at hrun
        rw [← Option.some.inj (Except.ok.inj hrun), storeOne_marks.1]
        exact hmark.storeOne hi hstore (Bool.eq_false_iff.mpr hkeeps)
    · rw [if_neg hstore] at hrun
      exact htransfer hrun
  · rename_i source target hargs
    have htwo : args = [source, target] := hargs
    subst htwo
    by_cases hstore : (source.source && target.inMemory && !comparesOnly op) = true
    · rw [if_pos hstore] at hrun
      by_cases hkeeps : keepsTwo op source target = true
      · rw [if_pos hkeeps] at hrun
        cases hrun
      · rw [if_neg hkeeps] at hrun
        rw [← Option.some.inj (Except.ok.inj hrun), storeTwo_marks.1]
        exact hmark.storeTwo hi hstore (Bool.eq_false_iff.mpr hkeeps)
    · rw [if_neg hstore] at hrun
      -- the direct accesses are skipped
      by_cases hwrite : (source.source && target.direct) = true
      · rw [if_pos hwrite] at hrun
        rw [← Option.some.inj (Except.ok.inj hrun)]
        exact hmark
      rw [if_neg hwrite] at hrun
      by_cases hread : (source.direct && target.isReg) = true
      · rw [if_pos hread] at hrun
        rw [← Option.some.inj (Except.ok.inj hrun)]
        exact hmark
      · rw [if_neg hread] at hrun
        exact htransfer hrun
  · exact htransfer hrun

/-- One line of the input. -/
theorem Derives.visit (hchunk : 16 ≤ L.chunk_size) (htame : Tame L threadsafe_return input) {l : Line}
    {ls : List Line} (hl : l ∈ input) (hreach : Reach L threadsafe_return input o (l :: ls))
    (h : Derives L threadsafe_return input o.printed { bump := o.dirty_esp } .nothing) {live : Bool}
    (hrun : visitWith L threadsafe_return o live l = .ok o') :
    Derives L threadsafe_return input o'.printed { bump := o'.dirty_esp } .nothing := by
  cases l with
  | insn i =>
    obtain ⟨o₁, ho₁⟩ : ∃ o₁, Rewrite.maybe_align_for L (note (Rewrite.remask L o i) i) (insn_len i) = o₁ :=
      ⟨_, rfl⟩
    have hready : Derives L threadsafe_return input o₁.printed
        { bump := (Rewrite.remask L o i).dirty_esp } .nothing := by
      have hnoted : Derives L threadsafe_return input (note (Rewrite.remask L o i) i).printed
          { bump := (Rewrite.remask L o i).dirty_esp } .nothing := h.remask
      rw [← ho₁]
      exact hnoted.maybe_align_for _
    have hmark : o₁.dirty_esp = (note (Rewrite.remask L o i) i).dirty_esp := by
      rw [← ho₁]
      exact maybe_align_for_marks.1
    obtain ⟨rewritten, hrewrite, hresult⟩ := of_map_ok hrun
    rw [ho₁] at hrewrite hresult
    cases rewritten with
    | some o'' =>
      rw [← hresult]
      refine hready.rewritten hchunk htame hl (fun hdirty => ?_) (fun hjmp => ?_) hrewrite
      · rw [hmark]
        exact (note_dirty (Or.inl hdirty)).resolve_right fun hstack => htame.pushes i hl hstack _ _ _ hrewrite
      · exact remask_clean (by rw [hjmp]; decide)
    | none =>
      have hown : ∀ {b : Bound}, Leaves L o i b →
          Derives L threadsafe_return input (o₁.emit i (insn_len i)).printed b .nothing :=
        fun hleaves => hready.own hreach ⟨_, _, hrewrite⟩ hleaves
      rw [← hresult]
      show Derives L threadsafe_return input (Rewrite.maskAfter L (o₁.emit i (insn_len i)) _ i).printed
        { bump := (Rewrite.maskAfter L (o₁.emit i (insn_len i)) _ i).dirty_esp } .nothing
      rw [maskAfter_dirty]
      have hbump : ∀ {q : Bool}, (o₁.dirty_esp = true → q = true) →
          (note (Rewrite.remask L o i) i).dirty_esp = true → q = true := fun hq hdirty => hq (hmark.trans hdirty)
      refine Derives.maskAfter (fun hebp => hown ⟨?_, ?_, ?_⟩) (fun hebp hfar => hown ⟨?_, ?_, ?_⟩)
        fun hebp hfar => hown ⟨?_, ?_, ?_⟩
      · exact fun _ => rfl
      · exact fun hnot => nomatch hnot.symm.trans hebp
      · exact hbump id
      · exact fun hsets => nomatch hsets.symm.trans hebp
      · exact fun _ _ => rfl
      · exact fun _ => rfl
      · exact fun hsets => nomatch hsets.symm.trans hebp
      · exact fun _ hfar' => nomatch hfar'.symm.trans hfar
      · exact hbump id
  | label name =>
    rw [← Except.ok.inj hrun]
    exact h.align.label name
  | align2 =>
    rw [← Except.ok.inj hrun]
    exact h.fill (Or.inr (Or.inl rfl))
  | p2align =>
    rw [← Except.ok.inj hrun]
    exact h
  | other text =>
    rw [← Except.ok.inj hrun]
    exact h.text (htame.directives text hl)

/-- In every state of the main loop the output has a derivation, and `%esp` has at most been bumped if
the mark is set. -/
theorem output_derives (hchunk : 16 ≤ L.chunk_size) (htame : Tame L threadsafe_return input) {ls : List Line}
    (h : Reach L threadsafe_return input o ls) :
    Derives L threadsafe_return input o.printed { bump := o.dirty_esp } .nothing := by
  induction h with
  | start => exact Derives.nil.marked
  | @step o o' l ls hreach hrun ih =>
    obtain ⟨done, hdone⟩ := hreach.suffix
    have hl : l ∈ input := by
      rw [hdone]
      exact List.mem_append_right _ List.mem_cons_self
    exact ih.visit hchunk htame hl hreach hrun

end Lines

end Pittsfield.Rewrite
