import Pittsfield.Rewrite.Listed

/-!
# `verify.pl` accepts what the rewriter prints

objdump shows the masks, transfers and stores that the script adds in the shapes that `verify.pl`
looks for. If every line that is printed as it is passes where the script puts it, the listing
of the whole output passes.
-/

namespace Pittsfield.Rewrite

open Pittsfield.Region
open Pittsfield.Machine
open Pittsfield.Offline (unaryStore VState check_insn knownOpcodes argsText found usesEsp hexText post)
open Pittsfield.Offline.Flag
open Pittsfield.Loader (Bound Fits)

section Lines

variable (L : Layout) (threadsafe_return : Bool) (listed : Nat → Insn → Offline.Insn) (input : List Line)

/-- What objdump shows of the lines that the script adds. The addresses of loads lie in the data, and the
linker lets every call by name lead to the start of a chunk. -/
structure Objdump : Prop where
  pushf (a : Nat) : IsRow (listed a pushf) "pushf" []
  popf (a : Nat) : IsRow (listed a popf) "popf" []
  mask (a : Nat) (v : Word) (r : Reg32) : Wide v →
    IsRow (listed a (andMask v (.reg (.r32 r)))) "and" [.imm (hexText v), .reg (.r32 r)]
  mask_top (a : Nat) (v : Word) : Wide v → IsRow (listed a (andMask v (.mem none (some .esp) none none))) "andl"
    [.imm (hexText v), .mem none (some .esp) none none]
  popl (a : Nat) : IsRow (listed a ⟨"popl", [.reg (.r32 .ebx)]⟩) "pop" [.reg (.r32 .ebx)]
  addl (a : Nat) (value : Const) : ∃ text,
    IsRow (listed a ⟨"addl", [.imm value, .reg (.r32 .esp)]⟩) "add" [.imm text, .reg (.r32 .esp)]
  jmp (a : Nat) : IsRow (listed a ⟨"jmp", [.star (.reg (.r32 .ebx))]⟩) "jmp" [.star (.r32 .ebx)]
  call (a : Nat) : IsRow (listed a callEbx) "call" [.star (.r32 .ebx)]
  ret (a : Nat) : IsRow (listed a ⟨"ret", []⟩) "ret" []
  ret_immediate (a : Nat) (value : Const) : ∃ text, IsRow (listed a ⟨"ret", [.imm value]⟩) "ret" [.imm text]
  load_reg (a : Nat) (r : Reg) : IsRow (listed a (movEbx (.reg r))) "mov" [.reg r, .reg (.r32 .ebx)]
  load (a : Nat) {i : Insn} {target : Operand} : i = movEbx target ∨ i = leaEbx target →
    (target.inMemory = true ∨ ∃ value, target = .const value) → ∃ op x, (op = "mov" ∨ op = "lea") ∧
      IsRow (listed a i) op [x, .reg (.r32 .ebx)] ∧
        ((∃ offset base index scale, x = .mem offset base index scale) ∨
          ∃ address, x = .abs address ∧ Offline.inData L address.val = true)
  store_two (a : Nat) {op : String} {source target : Operand} : .insn ⟨op, [source, target]⟩ ∈ input →
    (source.source && target.inMemory && !comparesOnly op) = true → keepsTwo op source target = false →
      ∃ op' x, op' ∈ knownOpcodes ∧ ((∃ r, x = .reg r) ∨ ∃ value, x = .imm value) ∧
        IsRow (listed a ⟨op, [source, atEbx]⟩) op' [x, Offline.atEbx]
  store_one (a : Nat) {op : String} {target : Operand} : .insn ⟨op, [target]⟩ ∈ input →
    (target.inMemory && unaryStore op) = true → keepsOne op target = false →
      ∃ op' args, op' ∈ knownOpcodes ∧ IsRow (listed a ⟨op, [atEbx]⟩) op' args ∧
        (args = [Offline.atEbx] ∧ op' ≠ "pushl" ∧ unaryStore op' = true ∨
          ∃ value, args = [.imm value, Offline.atEbx])
  call_name (a : Nat) {name : Const} : .insn (callName name) ∈ input →
    ∃ address symbol, IsRow (listed a (callName name)) "call" [.target address symbol] ∧
      BitVec.ofNat 32 (Offline.hex address) &&& BitVec.ofNat 32 (L.chunk_size - 1) = 0 ∧
      L.code_start ≤ Offline.hex address ∧ Offline.hex address < L.code_end

/-- A line passes as it is where the script prints it: `%ebp` is good, and `%esp` has at most been bumped
if the mark is set. -/
structure Clears (o : Out) (i : Insn) : Prop where
  known (a : Nat) : (listed a i).op ∈ knownOpcodes
  passes (a : Nat) (safety unsafety : Offline.Flags) : CHANGE_EBP ∉ unsafety → CHANGE_ESP ∉ unsafety →
    (BUMP_ESP ∈ unsafety → (remask L o i).dirty_esp = true) →
      ∃ flags, check_insn L (listed a i).op (listed a i).args safety unsafety = .ok flags ∧ IJUMP ∉ flags ∧
        IWRITE ∉ flags ∧ Gentle i (post flags) ∧ (JUMP ∈ flags → BUMP_ESP ∉ unsafety)

/-- What the lines of the input must keep to. None is spelled as a mask of the script. -/
structure Legible : Prop extends Tame L threadsafe_return input where
  unmasked (i : Insn) : .insn i ∈ input → ¬ Masks i
  own (o : Out) (i : Insn) (ls : List Line) : Reach L threadsafe_return input o (.insn i :: ls) →
    (∃ o p, maybe_rewriteWith L threadsafe_return o p i = .ok none) → Clears L listed o i

variable {L threadsafe_return listed input} {len : Insn → Nat} {items : List Item} {i : Insn} {b b' : Bound}
  {m : Masked} {st : VState} {flags : Offline.Flags} {o : Out} {op : String} {args : List Offline.Operand}

/-- A use of `%esp` clears what has been noted about it. -/
theorem Effects.uses (huse : USE_ESP ∈ flags) (hno : ∀ f ∈ [CHANGE_EBP, IJUMP, IWRITE], f ∉ flags)
    (hjump : JUMP ∈ flags → b = {}) (hebp : b.ebp = true → b'.ebp = true) : Effects b b' flags where
  ijump := hno _ (by decide)
  iwrite := hno _ (by decide)
  jump := hjump
  one _ := Or.inr huse
  bound := by
    have hnot := hno CHANGE_EBP (by decide)
    refine ⟨?_, ?_, ?_⟩ <;> intro hset <;> simp [Loader.Bound.post, post, huse, hnot] at hset
    exact hebp hset.1

theorem effects_stack (hebp : b.ebp = true → b'.ebp = true) : Effects b b' {USE_ESP, CHANGE_ESP} :=
  .uses (by decide) (by decide) (fun hjump => absurd hjump (by decide)) hebp

/-- Flags that change neither pointer leave the bound. -/
theorem Effects.quiet (hno : ∀ f ∈ [CHANGE_EBP, CHANGE_ESP, BUMP_ESP, IJUMP, IWRITE], f ∉ flags)
    (hjump : JUMP ∈ flags → b = {}) : Effects b b flags where
  ijump := hno _ (by decide)
  iwrite := hno _ (by decide)
  jump := hjump
  one hbump := absurd hbump (hno _ (by decide))
  bound := by
    have hebp := hno CHANGE_EBP (by decide)
    have hesp := hno CHANGE_ESP (by decide)
    have hbump := hno BUMP_ESP (by decide)
    refine ⟨?_, ?_, ?_⟩ <;> intro hset <;> simp [Loader.Bound.post, post, hebp, hesp, hbump] at hset
    · exact hset.1
    · exact hset.1
    · exact hset.1

/-- Behind the mask of `%ebp` its weakening is gone. -/
theorem effects_mask_ebp {bump : Bool} : Effects { ebp := true, bump := bump } { bump := bump } {EBP_DATA_SAFE} where
  ijump := by decide
  iwrite := by decide
  jump hjump := absurd hjump (by decide)
  one hbump := absurd hbump (by decide)
  bound := by cases bump <;> exact ⟨nofun, nofun, by decide⟩

/-- A sum of `%esp` and an immediate. -/
theorem effects_add (hflags : flags = {BUMP_ESP} ∨ flags = {CHANGE_ESP}) :
    Effects {} { esp := true, bump := true } flags := by
  obtain rfl | rfl := hflags
  · exact ⟨by decide, by decide, fun _ => rfl, fun _ => Or.inl rfl, ⟨by decide, fun _ => rfl, fun _ => rfl⟩⟩
  · exact ⟨by decide, by decide, fun _ => rfl, fun _ => Or.inl rfl, ⟨by decide, fun _ => rfl, fun _ => rfl⟩⟩

theorem Lists.assured_nothing (h : Lists L listed len items (Bounded b)) :
    Lists L listed len items (Assured b .nothing) :=
  h.mono fun _ hst => ⟨hst, Finset.empty_subset _⟩

theorem Lists.bounded (h : Lists L listed len items (Assured b m)) : Lists L listed len items (Bounded b) :=
  h.mono fun _ hst => hst.1

/-- A line that is printed as it is. What it may leave is told by what the script prints behind it. -/
theorem Lists.own (hclears : Clears L listed o i) (hleaves : Leaves L o i b)
    (h : Lists L listed len items (Bounded { bump := (Rewrite.remask L o i).dirty_esp })) :
    Lists L listed len (items ++ [.insn i]) (Bounded b) := by
  refine h.insn fun st a hst _ => ?_
  have hgoodEbp : CHANGE_EBP ∉ st.unsafety := fun hset => Bool.noConfusion (hst.ebp hset)
  have hgoodEsp : CHANGE_ESP ∉ st.unsafety := fun hset => Bool.noConfusion (hst.esp hset)
  obtain ⟨flags, hcheck, hijump, hiwrite, hgentle, hjump⟩ :=
    hclears.passes a (st.safetyAt (L.code_start + a)) st.unsafety hgoodEbp hgoodEsp hst.bump
  refine ⟨flags, ⟨hclears.known a, hcheck, ?_, ?_⟩, fun n => ?_⟩
  · exact Offline.no_useReports (fun hset => absurd hset hgoodEbp) fun hset => absurd hset hgoodEsp
  · exact Offline.no_flagReports hijump hiwrite fun hj => ⟨hgoodEbp, hgoodEsp, hjump hj⟩
  · rw [Bounded, Offline.VState.next_weak]
    exact hleaves.fits hgentle hst

theorem Objdump.loads {bump : Bool} (hO : Objdump L listed input) (hload : Loads i) (a : Nat)
    (safety unsafety : Offline.Flags) : ∃ op args flags, IsRow (listed a i) op args ∧ op ∈ knownOpcodes ∧
      check_insn L op args safety unsafety = .ok flags ∧ Effects { bump := bump } { bump := bump } flags := by
  have hmemory : ∀ target, i = movEbx target ∨ i = leaEbx target →
      (target.inMemory = true ∨ ∃ value, target = .const value) → ∃ op args flags, IsRow (listed a i) op args ∧
        op ∈ knownOpcodes ∧ check_insn L op args safety unsafety = .ok flags ∧
          Effects { bump := bump } { bump := bump } flags := by
    intro target hi htarget
    obtain ⟨op, x, hop, his, ⟨offset, base, index, scale, rfl⟩ | ⟨address, rfl, hdata⟩⟩ := hO.load a hi htarget
    · have hknown : op ∈ knownOpcodes := by obtain rfl | rfl := hop <;> decide
      obtain ⟨flags, hcheck, hsub⟩ := @Offline.check_load L safety unsafety op hop offset base index scale
      refine ⟨op, _, flags, his, hknown, hcheck, Effects.quiet (fun f hf hin => ?_) fun hin => ?_⟩
      · revert hf
        have hall : ∀ f ∈ ({USE_EBP, IREAD} : Offline.Flags),
            f ∉ [CHANGE_EBP, CHANGE_ESP, BUMP_ESP, IJUMP, IWRITE] := by decide
        exact hall f (hsub hin)
      · exact absurd (hsub hin) (by decide)
    · have hknown : op ∈ knownOpcodes := by obtain rfl | rfl := hop <;> decide
      exact ⟨op, _, ∅, his, hknown, Offline.check_load_abs hdata, effects_idle _⟩
  cases hload with
  | lea hm => exact hmemory _ (Or.inr rfl) (Or.inl hm)
  | memory hm => exact hmemory _ (Or.inl rfl) (Or.inl hm)
  | const value => exact hmemory _ (Or.inl rfl) (Or.inr ⟨value, rfl⟩)
  | @reg r hesp hebp =>
    exact ⟨"mov", _, ∅, hO.load_reg a r, by decide, Offline.check_mov_reg hesp hebp, effects_idle _⟩

theorem Lists.mask_data {bump : Bool} (hO : Objdump L listed input) (hL : Usual L)
    (hends : m ≠ .nothing → ∃ front, EndsMasked front items)
    (h : Lists L listed len items (Assured { bump := bump } m)) :
    Lists L listed len (items ++ [.insn (andData L .ebx)]) (Assured { bump := bump } .data) :=
  h.assured hends fun a safety unsafety _ => ⟨"and", _, _, hO.mask a _ _ hL.data_wide, by decide,
    Offline.check_mask_data, .quiet (by decide) (fun hjump => absurd hjump (by decide)), spares_bump,
    Finset.Subset.trans (by decide) Finset.subset_union_right⟩

/-- The rule for an instruction that is no mask for what follows. -/
theorem Lists.plain (h : Lists L listed len items (Assured b m))
    (hends : m ≠ .nothing → ∃ front, EndsMasked front items)
    (hcheck : ∀ a safety unsafety, m.noted ⊆ safety → ∃ op args flags, IsRow (listed a i) op args ∧
      op ∈ knownOpcodes ∧ check_insn L op args safety unsafety = .ok flags ∧ Effects b b' flags ∧ Spares L b op args) :
    Lists L listed len (items ++ [.insn i]) (Assured b' .nothing) := by
  refine h.assured hends fun a safety unsafety hsafe => ?_
  obtain ⟨op, args, flags, his, hknown, hchecked, heffects, hspares⟩ := hcheck a safety unsafety hsafe
  exact ⟨op, args, flags, his, hknown, hchecked, heffects, hspares, Finset.empty_subset _⟩

/-- `verify.pl` keeps the rules. -/
theorem Derives.lists (hO : Objdump L listed input) (hL : Usual L)
    (hown : ∀ o i ls, Reach L threadsafe_return input o (.insn i :: ls) →
      (∃ o p, maybe_rewriteWith L threadsafe_return o p i = .ok none) → Clears L listed o i)
    (h : Derives L threadsafe_return input items b m) : Lists L listed len items (Assured b m) := by
  induction h with
  | nil => exact (lists_nil Loader.fits_first).assured_nothing
  | wider _ hb ih =>
    exact (ih.bounded.mono fun _ hst => Fits.mono hst hb.ebp hb.esp hb.bump).assured_nothing
  | fill _ hitem ih =>
    refine (ih.bounded.fill ?_).assured_nothing
    exact hitem.imp_right (Or.imp_left fun halign => ⟨halign, hL.four⟩)
  | label name _ ih => exact ih.still (fun _ _ hrows => hrows) fun _ => rfl
  | text _ hline ih =>
    refine ih.still (fun _ _ hrows => hrows) fun a => ?_
    rw [advance, hline]
    rfl
  | own _ hreach hkept hleaves ih => exact (ih.bounded.own (hown _ _ _ hreach hkept) hleaves).assured_nothing
  | pushf h ih =>
    refine ih.plain h.ends fun a safety unsafety _ => ⟨"pushf", [], _, hO.pushf a, by decide,
      Offline.check_pushf, effects_stack id, ?_⟩
    exact ⟨fun _ => Or.inl (by decide), fun hesp => Bool.noConfusion hesp⟩
  | popf h ih =>
    exact ih.plain h.ends fun a safety unsafety _ => ⟨"popf", [], _, hO.popf a, by decide,
      Offline.check_popf, effects_stack id, spares_bump⟩
  | popl h ih =>
    exact ih.plain h.ends fun a safety unsafety _ => ⟨"pop", _, _, hO.popl a, by decide,
      Offline.check_pop, effects_stack id, spares_bump⟩
  | addl value h ih =>
    refine ih.plain h.ends fun a safety unsafety _ => ?_
    obtain ⟨text, his⟩ := hO.addl a value
    obtain ⟨flags, hcheck, hflags⟩ := @Offline.check_add_esp L safety unsafety text
    exact ⟨"add", _, flags, his, by decide, hcheck, effects_add hflags, spares_bump⟩
  | load h hload ih =>
    refine ih.plain h.ends fun a safety unsafety _ => ?_
    obtain ⟨op, args, flags, his, hknown, hcheck, heffects⟩ := hO.loads hload a safety unsafety
    exact ⟨op, args, flags, his, hknown, hcheck, heffects, spares_bump⟩
  | mask_data h ih => exact ih.mask_data hO hL h.ends
  | mask_data_popf h ih =>
    refine (ih.mask_data hO hL h.ends).assured h.mask_data.ends fun a safety unsafety hsafe => ⟨"popf", [], _,
      hO.popf a, by decide, Offline.check_popf, effects_stack id, spares_bump, ?_⟩
    -- the `popf` keeps what the mask has been noted for
    rw [if_pos rfl]
    exact (Finset.subset_inter hsafe (by decide)).trans Finset.subset_union_left
  | mask_jump h ih =>
    exact ih.assured h.ends fun a safety unsafety _ => ⟨"and", _, _, hO.mask a _ _ hL.jump_wide, by decide,
      Offline.check_mask_jump hL.differ, .quiet (by decide) (fun hjump => absurd hjump (by decide)), spares_bump,
      Finset.Subset.trans (by decide) Finset.subset_union_right⟩
  | mask_top h ih =>
    exact ih.assured h.ends fun a safety unsafety _ => ⟨"andl", _, _, hO.mask_top a _ hL.jump_wide, by decide,
      Offline.check_mask_top, .uses (by decide) (by decide) (fun hjump => absurd hjump (by decide)) id, spares_bump,
      Finset.Subset.trans (by decide) Finset.subset_union_right⟩
  | mask_esp h ih =>
    refine ih.plain h.ends fun a safety unsafety _ => ⟨"and", _, _, hO.mask a _ _ hL.data_wide, by decide,
      Offline.check_mask_esp, .uses (by decide) (by decide) (fun hjump => absurd hjump (by decide)) id, ?_⟩
    exact ⟨fun hebp => Bool.noConfusion hebp, fun _ => ⟨Offline.not_usesEsp_mask _, by decide⟩⟩
  | mask_ebp h ih =>
    refine ih.plain h.ends fun a safety unsafety _ => ⟨"and", _, _, hO.mask a _ _ hL.data_wide, by decide,
      Offline.check_mask_ebp, effects_mask_ebp, ?_⟩
    exact ⟨fun _ => Or.inr ⟨rfl, rfl⟩, fun hesp => Bool.noConfusion hesp⟩
  | store_two h hi hstore hkept ih =>
    refine ih.plain h.ends fun a safety unsafety hsafe => ?_
    obtain ⟨op, x, hknown, hx, his⟩ := hO.store_two a hi hstore hkept
    exact ⟨op, _, _, his, hknown, Offline.check_store hx (hsafe (Finset.mem_singleton_self _)), effects_idle _,
      spares_bump⟩
  | store_one h hi hstore hkept ih =>
    refine ih.plain h.ends fun a safety unsafety hsafe => ?_
    have hnoted : EBX_DATA_SAFE ∈ safety := hsafe (Finset.mem_singleton_self _)
    obtain ⟨op, args, hknown, his, ⟨rfl, hop, hunary⟩ | ⟨value, rfl⟩⟩ := hO.store_one a hi hstore hkept
    · exact ⟨op, _, _, his, hknown, Offline.check_store_one hop hunary hnoted, effects_idle _, spares_bump⟩
    · exact ⟨op, _, _, his, hknown, Offline.check_store (Or.inr ⟨value, rfl⟩) hnoted, effects_idle _, spares_bump⟩
  | call_name h hi ih =>
    refine ih.plain h.ends fun a safety unsafety _ => ?_
    obtain ⟨address, symbol, his, haligned, hstart, hend⟩ := hO.call_name a hi
    exact ⟨"call", _, _, his, by decide, Offline.check_call_target haligned hstart hend,
      .uses (by decide) (by decide) (fun _ => rfl) id, spares_bump⟩
  | call_ebx h ih =>
    exact ih.plain h.ends fun a safety unsafety hsafe => ⟨"call", _, _, hO.call a, by decide,
      Offline.check_call (hsafe (Finset.mem_singleton_self _)), .uses (by decide) (by decide) (fun _ => rfl) id,
      spares_bump⟩
  | jmp_ebx h ih =>
    exact ih.plain h.ends fun a safety unsafety hsafe => ⟨"jmp", _, _, hO.jmp a, by decide,
      Offline.check_jmp (hsafe (Finset.mem_singleton_self _)), .quiet (by decide) (fun _ => rfl),
      spares_bump⟩
  | ret h hargs ih =>
    refine ih.plain h.ends fun a safety unsafety hsafe => ?_
    obtain rfl | ⟨value, rfl⟩ := hargs
    · exact ⟨"ret", _, _, hO.ret a, by decide, Offline.check_ret (hsafe (Finset.mem_singleton_self _)),
        .uses (by decide) (by decide) (fun _ => rfl) id, spares_bump⟩
    · obtain ⟨text, his⟩ := hO.ret_immediate a value
      exact ⟨"ret", _, _, his, by decide, Offline.check_ret_immediate text,
        effects_stack id, spares_bump⟩

end Lines

section Runs

variable {listed : Nat → Insn → Offline.Insn} {len : Insn → Nat} {displacement : String → Word} {g : Settings}
  {sz : Size} {input : List Line} {o : Out} {threadsafe_return : Bool} {rows : List Offline.Row}

end Runs

section Sample

/-- What objdump shows of a few lines: a call leads to the start of the code, and a store through `%ebx` is
shown as a move or an increment. -/
def sampleListed (_ : Nat) (i : Insn) : Offline.Insn :=
  let text value := hexText ((immediate value).getD 0)
  let shown : String × List Offline.Operand := match i.args with
    | [] => (i.op, [])
    | [.imm value] => ("ret", [.imm (text value)])
    | [.reg r] => (if i.op = "popl" then "pop" else "push", [.reg r])
    | [.const _] => ("call", [.target "10000000" "f"])
    | [.star _] => (i.op, [.star (.r32 .ebx)])
    | [_] => ("incl", [Offline.atEbx])
    | [.imm value, .reg r] => (if i.op = "andl" then "and" else "add", [.imm (text value), .reg r])
    | [.imm value, .mem _ (some .esp) _ _] => ("andl", [.imm (text value), .mem none (some .esp) none none])
    | [.reg r, .reg _] => ("mov", [.reg r, .reg (.r32 .ebx)])
    | _ => (if i.op = "leal" then "lea" else "mov", [Offline.atEbx, .reg (.r32 .ebx)])
  ⟨shown.1, shown.2, encodedLength i⟩

theorem callsItself_objdump : Objdump (compute_sizes {} .classic) sampleListed callsItself where
  pushf _ := ⟨rfl, rfl⟩
  popf _ := ⟨rfl, rfl⟩
  mask a v r _ := by
    refine ⟨rfl, ?_⟩
    show [Offline.Operand.imm (hexText ((immediate (hexConst v)).getD 0)), .reg (.r32 r)] = _
    rw [immediate_hexConst, Option.getD_some]
  mask_top a v _ := by
    refine ⟨rfl, ?_⟩
    show [Offline.Operand.imm (hexText ((immediate (hexConst v)).getD 0)), .mem none (some .esp) none none] = _
    rw [immediate_hexConst, Option.getD_some]
  popl _ := ⟨rfl, rfl⟩
  addl _ _ := ⟨_, rfl, rfl⟩
  jmp _ := ⟨rfl, rfl⟩
  call _ := ⟨rfl, rfl⟩
  ret _ := ⟨rfl, rfl⟩
  ret_immediate _ _ := ⟨_, rfl, rfl⟩
  load_reg _ _ := ⟨rfl, rfl⟩
  load a i target hi htarget := by
    have hshown : IsRow (sampleListed a i) (if i.op = "leal" then "lea" else "mov")
        [Offline.atEbx, .reg (.r32 .ebx)] := by
      obtain rfl | rfl := hi <;> cases target <;>
        first
          | exact ⟨rfl, rfl⟩
          | simp [Operand.inMemory] at htarget
    refine ⟨_, _, ?_, hshown, Or.inl ⟨_, _, _, _, rfl⟩⟩
    split
    · exact Or.inr rfl
    · exact Or.inl rfl
  store_two a op source target hi _ _ := by simp [callsItself, callName] at hi
  store_one a op target hi hstore _ := by
    have hnone : target.inMemory = false := by
      obtain heq | heq | heq | heq := callsItself_lines hi
      · rw [(List.cons.inj (Insn.mk.inj heq).2).1]
        rfl
      · rw [(List.cons.inj (Insn.mk.inj heq).2).1]
        rfl
      · rw [(List.cons.inj (Insn.mk.inj heq).2).1]
        rfl
      · cases (Insn.mk.inj heq).2
    rw [hnone, Bool.false_and] at hstore
    cases hstore
  call_name a name _ := by
    refine ⟨"10000000", "f", ⟨rfl, rfl⟩, ?_⟩
    decide +kernel

theorem callsItself_legible : Legible (compute_sizes {} .classic) false sampleListed callsItself where
  toTame := callsItself_regular.tame (by simp [callsItself])
  unmasked i hi := by
    refine not_masks ?_
    obtain rfl | rfl | rfl | rfl := callsItself_lines hi <;> decide
  own o i ls hreach hkept := by
    obtain ⟨done, hdone⟩ := hreach.suffix
    have hi : .insn i ∈ callsItself := by
      rw [hdone]
      exact List.mem_append_right _ List.mem_cons_self
    obtain ⟨o', p, hrun⟩ := hkept
    obtain rfl | rfl | rfl | rfl := callsItself_lines hi
    · refine ⟨fun a => ?_, fun a safety unsafety _ _ _ => ⟨{USE_ESP, CHANGE_ESP}, rfl, by decide, by decide, ?_, ?_⟩⟩
      · show "push" ∈ knownOpcodes
        decide
      · exact ⟨fun hset => absurd hset (by decide), fun _ => Or.inl rfl, fun hset => absurd hset (by decide),
          fun _ => rfl⟩
      · exact fun hjump => absurd hjump (by decide)
    · cases hrun
    · refine ⟨fun a => ?_, fun a safety unsafety _ _ _ =>
        ⟨{USE_ESP} ∪ Offline.change (.r32 .ebp) ∪ {CHANGE_ESP}, rfl, by decide, by decide, ?_, ?_⟩⟩
      · show "pop" ∈ knownOpcodes
        decide
      · exact ⟨fun _ => by decide, fun _ => Or.inl rfl, fun hset => absurd hset (by decide), fun _ => rfl⟩
      · exact fun hjump => absurd hjump (by decide)
    · cases hrun

def sampleRow (a : Nat) (i : Insn) : Offline.Row := .insn (classic.code_start + a) (sampleListed a i)

/-- `lea 0x0(%esi,%eiz,1),%esi` -/
def leaRow (a size : Nat) : Offline.Row :=
  .insn (classic.code_start + a) ⟨"lea", [.other "0x0(%esi,%eiz,1)", .reg (.r32 .esi)], size⟩

/-- The listing of the function: one byte, the fillers of a chunk and of the call, and from 27 on the call, the
pop, the two masks and the return. -/
def callsItselfRows : List Offline.Row :=
  [sampleRow 0 ⟨"pushl", [.reg (.r32 .ebp)]⟩, leaRow 1 7, leaRow 8 7, .insn (classic.code_start + 15) ⟨"nop", [], 1⟩,
    leaRow 16 7, leaRow 23 4, .insn (classic.code_start + 27) ⟨"call", [.target "10000000" "f"], 5⟩,
    sampleRow 32 ⟨"popl", [.reg (.r32 .ebp)]⟩, sampleRow 33 (andData classic .ebp),
    sampleRow 39 (andJump classic (.mem none (some .esp) none none)), sampleRow 46 ⟨"ret", []⟩]

/-- Fillers where a long, a short or a single byte has been left. -/
theorem callsItself_filler_rows :
    FillerRows classic 1 16 [leaRow 1 7, leaRow 8 7, .insn (classic.code_start + 15) ⟨"nop", [], 1⟩] ∧
      FillerRows classic 16 27 [leaRow 16 7, leaRow 23 4] := by
  have hlea := fun size => @Filler.allowed_lea size true
  have hnone : found ["%ebp"] (argsText []) = false ∧ usesEsp (argsText []) = false := by decide
  have hesi : found ["%ebp"] (argsText [.other "0x0(%esi,%eiz,1)", .reg (.r32 .esi)]) = false ∧
      usesEsp (argsText [.other "0x0(%esi,%eiz,1)", .reg (.r32 .esi)]) = false := by decide
  constructor
  · exact .cons (hlea 4) hesi.1 hesi.2
      (.cons (hlea 4) hesi.1 hesi.2 (.cons Filler.allowed_nop hnone.1 hnone.2 (.nil _)))
  · exact .cons (hlea 4) hesi.1 hesi.2 (.cons (hlea 1) hesi.1 hesi.2 (.nil _))

theorem sampleRow_shows {a : Nat} {i : Insn} (hpos : 0 < encodedLength i) :
    ItemRows classic sampleListed encodedLength a (.insn i) [sampleRow a i] :=
  ⟨rfl, rfl, hpos⟩

theorem callsItself_listing :
    Listing (compute_sizes {} .classic) sampleListed encodedLength 0 callsItselfItems callsItselfRows := by
  obtain ⟨hchunk, hpad⟩ := callsItself_filler_rows
  have halign : ItemRows classic sampleListed encodedLength 1 .align _ := hchunk
  have hnops : ItemRows classic sampleListed encodedLength 16 (.nops 11) _ := hpad
  have hsize : encodedLength (callName ⟨"f", by decide⟩) = 5 := by decide +kernel
  have hcall : ItemRows classic sampleListed encodedLength 27 (.insn (callName ⟨"f", by decide⟩))
      [.insn (classic.code_start + 27) ⟨"call", [.target "10000000" "f"], 5⟩] := by
    rw [← hsize]
    exact ⟨rfl, rfl, by decide +kernel⟩
  have hpush : Listing classic sampleListed encodedLength 0 (callsItselfItems.drop 2) callsItselfRows := by
    refine .cons (sampleRow_shows (by decide +kernel)) (.cons halign (.cons hnops (.cons hcall ?_)))
    refine .cons (sampleRow_shows (by decide +kernel)) (.cons (sampleRow_shows (by decide +kernel)) ?_)
    exact .cons (sampleRow_shows (by decide +kernel)) (.cons (sampleRow_shows (by decide +kernel)) (.nil _))
  have hlabel : ItemRows classic sampleListed encodedLength 0 (.label "f") [] := rfl
  have hstart : ItemRows classic sampleListed encodedLength 0 .align [] := .nil _
  exact .cons hstart (.cons hlabel hpush)

end Sample

end Pittsfield.Rewrite
