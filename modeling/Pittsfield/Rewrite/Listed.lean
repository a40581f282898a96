import Pittsfield.Offline.Acceptance
import Pittsfield.Rewrite.Verified

/-!
# Rewritten code before `verify.pl`

objdump shows the items that `rewrite.pl` prints in rows, one behind the other. The offline
verifier keeps the rules of the derivation as well. It forgets a mask where a chunk starts, and
it complains of uses of a weakened pointer; neither happens between a mask and what it is for.
-/

namespace Pittsfield.Rewrite

open Pittsfield.Region
open Pittsfield.Machine
open Pittsfield.Offline (starts unaryStore VState Ahead Accepts check_insn verifyRows initialState
  knownOpcodes argsText found usesEsp hexText post)
open Pittsfield.Offline.Flag
open Pittsfield.Loader (Bound Fits)

section Pairs

variable (len : Insn → Nat) (chunk_size : Nat)

/-- What follows the front is a mask, and perhaps a `popf`. -/
def EndsMasked (front items : List Item) : Prop :=
  ∃ mask between, items = front ++ (mask :: between).map .insn ∧ Masks mask ∧
    (between = [] ∨ between = [popf])

/-- Behind a mask there is more in the same chunk. -/
inductive Snug : List Item → Prop
  | nil : Snug []
  | snoc {items : List Item} {item : Item} : Snug items →
      (∀ front, EndsMasked front items →
        endOf len chunk_size 0 front / chunk_size = endOf len chunk_size 0 items / chunk_size) →
      Snug (items ++ [item])

variable {len chunk_size} {input : List Line} {items front : List Item} {item : Item} {mask target : Insn}
  {L : Layout} {threadsafe_return : Bool} {b : Bound} {m : Masked}

theorem Protects.masks (h : Protects mask target) : Masks mask := by
  cases h with
  | storeTwo v | storeOne v | jmp v | call v => exact ⟨v, Or.inl rfl⟩
  | ret v => exact ⟨v, Or.inr rfl⟩

theorem not_masks_popf : ¬ Masks popf := not_masks (by show "popf" ≠ "andl"; decide)

theorem Protects.target_ne (h : Protects mask target) : ¬ Masks target ∧ target ≠ popf := by
  have hne : ∀ {i : Insn}, i.args ≠ [] → i ≠ popf := fun hargs heq => hargs (heq ▸ rfl)
  cases h with
  | storeTwo v op source =>
    refine ⟨?_, hne (List.cons_ne_nil _ _)⟩
    intro hmasks
    obtain ⟨w, heq | heq⟩ := hmasks
    · cases (List.cons.inj (List.cons.inj (Insn.mk.inj heq).2).2).1
    · cases (List.cons.inj (List.cons.inj (Insn.mk.inj heq).2).2).1
  | storeOne v op =>
    refine ⟨?_, hne (List.cons_ne_nil _ _)⟩
    intro hmasks
    obtain ⟨w, heq | heq⟩ := hmasks
    · cases (List.cons.inj (Insn.mk.inj heq).2).1
    · cases (List.cons.inj (Insn.mk.inj heq).2).1
  | jmp v => exact ⟨not_masks (by show "jmp" ≠ "andl"; decide), hne (List.cons_ne_nil _ _)⟩
  | call v => exact ⟨not_masks (by show "call" ≠ "andl"; decide), hne (List.cons_ne_nil _ _)⟩
  | ret v args =>
    refine ⟨not_masks (by show "ret" ≠ "andl"; decide), fun heq => ?_⟩
    have hop : "ret" = "popf" := (Insn.mk.inj heq).1
    exact absurd hop (by decide)

/-- The last item is the mask, or the `popf` behind it. -/
theorem EndsMasked.last (h : EndsMasked front (items ++ [item])) :
    (∃ mask, item = .insn mask ∧ Masks mask ∧ front = items) ∨
      item = .insn popf ∧ ∃ mask, Masks mask ∧ items = front ++ [.insn mask] := by
  obtain ⟨mask, between, heq, hmask, rfl | rfl⟩ := h
  · obtain ⟨hfront, hlast⟩ := List.append_inj' heq rfl
    exact Or.inl ⟨mask, (List.cons.inj hlast).1, hmask, hfront.symm⟩
  · have hsplit : items ++ [item] = (front ++ [.insn mask]) ++ [.insn popf] := by
      rw [heq, List.append_assoc]
      rfl
    obtain ⟨hfront, hlast⟩ := List.append_inj' hsplit rfl
    exact Or.inr ⟨(List.cons.inj hlast).1, mask, hmask, hfront⟩

/-- No output ends between a mask and what it is for. -/
theorem Written.not_masked (h : Written len chunk_size input items) (hinput : ∀ i, .insn i ∈ input → ¬ Masks i) :
    ¬ EndsMasked front items := by
  have hbehind : ∀ {items : List Item} {item : Item}, (∀ front, ¬ EndsMasked front items) →
      (∀ i, item = .insn i → ¬ Masks i) → ∀ front, ¬ EndsMasked front (items ++ [item]) := by
    intro items item hrest hitem front hends
    obtain ⟨mask, heq, hmask, -⟩ | ⟨-, mask, hmask, heq⟩ := hends.last
    · exact hitem mask heq hmask
    · exact hrest front ⟨mask, [], heq, hmask, Or.inl rfl⟩
  induction h generalizing front with
  | nil =>
    intro hends
    obtain ⟨mask, between, heq, -⟩ := hends
    exact absurd heq.symm (by simp)
  | own _ hi ih => exact hbehind (fun _ => ih) (fun j hj => Item.insn.inj hj ▸ hinput _ hi) front
  | other _ hitem ih => exact hbehind (fun _ => ih) hitem front
  | masked _ hpair _ _ _ =>
    obtain ⟨hnot, hne⟩ := hpair.target_ne
    intro hends
    rw [List.map_append, ← List.append_assoc] at hends
    obtain ⟨mask, heq, hmask, -⟩ | ⟨heq, -⟩ := EndsMasked.last hends
    · exact hnot (Item.insn.inj heq ▸ hmask)
    · exact hne (Item.insn.inj heq)

theorem endOf_mono {rest : List Item} {offset : Nat} :
    endOf len chunk_size offset items ≤ endOf len chunk_size offset (items ++ rest) := by
  rw [endOf_append]
  induction rest generalizing offset items with
  | nil => exact Nat.le_refl _
  | cons item rest ih => exact (le_advance _ _ _ item).trans (@ih [] _)

/-- The output keeps every mask and what it is for in one chunk. -/
theorem Written.snug (h : Written len chunk_size input items) (hinput : ∀ i, .insn i ∈ input → ¬ Masks i) :
    Snug len chunk_size items := by
  induction h with
  | nil => exact .nil
  | own h hi ih => exact ih.snoc fun front hends => absurd hends (h.not_masked hinput)
  | other h hitem ih => exact ih.snoc fun front hends => absurd hends (h.not_masked hinput)
  | @masked items mask target between h hpair hbetween hsame ih =>
    have hfirst : Snug len chunk_size (items ++ [.insn mask]) :=
      ih.snoc fun front hends => absurd hends (h.not_masked hinput)
    -- the front of what ends with the mask is what stood before it
    have hfront : ∀ front, EndsMasked front (items ++ [.insn mask]) → front = items := by
      intro front hends
      obtain ⟨mask', heq, -, hitems⟩ | ⟨heq, -⟩ := hends.last
      · exact hitems
      · exact absurd hpair.masks (Item.insn.inj heq ▸ not_masks_popf)
    rw [List.map_append]
    obtain rfl | rfl := hbetween
    · rw [← List.append_assoc]
      refine hfirst.snoc fun front hends => ?_
      rw [hfront front hends]
      exact hsame
    · have hsplit : items ++ (List.map Item.insn [mask, popf] ++ List.map Item.insn [target]) =
          items ++ [.insn mask] ++ [.insn popf] ++ [.insn target] := by
        simp only [List.append_assoc]
        rfl
      have hall : endOf len chunk_size 0 items / chunk_size =
          endOf len chunk_size 0 (items ++ [.insn mask] ++ [.insn popf]) / chunk_size := by
        rw [List.append_assoc]
        exact hsame
      rw [hsplit]
      refine (hfirst.snoc fun front hends => ?_).snoc fun front hends => ?_
      · rw [hfront front hends]
        refine Nat.le_antisymm (Nat.div_le_div_right endOf_mono) ?_
        rw [hall]
        exact Nat.div_le_div_right endOf_mono
      · obtain ⟨mask', heq, hmask, -⟩ | ⟨-, mask', hmask, heq⟩ := EndsMasked.last hends
        · exact absurd hmask (Item.insn.inj heq ▸ not_masks_popf)
        · rw [← (List.append_inj' heq rfl).1]
          exact hall

/-- Where something has been masked, the items end with the mask. -/
theorem Derives.ends (h : Derives L threadsafe_return input items b m) (hm : m ≠ .nothing) :
    ∃ front, EndsMasked front items := by
  cases h with
  | mask_data | mask_jump => exact ⟨_, _, [], rfl, ⟨_, Or.inl rfl⟩, Or.inl rfl⟩
  | mask_top => exact ⟨_, _, [], rfl, ⟨_, Or.inr rfl⟩, Or.inl rfl⟩
  | @mask_data_popf items =>
    exact ⟨items, _, [Rewrite.popf], List.append_assoc items [_] [_], ⟨_, Or.inl rfl⟩, Or.inr rfl⟩
  | _ => exact absurd rfl hm

end Pairs

section Rows

variable (L : Layout) (listed : Nat → Insn → Offline.Insn) (len : Insn → Nat)

/-- objdump shows a row of fillers, which name neither pointer. -/
inductive FillerRows : Nat → Nat → List Offline.Row → Prop
  | nil (a : Nat) : FillerRows a a []
  | cons {a e : Nat} {f : Filler} {rows : List Offline.Row} : f.Allowed →
    found ["%ebp"] (argsText f.shown.2) = false → usesEsp (argsText f.shown.2) = false →
    FillerRows (a + f.decoded.size) e rows →
    FillerRows a e (.insn (L.code_start + a) ⟨f.shown.1, f.shown.2, f.decoded.size⟩ :: rows)

/-- What objdump shows of an item. -/
def ItemRows (a : Nat) (item : Item) (rows : List Offline.Row) : Prop :=
  match item with
  | .insn i =>
    rows = [.insn (L.code_start + a) (listed a i)] ∧ (listed a i).size = len i ∧ 0 < len i
  | .nops bytes => FillerRows L a (a + bytes) rows
  | .align => FillerRows L a (a + room L.chunk_size a) rows
  | .align2 => FillerRows L a (a + room 4 a) rows
  | .label _ | .text _ => rows = []

/-- The listing of the items from the offset on. -/
inductive Listing : Nat → List Item → List Offline.Row → Prop
  | nil (a : Nat) : Listing a [] []
  | cons {a : Nat} {item : Item} {items : List Item} {rows rest : List Offline.Row} :
    ItemRows L listed len a item rows → Listing (advance len L.chunk_size a item) items rest →
    Listing a (item :: items) (rows ++ rest)

/-- The items are listed from the start of the code on, and stand where the script has put them. -/
structure Disassembled (items : List Item) (rows : List Offline.Row) : Prop where
  listing : Listing L listed len 0 items rows
  placed : AllPlaced len L.chunk_size 0 items
  snug : Snug len L.chunk_size items

/-- Behind the items the main loop of `verify.pl` is in a state with the property, without complaints. -/
def Lists (items : List Item) (P : VState → Prop) : Prop :=
  ∀ rows, Disassembled L listed len items rows →
    ∃ st, verifyRows L (initialState L) rows = .ok ([], st) ∧
      Ahead L st (L.code_start + endOf len L.chunk_size 0 items) ∧ P st

/-- The weakenings keep within the bound. -/
def Bounded (b : Bound) (st : VState) : Prop := Fits b st.weak

variable {L listed len} {items front : List Item} {item : Item} {rows rest : List Offline.Row} {i : Insn}
  {P Q : VState → Prop} {b b' : Bound} {st : VState} {a e n : Nat} {flags : Offline.Flags}

theorem Listing.snoc (h : Listing L listed len a (items ++ [item]) rows) :
    ∃ front last, rows = front ++ last ∧ Listing L listed len a items front ∧
      ItemRows L listed len (endOf len L.chunk_size a items) item last := by
  induction items generalizing a rows with
  | nil =>
    cases h with
    | cons hitem hrest =>
      cases hrest
      exact ⟨[], _, List.append_nil _, .nil a, hitem⟩
  | cons first items ih =>
    cases h with
    | cons hitem hrest =>
      obtain ⟨front, last, rfl, hfront, hlast⟩ := ih hrest
      exact ⟨_, last, (List.append_assoc ..).symm, .cons hitem hfront, hlast⟩

/-- The last item is listed behind the others. -/
theorem Disassembled.last (h : Disassembled L listed len (items ++ [item]) rows) :
    ∃ front last, rows = front ++ last ∧ Disassembled L listed len items front ∧
      ItemRows L listed len (endOf len L.chunk_size 0 items) item last ∧
      Placed len L.chunk_size (endOf len L.chunk_size 0 items) item := by
  obtain ⟨hlisting, hplaced, hsnug⟩ := h
  obtain ⟨front, last, hrows, hfront, hlast⟩ := hlisting.snoc
  rw [allPlaced_append] at hplaced
  obtain ⟨hplaced, hitem, -⟩ := hplaced
  refine ⟨front, last, hrows, ⟨hfront, hplaced, ?_⟩, hlast, hitem⟩
  generalize hall : items ++ [item] = all at hsnug
  cases hsnug with
  | nil => exact absurd hall (List.append_ne_nil_of_right_ne_nil _ (List.cons_ne_nil _ _))
  | snoc hrest _ => exact (List.append_inj' hall rfl).1 ▸ hrest

/-- Behind a mask no chunk starts. -/
theorem Disassembled.behind (h : Disassembled L listed len (items ++ [item]) rows) (hends : EndsMasked front items)
    (hahead : Ahead L st (L.code_start + endOf len L.chunk_size 0 items)) :
    L.code_start + endOf len L.chunk_size 0 items ≠ st.next_aligned := by
  have hsame : endOf len L.chunk_size 0 front / L.chunk_size = endOf len L.chunk_size 0 items / L.chunk_size := by
    have hsnug := h.snug
    generalize hall : items ++ [item] = all at hsnug
    cases hsnug with
    | nil => exact absurd hall (List.append_ne_nil_of_right_ne_nil _ (List.cons_ne_nil _ _))
    | snoc _ hchunk =>
      obtain ⟨rfl, -⟩ := List.append_inj' hall rfl
      exact hchunk front hends
  have hlt : endOf len L.chunk_size 0 front < endOf len L.chunk_size 0 items := by
    obtain ⟨_, _, _, hitems, _⟩ := h.last
    have hmask : ∀ {mask rows}, Disassembled L listed len (front ++ [.insn mask]) rows →
        endOf len L.chunk_size 0 front < endOf len L.chunk_size 0 (front ++ [.insn mask]) := by
      intro mask rows hmasked
      obtain ⟨_, _, _, _, ⟨_, _, hpos⟩, _⟩ := hmasked.last
      rw [endOf_append]
      exact Nat.lt_add_of_pos_right hpos
    obtain ⟨mask, between, rfl, -, rfl | rfl⟩ := hends
    · exact hmask hitems
    · have hsplit : front ++ List.map Item.insn [mask, popf] = front ++ [.insn mask] ++ [.insn popf] :=
        (List.append_assoc front [_] [_]).symm
      rw [hsplit] at hitems ⊢
      obtain ⟨_, _, _, hfirst, _⟩ := hitems.last
      exact (hmask hfirst).trans_le endOf_mono
  obtain ⟨k, hk⟩ := L.code_aligned
  refine hahead.ne_of_same (a := L.code_start + endOf len L.chunk_size 0 front) (by omega) ?_
  rw [hk, Nat.mul_add_div L.chunk_pos, Nat.mul_add_div L.chunk_pos, hsame]

theorem lists_nil (h : P (initialState L)) : Lists L listed len [] P := by
  intro rows hrows
  cases hrows.listing
  exact ⟨_, rfl, Offline.ahead_first, h⟩

theorem Lists.mono (h : Lists L listed len items P) (hPQ : ∀ st, P st → Q st) : Lists L listed len items Q := by
  intro rows hrows
  obtain ⟨st, hrun, hahead, hP⟩ := h rows hrows
  exact ⟨st, hrun, hahead, hPQ st hP⟩

theorem fit_address (hfit : a % L.chunk_size + n ≤ L.chunk_size) :
    (L.code_start + a) % L.chunk_size + n ≤ L.chunk_size := by
  obtain ⟨k, hk⟩ := L.code_aligned
  rw [hk, Nat.mul_add_mod]
  exact hfit

/-- The rule for an instruction: nothing is complained about, and it has the effect on the state. Behind a
mask it is not at a chunk start. -/
theorem Lists.insn (h : Lists L listed len items P)
    (hcheck : ∀ st a, P st → (∀ front, EndsMasked front items → L.code_start + a ≠ st.next_aligned) →
      ∃ flags, Accepts L st (L.code_start + a) (listed a i) flags ∧
        ∀ n, Q (st.next (L.code_start + a) (listed a i).op flags n)) :
    Lists L listed len (items ++ [.insn i]) Q := by
  intro rows hrows
  have hbehind : ∀ front st, EndsMasked front items → Ahead L st (L.code_start + endOf len L.chunk_size 0 items) →
      L.code_start + endOf len L.chunk_size 0 items ≠ st.next_aligned := fun _ _ => hrows.behind
  obtain ⟨front, last, rfl, hfront, ⟨rfl, hsize, hpos⟩, hplaced⟩ := hrows.last
  obtain ⟨st, hrun, hahead, hP⟩ := h front hfront
  obtain ⟨flags, haccepts, hQ⟩ := hcheck st _ hP fun front hends => hbehind front st hends hahead
  obtain ⟨n, hrow, hnext⟩ := hahead.insn (hsize ▸ hpos) (fit_address (hsize ▸ hplaced)) haccepts
  refine ⟨_, Offline.verifyRows_append hrun hrow, ?_, hQ n⟩
  rw [endOf_append]
  show Ahead L _ (L.code_start + (endOf len L.chunk_size 0 items + len i))
  rw [← Nat.add_assoc, ← hsize]
  exact hnext

end Rows

section Rules

/-- What `verify.pl` has noted about the last mask. -/
def Masked.noted : Masked → Offline.Flags
  | .nothing => ∅
  | .data => {EBX_DATA_SAFE}
  | .code => {EBX_CODE_SAFE}
  | .top => {STACK_TOP_SAFE}

/-- The weakenings keep within the bound, and the mask has been noted. -/
def Assured (b : Bound) (m : Masked) (st : VState) : Prop := Bounded b st ∧ m.noted ⊆ st.safety

/-- objdump shows the opcode and the operands. -/
structure IsRow (x : Offline.Insn) (op : String) (args : List Offline.Operand) : Prop where
  op : x.op = op
  args : x.args = args

/-- What the flags of an instruction do to the bound. -/
structure Effects (b b' : Bound) (flags : Offline.Flags) : Prop where
  ijump : IJUMP ∉ flags
  iwrite : IWRITE ∉ flags
  jump : JUMP ∈ flags → b = {}
  one : BUMP_ESP ∈ flags → b.bump = false ∨ USE_ESP ∈ flags
  bound : Wider (b.post (post flags)) b'

/-- A pointer that can be weakened is not used. -/
structure Spares (L : Layout) (b : Bound) (op : String) (args : List Offline.Operand) : Prop where
  ebp : b.ebp = true → found ["%ebp"] (argsText args) = false ∨
    op = "and" ∧ args = [.imm (hexText L.data_mask), .reg (.r32 .ebp)]
  esp : b.esp = true → usesEsp (argsText args) = false ∧ found ["push", "pop", "call", "ret"] op = false

variable {L : Layout} {listed : Nat → Insn → Offline.Insn} {len : Insn → Nat} {items front : List Item}
  {item : Item} {rows rest : List Offline.Row} {i : Insn} {x : Offline.Insn} {P Q : VState → Prop}
  {b b' : Bound} {m m' : Masked} {st : VState} {a e n addr : Nat} {flags : Offline.Flags} {op : String}
  {args : List Offline.Operand}

theorem Bounded.ebp (h : Bounded b st) (hset : CHANGE_EBP ∈ st.unsafety) : b.ebp = true :=
  Fits.ebp h (decide_eq_true hset)

theorem Bounded.esp (h : Bounded b st) (hset : CHANGE_ESP ∈ st.unsafety) : b.esp = true :=
  Fits.esp h (decide_eq_true hset)

theorem Bounded.bump (h : Bounded b st) (hset : BUMP_ESP ∈ st.unsafety) : b.bump = true :=
  Fits.bump h (decide_eq_true hset)

/-- The bound behind an instruction. -/
theorem Bounded.next (h : Bounded b st) (heffects : Effects b b' flags) (addr : Nat) (op : String) (n : Nat) :
    Bounded b' (st.next addr op flags n) := by
  have hfits : Fits (b.post (post flags)) (st.weak.after (post flags)) := by
    refine Fits.post h fun hset => (heffects.one (of_decide_eq_true hset)).imp_right fun huse => ?_
    exact decide_eq_true huse
  rw [Bounded, Offline.VState.next_weak]
  exact hfits.mono heffects.bound.ebp heffects.bound.esp heffects.bound.bump

/-- An instruction that `check_insn` lets through with flags that do no harm. -/
theorem Bounded.accepts (h : Bounded b st) (his : IsRow x op args) (hknown : op ∈ knownOpcodes)
    (hcheck : check_insn L op args (st.safetyAt addr) st.unsafety = .ok flags) (heffects : Effects b b' flags)
    (hspares : Spares L b op args) : Accepts L st addr x flags := by
  obtain ⟨op', args', size⟩ := x
  obtain ⟨rfl, rfl⟩ := his
  refine ⟨hknown, hcheck, Offline.no_useReports (fun hset => ?_) fun hset => hspares.esp (h.esp hset), ?_⟩
  · refine (hspares.ebp (h.ebp hset)).imp_right fun hmask => ?_
    have hop : op' = "and" := hmask.1
    have hargs : args' = [.imm (hexText L.data_mask), .reg (.r32 .ebp)] := hmask.2
    simp only [Offline.masksEbp, hop, hargs, decide_true, Bool.and_self, Bool.true_or]
  · refine Offline.no_flagReports heffects.ijump heffects.iwrite fun hjump => ?_
    rw [heffects.jump hjump] at h
    exact ⟨fun hset => Bool.noConfusion (h.ebp hset), fun hset => Bool.noConfusion (h.esp hset),
      fun hset => Bool.noConfusion (h.bump hset)⟩

/-- The rule for an instruction that `check_insn` lets through with flags that do no harm. -/
theorem Lists.assured (h : Lists L listed len items (Assured b m))
    (hends : m ≠ .nothing → ∃ front, EndsMasked front items)
    (hcheck : ∀ a safety unsafety, m.noted ⊆ safety → ∃ op args flags, IsRow (listed a i) op args ∧
      op ∈ knownOpcodes ∧ check_insn L op args safety unsafety = .ok flags ∧ Effects b b' flags ∧ Spares L b op args ∧
        m'.noted ⊆ (if op = "popf" then safety ∩ {EBX_DATA_SAFE, EBX_CODE_SAFE} else ∅) ∪
          flags ∩ Offline.strengthenings) :
    Lists L listed len (items ++ [.insn i]) (Assured b' m') := by
  refine h.insn fun st a hst hbehind => ?_
  obtain ⟨hbound, hnoted⟩ := hst
  have hsafety : m.noted ⊆ st.safetyAt (L.code_start + a) := by
    by_cases hm : m = .nothing
    · rw [hm]
      exact Finset.empty_subset _
    · obtain ⟨front, hfront⟩ := hends hm
      rw [Offline.VState.safetyAt, if_neg (hbehind front hfront)]
      exact hnoted
  obtain ⟨op, args, flags, his, hknown, hchecked, heffects, hspares, hleft⟩ :=
    hcheck a (st.safetyAt (L.code_start + a)) st.unsafety hsafety
  refine ⟨flags, hbound.accepts his hknown hchecked heffects hspares, fun n => ⟨?_, ?_⟩⟩
  · exact hbound.next heffects _ _ n
  · rw [← his.op] at hleft
    exact hleft

/-- Nothing is spared where nothing is weakened. -/
theorem spares_bump {bump : Bool} : Spares L { bump := bump } op args := ⟨nofun, nofun⟩

theorem Bound.post_idle (b : Bound) : b.post (post ∅) = b := by
  obtain ⟨ebp, esp, bump⟩ := b
  simp [Loader.Bound.post, post]

theorem FillerRows.le (h : FillerRows L a e rows) : a ≤ e := by
  induction h with
  | nil => exact Nat.le_refl _
  | cons _ _ _ _ ih => exact (Nat.le_add_right _ _).trans ih

theorem effects_idle (b : Bound) : Effects b b ∅ where
  ijump := Finset.notMem_empty _
  iwrite := Finset.notMem_empty _
  jump hjump := absurd hjump (Finset.notMem_empty _)
  one hbump := absurd hbump (Finset.notMem_empty _)
  bound := by
    rw [Bound.post_idle]
    exact Wider.refl

theorem Filler.shown_op (f : Filler) : found ["push", "pop", "call", "ret"] f.shown.1 = false := by
  cases f with
  | nop => decide
  | mov dest src =>
    show found _ "mov" = false
    decide
  | lea dest base disp size sib =>
    have hop : (Filler.lea dest base disp size sib).shown.1 = "lea" := by cases sib <;> rfl
    rw [hop]
    decide

/-- Fillers change nothing. -/
theorem FillerRows.run (h : FillerRows L a e rows) (hahead : Ahead L st (L.code_start + a)) (hst : Bounded b st)
    (hfit : a % L.chunk_size + (e - a) ≤ L.chunk_size) : ∃ st', verifyRows L st rows = .ok ([], st') ∧
      Ahead L st' (L.code_start + e) ∧ Bounded b st' := by
  induction h generalizing st with
  | nil => exact ⟨st, rfl, hahead, hst⟩
  | @cons a e f rows hallowed hebp hesp hrest ih =>
    have hle := hrest.le
    have haccepts : Accepts L st (L.code_start + a) ⟨f.shown.1, f.shown.2, f.decoded.size⟩ ∅ :=
      hst.accepts ⟨rfl, rfl⟩ hallowed.known (hallowed.offline L _ _) (effects_idle b)
        ⟨fun _ => Or.inl hebp, fun _ => ⟨hesp, f.shown_op⟩⟩
    obtain ⟨n, hrow, hnext⟩ := hahead.insn f.size_pos (fit_address (n := f.decoded.size) (by omega)) haccepts
    have hmod := Nat.mod_le (a % L.chunk_size + f.decoded.size) L.chunk_size
    rw [Nat.mod_add_mod] at hmod
    rw [Nat.add_assoc] at hnext
    obtain ⟨st', hrun, hahead', hst'⟩ := ih hnext (hst.next (effects_idle b) _ _ n) (by omega)
    exact ⟨st', Offline.verifyRows_append hrow hrun, hahead', hst'⟩

/-- The rule for what is filled. -/
theorem Lists.fill (h : Lists L listed len items (Bounded b))
    (hitem : item = .align ∨ (item = .align2 ∧ 4 ∣ L.chunk_size) ∨ ∃ bytes, item = .nops bytes) :
    Lists L listed len (items ++ [item]) (Bounded b) := by
  intro rows hrows
  obtain ⟨front, last, rfl, hfront, hlast, hplaced⟩ := hrows.last
  obtain ⟨st, hrun, hahead, hst⟩ := h front hfront
  rw [endOf_append]
  have hpass : ∀ k, FillerRows L (endOf len L.chunk_size 0 items) (endOf len L.chunk_size 0 items + k) last →
      endOf len L.chunk_size 0 items % L.chunk_size + k ≤ L.chunk_size →
      ∃ st', verifyRows L (initialState L) (front ++ last) = .ok ([], st') ∧
        Ahead L st' (L.code_start + (endOf len L.chunk_size 0 items + k)) ∧ Bounded b st' := by
    intro k hfilled hfit
    obtain ⟨st', hlater, hahead', hst'⟩ := hfilled.run hahead hst (by rwa [Nat.add_sub_cancel_left])
    exact ⟨st', Offline.verifyRows_append hrun hlater, hahead', hst'⟩
  obtain halign | ⟨halign2, hfour⟩ | ⟨bytes, hnops⟩ := hitem
  · subst halign
    exact hpass _ hlast (room_fits (Nat.dvd_refl _) L.chunk_pos _)
  · subst halign2
    exact hpass _ hlast (room_fits hfour (by decide) _)
  · subst hnops
    exact hpass _ hlast hplaced

/-- A line without code. -/
theorem Lists.still (h : Lists L listed len items P) (hrows : ∀ a rows, ItemRows L listed len a item rows → rows = [])
    (hitem : ∀ a, advance len L.chunk_size a item = a) : Lists L listed len (items ++ [item]) P := by
  intro rows hall
  obtain ⟨front, last, rfl, hfront, hlast, -⟩ := hall.last
  obtain ⟨st, hrun, hahead, hP⟩ := h front hfront
  rw [hrows _ _ hlast, List.append_nil]
  refine ⟨st, hrun, ?_, hP⟩
  rw [endOf_append]
  show Ahead L st (L.code_start + advance len L.chunk_size (endOf len L.chunk_size 0 items) item)
  rw [hitem]
  exact hahead

end Rules

end Pittsfield.Rewrite
