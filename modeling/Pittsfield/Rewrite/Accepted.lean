import Pittsfield.Loader.Acceptance
import Pittsfield.Rewrite.Packing

/-!
# Rewritten code before `verify()`

The items that `rewrite.pl` prints stand in the code one behind the other, and libdisasm shows
each instruction where it stands. The mark `dirty_esp` bounds what `verify()` notes about
`%esp`, so that no mask that it asks for is missing where the script adds a jump, a call or
a return.
-/

namespace Pittsfield.Rewrite

open Pittsfield.Foundation
open Pittsfield.Region
open Pittsfield.Machine
open Pittsfield.Offline (unaryStore)
open Pittsfield.Loader (Image Disasm X86Insn X86Op VState Comes Fits Bound Is Lands checkInsn updateState
  operandFlags checkFlags)
open Pittsfield.Loader.InsnType

section Code

variable (L : Layout) (x86_disasm : Disasm) (image : Image) (shown : Nat → Insn → X86Insn) (len : Insn → Nat)

/-- libdisasm shows a row of fillers from one offset to another. -/
inductive Filled : Nat → Nat → Prop
  | nil (a : Nat) : Filled a a
  | cons {a b : Nat} {f : Filler} : f.Allowed → x86_disasm image a = some f.decoded →
      Filled (a + f.decoded.size) b → Filled a b

/-- What libdisasm shows where an item stands. -/
def Found (a : Nat) : Item → Prop
  | .insn i => x86_disasm image a = some (shown a i) ∧ (shown a i).size = len i ∧ 0 < len i
  | .nops bytes => Filled x86_disasm image a (a + bytes)
  | .align => Filled x86_disasm image a (a + room L.chunk_size a)
  | .align2 => Filled x86_disasm image a (a + room 4 a)
  | .label _ | .text _ => True

/-- The items stand in the code from the offset on. -/
def Laid : Nat → List Item → Prop
  | _, [] => True
  | a, item :: items =>
    Found L x86_disasm image shown len a item ∧ Laid (advance len L.chunk_size a item) items

/-- The items stand at the front of the code, and none straddles the end of a chunk. -/
structure Assembled (items : List Item) : Prop where
  laid : Laid L x86_disasm image shown len 0 items
  placed : AllPlaced len L.chunk_size 0 items
  inside : endOf len L.chunk_size 0 items ≤ image.length

/-- Behind the items the loop of `verify()` comes to a state with the property. -/
def Reaches (items : List Item) (P : VState → Prop) : Prop :=
  Assembled L x86_disasm image shown len items →
    ∃ st, Comes L x86_disasm image st ∧ st.offset = endOf len L.chunk_size 0 items ∧ P st

/-- Fillers do not change the property. -/
def Idle (P : VState → Prop) : Prop :=
  ∀ st n (f : Filler), f.Allowed → P st → P (updateState st n f.decoded Loader.NONE)

/-- The weakenings keep within the bound. -/
def Within (b : Bound) (st : VState) : Prop := Fits b st.weak

end Code

section Rules

variable {L : Layout} {x86_disasm : Disasm} {image : Image} {shown : Nat → Insn → X86Insn} {len : Insn → Nat}
  {items rest : List Item} {item : Item} {i : Insn} {P Q : VState → Prop} {b b' : Bound} {st : VState}
  {a e n : Nat} {o : Out}

theorem laid_append : Laid L x86_disasm image shown len a (items ++ rest) ↔
    Laid L x86_disasm image shown len a items ∧
      Laid L x86_disasm image shown len (endOf len L.chunk_size a items) rest := by
  induction items generalizing a with
  | nil => exact (and_iff_right trivial).symm
  | cons item items ih =>
    rw [List.cons_append, Laid, Laid, ih, and_assoc]
    rfl

theorem le_advance (len : Insn → Nat) (chunk_size a : Nat) (item : Item) : a ≤ advance len chunk_size a item := by
  cases item with
  | label name => exact Nat.le_refl a
  | text line =>
    rw [advance]
    cases alignment line with
    | none => exact Nat.le_refl a
    | some n => exact Nat.le_add_right a _
  | _ => exact Nat.le_add_right a _

/-- The last item stands behind the others. -/
theorem Assembled.last (h : Assembled L x86_disasm image shown len (items ++ [item])) :
    Assembled L x86_disasm image shown len items ∧
      Found L x86_disasm image shown len (endOf len L.chunk_size 0 items) item ∧
      Placed len L.chunk_size (endOf len L.chunk_size 0 items) item ∧
      advance len L.chunk_size (endOf len L.chunk_size 0 items) item ≤ image.length := by
  obtain ⟨hlaid, hplaced, hinside⟩ := h
  rw [laid_append] at hlaid
  rw [allPlaced_append] at hplaced
  rw [endOf_append] at hinside
  obtain ⟨hlaid, hfound, -⟩ := hlaid
  obtain ⟨hplaced, hlast, -⟩ := hplaced
  exact ⟨⟨hlaid, hplaced, (le_advance _ _ _ _).trans hinside⟩, hfound, hlast, hinside⟩

theorem reaches_nil (h : P {}) : Reaches L x86_disasm image shown len [] P :=
  fun _ => ⟨{}, Loader.comes_first, rfl, h⟩

theorem Reaches.mono (h : Reaches L x86_disasm image shown len items P) (hPQ : ∀ st, P st → Q st) :
    Reaches L x86_disasm image shown len items Q := by
  intro hitems
  obtain ⟨st, hcomes, hoffset, hP⟩ := h hitems
  exact ⟨st, hcomes, hoffset, hPQ st hP⟩

/-- The rule for an instruction: it passes, and has the effect on the state words. -/
theorem Reaches.insn (h : Reaches L x86_disasm image shown len items P)
    (hcheck : ∀ st, P st → ∃ flags, checkInsn L st (shown st.offset i) = .ok flags ∧
      ∀ n, Q (updateState st n (shown st.offset i) flags)) :
    Reaches L x86_disasm image shown len (items ++ [.insn i]) Q := by
  intro hitems
  obtain ⟨hfront, ⟨hdisasm, hsize, hpos⟩, hplaced, hinside⟩ := hitems.last
  obtain ⟨st, hcomes, hoffset, hP⟩ := h hfront
  rw [← hoffset] at hdisasm hsize hplaced hinside
  obtain ⟨flags, hflags, hQ⟩ := hcheck st hP
  have hfit : st.offset % L.chunk_size + (shown st.offset i).size ≤ L.chunk_size := hsize ▸ hplaced
  have hend : st.offset + (shown st.offset i).size ≤ image.length := hsize ▸ hinside
  obtain ⟨n, hnext⟩ := hcomes.insn hend hdisasm (hsize ▸ hpos) hfit hflags
  refine ⟨_, hnext, ?_, hQ n⟩
  rw [endOf_append, ← hoffset, Loader.updateState_offset, hsize]
  rfl

theorem Filler.size_pos (f : Filler) : 0 < f.decoded.size := by
  cases f with
  | lea dest base disp size sib =>
    show 0 < 2 + size + sib.toNat
    omega
  | _ => exact Nat.succ_pos _

theorem Filled.le (h : Filled x86_disasm image a e) : a ≤ e := by
  induction h with
  | nil => exact Nat.le_refl _
  | cons _ _ _ ih => exact (Nat.le_add_right _ _).trans ih

/-- The loop runs over fillers that stay inside a chunk. -/
theorem Filled.pass (h : Filled x86_disasm image a e) (hidle : Idle P) (hcomes : Comes L x86_disasm image st)
    (hoffset : st.offset = a) (hP : P st) (hfit : a % L.chunk_size + (e - a) ≤ L.chunk_size)
    (hinside : e ≤ image.length) : ∃ st', Comes L x86_disasm image st' ∧ st'.offset = e ∧ P st' := by
  induction h generalizing st with
  | nil => exact ⟨st, hcomes, hoffset, hP⟩
  | @cons a e f hallowed hdisasm hrest ih =>
    have hle := hrest.le
    have hpos := f.size_pos
    subst hoffset
    obtain ⟨n, hnext⟩ := hcomes.insn (by omega) hdisasm hpos (by omega) (hallowed.loader L st)
    have hmod := Nat.mod_le (st.offset % L.chunk_size + f.decoded.size) L.chunk_size
    rw [Nat.mod_add_mod] at hmod
    exact ih hnext rfl (hidle st n f hallowed hP) (by omega) hinside

/-- There is room for the fillers of an alignment. -/
theorem room_fits (hchunk : n ∣ L.chunk_size) (hpos : 0 < n) (a : Nat) :
    a % L.chunk_size + room n a ≤ L.chunk_size := by
  obtain ⟨k, hk⟩ := room_aligns (k := a) hpos
  obtain ⟨q, hq⟩ := hchunk
  have hlt := Nat.mod_lt a L.chunk_pos
  have hle := room_le (k := a) hpos
  have hdiv := Nat.div_add_mod a L.chunk_size
  -- the aligned place and the end of the chunk are multiples of `n`, and it is before the next one
  by_contra hover
  have hbetween : L.chunk_size * (a / L.chunk_size) + L.chunk_size < a + room n a := by omega
  have hmultiple : n ∣ L.chunk_size * (a / L.chunk_size) + L.chunk_size :=
    Nat.dvd_add ((Dvd.intro _ hq.symm).mul_right _) (Dvd.intro _ hq.symm)
  obtain ⟨m, hm⟩ := hmultiple
  rw [hk, hm] at hbetween
  have hless := Nat.lt_of_mul_lt_mul_left hbetween
  have hstep := Nat.mul_le_mul_left n (Nat.succ_le_of_lt hless)
  rw [Nat.mul_succ] at hstep
  omega

/-- The rule for what is filled. -/
theorem Reaches.fill (h : Reaches L x86_disasm image shown len items P) (hidle : Idle P)
    (hitem : item = .align ∨ (item = .align2 ∧ 4 ∣ L.chunk_size) ∨ ∃ bytes, item = .nops bytes) :
    Reaches L x86_disasm image shown len (items ++ [item]) P := by
  intro hitems
  obtain ⟨hfront, hfound, hplaced, hinside⟩ := hitems.last
  obtain ⟨st, hcomes, hoffset, hP⟩ := h hfront
  rw [endOf_append]
  rw [← hoffset] at hfound hplaced hinside ⊢
  have hpass : ∀ k, Filled x86_disasm image st.offset (st.offset + k) →
      st.offset % L.chunk_size + k ≤ L.chunk_size → st.offset + k ≤ image.length →
      ∃ st', Comes L x86_disasm image st' ∧ st'.offset = st.offset + k ∧ P st' := by
    intro k hfilled hfit hend
    refine hfilled.pass hidle hcomes rfl hP ?_ hend
    rwa [Nat.add_sub_cancel_left]
  obtain halign | ⟨halign2, hfour⟩ | ⟨bytes, hnops⟩ := hitem
  · subst halign
    exact hpass _ hfound (room_fits (Nat.dvd_refl _) L.chunk_pos _) hinside
  · subst halign2
    exact hpass _ hfound (room_fits hfour (by decide) _) hinside
  · subst hnops
    exact hpass _ hfound hplaced hinside

theorem idle_within (b : Bound) : Idle (Within b) := by
  intro st n f hallowed hfits
  exact (Fits.update (x := f.decoded) hfits n (f := Loader.NONE) nofun).keeps rfl

end Rules

section Lines

/-- What libdisasm shows of the lines that the script adds. The linker lets every call by name lead to
the start of a chunk. -/
structure Faithful (L : Layout) (input : List Line) (shown : Nat → Insn → X86Insn) : Prop where
  pushf (a : Nat) : Is (shown a pushf) insn_pushflags []
  popf (a : Nat) : Is (shown a popf) insn_popflags []
  mask (a : Nat) (v : Word) (r : Reg32) : Wide v →
    Is (shown a (andMask v (.reg (.r32 r)))) insn_and [Loader.regOperand r true, Loader.immOperand v]
  mask_top (a : Nat) (v : Word) : Wide v →
    Is (shown a (andMask v (.mem none (some .esp) none none))) insn_and
      [Loader.memOperand .esp, Loader.immOperand v]
  popl (a : Nat) : Is (shown a ⟨"popl", [.reg (.r32 .ebx)]⟩) insn_pop [Loader.regOperand .ebx true]
  addl (a : Nat) (value : Const) : ∃ x, x.type = .op_immediate ∧
    Is (shown a ⟨"addl", [.imm value, .reg (.r32 .esp)]⟩) insn_add [Loader.regOperand .esp true, x]
  jmp (a : Nat) : Is (shown a ⟨"jmp", [.star (.reg (.r32 .ebx))]⟩) insn_jmp [Loader.regOperand .ebx false]
  call (a : Nat) : Is (shown a callEbx) insn_call [Loader.regOperand .ebx false]
  ret (a : Nat) : Is (shown a ⟨"ret", []⟩) insn_return []
  ret_immediate (a : Nat) (value : Const) : ∃ x, x.type = .op_immediate ∧
    Is (shown a ⟨"ret", [.imm value]⟩) insn_return [x]
  load_reg (a : Nat) (r : Reg) : ∃ datatype, Is (shown a (movEbx (.reg r))) insn_mov
    [Loader.regOperand .ebx true, ⟨.register r, datatype, false, false⟩]
  load (a : Nat) {i : Insn} {target : Operand} : i = movEbx target ∨ i = leaEbx target →
    (target.inMemory = true ∨ ∃ value, target = .const value) → ∃ x, (x.type = .op_expression ∨ x.type = .op_offset) ∧
      Is (shown a i) insn_mov [Loader.regOperand .ebx true, x]
  store_two (a : Nat) {op : String} {source target : Operand} : .insn ⟨op, [source, target]⟩ ∈ input →
    (source.source && target.inMemory && !comparesOnly op) = true → keepsTwo op source target = false →
      ∃ type x y, Loader.legalType type = true ∧ x.type = .op_expression ∧
        Loader.classify_ea x.expression = .EA_EBX_EXACT ∧ (y.type = .op_register ∨ y.type = .op_immediate) ∧
        Is (shown a ⟨op, [source, atEbx]⟩) type [x, y]
  store_one (a : Nat) {op : String} {target : Operand} : .insn ⟨op, [target]⟩ ∈ input →
    (target.inMemory && unaryStore op) = true → keepsOne op target = false →
      ∃ type x, x.type = .op_expression ∧ Loader.classify_ea x.expression = .EA_EBX_EXACT ∧
        ((∃ y, y.type = .op_immediate ∧ Loader.legalType type = true ∧ Is (shown a ⟨op, [atEbx]⟩) type [x, y]) ∨
          type ∈ [fpu, insn_mul, insn_div, insn_inc, insn_dec, insn_not, insn_neg, insn_movcc] ∧
            Is (shown a ⟨op, [atEbx]⟩) type [x])
  call_name (a : Nat) {name : Const} : .insn (callName name) ∈ input →
    ∃ x, (x.type = .op_relative_near ∨ x.type = .op_relative_far) ∧ Is (shown a (callName name)) insn_call [x] ∧
      Lands L (Loader.relativeTarget L (shown a (callName name)) a x.data)

/-- The masks are told apart by their values, and chunks are long enough. -/
structure Usual (L : Layout) : Prop where
  data_wide : Wide L.data_mask
  jump_wide : Wide L.jump_mask
  differ : L.jump_mask ≠ L.data_mask
  chunk : 16 ≤ L.chunk_size
  four : 4 ∣ L.chunk_size

theorem usual (g : Settings) (sz : Size) : Usual (compute_sizes g sz) where
  data_wide := (masks_wide g sz).1
  jump_wide := (masks_wide g sz).2
  differ := by
    obtain ⟨style, log_chunk_size, h4 | h5⟩ := g
    · subst h4
      cases sz <;> cases style <;> decide +kernel
    · subst h5
      cases sz <;> cases style <;> decide +kernel
  chunk := chunk_ge g sz
  four := by
    show 4 ∣ 1 <<< g.log_chunk_size
    obtain h4 | h5 := g.supported
    · rw [h4]
      decide
    · rw [h5]
      decide

variable {L : Layout} {x86_disasm : Disasm} {image : Image} {shown : Nat → Insn → X86Insn} {len : Insn → Nat}
  {input : List Line} {items : List Item} {i : Insn} {b : Bound} {o : Out} {flags : Loader.Flags}
  {type : Loader.InsnType} {args : List X86Op}

/-- An instruction that transfers nothing and stores nothing unchecked. -/
theorem Reaches.quiet (h : Reaches L x86_disasm image shown len items (Within b))
    (hlegal : Loader.legalType type = true) (his : ∀ a, Is (shown a i) type args)
    (hflags : ∀ safety unsafety a, operandFlags L safety unsafety (shown a i) a = .ok flags)
    (hijump : flags.ijump = false) (hiwrite : flags.iwrite = false) (hjump : flags.jump = false)
    (hone : flags.bump_esp = true → b.bump = false ∨ flags.use_esp = true) :
    Reaches L x86_disasm image shown len (items ++ [.insn i])
      fun st => Within (b.after flags) st ∧ ∃ st' n, st = updateState st' n (shown st'.offset i) flags := by
  refine h.insn fun st hst => ⟨flags, ?_, fun n => ⟨hst.update n hone, st, n, rfl⟩⟩
  refine (his st.offset).check hlegal (hflags _ _ _) (Loader.checkFlags_of hijump hiwrite fun hj => ?_)
  rw [hjump] at hj
  cases hj

/-- A bound without `%esp` is below every other one with the same `%ebp`. -/
theorem Within.ebp_only {st : VState} (h : Within { ebp := b.ebp } st) : Within b st :=
  Fits.mono h (fun hebp => hebp) nofun nofun

variable (hF : Faithful L input shown) (hL : Usual L)

include hF

theorem Reaches.pushf (h : Reaches L x86_disasm image shown len items (Within b)) :
    Reaches L x86_disasm image shown len (items ++ [.insn pushf]) (Within b) := by
  refine (h.quiet rfl hF.pushf (fun _ _ _ => (hF.pushf _).pushflags) rfl rfl rfl nofun).mono ?_
  intro st hst
  exact Within.ebp_only (hst.1.uses rfl rfl)

theorem Reaches.popf (h : Reaches L x86_disasm image shown len items (Within b)) :
    Reaches L x86_disasm image shown len (items ++ [.insn popf]) (Within b) := by
  refine (h.quiet rfl hF.popf (fun _ _ _ => (hF.popf _).popflags) rfl rfl rfl nofun).mono ?_
  intro st hst
  exact Within.ebp_only (hst.1.uses rfl rfl)

/-- `popl %ebx` uses `%esp`. -/
theorem Reaches.popl (h : Reaches L x86_disasm image shown len items (Within b)) :
    Reaches L x86_disasm image shown len (items ++ [.insn ⟨"popl", [.reg (.r32 .ebx)]⟩])
      (Within { ebp := b.ebp }) := by
  refine (h.quiet rfl hF.popl (fun _ _ _ => (hF.popl _).pop rfl rfl rfl) rfl rfl rfl nofun).mono ?_
  intro st hst
  exact hst.1.uses rfl rfl

/-- What leads to the target of a call or a jump, or to the address of a store. -/
theorem Reaches.load {target : Operand} (h : Reaches L x86_disasm image shown len items (Within b))
    (hi : i = movEbx target ∨ i = leaEbx target)
    (htarget : target.inMemory = true ∨ (∃ value, target = .const value) ∨
      i = movEbx target ∧ ∃ r, target = .reg r ∧ r.whole ≠ some .esp ∧ r.whole ≠ some .ebp) :
    Reaches L x86_disasm image shown len (items ++ [.insn i]) (Within b) := by
  have hshown : ∀ a, ∃ x, Is (shown a i) insn_mov [Loader.regOperand .ebx true, x] ∧
      (x.type = .op_register ∧ x.names Loader.REGISTER_EBP = false ∧ x.names Loader.REGISTER_ESP = false ∨
        x.type = .op_expression ∨ x.type = .op_offset) := by
    intro a
    obtain hmemory | hconst | ⟨rfl, r, rfl, hesp, hebp⟩ := htarget
    · obtain ⟨x, hx, his⟩ := hF.load a hi (Or.inl hmemory)
      exact ⟨x, his, Or.inr hx⟩
    · obtain ⟨x, hx, his⟩ := hF.load a hi (Or.inr hconst)
      exact ⟨x, his, Or.inr hx⟩
    · obtain ⟨datatype, his⟩ := hF.load_reg a r
      refine ⟨_, his, Or.inl ⟨rfl, ?_, ?_⟩⟩
      · refine Bool.eq_false_iff.mpr fun hnames => ?_
        obtain ⟨q, hq, hwhole⟩ := (Loader.names_iff ⟨.register r, datatype, false, false⟩ .ebp).mp hnames
        cases hq
        exact hebp hwhole
      · refine Bool.eq_false_iff.mpr fun hnames => ?_
        obtain ⟨q, hq, hwhole⟩ := (Loader.names_iff ⟨.register r, datatype, false, false⟩ .esp).mp hnames
        cases hq
        exact hesp hwhole
  refine h.insn fun st hst => ?_
  obtain ⟨x, his, hx⟩ := hshown st.offset
  refine ⟨Loader.NONE, his.check rfl (his.mov_ebx rfl hx) rfl, fun n => ?_⟩
  exact (Fits.update (x := shown st.offset i) hst n (f := Loader.NONE) nofun).keeps rfl

include hL

/-- The mask of a store address. -/
theorem Reaches.mask_data (h : Reaches L x86_disasm image shown len items (Within b)) :
    Reaches L x86_disasm image shown len (items ++ [.insn (andData L .ebx)])
      fun st => Within b st ∧ st.safety.ebx_data_safe = true := by
  have hmask : ∀ a, Is (shown a (andData L .ebx)) insn_and _ := fun a => hF.mask a _ _ hL.data_wide
  have hflags : ∀ safety unsafety a,
      operandFlags L safety unsafety (shown a (andData L .ebx)) a = .ok Loader.EBX_DATA_SAFE := by
    intro safety unsafety a
    rw [(hmask a).and_reg, if_pos ⟨rfl, rfl⟩]
  refine (h.quiet rfl hmask hflags rfl rfl rfl nofun).mono ?_
  intro st hst
  obtain ⟨hfits, st', n, rfl⟩ := hst
  exact ⟨hfits.keeps rfl, Bool.or_true _⟩

/-- The mask of the target of a jump or a call. -/
theorem Reaches.mask_jump (h : Reaches L x86_disasm image shown len items (Within b)) :
    Reaches L x86_disasm image shown len (items ++ [.insn (andJump L (.reg (.r32 .ebx)))])
      fun st => Within b st ∧ st.safety.ebx_code_safe = true := by
  have hmask : ∀ a, Is (shown a (andJump L (.reg (.r32 .ebx)))) insn_and _ :=
    fun a => hF.mask a _ _ hL.jump_wide
  have hflags : ∀ safety unsafety a, operandFlags L safety unsafety
      (shown a (andJump L (.reg (.r32 .ebx)))) a = .ok Loader.EBX_CODE_SAFE := by
    intro safety unsafety a
    rw [(hmask a).and_reg, if_neg fun hand => hL.differ hand.2, if_pos ⟨rfl, rfl⟩]
  refine (h.quiet rfl hmask hflags rfl rfl rfl nofun).mono ?_
  intro st hst
  obtain ⟨hfits, st', n, rfl⟩ := hst
  exact ⟨hfits.keeps rfl, Bool.or_true _⟩

/-- The mask of a return address uses `%esp`. -/
theorem Reaches.mask_top (h : Reaches L x86_disasm image shown len items (Within b)) :
    Reaches L x86_disasm image shown len (items ++ [.insn (andJump L (.mem none (some .esp) none none))])
      fun st => Within { ebp := b.ebp } st ∧ st.safety.stack_top_safe = true := by
  have hmask : ∀ a, Is (shown a (andJump L (.mem none (some .esp) none none))) insn_and _ :=
    fun a => hF.mask_top a _ hL.jump_wide
  refine (h.quiet rfl hmask (fun _ _ a => (hmask a).and_top) rfl rfl rfl nofun).mono ?_
  intro st hst
  obtain ⟨hfits, st', n, rfl⟩ := hst
  exact ⟨hfits.uses rfl rfl, Bool.or_true _⟩

theorem Reaches.mask_esp (h : Reaches L x86_disasm image shown len items (Within b)) :
    Reaches L x86_disasm image shown len (items ++ [.insn (andData L .esp)]) (Within { ebp := b.ebp }) := by
  have hmask : ∀ a, Is (shown a (andData L .esp)) insn_and _ := fun a => hF.mask a _ _ hL.data_wide
  have hflags : ∀ safety unsafety a,
      operandFlags L safety unsafety (shown a (andData L .esp)) a = .ok Loader.ESP_SAFETY := by
    intro safety unsafety a
    simp only [(hmask a).and_reg, reduceCtorEq, false_and, if_false, and_self, if_true]
  exact (h.quiet rfl hmask hflags rfl rfl rfl nofun).mono fun st hst => hst.1.uses rfl rfl

theorem Reaches.mask_ebp (h : Reaches L x86_disasm image shown len items (Within b)) :
    Reaches L x86_disasm image shown len (items ++ [.insn (andData L .ebp)])
      (Within { esp := b.esp, bump := b.bump }) := by
  have hmask : ∀ a, Is (shown a (andData L .ebp)) insn_and _ := fun a => hF.mask a _ _ hL.data_wide
  have hflags : ∀ safety unsafety a,
      operandFlags L safety unsafety (shown a (andData L .ebp)) a = .ok Loader.EBP_DATA_SAFE := by
    intro safety unsafety a
    simp only [(hmask a).and_reg, reduceCtorEq, false_and, if_false, and_self, if_true]
  exact (h.quiet rfl hmask hflags rfl rfl rfl nofun).mono fun st hst => hst.1.masks_ebp

omit hL in
/-- A `popf` between the mask and the store keeps the mask. -/
theorem Reaches.popf_masked (h : Reaches L x86_disasm image shown len items
      fun st => Within b st ∧ st.safety.ebx_data_safe = true) :
    Reaches L x86_disasm image shown len (items ++ [.insn Rewrite.popf])
      fun st => Within b st ∧ st.safety.ebx_data_safe = true := by
  refine h.insn fun st hst => ?_
  have his := hF.popf st.offset
  refine ⟨_, his.check rfl his.popflags rfl, fun n => ⟨?_, ?_⟩⟩
  · have hfits := Fits.update (x := shown st.offset Rewrite.popf) hst.1 n
      (f := Loader.USE_ESP ||| Loader.CHANGE_ESP) nofun
    exact Within.ebp_only (hfits.uses rfl rfl)
  · show ((Loader.expireSafety st.safety (shown st.offset Rewrite.popf)).ebx_data_safe || false) = true
    rw [Loader.expireSafety, if_pos his.type, Bool.or_false]
    exact hst.2

omit hF hL in
/-- The store behind its mask. -/
theorem Reaches.store (h : Reaches L x86_disasm image shown len items
      fun st => Within b st ∧ st.safety.ebx_data_safe = true)
    (hstore : ∀ st : VState, st.safety.ebx_data_safe = true →
      checkInsn L st (shown st.offset i) = .ok Loader.NONE) :
    Reaches L x86_disasm image shown len (items ++ [.insn i]) (Within b) := by
  refine h.insn fun st hst => ⟨Loader.NONE, hstore st hst.2, fun n => ?_⟩
  exact (Fits.update (x := shown st.offset i) hst.1 n (f := Loader.NONE) nofun).keeps rfl

omit hL in
theorem store_two_check {op : String} {source target : Operand} (hi : .insn ⟨op, [source, target]⟩ ∈ input)
    (hstore : (source.source && target.inMemory && !comparesOnly op) = true)
    (hkept : keepsTwo op source target = false) (st : VState) (hsafe : st.safety.ebx_data_safe = true) :
    checkInsn L st (shown st.offset ⟨op, [source, atEbx]⟩) = .ok Loader.NONE := by
  obtain ⟨type, x, y, hlegal, hx, hexact, hy, his⟩ := hF.store_two st.offset hi hstore hkept
  exact his.check hlegal (his.store_ebx hx hexact hy hsafe) rfl

omit hL in
theorem store_one_check {op : String} {target : Operand} (hi : .insn ⟨op, [target]⟩ ∈ input)
    (hstore : (target.inMemory && unaryStore op) = true) (hkept : keepsOne op target = false) (st : VState)
    (hsafe : st.safety.ebx_data_safe = true) : checkInsn L st (shown st.offset ⟨op, [atEbx]⟩) = .ok Loader.NONE := by
  obtain ⟨type, x, hx, hexact, ⟨y, hy, hlegal, his⟩ | ⟨htype, his⟩⟩ := hF.store_one st.offset hi hstore hkept
  · exact his.check hlegal (his.store_ebx hx hexact (Or.inr hy) hsafe) rfl
  · have hlegal : ∀ type ∈ [fpu, insn_mul, insn_div, insn_inc, insn_dec, insn_not, insn_neg, insn_movcc],
        Loader.legalType type = true := by decide
    exact his.check (hlegal type htype) (his.unary_ebx hx hexact htype hsafe) rfl

omit hL in
/-- A call by name, where no weakening is left. -/
theorem Reaches.call_name {name : Const} (hi : .insn (callName name) ∈ input)
    (h : Reaches L x86_disasm image shown len items (Within {})) :
    Reaches L x86_disasm image shown len (items ++ [.insn (callName name)]) (Within {}) := by
  refine h.insn fun st hst => ?_
  obtain ⟨x, hx, his, hlands⟩ := hF.call_name st.offset hi
  exact ⟨_, his.check rfl (his.call_relative hx hlands)
    (Loader.checkFlags_of rfl rfl fun _ => Fits.clean hst), fun n =>
    (Fits.update hst n (f := Loader.JUMP ||| Loader.USE_ESP) nofun).uses rfl rfl⟩

omit hL in
/-- A call through `%ebx` behind its mask. -/
theorem Reaches.call_ebx (h : Reaches L x86_disasm image shown len items
      fun st => Within {} st ∧ st.safety.ebx_code_safe = true) :
    Reaches L x86_disasm image shown len (items ++ [.insn callEbx]) (Within {}) := by
  refine h.insn fun st hst => ?_
  have his := hF.call st.offset
  exact ⟨_, his.check rfl (his.call_ebx hst.2)
    (Loader.checkFlags_of rfl rfl fun _ => Fits.clean hst.1), fun n =>
    (Fits.update hst.1 n (f := Loader.USE_ESP ||| Loader.JUMP) nofun).uses rfl rfl⟩

omit hL in
/-- A jump through `%ebx` behind its mask. -/
theorem Reaches.jmp_ebx (h : Reaches L x86_disasm image shown len items
      fun st => Within {} st ∧ st.safety.ebx_code_safe = true) :
    Reaches L x86_disasm image shown len (items ++ [.insn ⟨"jmp", [.star (.reg (.r32 .ebx))]⟩]) (Within {}) := by
  refine h.insn fun st hst => ?_
  have his := hF.jmp st.offset
  exact ⟨_, his.check rfl (his.jmp_ebx hst.2) (Loader.checkFlags_of rfl rfl fun _ => hst.1.clean), fun n =>
    (Fits.update hst.1 n (f := Loader.JUMP) nofun).keeps rfl⟩

omit hL in
/-- A return behind the mask of the stack top, which uses `%esp`. -/
theorem Reaches.ret {args : List Operand} (hargs : args = [] ∨ ∃ value, args = [.imm value])
    (h : Reaches L x86_disasm image shown len items
      fun st => Within {} st ∧ st.safety.stack_top_safe = true) :
    Reaches L x86_disasm image shown len (items ++ [.insn ⟨"ret", args⟩]) (Within {}) := by
  refine h.insn fun st hst => ?_
  obtain ⟨hfits, hsafe⟩ := hst
  obtain rfl | ⟨value, rfl⟩ := hargs
  · have his := hF.ret st.offset
    exact ⟨_, his.check rfl (his.return_top hsafe)
      (Loader.checkFlags_of rfl rfl fun _ => Fits.clean hfits), fun n => Fits.uses
      (Fits.update hfits n (f := Loader.JUMP ||| Loader.USE_ESP ||| Loader.CHANGE_ESP) nofun) rfl rfl⟩
  · obtain ⟨x, hx, his⟩ := hF.ret_immediate st.offset value
    exact ⟨_, his.check rfl (his.return_immediate hx) rfl, fun n => Fits.uses
      (Fits.update hfits n (f := Loader.USE_ESP ||| Loader.CHANGE_ESP) nofun) rfl rfl⟩

omit hL in
/-- A sum changes `%esp`. -/
theorem Reaches.addl_esp (value : Const) (h : Reaches L x86_disasm image shown len items (Within {})) :
    Reaches L x86_disasm image shown len (items ++ [.insn ⟨"addl", [.imm value, .reg (.r32 .esp)]⟩])
      (Within { esp := true, bump := true }) := by
  refine h.insn fun st hst => ?_
  obtain ⟨x, hx, his⟩ := hF.addl st.offset value
  obtain ⟨f, hf, hcases⟩ := his.add_esp (L := L) rfl hx
  have hquiet : f.ijump = false ∧ f.iwrite = false ∧ f.jump = false ∧ f.change_ebp = false := by
    obtain rfl | rfl := hcases <;> exact ⟨rfl, rfl, rfl, rfl⟩
  obtain ⟨hijump, hiwrite, hjump, hclear⟩ := hquiet
  refine ⟨f, his.check rfl hf (Loader.checkFlags_of hijump hiwrite fun hj => ?_), fun n => ?_⟩
  · rw [hjump] at hj
    cases hj
  · refine (Fits.update hst n fun _ => Or.inl rfl).mono ?_ (fun _ => rfl) (fun _ => rfl)
    intro hset
    rw [Bound.after, hclear] at hset
    cases hset

end Lines

end Pittsfield.Rewrite
