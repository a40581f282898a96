import Pittsfield.Region.Masks
import Pittsfield.Rewrite.Padding

/-!
# Calls at the end of a chunk

Behind the last alignment directive that `maybe_rewrite` prints for a call stands one
chunk of code with the call at its end, so that the return address is the start of a chunk.
-/

namespace Pittsfield.Rewrite

open Pittsfield.Foundation
open Pittsfield.Region
open Pittsfield.Machine
open Pittsfield.Offline (hexText)
open Pittsfield.Loader (Image codedBytes)

section

variable (displacement : String → Word)

/-- The code of an instruction or of a padding. -/
def Item.code : Item → Option Image
  | .insn i => encode displacement i
  | .nops bytes => some (padCode (nop_pad bytes))
  | _ => none

def itemsCode : List Item → Option Image
  | [] => some []
  | item :: items => do
    let code ← item.code displacement
    let rest ← itemsCode items
    return code ++ rest

/-- The lines of a call: by name, or through a register, a memory operand or a symbol. -/
inductive CallLine : Insn → Prop
  | direct {name : Const} : plainName name.val.toList = true → CallLine ⟨"call", [.const name]⟩
  | reg (r : Reg) : CallLine ⟨"call", [.star (.reg r)]⟩
  | mem (offset : Option Const) (base index : Option Reg32) (scale : Option Scale) :
    CallLine ⟨"call", [.star (.mem offset base index scale)]⟩
  | symbol (value : Const) : CallLine ⟨"call", [.star (.const value)]⟩

/-- A chunk of code with a call at its end. -/
structure ClosesChunk (L : Layout) (items : List Item) (code : Image) : Prop where
  one_chunk : Item.align ∉ items
  coded : itemsCode displacement items = some code
  full : code.length = L.chunk_size
  last : ∃ front i, items = front ++ [.insn i] ∧ i.op = "call"

end

/-- `call *%ebx` -/
def callEbx : Insn := ⟨"call", [.star (.reg (.r32 .ebx))]⟩

/-- What `nop_pad` prints. -/
def padItems (bytes : Nat) : List Item := if bytes = 0 then [] else [.nops bytes]

section

variable {displacement : String → Word} {L : Layout} {o : Out} {items rest : List Item} {code code' : Image}

theorem itemsCode_append (h : itemsCode displacement items = some code)
    (hrest : itemsCode displacement rest = some code') :
    itemsCode displacement (items ++ rest) = some (code ++ code') := by
  induction items generalizing code with
  | nil =>
    rw [← Option.some.inj h]
    exact hrest
  | cons item items ih =>
    obtain ⟨front, hfront, hmore⟩ := Option.bind_eq_some_iff.mp h
    obtain ⟨back, hback, hcode⟩ := Option.bind_eq_some_iff.mp hmore
    have hcons : code = front ++ back := (Option.some.inj hcode).symm
    rw [List.cons_append, itemsCode, hfront, Option.bind_eq_bind, Option.bind_some, ih hback, hcons,
      List.append_assoc]
    rfl

theorem itemsCode_padItems (bytes : Nat) :
    itemsCode displacement (padItems bytes) = some (padCode (nop_pad bytes)) := by
  rw [padItems]
  by_cases hzero : bytes = 0
  · rw [hzero]
    rfl
  · rw [if_neg hzero]
    exact congrArg some (List.append_nil _)

theorem Out.nop_pad_printed (o : Out) (bytes : Nat) :
    (o.nop_pad bytes).printed = o.printed ++ padItems bytes := by
  rw [Out.nop_pad, padItems]
  by_cases hzero : bytes = 0
  · rw [if_pos hzero, if_pos hzero, List.append_nil]
  · rw [if_neg hzero, if_neg hzero]
    rfl

theorem printed_foldl (is : List Insn) (o : Out) :
    (is.foldl (fun o i => o.print (.insn i)) o).printed = o.printed ++ is.map .insn := by
  induction is generalizing o with
  | nil => exact (List.append_nil _).symm
  | cons i is ih =>
    rw [List.foldl_cons, ih]
    exact List.append_assoc _ [_] _

theorem a_emit_printed (L : Layout) (o : Out) (i : Insn) (len : Nat) :
    ∃ items, (a_emit L o i len).printed = o.printed ++ items := by
  rw [a_emit, maybe_align_for]
  by_cases hfull : L.chunk_size < o.this_chunk + len
  · rw [if_pos hfull]
    exact ⟨[.align, .insn i], List.append_assoc _ [_] [_]⟩
  · rw [if_neg hfull]
    exact ⟨[.insn i], rfl⟩

/-- The mask of a dirty `%esp` before a call. -/
def espMask (L : Layout) (dirty_esp : Bool) : List Item :=
  if dirty_esp then [.insn (andData L .esp)] else []

/-- Behind the alignment directive: the padding, the mask of a dirty `%esp`, and the call. -/
theorem placeCall_printed {real_call : List Insn} {call_len : Nat}
    (hfit : call_len + 6 ≤ L.chunk_size) : (placeCall L o real_call call_len).printed =
      o.printed ++ (.align :: (padItems (L.chunk_size - (if o.dirty_esp then 6 else 0) - call_len) ++
        espMask L o.dirty_esp ++ real_call.map .insn)) := by
  rw [placeCall, espMask]
  show (List.foldl (fun (o : Out) i => o.print (.insn i)) _ real_call).printed = _
  rw [printed_foldl]
  cases o.dirty_esp with
  | true =>
    rw [if_pos rfl, if_pos hfit, if_pos rfl, if_pos rfl]
    show (o.align.nop_pad _).printed ++ [_] ++ _ = _
    rw [Out.nop_pad_printed]
    show o.printed ++ [Item.align] ++ _ ++ [_] ++ _ = _
    simp only [List.append_assoc, List.cons_append, List.nil_append]
  | false =>
    rw [if_neg Bool.false_ne_true, if_neg Bool.false_ne_true, if_neg Bool.false_ne_true, Nat.sub_zero,
      Out.nop_pad_printed, List.append_nil]
    show o.printed ++ [Item.align] ++ _ ++ _ = _
    simp only [List.append_assoc, List.cons_append, List.nil_append]

theorem itemsCode_one {i : Insn} (h : encode displacement i = some code) :
    itemsCode displacement [.insn i] = some code := by
  rw [itemsCode, Item.code, h]
  exact congrArg some (List.append_nil _)

variable (displacement) in
/-- The code of the mask of a dirty `%esp`. -/
theorem espMask_code (g : Settings) (sz : Size) (dirty_esp : Bool) :
    ∃ code, itemsCode displacement (espMask (compute_sizes g sz) dirty_esp) = some code ∧
      code.length = if dirty_esp then 6 else 0 := by
  cases dirty_esp with
  | true =>
    have hmask : encode displacement (andData (compute_sizes g sz) .esp) = _ :=
      encode_andMask_reg (masks_wide g sz).1 (by decide) displacement
    exact ⟨_, itemsCode_one hmask, rfl⟩
  | false => exact ⟨[], rfl, rfl⟩

theorem mem_padItems {item : Item} {bytes : Nat} (h : item ∈ padItems bytes) : item = .nops bytes := by
  rw [padItems] at h
  by_cases hzero : bytes = 0
  · rw [if_pos hzero] at h
    cases h
  · rw [if_neg hzero] at h
    exact List.mem_singleton.mp h

theorem call_last {front : List Insn} {last : Insn} (hcall : last.op = "call") (items : List Item) :
    ∃ front' i, items ++ (front ++ [last]).map .insn = front' ++ [.insn i] ∧ i.op = "call" := by
  refine ⟨items ++ front.map .insn, last, ?_, hcall⟩
  rw [List.map_append, ← List.append_assoc]
  rfl

/-- The padding fills up the chunk. -/
theorem placeCall_closes {g : Settings} {sz : Size} {front : List Insn} {last : Insn}
    (hcode : itemsCode displacement ((front ++ [last]).map .insn) = some code) (hcall : last.op = "call")
    (hlen : code.length ≤ 10) :
    ∃ items code', (placeCall (compute_sizes g sz) o (front ++ [last]) code.length).printed =
        o.printed ++ (.align :: items) ∧
      ClosesChunk displacement (compute_sizes g sz) items code' := by
  have hchunk : 16 ≤ (compute_sizes g sz).chunk_size := by
    show 16 ≤ 1 <<< g.log_chunk_size
    rcases g.supported with h | h <;> rw [h] <;> decide
  obtain ⟨maskCode, hmask, hmasklen⟩ := espMask_code displacement g sz o.dirty_esp
  have hcoded := itemsCode_append (itemsCode_append (itemsCode_padItems
    ((compute_sizes g sz).chunk_size - (if o.dirty_esp then 6 else 0) - code.length)) hmask) hcode
  refine ⟨_, _, placeCall_printed (by omega), ?_, hcoded, ?_, ?_⟩
  · intro hmem
    rcases List.mem_append.mp hmem with hmem | hmem
    · rcases List.mem_append.mp hmem with hmem | hmem
      · cases mem_padItems hmem
      · rw [espMask] at hmem
        split at hmem <;> simp at hmem
    · obtain ⟨i, _, hi⟩ := List.mem_map.mp hmem
      cases hi
  · rw [List.length_append, List.length_append, (nop_pad_fillers _).1, hmasklen]
    cases o.dirty_esp with
    | true =>
      rw [if_pos rfl]
      omega
    | false =>
      rw [if_neg Bool.false_ne_true]
      omega
  · exact call_last hcall _

variable (displacement) in
/-- The call at the end of an indirect call line. -/
theorem indirect_code (g : Settings) (sz : Size) :
    ∃ code, itemsCode displacement (([andJump (compute_sizes g sz) (.reg (.r32 .ebx))] ++
        [callEbx]).map .insn) = some code ∧ code.length = 8 := by
  have hmask : encode displacement (andJump (compute_sizes g sz) (.reg (.r32 .ebx))) = _ :=
    encode_andMask_reg (masks_wide g sz).2 (by decide) displacement
  have hcall : encode displacement callEbx = some [0xff, 0xd3] := rfl
  exact ⟨_, itemsCode_append (itemsCode_one hmask) (itemsCode_one hcall), rfl⟩

/-- What `maybe_rewrite` prints for a call: something, an alignment directive and one chunk with
the call at its end. -/
structure CallAtEnd (displacement : String → Word) (L : Layout) (o o' : Out) (code : Image) : Prop where
  printed : ∃ before items, o'.printed = o.printed ++ before ++ .align :: items ∧
    ClosesChunk displacement L items code
  this_chunk : o'.this_chunk = 0
  dirty_esp : o'.dirty_esp = false

variable (displacement) in
theorem indirect_at_end (g : Settings) (sz : Size) (o : Out) (i : Insn) (len : Nat) :
    ∃ code, CallAtEnd displacement (compute_sizes g sz) o (placeCall (compute_sizes g sz)
      (a_emit (compute_sizes g sz) o i len)
      [andJump (compute_sizes g sz) (.reg (.r32 .ebx)), callEbx] 8) code := by
  obtain ⟨code, hcode, hlen⟩ := indirect_code displacement g sz
  obtain ⟨items, code', hprinted, hcloses⟩ :=
    placeCall_closes (o := a_emit (compute_sizes g sz) o i len) hcode rfl (by omega)
  rw [hlen] at hprinted
  obtain ⟨before, hbefore⟩ := a_emit_printed (compute_sizes g sz) o i len
  refine ⟨code', ⟨before, items, ?_, hcloses⟩, rfl, rfl⟩
  rw [← hbefore]
  exact hprinted

variable (displacement) in
theorem direct_at_end (g : Settings) (sz : Size) (o : Out) (name : Const) :
    ∃ code, CallAtEnd displacement (compute_sizes g sz) o
      (placeCall (compute_sizes g sz) o [⟨"call", [.const name]⟩] 5) code := by
  have hcode : encode displacement ⟨"call", [.const name]⟩ =
      some (0xe8 :: codedBytes (displacement name.val)) := rfl
  obtain ⟨items, code', hprinted, hcloses⟩ :=
    @placeCall_closes displacement o _ g sz [] _ (itemsCode_one hcode) rfl (by show 5 ≤ 10; decide)
  refine ⟨code', ⟨[], items, ?_, hcloses⟩, rfl, rfl⟩
  rw [List.append_nil]
  exact hprinted

variable (displacement) in
/-- Every call line: the code behind the last alignment directive is one chunk with the call at
its end, whatever has been printed before. -/
theorem maybe_rewrite_call (g : Settings) (sz : Size) (o : Out) (precious_eflags : Bool) {i : Insn}
    (hcall : CallLine i) : ∃ o' code,
      maybe_rewrite (compute_sizes g sz) o precious_eflags i = .ok (some o') ∧
        CallAtEnd displacement (compute_sizes g sz) o o' code := by
  cases hcall with
  | @direct name hname =>
    obtain ⟨code, h⟩ := direct_at_end displacement g sz o name
    have hdirect : rewriteCall (compute_sizes g sz) o ⟨"call", [.const name]⟩ =
        .ok (placeCall (compute_sizes g sz) o [⟨"call", [.const name]⟩] 5) := if_pos hname
    exact ⟨_, code, congrArg (Except.map some) hdirect, h⟩
  | reg r =>
    obtain ⟨code, h⟩ := indirect_at_end displacement g sz o (movEbx (.reg r)) 6
    exact ⟨_, code, rfl, h⟩
  | mem offset base index scale =>
    obtain ⟨code, h⟩ := indirect_at_end displacement g sz o (movEbx (.mem offset base index scale)) 6
    exact ⟨_, code, rfl, h⟩
  | symbol value =>
    obtain ⟨code, h⟩ := indirect_at_end displacement g sz o (movEbx (.const value)) 6
    exact ⟨_, code, rfl, h⟩

/-- The address behind a chunk of code is the start of a chunk. -/
theorem return_aligned (L : Layout) {a : Word} (ha : L.chunk_size ∣ a.toNat) (hcode : code.length = L.chunk_size) :
    L.chunk_size ∣ (a + BitVec.ofNat 32 code.length).toNat := by
  have hword : L.chunk_size ∣ 2 ^ 32 := by
    rw [L.chunk_eq]
    exact Nat.pow_dvd_pow 2 (by have := L.chunk_log; omega)
  have hlt := L.chunk_lt
  rw [hcode, BitVec.toNat_add, BitVec.toNat_ofNat, Nat.mod_eq_of_lt (by omega : L.chunk_size < 2 ^ 32)]
  exact (Nat.dvd_mod_iff hword).mpr (Nat.dvd_add ha (Nat.dvd_refl _))

/-- Calls end on a chunk boundary, and returns to them survive the mask: a chunk stands behind the
last alignment directive, the call is its last instruction, and the padding is made of fillers. -/
theorem calls_end_chunks (displacement : String → Word) (g : Settings) (sz : Size) :
    (∀ (o : Out) (precious_eflags : Bool) (i : Insn), CallLine i → ∃ o' code,
      maybe_rewrite (compute_sizes g sz) o precious_eflags i = .ok (some o') ∧
        CallAtEnd displacement (compute_sizes g sz) o o' code ∧
        ∀ a : Word, (compute_sizes g sz).chunk_size ∣ a.toNat →
          (compute_sizes g sz).chunk_size ∣ (a + BitVec.ofNat 32 code.length).toNat ∧
            (a + BitVec.ofNat 32 code.length ∈
                span 32 (compute_sizes g sz).code_start (compute_sizes g sz).code_size →
              (a + BitVec.ofNat 32 code.length) &&& (compute_sizes g sz).jump_mask =
                a + BitVec.ofNat 32 code.length)) ∧
    ∀ bytes, (padCode (nop_pad bytes)).length = bytes ∧ Fillers (padCode (nop_pad bytes)) := by
  refine ⟨?_, nop_pad_fillers⟩
  intro o precious_eflags i hcall
  obtain ⟨o', code, hrun, hend⟩ := maybe_rewrite_call displacement g sz o precious_eflags hcall
  refine ⟨o', code, hrun, hend, ?_⟩
  intro a ha
  obtain ⟨_, _, _, hcloses⟩ := hend.printed
  have haligned := return_aligned _ ha hcloses.full
  exact ⟨haligned, fun hin => jump_mask_keeps g sz hin haligned⟩

/-- A call through `%eax`, with seven bytes in the chunk and a dirty `%esp`. -/
theorem calls_end_chunks_eax : ∃ o' code,
    maybe_rewrite (compute_sizes {} .classic) ⟨7, true, false, []⟩ false ⟨"call", [.star (.reg (.r32 .eax))]⟩ =
        .ok (some o') ∧
      CallAtEnd (fun _ => 0) (compute_sizes {} .classic) ⟨7, true, false, []⟩ o' code := by
  obtain ⟨o', code, hrun, hend, _⟩ := (calls_end_chunks (fun _ => 0) {} .classic).1 ⟨7, true, false, []⟩ false
    ⟨"call", [.star (.reg (.r32 .eax))]⟩ (.reg (.r32 .eax))
  exact ⟨o', code, hrun, hend⟩

end

end Pittsfield.Rewrite
