import Pittsfield.Rewrite.Lengths
import Pittsfield.Rewrite.StubText

/-!
# Chunks of rewritten code

The script counts the bytes of the current chunk with guessed lengths. As long as no guess
is too low, the count is never below the true offset in the chunk, no instruction straddles
the end of a chunk, labels are chunk starts, and a mask stands in the chunk of the instruction
that it is for. The count misses alignment directives that are not spelled `.p2align`.
-/

namespace Pittsfield.Rewrite

open Pittsfield.Region
open Pittsfield.Machine
open Pittsfield.Offline
open Pittsfield.Loader (Image)

section Script

variable (L : Layout) (threadsafe_return : Bool)

/-- `maybe_rewrite` on a return with `-threadsafe-return`. -/
def rewriteRetThreadsafe (o : Out) (i : Insn) : Out :=
  let o := o.emit ⟨"popl", [.reg (.r32 .ebx)]⟩ 1
  let o := if i.args = [] then o else
    (maybe_align_for L (o.emit ⟨"addl", i.args ++ [.reg (.r32 .esp)]⟩ 3) 6).emit (andData L .esp) 6
  ((maybe_align_for L o 9).emit (andJump L (.reg (.r32 .ebx))) 7).emit ⟨"jmp", [.star (.reg (.r32 .ebx))]⟩ 2

def rewriteTransferWith (o : Out) (i : Insn) : Except String (Option Out) :=
  if i.op = "ret" ∧ threadsafe_return = true then .ok (some (rewriteRetThreadsafe L o i))
  else rewriteTransfer L o i

/-- `maybe_rewrite` with or without `-threadsafe-return`. -/
def maybe_rewriteWith (o : Out) (precious_eflags : Bool) (i : Insn) : Except String (Option Out) :=
  match i.args with
  | [target] =>
    if target.inMemory && unaryStore i.op then
      .ok (if keepsOne i.op target then none else some (storeOne L o precious_eflags i.op target))
    else rewriteTransferWith L threadsafe_return o i
  | [source, target] =>
    if source.source && target.inMemory && !comparesOnly i.op then
      .ok (if keepsTwo i.op source target then none
        else some (storeTwo L o precious_eflags i.op source target))
    else if source.source && target.direct then .ok (some o)
    else if source.direct && target.isReg then .ok (some o)
    else rewriteTransferWith L threadsafe_return o i
  | _ => rewriteTransferWith L threadsafe_return o i

/-- An instruction line, with its entry of `@eflags_live_before`. -/
def visitInsnWith (o : Out) (live : Bool) (i : Insn) : Except String Out :=
  let o := note (remask L o i) i
  let precious_eflags := o.forward_eflags_live || live
  let o := maybe_align_for L o (insn_len i)
  (maybe_rewriteWith L threadsafe_return o precious_eflags i).map fun rewritten =>
    rewritten.getD (
      let o := maskAfter L (o.emit i (insn_len i)) precious_eflags i
      { o with forward_eflags_live := forwardAfter i o.forward_eflags_live })

/-- The body of the main loop. -/
def visitWith (o : Out) (live : Bool) : Line → Except String Out
  | .insn i => visitInsnWith L threadsafe_return o live i
  | l => visit L insn_len o live l

/-- Without the option it is the script of the other modules. -/
theorem visitWith_false (o : Out) (live : Bool) (l : Line) :
    visitWith L false o live l = visit L insn_len o live l := by
  have htransfer : ∀ o i, rewriteTransferWith L false o i = rewriteTransfer L o i := by
    intro o i
    rw [rewriteTransferWith, if_neg fun h => Bool.false_ne_true h.2]
  have hmaybe : ∀ o p i, maybe_rewriteWith L false o p i = maybe_rewrite L o p i := by
    intro o p i
    obtain ⟨op, args⟩ := i
    cases args with
    | nil => exact htransfer o _
    | cons a args =>
      cases args with
      | nil => simp only [maybe_rewriteWith, maybe_rewrite, htransfer]
      | cons b args =>
        cases args with
        | nil => simp only [maybe_rewriteWith, maybe_rewrite, htransfer]
        | cons c args => exact htransfer o _
  cases l with
  | insn i =>
    show visitInsnWith L false o live i = visitInsn L insn_len o live i
    simp only [visitInsnWith, visitInsn, hmaybe]
    apply congrArg (fun f => Except.map f _)
    funext rewritten
    cases rewritten <;> rfl
  | _ => rfl

/-- The states of the main loop on an input, with the lines that are left. -/
inductive Reach (input : List Line) : Out → List Line → Prop
  | start : Reach input {} input
  | step {o o' : Out} {l : Line} {ls : List Line} : Reach input o (l :: ls) →
      visitWith L threadsafe_return o (eflags_live_before (l :: ls)) l = .ok o' → Reach input o' ls

end Script

section Places

/-- The alignment that `.align` or `.balign` asks for. -/
def alignment (line : String) : Option Nat :=
  let cs := line.toList
  let ds := if "\t.align ".toList.isPrefixOf cs then cs.drop 8
    else if "\t.balign ".toList.isPrefixOf cs then cs.drop 9 else []
  if digits decimalDigit ds then some (ofDigits 10 decimalDigit ds) else none

variable (len : Insn → Nat) (chunk_size : Nat)

/-- Where the assembler stands behind an item, with the true lengths of instructions. -/
def advance (offset : Nat) : Item → Nat
  | .insn i => offset + len i
  | .nops bytes => offset + bytes
  | .align => offset + room chunk_size offset
  | .align2 => offset + room 4 offset
  | .label _ => offset
  | .text line => (alignment line).elim offset fun n => offset + room n offset

def endOf (offset : Nat) (items : List Item) : Nat := items.foldl (advance len chunk_size) offset

/-- No instruction straddles the end of a chunk, and labels are chunk starts. -/
def Placed (offset : Nat) : Item → Prop
  | .insn i => offset % chunk_size + len i ≤ chunk_size
  | .nops bytes => offset % chunk_size + bytes ≤ chunk_size
  | .label _ => chunk_size ∣ offset
  | _ => True

def AllPlaced : Nat → List Item → Prop
  | _, [] => True
  | offset, item :: items => Placed len chunk_size offset item ∧ AllPlaced (advance len chunk_size offset item) items

/-- A mask and an instruction that it is for: a store, a jump, a call or a return. -/
inductive Protects : Insn → Insn → Prop
  | storeTwo (mask : Word) (op : String) (source : Operand) :
    Protects (andMask mask (.reg (.r32 .ebx))) ⟨op, [source, atEbx]⟩
  | storeOne (mask : Word) (op : String) : Protects (andMask mask (.reg (.r32 .ebx))) ⟨op, [atEbx]⟩
  | jmp (mask : Word) : Protects (andMask mask (.reg (.r32 .ebx))) ⟨"jmp", [.star (.reg (.r32 .ebx))]⟩
  | call (mask : Word) : Protects (andMask mask (.reg (.r32 .ebx))) callEbx
  | ret (mask : Word) (args : List Operand) :
    Protects (andMask mask (.mem none (some .esp) none none)) ⟨"ret", args⟩

/-- A mask of `%ebx` or of `(%esp)`. -/
def Masks (i : Insn) : Prop :=
  ∃ mask, i = andMask mask (.reg (.r32 .ebx)) ∨ i = andMask mask (.mem none (some .esp) none none)

/-- How an output comes about: lines of the input, other items, and masks of `%ebx` and `(%esp)`, each in
front of what it is for, in one chunk and with at most a `popf` between. -/
inductive Written (input : List Line) : List Item → Prop
  | nil : Written input []
  | own {items : List Item} {i : Insn} :
    Written input items → .insn i ∈ input → Written input (items ++ [.insn i])
  | other {items : List Item} {item : Item} :
    Written input items → (∀ i, item = .insn i → ¬ Masks i) → Written input (items ++ [item])
  | masked {items : List Item} {mask target : Insn} {between : List Insn} :
    Written input items → Protects mask target → between = [] ∨ between = [popf] →
      endOf len chunk_size 0 items / chunk_size =
        endOf len chunk_size 0 (items ++ (mask :: between).map .insn) / chunk_size →
      Written input (items ++ (mask :: between ++ [target]).map .insn)

/-- The guesses that the script makes for a line. -/
inductive Passes (threadsafe_return : Bool) : Insn → Insn → Nat → Prop
  | line (i : Insn) : Passes threadsafe_return i i (insn_len i)
  | leaTwo {op : String} {source target : Operand} :
    (source.source && target.inMemory && !comparesOnly op) = true → keepsTwo op source target = false →
      Passes threadsafe_return ⟨op, [source, target]⟩ (leaEbx target) 7
  | storeTwo {op : String} {source target : Operand} :
    (source.source && target.inMemory && !comparesOnly op) = true → keepsTwo op source target = false →
      Passes threadsafe_return ⟨op, [source, target]⟩ ⟨op, [source, atEbx]⟩ 6
  | leaOne {op : String} {target : Operand} :
    (target.inMemory && unaryStore op) = true → keepsOne op target = false →
      Passes threadsafe_return ⟨op, [target]⟩ (leaEbx target) 6
  | storeOne {op : String} {target : Operand} :
    (target.inMemory && unaryStore op) = true → keepsOne op target = false →
      Passes threadsafe_return ⟨op, [target]⟩ ⟨op, [atEbx]⟩ 3
  | ret {args : List Operand} : threadsafe_return = false →
      Passes threadsafe_return ⟨"ret", args⟩ ⟨"ret", args⟩ (if args = [] then 1 else 3)
  | add {args : List Operand} : threadsafe_return = true → args ≠ [] →
      Passes threadsafe_return ⟨"ret", args⟩ ⟨"addl", args ++ [.reg (.r32 .esp)]⟩ 3
  | call {target : Operand} : Passes threadsafe_return ⟨"call", [.star target]⟩ (movEbx target) 6
  | jmp {target : Operand} : Passes threadsafe_return ⟨"jmp", [.star target]⟩ (movEbx target) 7

/-- The true length of an instruction that the script adds is that of its code. -/
def TrueLengths (displacement : String → Word) : Prop :=
  ∀ i code, encode displacement i = some code → len i = code.length

/-- No guess for a line of the input is too low. -/
def Estimated (threadsafe_return : Bool) (input : List Line) : Prop :=
  ∀ i, .insn i ∈ input → ∀ j n, Passes threadsafe_return i j n → len j ≤ n

variable (L : Layout)

/-- The count of the script covers what stands in the chunk, and all items stand where they should. -/
structure Counted (o : Out) : Prop where
  counted : endOf len L.chunk_size 0 o.printed % L.chunk_size ≤ o.this_chunk
  placed : AllPlaced len L.chunk_size 0 o.printed

/-- What holds of the output between two lines. -/
structure Packed (input : List Line) (o : Out) : Prop extends Counted len L o where
  masks : Written len L.chunk_size input o.printed

end Places

section Count

variable {len : Insn → Nat} {chunk_size : Nat} {L : Layout} {o : Out} {i : Insn} {items rest : List Item}
  {offset k n : Nat}

theorem endOf_append : endOf len chunk_size offset (items ++ rest) =
    endOf len chunk_size (endOf len chunk_size offset items) rest := List.foldl_append

theorem allPlaced_append : AllPlaced len chunk_size offset (items ++ rest) ↔
    AllPlaced len chunk_size offset items ∧ AllPlaced len chunk_size (endOf len chunk_size offset items) rest := by
  induction items generalizing offset with
  | nil => exact (and_iff_right trivial).symm
  | cons item items ih =>
    rw [List.cons_append, AllPlaced, AllPlaced, ih, and_assoc]
    rfl

/-- Behind the room there is the start of a chunk. -/
theorem room_aligns (hpos : 0 < n) : n ∣ k + room n k := by
  rw [room]
  by_cases hzero : k % n = 0
  · rw [hzero, Nat.sub_zero, Nat.mod_self, Nat.add_zero]
    exact Nat.dvd_of_mod_eq_zero hzero
  · have hlt := Nat.mod_lt k hpos
    rw [Nat.mod_eq_of_lt (by omega)]
    refine ⟨k / n + 1, ?_⟩
    have hdiv := Nat.div_add_mod k n
    rw [Nat.mul_add, Nat.mul_one]
    omega

theorem room_le (hpos : 0 < n) : room n k ≤ n - 1 := by
  have hlt := Nat.mod_lt (n - k % n) hpos
  rw [room]
  omega

/-- One more item that stands where it should. -/
theorem Counted.item (h : Counted len L o) {o' : Out} {item : Item} (hprinted : o'.printed = o.printed ++ [item])
    (hplaced : Placed len L.chunk_size (endOf len L.chunk_size 0 o.printed) item)
    (hcount : advance len L.chunk_size (endOf len L.chunk_size 0 o.printed) item % L.chunk_size ≤ o'.this_chunk) :
    Counted len L o' := by
  constructor
  · rw [hprinted, endOf_append]
    exact hcount
  · rw [hprinted, allPlaced_append]
    exact ⟨h.placed, hplaced, trivial⟩

theorem Counted.align (h : Counted len L o) : Counted len L o.align := by
  refine h.item rfl trivial ?_
  exact Nat.le_of_eq (Nat.mod_eq_zero_of_dvd (room_aligns L.chunk_pos))

theorem Counted.maybe_align_for (h : Counted len L o) (n : Nat) : Counted len L (maybe_align_for L o n) := by
  rw [Rewrite.maybe_align_for]
  split
  · exact h.align
  · exact h

/-- Behind `maybe_align_for` there is room for as many bytes. -/
theorem maybe_align_for_room (hn : n ≤ L.chunk_size) : (maybe_align_for L o n).this_chunk + n ≤ L.chunk_size := by
  rw [maybe_align_for]
  split
  · show 0 + n ≤ _
    omega
  · rename_i hroom
    omega

/-- An instruction that fits into the chunk by the count, and whose length is not guessed too low. -/
theorem Counted.emit (h : Counted len L o) (hlen : len i ≤ n) (hroom : o.this_chunk + n ≤ L.chunk_size) :
    Counted len L (o.emit i n) := by
  have hcount := h.counted
  refine h.item rfl ?_ ?_
  · show _ % _ + len i ≤ _
    omega
  · show (_ + len i) % L.chunk_size ≤ o.this_chunk + n
    have hmod := Nat.mod_le (endOf len L.chunk_size 0 o.printed % L.chunk_size + len i) L.chunk_size
    rw [Nat.mod_add_mod] at hmod
    omega

theorem Counted.a_emit (h : Counted len L o) (hlen : len i ≤ n) (hn : n ≤ L.chunk_size) :
    Counted len L (a_emit L o i n) :=
  (h.maybe_align_for n).emit hlen (maybe_align_for_room hn)

/-- The marks of the script have no part in the places. -/
theorem Counted.marks (h : Counted len L o) {o' : Out} (hprinted : o'.printed = o.printed)
    (hcount : o'.this_chunk = o.this_chunk) : Counted len L o' := by
  constructor
  · rw [hprinted, hcount]
    exact h.counted
  · rw [hprinted]
    exact h.placed

theorem same_chunk {e c : Nat} (h : e % c + k < c) : e / c = (e + k) / c := by
  have hdiv := Nat.div_add_mod e c
  have hsum : e + k = c * (e / c) + (e % c + k) := by omega
  rw [hsum, Nat.mul_add_div (by omega), Nat.div_eq_of_lt h, Nat.add_zero]

end Count

section Masking

variable {len : Insn → Nat} {displacement : String → Word} {L : Layout} {input : List Line} {o : Out}
  {i mask target : Insn} {k n : Nat}

theorem not_masks (h : i.op ≠ "andl") : ¬ Masks i := by
  rintro ⟨mask, rfl | rfl⟩
  · exact h rfl
  · exact h rfl

theorem not_masks_andData {r : Reg32} (h : r ≠ .ebx) : ¬ Masks (andData L r) := by
  rintro ⟨mask, heq | heq⟩
  · have hargs := (Insn.mk.inj heq).2
    have hreg := (List.cons.inj (List.cons.inj hargs).2).1
    exact h (Reg.r32.inj (Operand.reg.inj hreg))
  · have hargs := (Insn.mk.inj heq).2
    cases (List.cons.inj (List.cons.inj hargs).2).1

theorem not_masks_leaEbx (target : Operand) : ¬ Masks (leaEbx target) :=
  not_masks (by show "leal" ≠ "andl"; decide)

theorem not_masks_movEbx (target : Operand) : ¬ Masks (movEbx target) :=
  not_masks (by show "movl" ≠ "andl"; decide)

theorem Packed.align (h : Packed len L input o) : Packed len L input o.align :=
  ⟨h.toCounted.align, h.masks.other fun _ heq => nomatch heq⟩

theorem Packed.maybe_align_for (h : Packed len L input o) (n : Nat) :
    Packed len L input (maybe_align_for L o n) := by
  rw [Rewrite.maybe_align_for]
  split
  · exact h.align
  · exact h

/-- An instruction that is no mask in question. -/
theorem Packed.emit (h : Packed len L input o) (hi : ¬ Masks i) (hlen : len i ≤ n)
    (hroom : o.this_chunk + n ≤ L.chunk_size) : Packed len L input (o.emit i n) := by
  refine ⟨h.toCounted.emit hlen hroom, h.masks.other ?_⟩
  intro j heq
  rw [← Item.insn.inj heq]
  exact hi

theorem Packed.a_emit (h : Packed len L input o) (hi : ¬ Masks i) (hlen : len i ≤ n) (hn : n ≤ L.chunk_size) :
    Packed len L input (a_emit L o i n) :=
  (h.maybe_align_for n).emit hi hlen (maybe_align_for_room hn)

theorem Packed.marks (h : Packed len L input o) {o' : Out} (hprinted : o'.printed = o.printed)
    (hcount : o'.this_chunk = o.this_chunk) : Packed len L input o' := by
  refine ⟨h.toCounted.marks hprinted hcount, ?_⟩
  rw [hprinted]
  exact h.masks

/-- A mask and the instruction it is for. -/
theorem Packed.masked (h : Packed len L input o) (hpair : Protects mask target) (hmask : len mask ≤ k)
    (htarget : len target ≤ n) (hpos : 0 < n) (hroom : o.this_chunk + k + n ≤ L.chunk_size) :
    Packed len L input ((o.emit mask k).emit target n) := by
  have hcount := h.counted
  have hfirst := h.toCounted.emit hmask (by omega)
  refine ⟨hfirst.emit htarget (by show o.this_chunk + k + n ≤ _; omega), ?_⟩
  have hprinted : ((o.emit mask k).emit target n).printed =
      o.printed ++ (mask :: [] ++ [target]).map .insn := List.append_assoc _ [_] [_]
  rw [hprinted]
  refine h.masks.masked hpair (Or.inl rfl) ?_
  rw [endOf_append]
  exact same_chunk (by omega)

/-- With the flags popped between the two. -/
theorem Packed.masked_popf (h : Packed len L input o) (hpair : Protects mask target) (hmask : len mask ≤ k)
    (hpopf : len popf ≤ 1) (htarget : len target ≤ n) (hpos : 0 < n)
    (hroom : o.this_chunk + k + 1 + n ≤ L.chunk_size) :
    Packed len L input (((o.emit mask k).emit popf 1).emit target n) := by
  have hcount := h.counted
  have hfirst := h.toCounted.emit hmask (by omega)
  have hsecond := hfirst.emit hpopf (by show o.this_chunk + k + 1 ≤ _; omega)
  refine ⟨hsecond.emit htarget (by show o.this_chunk + k + 1 + n ≤ _; omega), ?_⟩
  have hprinted : (((o.emit mask k).emit popf 1).emit target n).printed =
      o.printed ++ (mask :: [popf] ++ [target]).map .insn := by
    show o.printed ++ [_] ++ [_] ++ [_] = _
    simp only [List.append_assoc]
    rfl
  rw [hprinted]
  refine h.masks.masked hpair (Or.inr rfl) ?_
  rw [endOf_append]
  show _ = (_ + len mask + len popf) / _
  rw [Nat.add_assoc]
  exact same_chunk (by omega)

/-- A line of the input that is printed as it is. -/
theorem Packed.own (h : Packed len L input o) (hi : .insn i ∈ input) (hlen : len i ≤ n)
    (hroom : o.this_chunk + n ≤ L.chunk_size) : Packed len L input (o.emit i n) :=
  ⟨h.toCounted.emit hlen hroom, h.masks.own hi⟩

end Masking

section Lines

variable {len : Insn → Nat} {displacement : String → Word} {g : Settings} {sz : Size} {input : List Line}
  {o : Out} {i : Insn} {threadsafe_return p : Bool}

theorem length_pushf (hlen : TrueLengths len displacement) : len pushf ≤ 1 :=
  Nat.le_of_eq (hlen pushf [0x9c] rfl)

theorem length_popf (hlen : TrueLengths len displacement) : len popf ≤ 1 :=
  Nat.le_of_eq (hlen popf [0x9d] rfl)

theorem length_andData (hlen : TrueLengths len displacement) {r : Reg32} (hr : r ≠ .eax) :
    len (andData (compute_sizes g sz) r) = 6 :=
  hlen _ _ (encode_andMask_reg (masks_wide g sz).1 hr displacement)

theorem length_andJump (hlen : TrueLengths len displacement) :
    len (andJump (compute_sizes g sz) (.reg (.r32 .ebx))) = 6 :=
  hlen _ _ (encode_andMask_reg (masks_wide g sz).2 (by decide) displacement)

theorem length_andTop (hlen : TrueLengths len displacement) :
    len (andJump (compute_sizes g sz) (.mem none (some .esp) none none)) = 7 :=
  hlen _ _ (encode_andMask_top (masks_wide g sz).2 displacement)

/-- The mask of `%esp` or `%ebp`. -/
theorem Packed.maskPointer (hlen : TrueLengths len displacement) (h : Packed len (compute_sizes g sz) input o)
    {r : Reg32} (hr : r = .esp ∨ r = .ebp) : Packed len (compute_sizes g sz) input
      ((Rewrite.maybe_align_for (compute_sizes g sz) o 6).emit (andData (compute_sizes g sz) r) 6) := by
  have hchunk := chunk_ge g sz
  have hne : r ≠ .ebx ∧ r ≠ .eax := by
    rcases hr with rfl | rfl <;> decide
  exact (h.maybe_align_for 6).emit (not_masks_andData hne.1) (Nat.le_of_eq (length_andData hlen hne.2))
    (maybe_align_for_room (by omega))

/-- The flags pushed before a store. -/
theorem Packed.pushed (hlen : TrueLengths len displacement) (h : Packed len (compute_sizes g sz) input o) :
    Packed len (compute_sizes g sz) input
      (if p then Rewrite.a_emit (compute_sizes g sz) o pushf 1 else o) := by
  have hchunk := chunk_ge g sz
  split
  · exact h.a_emit (not_masks (by decide)) (length_pushf hlen) (by omega)
  · exact h

theorem Packed.storeTwo (hlen : TrueLengths len displacement) (h : Packed len (compute_sizes g sz) input o)
    {op : String} {source target : Operand} (hlea : len (leaEbx target) ≤ 7)
    (hstore : len ⟨op, [source, atEbx]⟩ ≤ 6) :
    Packed len (compute_sizes g sz) input (storeTwo (compute_sizes g sz) o p op source target) := by
  have hchunk := chunk_ge g sz
  have hmask : len (andData (compute_sizes g sz) .ebx) ≤ 6 := Nat.le_of_eq (length_andData hlen (by decide))
  have hready := (h.pushed (p := p) hlen).a_emit (not_masks_leaEbx target) hlea (by omega)
  have hp : p.toNat ≤ 1 := Bool.toNat_le p
  have hroom := maybe_align_for_room (L := compute_sizes g sz) (n := 6 + p.toNat + 6)
    (o := Rewrite.a_emit (compute_sizes g sz) (if p then Rewrite.a_emit (compute_sizes g sz) o pushf 1 else o)
      (leaEbx target) 7) (by omega)
  have hpair := (hready.maybe_align_for (6 + p.toNat + 6)).masked
    (.storeTwo (compute_sizes g sz).data_mask op source) hmask hstore (by decide) (by omega)
  rw [Rewrite.storeTwo]
  cases p with
  | false => exact hpair
  | true =>
    refine hpair.emit (not_masks (by decide)) (length_popf hlen) ?_
    show _ + 6 + 6 + 1 ≤ _
    have hone : (true : Bool).toNat = 1 := rfl
    omega

theorem Packed.storeOne (hlen : TrueLengths len displacement) (h : Packed len (compute_sizes g sz) input o)
    {op : String} {target : Operand} (hlea : len (leaEbx target) ≤ 6) (hstore : len ⟨op, [atEbx]⟩ ≤ 3) :
    Packed len (compute_sizes g sz) input (storeOne (compute_sizes g sz) o p op target) := by
  have hchunk := chunk_ge g sz
  have hmask : len (andData (compute_sizes g sz) .ebx) ≤ 6 := Nat.le_of_eq (length_andData hlen (by decide))
  have hready := (h.pushed (p := p) hlen).a_emit (not_masks_leaEbx target) hlea (by omega)
  have hp : p.toNat ≤ 1 := Bool.toNat_le p
  have hroom := maybe_align_for_room (L := compute_sizes g sz) (n := 6 + p.toNat + 3)
    (o := Rewrite.a_emit (compute_sizes g sz) (if p then Rewrite.a_emit (compute_sizes g sz) o pushf 1 else o)
      (leaEbx target) 6) (by omega)
  have hplaced := hready.maybe_align_for (6 + p.toNat + 3)
  have hpairing := Protects.storeOne (compute_sizes g sz).data_mask op
  rw [Rewrite.storeOne]
  cases p with
  | false => exact hplaced.masked hpairing hmask hstore (by decide) (by omega)
  | true =>
    have hone : (true : Bool).toNat = 1 := rfl
    by_cases hset : isSet op = true
    · simp only [hset, Bool.true_and, Bool.not_true, Bool.and_false, if_true, Bool.false_eq_true, if_false]
      exact hplaced.masked_popf hpairing hmask (length_popf hlen) hstore (by decide) (by omega)
    · simp only [hset, Bool.true_and, Bool.not_false, Bool.and_false, if_true, Bool.false_eq_true, if_false]
      refine (hplaced.masked hpairing hmask hstore (by decide) (by omega)).emit (not_masks (by decide))
        (length_popf hlen) ?_
      show _ + 6 + 3 + 1 ≤ _
      omega

theorem Packed.rewriteRet (hlen : TrueLengths len displacement) (h : Packed len (compute_sizes g sz) input o)
    {args : List Operand} (hret : len ⟨"ret", args⟩ ≤ if args = [] then 1 else 3) :
    Packed len (compute_sizes g sz) input (rewriteRet (compute_sizes g sz) o ⟨"ret", args⟩) := by
  have hchunk := chunk_ge g sz
  have hmarks : Packed len (compute_sizes g sz) input { o with dirty_esp := false } := h.marks rfl rfl
  have hsmall : 0 < (if args = [] then 1 else 3) ∧ (if args = [] then 1 else 3) ≤ 3 := by
    split <;> decide
  have hroom := maybe_align_for_room (L := compute_sizes g sz) (o := { o with dirty_esp := false })
    (n := 7 + if args = [] then 1 else 3) (by omega)
  have hplaced := hmarks.maybe_align_for (7 + if args = [] then 1 else 3)
  refine hplaced.masked (.ret _ args) (Nat.le_of_eq (length_andTop hlen)) hret hsmall.1 ?_
  show _ + 7 + (if args = [] then 1 else 3) ≤ _
  omega

theorem Packed.placeJump (hlen : TrueLengths len displacement) (h : Packed len (compute_sizes g sz) input o) :
    Packed len (compute_sizes g sz) input (placeJump (compute_sizes g sz) o) := by
  have hchunk := chunk_ge g sz
  have hroom := maybe_align_for_room (L := compute_sizes g sz) (o := o) (n := 8) (by omega)
  have hjmp : len ⟨"jmp", [.star (.reg (.r32 .ebx))]⟩ ≤ 2 := Nat.le_of_eq (hlen _ [0xff, 0xe3] rfl)
  exact (h.maybe_align_for 8).masked (.jmp _) (Nat.le_of_eq (length_andJump hlen)) hjmp (by decide) (by omega)

theorem Packed.rewriteRetThreadsafe (hlen : TrueLengths len displacement)
    (h : Packed len (compute_sizes g sz) input o) {args : List Operand}
    (hadd : args ≠ [] → len ⟨"addl", args ++ [.reg (.r32 .esp)]⟩ ≤ 3)
    (hroom : o.this_chunk + (if args = [] then 1 else 4) ≤ (compute_sizes g sz).chunk_size) :
    Packed len (compute_sizes g sz) input (rewriteRetThreadsafe (compute_sizes g sz) o ⟨"ret", args⟩) := by
  have hchunk := chunk_ge g sz
  have hpop : len ⟨"popl", [.reg (.r32 .ebx)]⟩ ≤ 1 := Nat.le_of_eq (hlen _ [0x5b] rfl)
  have hjmp : len ⟨"jmp", [.star (.reg (.r32 .ebx))]⟩ ≤ 2 := Nat.le_of_eq (hlen _ [0xff, 0xe3] rfl)
  have hmask : len (andJump (compute_sizes g sz) (.reg (.r32 .ebx))) ≤ 7 := by
    rw [length_andJump hlen]
    decide
  have hend : ∀ {o}, Packed len (compute_sizes g sz) input o → Packed len (compute_sizes g sz) input
      (((Rewrite.maybe_align_for (compute_sizes g sz) o 9).emit
        (andJump (compute_sizes g sz) (.reg (.r32 .ebx))) 7).emit ⟨"jmp", [.star (.reg (.r32 .ebx))]⟩ 2) := by
    intro o ho
    have hroom := maybe_align_for_room (L := compute_sizes g sz) (o := o) (n := 9) (by omega)
    exact (ho.maybe_align_for 9).masked (.jmp _) hmask hjmp (by decide) (by omega)
  have hpopped : Packed len (compute_sizes g sz) input (o.emit ⟨"popl", [.reg (.r32 .ebx)]⟩ 1) := by
    refine h.emit (not_masks (by show "popl" ≠ "andl"; decide)) hpop ?_
    split at hroom <;> omega
  rw [Rewrite.rewriteRetThreadsafe]
  apply hend
  by_cases hargs : args = []
  · rw [if_pos hargs]
    exact hpopped
  · rw [if_neg hargs] at hroom
    rw [if_neg hargs]
    refine Packed.maskPointer hlen ?_ (Or.inl rfl)
    refine hpopped.emit (not_masks (by show "addl" ≠ "andl"; decide)) (hadd hargs) ?_
    show o.this_chunk + 1 + 3 ≤ _
    omega

/-- The length of an item that is code. -/
def codeLength (len : Insn → Nat) : Item → Nat
  | .insn i => len i
  | .nops bytes => bytes
  | _ => 0

/-- Code for which there is room from an offset on. -/
theorem code_placed {items : List Item} {chunk_size offset : Nat}
    (hcode : ∀ item ∈ items, (∃ i, item = .insn i) ∨ ∃ bytes, item = .nops bytes)
    (hroom : offset % chunk_size + (items.map (codeLength len)).sum ≤ chunk_size) :
    AllPlaced len chunk_size offset items ∧
      endOf len chunk_size offset items = offset + (items.map (codeLength len)).sum := by
  induction items generalizing offset with
  | nil => exact ⟨trivial, rfl⟩
  | cons item items ih =>
    rw [List.map_cons, List.sum_cons] at hroom ⊢
    have hitem : Placed len chunk_size offset item ∧
        advance len chunk_size offset item = offset + codeLength len item := by
      rcases hcode item List.mem_cons_self with ⟨i, rfl⟩ | ⟨bytes, rfl⟩
      · exact ⟨by show _ + len i ≤ _; simp only [codeLength] at hroom; omega, rfl⟩
      · exact ⟨by show _ + bytes ≤ _; simp only [codeLength] at hroom; omega, rfl⟩
    have hmod := Nat.mod_le (offset % chunk_size + codeLength len item) chunk_size
    rw [Nat.mod_add_mod] at hmod
    obtain ⟨hplaced, hend⟩ := @ih (offset + codeLength len item)
      (fun item hmem => hcode item (List.mem_cons_of_mem _ hmem)) (by omega)
    rw [AllPlaced, hitem.2]
    refine ⟨⟨hitem.1, hplaced⟩, ?_⟩
    show endOf len chunk_size (advance len chunk_size offset item) items = _
    rw [hitem.2, hend, Nat.add_assoc]

variable (len) in
theorem padItems_code (bytes : Nat) :
    (∀ item ∈ padItems bytes, (∃ i, item = .insn i) ∨ ∃ n, item = .nops n) ∧
      ((padItems bytes).map (codeLength len)).sum = bytes := by
  refine ⟨fun item hmem => Or.inr ⟨bytes, mem_padItems hmem⟩, ?_⟩
  rw [padItems]
  by_cases hzero : bytes = 0
  · rw [if_pos hzero, hzero]
    rfl
  · rw [if_neg hzero]
    exact Nat.add_zero bytes

variable (g sz) in
theorem espMask_placed (hlen : TrueLengths len displacement) (dirty_esp : Bool) :
    (∀ item ∈ espMask (compute_sizes g sz) dirty_esp, item = .insn (andData (compute_sizes g sz) .esp)) ∧
      ((espMask (compute_sizes g sz) dirty_esp).map (codeLength len)).sum = if dirty_esp then 6 else 0 := by
  cases dirty_esp with
  | true => exact ⟨fun item hmem => List.mem_singleton.mp hmem, length_andData hlen (by decide)⟩
  | false => exact ⟨fun _ hmem => absurd hmem List.not_mem_nil, rfl⟩

theorem Written.others {chunk_size : Nat} {items rest : List Item} (h : Written len chunk_size input items)
    (hrest : ∀ item ∈ rest, ∀ i, item = .insn i → ¬ Masks i) : Written len chunk_size input (items ++ rest) := by
  induction rest generalizing items with
  | nil =>
    rw [List.append_nil]
    exact h
  | cons item rest ih =>
    have hnext := ih (h.other (hrest item List.mem_cons_self)) fun item hmem =>
      hrest item (List.mem_cons_of_mem _ hmem)
    rwa [List.append_assoc] at hnext

/-- A call fills the chunk that begins at its alignment directive. -/
theorem Packed.placeCall (hlen : TrueLengths len displacement) (h : Packed len (compute_sizes g sz) input o)
    {real_call : List Insn} {call_len : Nat} (hfit : call_len ≤ 10) (htotal : (real_call.map len).sum = call_len)
    (hmasks : ∀ items, Written len (compute_sizes g sz).chunk_size input items →
      endOf len (compute_sizes g sz).chunk_size 0 items % (compute_sizes g sz).chunk_size + call_len ≤
        (compute_sizes g sz).chunk_size →
      Written len (compute_sizes g sz).chunk_size input (items ++ real_call.map .insn)) :
    Packed len (compute_sizes g sz) input (placeCall (compute_sizes g sz) o real_call call_len) := by
  have hchunk := chunk_ge g sz
  have hfits : call_len + 6 ≤ (compute_sizes g sz).chunk_size := by omega
  have hprinted := @placeCall_printed (compute_sizes g sz) o real_call call_len hfits
  have hcount : (Rewrite.placeCall (compute_sizes g sz) o real_call call_len).this_chunk = 0 := rfl
  obtain ⟨hmask, hmasklen⟩ := espMask_placed g sz hlen o.dirty_esp
  have hm : (if o.dirty_esp then 6 else 0) ≤ 6 := by
    split <;> decide
  generalize hpad : (compute_sizes g sz).chunk_size - (if o.dirty_esp then 6 else 0) - call_len = bytes at hprinted
  obtain ⟨hpadcode, hpadlen⟩ := padItems_code len bytes
  have hfront : ((padItems bytes ++ espMask (compute_sizes g sz) o.dirty_esp).map (codeLength len)).sum =
      (compute_sizes g sz).chunk_size - call_len := by
    rw [List.map_append, List.sum_append, hpadlen, hmasklen]
    omega
  have hreal : ((real_call.map Item.insn).map (codeLength len)).sum = call_len := by
    rw [List.map_map]
    exact htotal
  have haligned : (compute_sizes g sz).chunk_size ∣
      endOf len (compute_sizes g sz).chunk_size 0 (o.printed ++ [.align]) := by
    rw [endOf_append]
    exact room_aligns (compute_sizes g sz).chunk_pos
  have hzero := Nat.mod_eq_zero_of_dvd haligned
  have hcode : ∀ item ∈ padItems bytes ++ espMask (compute_sizes g sz) o.dirty_esp,
      (∃ i, item = .insn i) ∨ ∃ n, item = .nops n := by
    intro item hmem
    rcases List.mem_append.mp hmem with hmem | hmem
    · exact hpadcode item hmem
    · exact Or.inl ⟨_, hmask item hmem⟩
  have hall : ∀ item ∈ padItems bytes ++ espMask (compute_sizes g sz) o.dirty_esp ++ real_call.map .insn,
      (∃ i, item = .insn i) ∨ ∃ n, item = .nops n := by
    intro item hmem
    rcases List.mem_append.mp hmem with hmem | hmem
    · exact hcode item hmem
    · obtain ⟨i, _, rfl⟩ := List.mem_map.mp hmem
      exact Or.inl ⟨i, rfl⟩
  have hsum : ((padItems bytes ++ espMask (compute_sizes g sz) o.dirty_esp ++ real_call.map Item.insn).map
      (codeLength len)).sum = (compute_sizes g sz).chunk_size := by
    rw [List.map_append, List.sum_append, hfront, hreal]
    omega
  obtain ⟨hplaced, hend⟩ := code_placed hall (by rw [hsum, hzero]; omega)
  obtain ⟨-, hfrontend⟩ := code_placed hcode (by rw [hfront, hzero]; omega)
  have hsplit : (Rewrite.placeCall (compute_sizes g sz) o real_call call_len).printed = o.printed ++ [.align] ++
      (padItems bytes ++ espMask (compute_sizes g sz) o.dirty_esp ++ real_call.map .insn) := by
    rw [hprinted]
    exact List.append_cons _ _ _
  refine ⟨⟨?_, ?_⟩, ?_⟩
  · -- the chunk is full
    rw [hcount, hsplit, endOf_append, hend, hsum]
    exact Nat.le_of_eq (Nat.mod_eq_zero_of_dvd (Nat.dvd_add haligned (Nat.dvd_refl _)))
  · rw [hsplit, allPlaced_append]
    exact ⟨h.toCounted.align.placed, hplaced⟩
  · rw [hsplit, ← List.append_assoc]
    refine hmasks _ (h.align.masks.others ?_) ?_
    · intro item hmem
      rcases List.mem_append.mp hmem with hmem | hmem
      · rw [mem_padItems hmem]
        exact fun i heq => nomatch heq
      · rw [hmask item hmem]
        intro i heq
        rw [← Item.insn.inj heq]
        exact not_masks_andData (by decide)
    · rw [endOf_append, hfrontend, hfront, Nat.add_mod, hzero, Nat.zero_add, Nat.mod_mod]
      have hle := Nat.mod_le ((compute_sizes g sz).chunk_size - call_len) (compute_sizes g sz).chunk_size
      omega

/-- The call lines: by name, or through a register, a memory operand or a symbol. -/
theorem Packed.rewriteCall (hlen : TrueLengths len displacement) (h : Packed len (compute_sizes g sz) input o)
    {args : List Operand} (hmov : ∀ target, args = [.star target] → len (movEbx target) ≤ 6) {o' : Out}
    (hrun : rewriteCall (compute_sizes g sz) o ⟨"call", args⟩ = .ok o') :
    Packed len (compute_sizes g sz) input o' := by
  have hchunk := chunk_ge g sz
  have hebx : len callEbx = 2 := hlen _ [0xff, 0xd3] rfl
  have hindirect : ∀ {o target}, Packed len (compute_sizes g sz) input o → len (movEbx target) ≤ 6 →
      Packed len (compute_sizes g sz) input (Rewrite.placeCall (compute_sizes g sz)
        (Rewrite.a_emit (compute_sizes g sz) o (movEbx target) 6)
        [andJump (compute_sizes g sz) (.reg (.r32 .ebx)), callEbx] 8) := by
    intro o target ho hmov
    refine (ho.a_emit (not_masks_movEbx target) hmov (by omega)).placeCall hlen (by decide) ?_ ?_
    · show len (andJump (compute_sizes g sz) (.reg (.r32 .ebx))) + (len callEbx + 0) = 8
      rw [length_andJump hlen, hebx]
    · intro items hitems hroom
      refine hitems.masked (.call _) (Or.inl rfl) ?_
      rw [endOf_append]
      show _ = (_ + len (andJump (compute_sizes g sz) (.reg (.r32 .ebx)))) / _
      rw [length_andJump hlen]
      exact same_chunk (by omega)
  rw [Rewrite.rewriteCall] at hrun
  split at hrun
  · rename_i name hargs
    have hdirect : args = [.const name] := hargs
    rw [hdirect] at hrun
    by_cases hname : plainName name.val.toList = true
    · rw [if_pos hname] at hrun
      rw [← Except.ok.inj hrun]
      have hcall : len ⟨"call", [.const name]⟩ = 5 :=
        hlen _ (0xe8 :: Loader.codedBytes (displacement name.val)) rfl
      refine h.placeCall hlen (by decide) ?_ ?_
      · show len ⟨"call", [.const name]⟩ + 0 = 5
        rw [hcall]
      · intro items hitems _
        refine hitems.other ?_
        intro j heq
        rw [← Item.insn.inj heq]
        exact not_masks (by show "call" ≠ "andl"; decide)
    · rw [if_neg hname] at hrun
      cases hrun
  · rename_i r hargs
    rw [← Except.ok.inj hrun]
    exact hindirect h (hmov _ hargs)
  · rename_i offset base index scale hargs
    rw [← Except.ok.inj hrun]
    exact hindirect h (hmov _ hargs)
  · rename_i value hargs
    rw [← Except.ok.inj hrun]
    exact hindirect h (hmov _ hargs)
  · cases hrun

theorem Packed.rewriteJmp (hlen : TrueLengths len displacement) (h : Packed len (compute_sizes g sz) input o)
    {args : List Operand} (hmov : ∀ target, args = [.star target] → len (movEbx target) ≤ 7) {o' : Out}
    (hrun : rewriteJmp (compute_sizes g sz) o ⟨"jmp", args⟩ = some o') :
    Packed len (compute_sizes g sz) input o' := by
  have hchunk := chunk_ge g sz
  have hjump : ∀ {target}, len (movEbx target) ≤ 7 → Packed len (compute_sizes g sz) input
      (Rewrite.placeJump (compute_sizes g sz) (Rewrite.a_emit (compute_sizes g sz) o (movEbx target) 7)) :=
    fun hmov => (h.a_emit (not_masks_movEbx _) hmov (by omega)).placeJump hlen
  rw [Rewrite.rewriteJmp] at hrun
  split at hrun
  · rename_i offset base index scale hargs
    rw [← Option.some.inj hrun]
    exact hjump (hmov _ hargs)
  · rename_i r hargs
    rw [← Option.some.inj hrun]
    exact hjump (hmov _ hargs)
  · cases hrun

/-- The guesses are between 1 and 11. -/
theorem insn_len_bounds (i : Insn) : 1 ≤ insn_len i ∧ insn_len i ≤ 11 := by
  have hrules : ∀ r ∈ rules, 1 ≤ r.len ∧ r.len ≤ 11 := by decide +kernel
  rw [insn_len]
  cases hfind : rules.find? (·.pattern i) with
  | none => exact ⟨by decide, by decide⟩
  | some r => exact hrules r (List.mem_of_find?_eq_some hfind)

/-- A return with an operand is guessed to be longer than what `-threadsafe-return` prints first. -/
theorem insn_len_ret {args : List Operand} (h : args ≠ []) : 4 ≤ insn_len ⟨"ret", args⟩ := by
  have hshort : rules.filter (fun r => r.ops "ret" && decide (r.len < 4)) =
      [⟨oneOf ["leave", "ret", "cltd", "nop", "sahf", "cwtl"], operands0, 1⟩] := rfl
  rw [insn_len]
  cases hfind : rules.find? (·.pattern ⟨"ret", args⟩) with
  | none => show 4 ≤ 8; decide
  | some r =>
    have hpattern := List.find?_some hfind
    obtain ⟨hop, hargs⟩ := Bool.and_eq_true_iff.mp hpattern
    by_contra hlen
    have hmem : r ∈ rules.filter fun r => r.ops "ret" && decide (r.len < 4) := by
      rw [List.mem_filter, Bool.and_eq_true, decide_eq_true_eq]
      exact ⟨List.mem_of_find?_eq_some hfind, hop, Nat.lt_of_not_le hlen⟩
    rw [hshort, List.mem_singleton] at hmem
    rw [hmem] at hargs
    exact h (of_decide_eq_true hargs)

/-- What the script prints for an instruction that it rewrites. -/
theorem Packed.rewritten (hlen : TrueLengths len displacement) (h : Packed len (compute_sizes g sz) input o)
    (hest : ∀ j n, Passes threadsafe_return i j n → len j ≤ n)
    (hroom : o.this_chunk + insn_len i ≤ (compute_sizes g sz).chunk_size) {o' : Out}
    (hrun : maybe_rewriteWith (compute_sizes g sz) threadsafe_return o p i = .ok (some o')) :
    Packed len (compute_sizes g sz) input o' := by
  obtain ⟨op, args⟩ := i
  have htransfer : rewriteTransferWith (compute_sizes g sz) threadsafe_return o ⟨op, args⟩ = .ok (some o') →
      Packed len (compute_sizes g sz) input o' := by
    intro hrun
    rw [rewriteTransferWith] at hrun
    by_cases hsafe : op = "ret" ∧ threadsafe_return = true
    · obtain ⟨rfl, hoption⟩ := hsafe
      rw [if_pos ⟨rfl, hoption⟩] at hrun
      rw [← Option.some.inj (Except.ok.inj hrun)]
      refine h.rewriteRetThreadsafe hlen (fun hargs => hest _ _ (.add hoption hargs)) ?_
      by_cases hargs : args = []
      · have hone := (insn_len_bounds ⟨"ret", args⟩).1
        rw [if_pos hargs]
        omega
      · have hfour := insn_len_ret hargs
        rw [if_neg hargs]
        omega
    · rw [if_neg hsafe, rewriteTransfer] at hrun
      by_cases hret : op = "ret"
      · have hoption : threadsafe_return = false := by
          cases threadsafe_return with
          | false => rfl
          | true => exact absurd ⟨hret, rfl⟩ hsafe
        subst hret
        rw [if_pos rfl] at hrun
        rw [← Option.some.inj (Except.ok.inj hrun)]
        exact h.rewriteRet hlen (hest _ _ (.ret hoption))
      rw [if_neg hret] at hrun
      by_cases hcall : op = "call"
      · subst hcall
        rw [if_pos rfl] at hrun
        cases hcalled : Rewrite.rewriteCall (compute_sizes g sz) o ⟨"call", args⟩ with
        | error message =>
          rw [hcalled] at hrun
          cases hrun
        | ok called =>
          rw [hcalled] at hrun
          rw [← Option.some.inj (Except.ok.inj hrun)]
          refine h.rewriteCall hlen ?_ hcalled
          intro target hargs
          subst hargs
          exact hest _ _ .call
      rw [if_neg hcall] at hrun
      by_cases hjmp : op = "jmp"
      · subst hjmp
        rw [if_pos rfl] at hrun
        refine h.rewriteJmp hlen ?_ (Except.ok.inj hrun)
        intro target hargs
        subst hargs
        exact hest _ _ .jmp
      · rw [if_neg hjmp] at hrun
        cases hrun
  rw [maybe_rewriteWith] at hrun
  split at hrun
  · rename_i target hargs
    have hone : args = [target] := hargs
    subst hone
    by_cases hstore : (target.inMemory && unaryStore op) = true
    · rw [if_pos hstore] at hrun
      by_cases hkeeps : keepsOne op target = true
      · rw [if_pos hkeeps] at hrun
        cases hrun
      · rw [if_neg hkeeps] at hrun
        have hkept := Bool.eq_false_iff.mpr hkeeps
        rw [← Option.some.inj (Except.ok.inj hrun)]
        exact h.storeOne hlen (hest _ _ (.leaOne hstore hkept)) (hest _ _ (.storeOne hstore hkept))
    · rw [if_neg hstore] at hrun
      exact htransfer hrun
  · rename_i source target hargs
    have htwo : args = [source, target] := hargs
    subst htwo
    by_cases hstore : (source.source && target.inMemory && !comparesOnly op) = true
    · rw [if_pos hstore] at hrun
      by_cases hkeeps : keepsTwo op source target = true
      · rw [if_pos hkeeps] at hrun
        cases hrun
      · rw [if_neg hkeeps] at hrun
        have hkept := Bool.eq_false_iff.mpr hkeeps
        rw [← Option.some.inj (Except.ok.inj hrun)]
        exact h.storeTwo hlen (hest _ _ (.leaTwo hstore hkept)) (hest _ _ (.storeTwo hstore hkept))
    · rw [if_neg hstore] at hrun
      -- the direct accesses are skipped
      by_cases hwrite : (source.source && target.direct) = true
      · rw [if_pos hwrite] at hrun
        rw [← Option.some.inj (Except.ok.inj hrun)]
        exact h
      rw [if_neg hwrite] at hrun
      by_cases hread : (source.direct && target.isReg) = true
      · rw [if_pos hread] at hrun
        rw [← Option.some.inj (Except.ok.inj hrun)]
        exact h
      · rw [if_neg hread] at hrun
        exact htransfer hrun
  · exact htransfer hrun

theorem Packed.remask (hlen : TrueLengths len displacement) (h : Packed len (compute_sizes g sz) input o) :
    Packed len (compute_sizes g sz) input (remask (compute_sizes g sz) o i) := by
  rw [Rewrite.remask]
  split
  · exact (h.maskPointer hlen (Or.inl rfl)).marks rfl rfl
  · exact h

theorem Packed.maskAfter (hlen : TrueLengths len displacement) (h : Packed len (compute_sizes g sz) input o) :
    Packed len (compute_sizes g sz) input (maskAfter (compute_sizes g sz) o p i) := by
  have hchunk := chunk_ge g sz
  rw [Rewrite.maskAfter]
  by_cases hebp : setsEbp i = true
  · rw [if_pos hebp]
    have hmasked := (h.pushed (p := p) hlen).maskPointer hlen (Or.inr rfl)
    cases p with
    | false => exact hmasked
    | true => exact hmasked.a_emit (not_masks (by decide)) (length_popf hlen) (by omega)
  rw [if_neg hebp]
  by_cases hesp : bumpsEspFar i = true
  · rw [if_pos hesp]
    exact h.maskPointer hlen (Or.inl rfl)
  · rw [if_neg hesp]
    exact h

theorem of_map_ok {ε α β : Type} {f : α → β} {x : Except ε α} {b : β} (h : x.map f = .ok b) :
    ∃ a, x = .ok a ∧ f a = b := by
  cases x with
  | error e => cases h
  | ok a => exact ⟨a, rfl, Except.ok.inj h⟩

/-- One line of the input. -/
theorem Packed.visit (hlen : TrueLengths len displacement) (h : Packed len (compute_sizes g sz) input o)
    {l : Line} (hl : l ∈ input) (hest : Estimated len threadsafe_return input)
    (hdirective : ∀ text, l = .other text → alignment text = none) {live : Bool} {o' : Out}
    (hrun : visitWith (compute_sizes g sz) threadsafe_return o live l = .ok o') :
    Packed len (compute_sizes g sz) input o' := by
  have hchunk := chunk_ge g sz
  cases l with
  | insn i =>
    have hguess := (insn_len_bounds i).2
    have hnoted : Packed len (compute_sizes g sz) input (note (Rewrite.remask (compute_sizes g sz) o i) i) :=
      (h.remask hlen).marks rfl rfl
    have hready := hnoted.maybe_align_for (insn_len i)
    have hroom := maybe_align_for_room (L := compute_sizes g sz) (n := insn_len i)
      (o := note (Rewrite.remask (compute_sizes g sz) o i) i) (by omega)
    obtain ⟨rewritten, hrewrite, hresult⟩ := of_map_ok hrun
    cases rewritten with
    | some o'' =>
      rw [← hresult]
      exact hready.rewritten hlen (hest i hl) hroom hrewrite
    | none =>
      rw [← hresult]
      exact ((hready.own hl (hest i hl i _ (.line i)) hroom).maskAfter hlen).marks rfl rfl
  | label name =>
    rw [← Except.ok.inj hrun]
    have haligned : (compute_sizes g sz).chunk_size ∣
        endOf len (compute_sizes g sz).chunk_size 0 o.align.printed := by
      show _ ∣ endOf len _ 0 (o.printed ++ [.align])
      rw [endOf_append]
      exact room_aligns (compute_sizes g sz).chunk_pos
    refine ⟨h.toCounted.align.item rfl haligned ?_, h.align.masks.other fun _ heq => nomatch heq⟩
    exact Nat.le_of_eq (Nat.mod_eq_zero_of_dvd haligned)
  | align2 =>
    rw [← Except.ok.inj hrun]
    refine ⟨h.toCounted.item rfl trivial ?_, h.masks.other fun _ heq => nomatch heq⟩
    have hcount := h.counted
    generalize endOf len (compute_sizes g sz).chunk_size 0 o.printed = e at hcount ⊢
    show (e + room 4 e) % _ ≤ o.this_chunk + 4
    have hle := room_le (n := 4) (k := e) (by decide)
    have hmod := Nat.mod_le (e % (compute_sizes g sz).chunk_size + room 4 e) (compute_sizes g sz).chunk_size
    rw [Nat.mod_add_mod] at hmod
    omega
  | p2align =>
    rw [← Except.ok.inj hrun]
    exact h
  | other text =>
    rw [← Except.ok.inj hrun]
    refine ⟨h.toCounted.item rfl trivial ?_, h.masks.other fun _ heq => nomatch heq⟩
    show ((alignment text).elim _ _) % _ ≤ o.this_chunk
    rw [hdirective text rfl]
    exact h.counted

end Lines

section Runs

variable {len : Insn → Nat} {displacement : String → Word} {g : Settings} {sz : Size} {input ls : List Line}
  {o : Out} {threadsafe_return : Bool}

theorem Reach.suffix {L : Layout} (h : Reach L threadsafe_return input o ls) : ∃ done, input = done ++ ls := by
  induction h with
  | start => exact ⟨[], rfl⟩
  | @step o o' l ls _ _ ih =>
    obtain ⟨done, hdone⟩ := ih
    exact ⟨done ++ [l], hdone.trans (List.append_cons done l ls)⟩

/-- `movl $5, %eax`, five bytes long -/
def loadFive : Insn := ⟨"movl", [.imm ⟨"5", by decide⟩, .reg (.r32 .eax)]⟩

/-- `movl $1, x`, ten bytes long -/
def storeOneX : Insn := ⟨"movl", [.imm ⟨"1", by decide⟩, .const ⟨"x", by decide⟩]⟩

/-- The lengths of these two and of what the script adds. -/
def sampleLength (i : Insn) : Nat :=
  if i = loadFive then 5 else if i = storeOneX then 10 else (encode (fun _ => 0) i).elim 0 List.length

theorem sampleLength_true : TrueLengths sampleLength fun _ => 0 := by
  intro i code hcode
  rw [sampleLength]
  by_cases hfive : i = loadFive
  · rw [hfive] at hcode
    cases hcode
  rw [if_neg hfive]
  by_cases hone : i = storeOneX
  · rw [hone] at hcode
    cases hcode
  · rw [if_neg hone, hcode]
    rfl

/-- Neither instruction is rewritten, so that only their own lengths are guessed. -/
theorem sampleLength_estimated {input : List Line}
    (h : ∀ i, .insn i ∈ input → i = loadFive ∨ i = storeOneX) : Estimated sampleLength false input := by
  intro i hi j n hpass
  have hcases := h i hi
  cases hpass with
  | line =>
    rcases hcases with rfl | rfl
    · decide +kernel
    · decide +kernel
  | leaTwo hstore =>
    rcases hcases with heq | heq <;> cases heq <;> cases hstore
  | storeTwo hstore =>
    rcases hcases with heq | heq <;> cases heq <;> cases hstore
  | leaOne => rcases hcases with heq | heq <;> cases heq
  | storeOne => rcases hcases with heq | heq <;> cases heq
  | ret =>
    rcases hcases with heq | heq
    · exact absurd (Insn.mk.inj heq).1 (by decide)
    · exact absurd (Insn.mk.inj heq).1 (by decide)
  | add hoption => cases hoption
  | call =>
    rcases hcases with heq | heq
    · exact absurd (Insn.mk.inj heq).1 (by decide)
    · exact absurd (Insn.mk.inj heq).1 (by decide)
  | jmp =>
    rcases hcases with heq | heq
    · exact absurd (Insn.mk.inj heq).1 (by decide)
    · exact absurd (Insn.mk.inj heq).1 (by decide)

end Runs

end Pittsfield.Rewrite
