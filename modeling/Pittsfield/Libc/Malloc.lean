import Mathlib.Order.CompletePartialOrder
import Mathlib.Order.Interval.Set.Disjoint
import Pittsfield.Foundation.Chains
import Pittsfield.Machine.Cpu
import Pittsfield.Wrappers.Break

/-!
# `malloc`, `realloc` and `free` of `libc.c`

The allocator of the sandboxed C library. A free block starts with the link to the next
free block of its size, a block in use with the byte `MAGIC` and the index of its size.
The array `nextf` lies in the data of the module; no block of the heap contains it, so it
is a field of its own. Shift counts are taken modulo 32, as the processor does.
-/

namespace Pittsfield.Libc

open Pittsfield.Region
open Pittsfield.Machine
open Pittsfield.Wrappers

abbrev Mem := Word → BitVec 8

structure Heap where
  mem : Mem
  nextf : Nat → Word
  data_break : Word

def MAGIC : BitVec 8 := 0xff

/-- `x << n` -/
def shl (x : Word) (n : Nat) : Word := x <<< (n % 32)

/-- `((union overhead *)a)->ov_next` -/
def ov_next (mem : Mem) (a : Word) : Word := Cpu.bytesAt mem a 4

def setNext (mem : Mem) (a v : Word) : Mem := Cpu.putBytes mem a v 4

/-- `memcpy` of `libc.h`, a loop over the bytes from the first one on. -/
def memcpy (mem : Mem) (dest src : Word) : Nat → Mem
  | 0 => mem
  | n + 1 =>
    let m := memcpy mem dest src n
    Function.update m (dest + BitVec.ofNat 32 n) (m (src + BitVec.ofNat 32 n))

/-- `while (shiftr >>= 1) bucket++`; a word has 32 bits to shift out. -/
def countShifts : Nat → Word → Nat
  | 0, _ => 0
  | n + 1, shiftr => if shiftr >>> 1 = 0 then 0 else countShifts n (shiftr >>> 1) + 1

/-- The bucket for a request of `nbytes` bytes. -/
def bucketFor (nbytes : Word) : Nat :=
  countShifts 32 ((((nbytes + 4 + 3) &&& ~~~3) - 1) >>> 2)

/-- The loop of `morecore`: every block but the last one is linked to the next one. -/
def linkBlocks (siz : Word) : Nat → Word → Mem → Mem
  | 0, _, mem => mem
  | n + 1, op, mem => linkBlocks siz n (op + siz) (setNext mem op (op + siz))

section

variable (L : Layout)

def Heap.sbrk (h : Heap) (incr : Word) : Word × Heap :=
  ((wrap_sbrk L h.data_break incr).1, { h with data_break := (wrap_sbrk L h.data_break incr).2 })

def morecore (bucket : Nat) (h : Heap) : Heap :=
  if h.nextf bucket ≠ 0 then h
  else
    let op := (h.sbrk L 0).1
    let h := if op &&& 0x3ff ≠ 0 then (h.sbrk L (1024 - (op &&& 0x3ff))).2 else h
    let rnu := if bucket ≤ 8 then 11 else bucket + 3
    let nblks := 1 <<< (rnu - (bucket + 3))
    let rnu := if rnu < bucket then bucket else rnu
    let op := (h.sbrk L (shl 1 rnu)).1
    let h := (h.sbrk L (shl 1 rnu)).2
    if op = -1 then h
    else
      let nblks := if op &&& 7 ≠ 0 then nblks - 1 else nblks
      let op := if op &&& 7 ≠ 0 then (op + 8) &&& ~~~7 else op
      { h with
        nextf := Function.update h.nextf bucket op
        mem := linkBlocks (shl 1 (bucket + 3)) (nblks - 1) op h.mem }

/-- `*p != 0 && (*p < DATA_START || *p >= DATA_START+DATA_SIZE)`: `malloc` complains about
the link of the block that it takes. -/
def corrupt (h : Heap) (p : Word) : Bool :=
  ov_next h.mem p ≠ 0 && (decide ((ov_next h.mem p).toNat < L.data_start) ||
    decide (L.data_end ≤ (ov_next h.mem p).toNat))

/-- The block is taken off its list and its header is written. -/
def takeBlock (bucket : Nat) (h : Heap) : Word × Heap :=
  let p := h.nextf bucket
  (p + 4,
    { h with
      nextf := Function.update h.nextf bucket (ov_next h.mem p)
      mem := Function.update (Function.update h.mem p MAGIC) (p + 1) (BitVec.ofNat 8 bucket) })

def malloc (nbytes : Word) (h : Heap) : Word × Heap :=
  let bucket := bucketFor nbytes
  let h := if h.nextf bucket = 0 then morecore L bucket h else h
  if h.nextf bucket = 0 then (0, h) else takeBlock bucket h

def free (vp : Word) (h : Heap) : Heap :=
  if vp = 0 then h
  else
    let op := vp - 4
    if h.mem op ≠ MAGIC then h
    else
      let size := (h.mem (op + 1)).toNat
      { h with
        nextf := Function.update h.nextf size op
        mem := setNext h.mem op (h.nextf size) }

def realloc (vp nbytes : Word) (h : Heap) : Word × Heap :=
  if vp = 0 then malloc L nbytes h
  else
    let onb := shl 1 ((h.mem (vp - 4 + 1)).toNat + 3) - 4
    -- avoid the copy if same size block
    if nbytes ≤ onb ∧ nbytes > (onb >>> 1) - 4 then (vp, h)
    else
      let res := (malloc L nbytes h).1
      let h := (malloc L nbytes h).2
      if res = 0 then (0, h)
      else
        let n := if nbytes < onb then nbytes else onb
        let mem := if vp ≠ res then memcpy h.mem res vp n.toNat else h.mem
        (res, free vp { h with mem := mem })

end

/-- A block that a client holds: its header, the size class that the header gave when the
block was handed out, and the bytes asked for. -/
structure Block where
  hdr : Word
  bucket : Nat
  req : Nat
  deriving DecidableEq

/-- The heap and the blocks in use. -/
structure Session where
  heap : Heap
  live : List Block

inductive Call
  | malloc (nbytes : Word)
  | realloc (vp nbytes : Word)
  | free (vp : Word)
  /-- A client stores a byte. -/
  | store (a : Word) (v : BitVec 8)

/-- The blocks in use behind a call that returned `p`. -/
def grant (h : Heap) (p nbytes : Word) (live : List Block) : List Block :=
  if p = 0 then live else ⟨p - 4, (h.mem (p - 4 + 1)).toNat, nbytes.toNat⟩ :: live

/-- The blocks in use without the one at `p`. -/
def release (p : Word) (live : List Block) : List Block := live.filter (·.hdr ≠ p - 4)

def Session.call (L : Layout) (s : Session) : Call → Session
  | .malloc n => ⟨(malloc L n s.heap).2, grant (malloc L n s.heap).2 (malloc L n s.heap).1 n s.live⟩
  | .realloc p n =>
    let q := (realloc L p n s.heap).1
    let h := (realloc L p n s.heap).2
    ⟨h, if q = 0 then s.live else grant h q n (release p s.live)⟩
  | .free p => ⟨free p s.heap, release p s.live⟩
  | .store a v => { s with heap := { s.heap with mem := Function.update s.heap.mem a v } }

def Session.run (L : Layout) (s : Session) (cs : List Call) : Session := cs.foldl (Session.call L) s

/-- The addresses of the block. -/
def Block.bytes (b : Block) : Set Nat := Set.Ico b.hdr.toNat (b.hdr.toNat + 2 ^ (b.bucket + 3))

/-- The free list of the bucket. -/
def FreeList (h : Heap) (i : Nat) (as : List Word) : Prop :=
  Foundation.Chain (ov_next h.mem) 0 (h.nextf i) as

/-- What a client may ask for. -/
def Allowed (s : Session) : Call → Prop
  | .malloc n => n.toNat ≤ 2 ^ 30 - 4
  | .realloc p n => (p = 0 ∨ ∃ b ∈ s.live, p = b.hdr + 4) ∧ n.toNat ≤ 2 ^ 30 - 4
  | .free p => p = 0 ∨ (∃ b ∈ s.live, p = b.hdr + 4) ∨
      ∃ i < 30, ∃ as, FreeList s.heap i as ∧ ∃ a ∈ as, p = a + 4
  | .store a _ => ∃ b ∈ s.live, b.hdr.toNat + 4 ≤ a.toNat ∧ a.toNat < b.hdr.toNat + 2 ^ (b.bucket + 3)

/-- Every call of the sequence is one that a client may make. -/
def AllAllowed (L : Layout) : Session → List Call → Prop
  | _, [] => True
  | s, c :: cs => Allowed s c ∧ AllAllowed L (s.call L c) cs

/-- What clients do with blocks of their own, whatever the sizes they ask for. -/
def Legal (s : Session) : Call → Prop
  | .malloc _ => True
  | .realloc p _ => p = 0 ∨ ∃ b ∈ s.live, p = b.hdr + 4
  | .free p => p = 0 ∨ (∃ b ∈ s.live, p = b.hdr + 4) ∨
      ∃ i < 30, ∃ as, FreeList s.heap i as ∧ ∃ a ∈ as, p = a + 4
  | .store a _ => ∃ b ∈ s.live, b.hdr.toNat + 4 ≤ a.toNat ∧ a.toNat < b.hdr.toNat + 2 ^ (b.bucket + 3)

/-- There is no block for the request, and no room for `morecore` to make one. -/
def Full (L : Layout) (h : Heap) (nbytes : Word) : Prop :=
  let bucket := bucketFor nbytes
  h.nextf bucket = 0 ∧ (bucket = 28 ∨
    L.data_end ≤ h.data_break.toNat + 2 ^ ((if bucket ≤ 8 then 11 else bucket + 3) % 32))

/-- The request and its header take up half of the address space at most, or it is refused. -/
def Moderate (L : Layout) (h : Heap) (nbytes : Word) : Prop :=
  nbytes.toNat ≤ 2 ^ 31 - 4 ∨ Full L h nbytes

/-- The size asked for is a moderate one. -/
def ModerateCall (L : Layout) (s : Session) : Call → Prop
  | .malloc n => Moderate L s.heap n
  | .realloc _ n => Moderate L s.heap n
  | .free _ => True
  | .store _ _ => True

/-- The property holds of every call of the sequence. -/
def Every (L : Layout) (P : Session → Call → Prop) : Session → List Call → Prop
  | _, [] => True
  | s, c :: cs => P s c ∧ Every L P (s.call L c) cs

/-- The heap before the first call: empty lists, and zeros from the break on. -/
structure Fresh (L : Layout) (data_size : Nat) (s : Session) : Prop where
  live : s.live = []
  nextf : ∀ i, s.heap.nextf i = 0
  break_eq : s.heap.data_break = initial_break L data_size
  zero : ∀ a : Word, (initial_break L data_size).toNat ≤ a.toNat → s.heap.mem a = 0

/-- The integrity of the heap, whose blocks lie from `start` on. -/
structure Integrity (start : Nat) (s : Session) : Prop where
  live_disjoint : s.live.Pairwise fun b c => Disjoint b.bytes c.bytes
  live_above : ∀ b ∈ s.live, start ≤ b.hdr.toNat
  live_below : ∀ b ∈ s.live, b.hdr.toNat + 2 ^ (b.bucket + 3) ≤ s.heap.data_break.toNat
  live_room : ∀ b ∈ s.live, 4 + b.req ≤ 2 ^ (b.bucket + 3)
  lists : ∃ fl : Nat → List Word,
    (∀ i < 30, FreeList s.heap i (fl i) ∧ (fl i).Nodup) ∧
    -- a free block has the size of its list, and its bytes belong to no other block
    (∀ i < 30, ∀ a ∈ fl i, start ≤ a.toNat ∧
      a.toNat + 2 ^ (i + 3) ≤ s.heap.data_break.toNat ∧
      (∀ b ∈ s.live, Disjoint (Set.Ico a.toNat (a.toNat + 2 ^ (i + 3))) b.bytes) ∧
      ∀ j < 30, ∀ b ∈ fl j, (a = b ∧ i = j) ∨
        Disjoint (Set.Ico a.toNat (a.toNat + 2 ^ (i + 3))) (Set.Ico b.toNat (b.toNat + 2 ^ (j + 3)))) ∧
    (∀ i < 30, ∀ j < 30, i ≠ j → ∀ a ∈ fl i, a ∉ fl j) ∧
    -- freeing a free block changes nothing
    ∀ i < 30, ∀ a ∈ fl i, free (a + 4) s.heap = s.heap

end Pittsfield.Libc
