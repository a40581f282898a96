import Pittsfield.Foundation.Partition
import Pittsfield.Libc.Compare

/-!
# `qsort` of `libc.c`

The quicksort with a three-way partition and the selection sort below it, over the memory.
An access of the array is refused where the pointer is not one to an element. A `long` has
32 bits, pointers and sizes are words.
-/

namespace Pittsfield.Libc

open Pittsfield.Foundation
open Pittsfield.Region
open Pittsfield.Machine

/-- An array of `nmemb` elements of `size` bytes each. -/
structure Vec where
  base : Word
  nmemb : Word
  size : Word

/-- The value of a `long`. -/
def long (x : Int) : Int := x.bmod (2 ^ 32)

def idx (base size : Word) (x : Int) : Word := base + BitVec.ofInt 32 x * size

/-- The loop of `iswap`, with `n` bytes to go. -/
def swapBytes : Nat → Word → Word → (Word → BitVec 8) → Word → BitVec 8
  | 0, _, _, mem => mem
  | n + 1, x, y, mem =>
    swapBytes n (x + 1) (y + 1) (Function.update (Function.update mem x (mem y)) y (mem x))

/-- `iswap`: the loop ends at `z`. -/
def iswap (a b size : Word) (mem : Word → BitVec 8) : Word → BitVec 8 :=
  let z := a + size
  swapBytes (z.toNat - a.toNat) a b mem

section

variable (A : Vec) (compar : List (BitVec 8) → List (BitVec 8) → Int)

/-- The pointer points to an element. -/
def Vec.Elem (p : Word) : Prop := ∃ k < A.nmemb.toNat, p = A.base + BitVec.ofNat 32 k * A.size

instance (p : Word) : Decidable (A.Elem p) :=
  inferInstanceAs (Decidable (∃ k < A.nmemb.toNat, p = A.base + BitVec.ofNat 32 k * A.size))

/-- The comparison function on the elements at two pointers. -/
def comparAt (mem : Word → BitVec 8) (p q : Word) : Option Int :=
  if A.Elem p ∧ A.Elem q then some (compar (bytes mem A.size.toNat p) (bytes mem A.size.toNat q))
  else none

def iswapAt (mem : Word → BitVec 8) (p q : Word) : Option (Word → BitVec 8) :=
  if A.Elem p ∧ A.Elem q then some (iswap p q A.size mem) else none

def swap (mem : Word → BitVec 8) (a b : Int) : Option (Word → BitVec 8) :=
  iswapAt A mem (idx A.base A.size a) (idx A.base A.size b)

/-- The inner loop of `isort`, with `n` elements to go. -/
def findMin (mem : Word → BitVec 8) : Nat → Word → Word → Option Word
  | 0, _, min => some min
  | n + 1, tmp, min => do
    let c ← comparAt A compar mem tmp min
    findMin mem n (tmp + A.size) (if c < 0 then tmp else min)

def isort : Nat → Word → (Word → BitVec 8) → Option (Word → BitVec 8)
  | n + 2, base, mem => do
    let min ← findMin A compar mem (n + 1) (base + A.size) base
    let mem ← iswapAt A mem min base
    isort (n + 1) (base + A.size) mem
  | _, _, mem => some mem

/-- `while (compar(idx(base, size, ++i), v) < 0)` -/
def scanUp (mem : Word → BitVec 8) (v : Word) : Nat → Int → Option Int
  | 0, _ => none
  | n + 1, i => do
    let i := long (i + 1)
    let c ← comparAt A compar mem (idx A.base A.size i) v
    if c < 0 then scanUp mem v n i else return i

/-- `while (compar(idx(base, size, --j), v) > 0)`, with a break at `l`. -/
def scanDown (mem : Word → BitVec 8) (v : Word) (l : Int) : Nat → Int → Option Int
  | 0, _ => none
  | n + 1, j => do
    let j := long (j - 1)
    let c ← comparAt A compar mem (idx A.base A.size j) v
    if c > 0 then if j = l then return j else scanDown mem v l n j else return j

def collectLeft (mem : Word → BitVec 8) (v : Word) (p i : Int) : Option (Int × (Word → BitVec 8)) := do
  let c ← comparAt A compar mem (idx A.base A.size i) v
  if c = 0 then
    let p := long (p + 1)
    let mem ← swap A mem p i
    return (p, mem)
  else return (p, mem)

def collectRight (mem : Word → BitVec 8) (v : Word) (q j : Int) : Option (Int × (Word → BitVec 8)) := do
  let c ← comparAt A compar mem (idx A.base A.size j) v
  if c = 0 then
    let q := long (q - 1)
    let mem ← swap A mem q j
    return (q, mem)
  else return (q, mem)

/-- Where the partition ends. -/
structure Parted where
  i : Int
  p : Int
  q : Int
  mem : Word → BitVec 8

/-- The endless loop of `Qsort`. -/
def partition (fuel : Nat) (v : Word) (l : Int) :
    Nat → (i j p q : Int) → (Word → BitVec 8) → Option Parted
  | 0, _, _, _, _, _ => none
  | n + 1, i, j, p, q, mem => do
    let i ← scanUp A compar mem v fuel i
    let j ← scanDown A compar mem v l fuel j
    if i ≥ j then return ⟨i, p, q, mem⟩
    else
      let mem ← swap A mem i j
      let (p, mem) ← collectLeft A compar mem v p i
      let (q, mem) ← collectRight A compar mem v q j
      partition fuel v l n i j p q mem

/-- `for (k = l; k < p; ++k, --j) swap(base, size, k, j)` -/
def moveLeft (p : Int) : Nat → (k j : Int) → (Word → BitVec 8) → Option (Int × (Word → BitVec 8))
  | 0, _, _, _ => none
  | n + 1, k, j, mem =>
    if k < p then do
      let mem ← swap A mem k j
      moveLeft p n (long (k + 1)) (long (j - 1)) mem
    else some (j, mem)

/-- `for (k = r - 1; k > q; --k, ++i) swap(base, size, k, i)` -/
def moveRight (q : Int) : Nat → (k i : Int) → (Word → BitVec 8) → Option (Int × (Word → BitVec 8))
  | 0, _, _, _ => none
  | n + 1, k, i, mem =>
    if k > q then do
      let mem ← swap A mem k i
      moveRight q n (long (k - 1)) (long (i + 1)) mem
    else some (i, mem)

/-- `Qsort`, none if the recursion or a loop takes more than the given number of rounds. -/
def Qsort : Nat → (l r : Int) → (Word → BitVec 8) → Option (Word → BitVec 8)
  | 0, _, _, _ => none
  | n + 1, l, r, mem =>
    if long (r - l) < 10 then
      isort A compar (BitVec.ofInt 32 (long (long (r - l) + 1))).toNat (idx A.base A.size l) mem
    else do
      let v := idx A.base A.size r
      let part ← partition A compar (n + 1) v l (n + 1) (long (l - 1)) r (long (l - 1)) r mem
      let mem ← swap A part.mem part.i r
      let (j, mem) ← moveLeft A part.p (n + 1) l (long (part.i - 1)) mem
      let (i, mem) ← moveRight A part.q (n + 1) (long (r - 1)) (long (part.i + 1)) mem
      let mem ← (if j > l then Qsort n l j mem else some mem)
      if r > i then Qsort n i r mem else some mem

def qsort (fuel : Nat) (mem : Word → BitVec 8) : Option (Word → BitVec 8) :=
  Qsort A compar fuel 0 (A.nmemb - 1).toInt mem

end

section Bytes

variable {mem mem' : Word → BitVec 8} {x y z p q : Word} {n : Nat}

theorem bytes_congr (h : ∀ k < n, mem' (p + BitVec.ofNat 32 k) = mem (q + BitVec.ofNat 32 k)) :
    bytes mem' n p = bytes mem n q := by
  induction n generalizing p q with
  | zero => rfl
  | succ n ih =>
    rw [bytes, bytes]
    congr 1
    · have hfirst := h 0 (Nat.succ_pos n)
      rwa [BitVec.add_zero, BitVec.add_zero] at hfirst
    · apply ih
      intro k hk
      have hnext := h (k + 1) (Nat.succ_lt_succ hk)
      rwa [← Cpu.add_one_ofNat, ← Cpu.add_one_ofNat] at hnext

theorem swapBytes_self : swapBytes n x x mem = mem := by
  induction n generalizing x with
  | zero => rfl
  | succ n ih => rw [swapBytes, Function.update_eq_self, Function.update_eq_self, ih]

theorem swapBytes_other (hx : ∀ k < n, z ≠ x + BitVec.ofNat 32 k) (hy : ∀ k < n, z ≠ y + BitVec.ofNat 32 k) :
    swapBytes n x y mem z = mem z := by
  induction n generalizing x y mem with
  | zero => rfl
  | succ n ih =>
    have hzx : z ≠ x := fun h => hx 0 (Nat.succ_pos n) (by rw [h, BitVec.add_zero])
    have hzy : z ≠ y := fun h => hy 0 (Nat.succ_pos n) (by rw [h, BitVec.add_zero])
    rw [swapBytes, ih, Function.update_of_ne hzy, Function.update_of_ne hzx]
    · intro k hk
      rw [Cpu.add_one_ofNat]
      exact hx (k + 1) (Nat.succ_lt_succ hk)
    · intro k hk
      rw [Cpu.add_one_ofNat]
      exact hy (k + 1) (Nat.succ_lt_succ hk)

theorem ne_add_ofNat {k : Nat} (hpos : 0 < k) (hk : k < 2 ^ 32) : x ≠ x + BitVec.ofNat 32 k := by
  intro h
  have hzero : BitVec.ofNat 32 k = 0 := by
    apply (BitVec.add_right_inj x).mp
    exact h.symm.trans (BitVec.add_zero x).symm
  have htoNat := congrArg BitVec.toNat hzero
  rw [BitVec.toNat_ofNat, Nat.mod_eq_of_lt hk] at htoNat
  exact absurd htoNat (Nat.ne_of_gt hpos)

/-- Ranges that do not overlap change their contents. -/
theorem swapBytes_apart (hn : n ≤ 2 ^ 32) (mem : Word → BitVec 8)
    (h : ∀ j < n, ∀ k < n, x + BitVec.ofNat 32 j ≠ y + BitVec.ofNat 32 k) (k : Nat) (hk : k < n) :
    swapBytes n x y mem (x + BitVec.ofNat 32 k) = mem (y + BitVec.ofNat 32 k) ∧
      swapBytes n x y mem (y + BitVec.ofNat 32 k) = mem (x + BitVec.ofNat 32 k) := by
  induction n generalizing x y mem k with
  | zero => exact absurd hk (Nat.not_lt_zero k)
  | succ n ih =>
    have hxy : x ≠ y := by
      have h0 := h 0 (Nat.succ_pos n) 0 (Nat.succ_pos n)
      rwa [BitVec.add_zero, BitVec.add_zero] at h0
    rw [swapBytes]
    cases k with
    | zero =>
      rw [BitVec.add_zero, BitVec.add_zero, swapBytes_other, swapBytes_other, Function.update_of_ne hxy,
        Function.update_self, Function.update_self]
      · exact ⟨rfl, rfl⟩
      all_goals
        intro j hj
        rw [Cpu.add_one_ofNat]
      · exact fun he => h (j + 1) (by omega) 0 (by omega) (by rw [BitVec.add_zero]; exact he.symm)
      · exact ne_add_ofNat (by omega) (by omega)
      · exact ne_add_ofNat (by omega) (by omega)
      · exact fun he => h 0 (by omega) (j + 1) (by omega) (by rw [BitVec.add_zero]; exact he)
    | succ k =>
      have hrest : ∀ m, swapBytes n (x + 1) (y + 1) m (x + BitVec.ofNat 32 (k + 1)) =
            m (y + BitVec.ofNat 32 (k + 1)) ∧
          swapBytes n (x + 1) (y + 1) m (y + BitVec.ofNat 32 (k + 1)) =
            m (x + BitVec.ofNat 32 (k + 1)) := by
        intro m
        rw [← Cpu.add_one_ofNat, ← Cpu.add_one_ofNat]
        apply ih (by omega) m _ k (Nat.lt_of_succ_lt_succ hk)
        intro i hi j hj
        rw [Cpu.add_one_ofNat, Cpu.add_one_ofNat]
        exact h (i + 1) (by omega) (j + 1) (by omega)
      have hzero : y + BitVec.ofNat 32 0 = y ∧ x + BitVec.ofNat 32 0 = x :=
        ⟨BitVec.add_zero y, BitVec.add_zero x⟩
      rw [(hrest _).1, (hrest _).2, Function.update_of_ne, Function.update_of_ne,
        Function.update_of_ne, Function.update_of_ne]
      · exact ⟨rfl, rfl⟩
      · exact fun he => ne_add_ofNat (by omega) (by omega) he.symm
      · exact fun he => h (k + 1) hk 0 (by omega) (by rw [he, hzero.1])
      · exact fun he => h 0 (by omega) (k + 1) hk (by rw [he, hzero.2])
      · exact fun he => ne_add_ofNat (by omega) (by omega) he.symm

end Bytes

/-- The array ends before the end of the memory, so that one past its last element is an address. -/
def Vec.Fits (A : Vec) : Prop := A.base.toNat + A.nmemb.toNat * A.size.toNat < 2 ^ 32

/-- The element with the index `k`, empty outside of the array. -/
def entry (A : Vec) (mem : Word → BitVec 8) (k : Int) : List (BitVec 8) :=
  if 0 ≤ k ∧ k < A.nmemb.toNat then bytes mem A.size.toNat (idx A.base A.size k) else []

/-- The elements from `l` to `r` have changed places, all other bytes are the same. -/
structure Exchanged (A : Vec) (l r : Int) (mem mem' : Word → BitVec 8) : Prop where
  entries : Rearranged l r (entry A mem) (entry A mem')
  outside : ∀ x : Word, x.toNat < A.base.toNat ∨ A.base.toNat + A.nmemb.toNat * A.size.toNat ≤ x.toNat →
    mem' x = mem x

namespace Exchanged

variable {A : Vec} {l r : Int} {mem mem' mem'' : Word → BitVec 8}

theorem refl (A : Vec) (l r : Int) (mem : Word → BitVec 8) : Exchanged A l r mem mem :=
  ⟨Rearranged.refl l r _, fun _ _ => rfl⟩

theorem trans (h : Exchanged A l r mem mem') (h' : Exchanged A l r mem' mem'') :
    Exchanged A l r mem mem'' :=
  ⟨h.entries.trans h'.entries, fun x hx => (h'.outside x hx).trans (h.outside x hx)⟩

theorem mono {l' r' : Int} (h : Exchanged A l r mem mem') (hl : l' ≤ l) (hr : r ≤ r') :
    Exchanged A l' r' mem mem' := ⟨h.entries.mono hl hr, h.outside⟩

end Exchanged

section Elements

variable {A : Vec} {compar : List (BitVec 8) → List (BitVec 8) → Int} {mem mem' : Word → BitVec 8}
variable {k m : Int}

theorem long_eq (hlow : -2 ^ 31 ≤ k) (hhigh : k < 2 ^ 31) : long k = k :=
  Int.bmod_eq_of_le (by omega) (by omega)

theorem idx_next (base size : Word) (k : Int) : idx base size k + size = idx base size (k + 1) := by
  rw [idx, idx, BitVec.ofInt_add, BitVec.add_mul, BitVec.add_assoc]
  congr 2
  exact (BitVec.one_mul size).symm

theorem idx_toNat (hfit : A.Fits) (hk : 0 ≤ k ∧ k < A.nmemb.toNat) :
    (idx A.base A.size k).toNat = A.base.toNat + k.toNat * A.size.toNat := by
  have hle : (k.toNat + 1) * A.size.toNat ≤ A.nmemb.toNat * A.size.toNat :=
    Nat.mul_le_mul_right _ (by omega)
  rw [Nat.succ_mul] at hle
  have hn := A.nmemb.isLt
  have hword : BitVec.ofInt 32 k = BitVec.ofNat 32 k.toNat := by
    rw [← BitVec.ofInt_natCast, Int.toNat_of_nonneg hk.1]
  unfold Vec.Fits at hfit
  rw [idx, hword, BitVec.toNat_add, BitVec.toNat_mul, BitVec.toNat_ofNat,
    Nat.mod_eq_of_lt (by omega : k.toNat < 2 ^ 32), Nat.mod_eq_of_lt (by omega : _ * _ < 2 ^ 32),
    Nat.mod_eq_of_lt (by omega)]

theorem elem_idx (hk : 0 ≤ k ∧ k < A.nmemb.toNat) : A.Elem (idx A.base A.size k) := by
  refine ⟨k.toNat, by omega, ?_⟩
  rw [idx, ← BitVec.ofInt_natCast, Int.toNat_of_nonneg hk.1]

theorem comparAt_idx (hk : 0 ≤ k ∧ k < A.nmemb.toNat) (hm : 0 ≤ m ∧ m < A.nmemb.toNat) :
    comparAt A compar mem (idx A.base A.size k) (idx A.base A.size m) =
      some (compar (entry A mem k) (entry A mem m)) := by
  rw [comparAt, if_pos ⟨elem_idx hk, elem_idx hm⟩, entry, entry, if_pos hk, if_pos hm]

theorem byte_toNat (hfit : A.Fits) (hk : 0 ≤ k ∧ k < A.nmemb.toNat) {i : Nat} (hi : i ≤ A.size.toNat) :
    (idx A.base A.size k + BitVec.ofNat 32 i).toNat = A.base.toNat + k.toNat * A.size.toNat + i ∧
      A.base.toNat + k.toNat * A.size.toNat + i ≤ A.base.toNat + A.nmemb.toNat * A.size.toNat := by
  have hle : (k.toNat + 1) * A.size.toNat ≤ A.nmemb.toNat * A.size.toNat :=
    Nat.mul_le_mul_right _ (by omega)
  rw [Nat.succ_mul] at hle
  unfold Vec.Fits at hfit
  refine ⟨?_, by omega⟩
  rw [BitVec.toNat_add, idx_toNat hfit hk, BitVec.toNat_ofNat, Nat.mod_eq_of_lt (by omega : i < 2 ^ 32),
    Nat.mod_eq_of_lt (by omega)]

theorem iswap_rounds (hfit : A.Fits) (hk : 0 ≤ k ∧ k < A.nmemb.toNat) (q : Word) :
    iswap (idx A.base A.size k) q A.size mem =
      swapBytes A.size.toNat (idx A.base A.size k) q mem := by
  have hz := (byte_toNat hfit hk (i := A.size.toNat) le_rfl).1
  rw [BitVec.ofNat_toNat, BitVec.setWidth_eq] at hz
  rw [iswap, hz, idx_toNat hfit hk, Nat.add_sub_cancel_left]

/-- Bytes of different elements are different. -/
theorem elements_apart (hfit : A.Fits) (hk : 0 ≤ k ∧ k < A.nmemb.toNat) (hm : 0 ≤ m ∧ m < A.nmemb.toNat)
    (hkm : k ≠ m) {i j : Nat} (hi : i < A.size.toNat) (hj : j < A.size.toNat) :
    idx A.base A.size k + BitVec.ofNat 32 i ≠ idx A.base A.size m + BitVec.ofNat 32 j := by
  intro h
  have hnat := congrArg BitVec.toNat h
  rw [(byte_toNat hfit hk hi.le).1, (byte_toNat hfit hm hj.le).1] at hnat
  rcases Int.lt_or_gt_of_ne hkm with hlt | hlt
  · have hle : (k.toNat + 1) * A.size.toNat ≤ m.toNat * A.size.toNat :=
      Nat.mul_le_mul_right _ (by omega)
    rw [Nat.succ_mul] at hle
    omega
  · have hle : (m.toNat + 1) * A.size.toNat ≤ k.toNat * A.size.toNat :=
      Nat.mul_le_mul_right _ (by omega)
    rw [Nat.succ_mul] at hle
    omega

/-- The elements after the bytes of two of them have changed places. -/
theorem entry_swapBytes (hfit : A.Fits) (hk : 0 ≤ k ∧ k < A.nmemb.toNat) (hm : 0 ≤ m ∧ m < A.nmemb.toNat)
    (hkm : k ≠ m) :
    entry A (swapBytes A.size.toNat (idx A.base A.size k) (idx A.base A.size m) mem) =
      entry A mem ∘ Equiv.swap k m := by
  have hsize : A.size.toNat ≤ 2 ^ 32 := A.size.isLt.le
  have happly := fun j => swapBytes_apart hsize mem
    (fun i hi j hj => elements_apart hfit hk hm hkm hi hj) j
  funext x
  rw [Function.comp_apply]
  by_cases hx : 0 ≤ x ∧ x < A.nmemb.toNat
  · by_cases hxk : x = k
    · rw [hxk, Equiv.swap_apply_left, entry, entry, if_pos hk, if_pos hm]
      exact bytes_congr fun j hj => (happly j hj).1
    · by_cases hxm : x = m
      · rw [hxm, Equiv.swap_apply_right, entry, entry, if_pos hk, if_pos hm]
        exact bytes_congr fun j hj => (happly j hj).2
      · rw [Equiv.swap_apply_of_ne_of_ne hxk hxm, entry, entry, if_pos hx, if_pos hx]
        apply bytes_congr
        intro j hj
        apply swapBytes_other
        · exact fun i hi => elements_apart hfit hx hk hxk hj hi
        · exact fun i hi => elements_apart hfit hx hm hxm hj hi
  · have hxk : x ≠ k := fun h => hx (h ▸ hk)
    have hxm : x ≠ m := fun h => hx (h ▸ hm)
    rw [Equiv.swap_apply_of_ne_of_ne hxk hxm, entry, entry, if_neg hx, if_neg hx]

/-- An exchange of two elements. -/
theorem iswapAt_idx (hfit : A.Fits) (mem : Word → BitVec 8) (hk : 0 ≤ k ∧ k < A.nmemb.toNat)
    (hm : 0 ≤ m ∧ m < A.nmemb.toNat) :
    ∃ mem', iswapAt A mem (idx A.base A.size k) (idx A.base A.size m) = some mem' ∧
      entry A mem' = entry A mem ∘ Equiv.swap k m ∧
      ∀ x : Word, x.toNat < A.base.toNat ∨ A.base.toNat + A.nmemb.toNat * A.size.toNat ≤ x.toNat →
        mem' x = mem x := by
  refine ⟨_, if_pos ⟨elem_idx hk, elem_idx hm⟩, ?_⟩
  rw [iswap_rounds hfit hk]
  by_cases hkm : k = m
  · rw [← hkm, swapBytes_self, Equiv.swap_self]
    exact ⟨rfl, fun _ _ => rfl⟩
  · refine ⟨entry_swapBytes hfit hk hm hkm, ?_⟩
    intro x hx
    apply swapBytes_other
    · rintro j hj rfl
      obtain ⟨hat, hle⟩ := byte_toNat hfit hk (Nat.succ_le_of_lt hj)
      have hat := (byte_toNat hfit hk hj.le).1
      omega
    · rintro j hj rfl
      obtain ⟨-, hle⟩ := byte_toNat hfit hm (Nat.succ_le_of_lt hj)
      have hat := (byte_toNat hfit hm hj.le).1
      omega

end Elements

section Preorder

variable {α : Type} {compar : α → α → Int} {a b c : α}

theorem compar_neg (hc : Std.TransCmp fun a b => compare (compar a b) 0) :
    compar a b < 0 ↔ 0 < compar b a := by
  have hswap : compare (compar a b) 0 = (compare (compar b a) 0).swap := hc.eq_swap
  rw [← compare_lt_iff_lt, ← compare_gt_iff_gt, hswap]
  cases compare (compar b a) 0 <;> decide

theorem compar_trans (hc : Std.TransCmp fun a b => compare (compar a b) 0) (hab : compar a b ≤ 0)
    (hbc : compar b c ≤ 0) : compar a c ≤ 0 :=
  Std.isLE_compare.mp (hc.isLE_trans (Std.isLE_compare.mpr hab) (Std.isLE_compare.mpr hbc))

theorem compar_self (hc : Std.TransCmp fun a b => compare (compar a b) 0) : compar a a = 0 := by
  have h := compar_neg hc (a := a) (b := a)
  omega

end Preorder

/-- No element from `l` to `r` compares greater than its successor. -/
def Ordered (A : Vec) (compar : List (BitVec 8) → List (BitVec 8) → Int) (l r : Int)
    (mem : Word → BitVec 8) : Prop :=
  ∀ k, l ≤ k → k < r → compar (entry A mem k) (entry A mem (k + 1)) ≤ 0

section Selection

variable {A : Vec} {compar : List (BitVec 8) → List (BitVec 8) → Int}

/-- The inner loop of `isort` ends at a least element. -/
theorem findMin_least (hc : Std.TransCmp fun a b => compare (compar a b) 0) (mem : Word → BitVec 8)
    {n : Nat} {t m : Int} (hm : 0 ≤ m ∧ m < A.nmemb.toNat) (ht : 0 ≤ t) (hn : t + n ≤ A.nmemb.toNat) :
    ∃ k, findMin A compar mem n (idx A.base A.size t) (idx A.base A.size m) = some (idx A.base A.size k) ∧
      (k = m ∨ t ≤ k ∧ k < t + n) ∧ compar (entry A mem k) (entry A mem m) ≤ 0 ∧
      ∀ x, t ≤ x → x < t + n → compar (entry A mem k) (entry A mem x) ≤ 0 := by
  induction n generalizing t m with
  | zero => exact ⟨m, rfl, Or.inl rfl, Int.le_of_eq (compar_self hc), fun x hx hxt => by omega⟩
  | succ n ih =>
    have hat : 0 ≤ t ∧ t < A.nmemb.toNat := by omega
    simp only [findMin, comparAt_idx hat hm, Option.bind_eq_bind, Option.bind_some, idx_next]
    by_cases hlt : compar (entry A mem t) (entry A mem m) < 0
    · rw [if_pos hlt]
      obtain ⟨k, hk, hplace, hle, hall⟩ := ih (t := t + 1) hat (by omega) (by omega)
      refine ⟨k, hk, by omega, compar_trans hc hle hlt.le, ?_⟩
      intro x hx hxt
      by_cases hxt' : x = t
      · rw [hxt']
        exact hle
      · exact hall x (by omega) (by omega)
    · rw [if_neg hlt]
      obtain ⟨k, hk, hplace, hle, hall⟩ := ih (t := t + 1) hm (by omega) (by omega)
      refine ⟨k, hk, by omega, hle, ?_⟩
      intro x hx hxt
      by_cases hxt' : x = t
      · rw [hxt']
        have hmt : compar (entry A mem m) (entry A mem t) ≤ 0 :=
          Int.not_lt.mp fun h => hlt ((compar_neg hc).mpr h)
        exact compar_trans hc hle hmt
      · exact hall x (by omega) (by omega)

/-- `isort` sorts the `n` elements from `l` on. -/
theorem isort_sorts (hfit : A.Fits) (hc : Std.TransCmp fun a b => compare (compar a b) 0)
    (mem : Word → BitVec 8) {n : Nat} {l : Int} (hl : 0 ≤ l) (hn : l + n ≤ A.nmemb.toNat) :
    ∃ mem', isort A compar n (idx A.base A.size l) mem = some mem' ∧
      Exchanged A l (l + n - 1) mem mem' ∧ Ordered A compar l (l + n - 1) mem' := by
  induction n using Nat.strong_induction_on generalizing l mem with
  | _ n ih =>
    match n with
    | 0 => exact ⟨mem, rfl, Exchanged.refl _ _ _ _, fun k hk hkr => by omega⟩
    | 1 => exact ⟨mem, rfl, Exchanged.refl _ _ _ _, fun k hk hkr => by omega⟩
    | n + 2 =>
      have hat : 0 ≤ l ∧ l < A.nmemb.toNat := by omega
      obtain ⟨m, hmin, hplace, hle, hall⟩ := findMin_least hc mem (n := n + 1) (t := l + 1) hat
        (by omega) (by omega)
      have hmat : 0 ≤ m ∧ m < A.nmemb.toNat := by omega
      obtain ⟨mem₁, hswap, hentry, hout⟩ := iswapAt_idx hfit mem hmat hat
      obtain ⟨mem₂, hrest, hex, hord⟩ := ih (n + 1) (by omega) mem₁ (l := l + 1) (by omega) (by omega)
      have hfirst : Exchanged A l (l + (n + 2 : Nat) - 1) mem mem₁ := by
        refine ⟨?_, hout⟩
        rw [hentry]
        exact rearranged_swap (by omega) (by omega)
      refine ⟨mem₂, ?_, hfirst.trans (hex.mono (by omega) (by omega)), ?_⟩
      · simp only [isort, idx_next, hmin, Option.bind_eq_bind, Option.bind_some, hswap]
        exact hrest
      · intro k hk hkr
        by_cases hkl : k = l
        · -- the least element stands at `l`, and what follows comes from behind it
          obtain ⟨x, hlx, hxr, hx⟩ := hex.entries.origin (k := l + 1) (by omega) (by omega)
          have hleast : entry A mem₂ l = entry A mem m := by
            rw [hex.entries.outside (Or.inl (by omega)), hentry, Function.comp_apply,
              Equiv.swap_apply_right]
          rw [hkl, hx, hleast, hentry, Function.comp_apply, Equiv.swap_apply_def]
          split_ifs
          · exact hle
          · omega
          · exact hall x (by omega) (by omega)
        · exact hord k (by omega) (by omega)

end Selection

end Pittsfield.Libc
