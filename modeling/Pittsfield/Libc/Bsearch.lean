import Pittsfield.Foundation.Bisection
import Pittsfield.Libc.Qsort

/-!
# `bsearch` of `libc.c`

The loop halves the number of elements and moves the base pointer up behind elements that
are too small. The comparison function gets the key and an element, which need not be of
one type. As in `qsort`, an access of the array is refused where the pointer is not one to
an element.
-/

namespace Pittsfield.Libc

open Pittsfield.Foundation
open Pittsfield.Region
open Pittsfield.Machine

section

variable {κ : Type} (A : Vec) (compar : κ → List (BitVec 8) → Int) (key : κ)
variable (mem : Word → BitVec 8)

/-- The comparison function on the key and the element at a pointer. -/
def comparKey (p : Word) : Option Int :=
  if A.Elem p then some (compar key (bytes mem A.size.toNat p)) else none

/-- The loop of `bsearch`; the null pointer is `none`. -/
def bsearchFrom : Nat → (base nmemb : Word) → Option (Option Word)
  | 0, _, _ => none
  | n + 1, base, nmemb =>
    if nmemb ≠ 0 then do
      let m := nmemb / 2
      let p := base + m * A.size
      let tmp ← comparKey A compar key mem p
      if tmp < 0 then bsearchFrom n base m
      else if tmp > 0 then bsearchFrom n (p + A.size) (nmemb - (m + 1))
      else return some p
    else return none

def bsearch (fuel : Nat) : Option (Option Word) :=
  bsearchFrom A compar key mem fuel A.base A.nmemb

/-- What the comparison function says of the key and the element with the index `k`. -/
def keySign (k : Nat) : Int := compar key (entry A mem k)

end

section

variable {κ : Type} {A : Vec} {compar : κ → List (BitVec 8) → Int} {key : κ}
variable {mem : Word → BitVec 8} {fuel lo n : Nat}

theorem comparKey_idx {k : Nat} (hk : k < A.nmemb.toNat) :
    comparKey A compar key mem (idx A.base A.size k) = some (keySign A compar key mem k) := by
  have hat : (0 : Int) ≤ k ∧ (k : Int) < A.nmemb.toNat := by omega
  rw [comparKey, if_pos (elem_idx hat), keySign, entry, if_pos hat]

theorem idx_add (base size : Word) (k m : Nat) :
    idx base size k + BitVec.ofNat 32 m * size = idx base size (k + m : Nat) := by
  rw [idx, idx, BitVec.ofInt_natCast, BitVec.ofInt_natCast, BitVec.ofNat_add, BitVec.add_mul,
    BitVec.add_assoc]

/-- The loop on a part of the array is the search by halving among the signs of its elements. -/
theorem bsearchFrom_eq (hn : lo + n ≤ A.nmemb.toNat) :
    bsearchFrom A compar key mem fuel (idx A.base A.size lo) (BitVec.ofNat 32 n) =
      (bisect (keySign A compar key mem) fuel lo n).map (·.map fun k => idx A.base A.size (k : Nat)) := by
  have hlt := A.nmemb.isLt
  induction fuel generalizing lo n with
  | zero => rfl
  | succ fuel ih =>
    have hval : (BitVec.ofNat 32 n).toNat = n := by
      rw [BitVec.toNat_ofNat, Nat.mod_eq_of_lt (by omega)]
    rw [bsearchFrom, bisect]
    by_cases hzero : n = 0
    · subst hzero
      rfl
    have hne : BitVec.ofNat 32 n ≠ 0 := by
      intro h
      have hnat := congrArg BitVec.toNat h
      rw [hval] at hnat
      exact hzero hnat
    have hhalf : BitVec.ofNat 32 n / 2 = BitVec.ofNat 32 (n / 2) := by
      apply BitVec.eq_of_toNat_eq
      rw [BitVec.toNat_udiv, hval, BitVec.toNat_ofNat, Nat.mod_eq_of_lt (by omega)]
      rfl
    have hrest : BitVec.ofNat 32 n - (BitVec.ofNat 32 (n / 2) + 1) =
        BitVec.ofNat 32 (n - (n / 2 + 1)) := by
      rw [show (1 : Word) = BitVec.ofNat 32 1 from rfl, ← BitVec.ofNat_add,
        ← BitVec.ofNat_sub_ofNat_of_le _ _ (by omega) (by omega)]
    rw [if_pos hne, if_neg hzero]
    simp only [hhalf, hrest]
    rw [idx_add, comparKey_idx (by omega), Option.bind_eq_bind, Option.bind_some]
    by_cases hneg : keySign A compar key mem (lo + n / 2) < 0
    · rw [if_pos hneg, if_pos hneg, ih (by omega)]
    rw [if_neg hneg, if_neg hneg]
    by_cases hpos : 0 < keySign A compar key mem (lo + n / 2)
    · rw [if_pos hpos, if_pos hpos, idx_next, ← ih (by omega)]
      rfl
    · rw [if_neg hpos, if_neg hpos]
      rfl

/-- What `bsearch` is for: a pointer to an element that equals the key, or the null pointer
if there is none. -/
def FindsKey (A : Vec) (compar : κ → List (BitVec 8) → Int) (key : κ) (mem : Word → BitVec 8) :
    Option Word → Prop
  | some p => ∃ k < A.nmemb.toNat, p = idx A.base A.size (k : Nat) ∧
      compar key (entry A mem (k : Nat)) = 0
  | none => ∀ k < A.nmemb.toNat, compar key (entry A mem (k : Nat)) ≠ 0

/-- In an array whose elements that are too small come first and those that are too great
last, `bsearch` finds an element that equals the key if there is one. It looks at elements
only, and at no more than the number of binary digits of their number. -/
theorem bsearch_finds (hfalls : Falls (keySign A compar key mem) 0 A.nmemb.toNat)
    (hf : A.nmemb.toNat < 2 ^ fuel) :
    ∃ r, bsearch A compar key mem (fuel + 1) = some r ∧ FindsKey A compar key mem r := by
  obtain ⟨r, hr, hmeets⟩ := bisect_meets hfalls hf
  have hbase : A.base = idx A.base A.size (0 : Nat) := by simp [idx]
  have hnmemb : A.nmemb = BitVec.ofNat 32 A.nmemb.toNat := by
    rw [BitVec.ofNat_toNat, BitVec.setWidth_eq]
  refine ⟨r.map fun k => idx A.base A.size (k : Nat), ?_, ?_⟩
  · have hloop : bsearchFrom A compar key mem (fuel + 1) (idx A.base A.size (0 : Nat))
        (BitVec.ofNat 32 A.nmemb.toNat) = _ := bsearchFrom_eq (by omega)
    rw [← hbase, ← hnmemb, hr] at hloop
    exact hloop
  · cases r with
    | some k => exact ⟨k, by have := hmeets.2.1; omega, rfl, hmeets.2.2⟩
    | none => exact fun k hk => hmeets k (Nat.zero_le k) (by omega)

end

section Sorted

variable {A : Vec} {compar : List (BitVec 8) → List (BitVec 8) → Int} {mem mem' : Word → BitVec 8}

/-- In a sorted array no element compares greater than a later one. -/
theorem Sorted.le (hc : Std.TransCmp fun a b => compare (compar a b) 0)
    (h : Sorted A compar mem mem') {i j : Nat} (hij : i ≤ j) (hj : j < A.nmemb.toNat) :
    compar (entry A mem' (i : Nat)) (entry A mem' (j : Nat)) ≤ 0 := by
  induction j with
  | zero =>
    obtain rfl : i = 0 := by omega
    exact (compar_self hc).le
  | succ j ih =>
    by_cases he : i = j + 1
    · rw [he]
      exact (compar_self hc).le
    · exact compar_trans hc (ih (by omega) (by omega)) (h.ordered j hj)

theorem Sorted.falls (hc : Std.TransCmp fun a b => compare (compar a b) 0)
    (h : Sorted A compar mem mem') (key : List (BitVec 8)) :
    Falls (keySign A compar key mem') 0 A.nmemb.toNat := by
  intro i j _ hij hj
  have hle := h.le hc hij.le (by omega)
  refine ⟨fun hpos => ?_, fun hneg => ?_⟩
  · apply Int.not_le.mp
    intro hi
    exact absurd hpos (Int.not_lt.mpr (compar_trans hc hi hle))
  · apply Int.not_le.mp
    intro hj'
    have hback : compar (entry A mem' j) key ≤ 0 :=
      Int.not_lt.mp fun h => absurd ((compar_neg hc).mpr h) (Int.not_lt.mpr hj')
    exact absurd ((compar_neg hc).mp hneg) (Int.not_lt.mpr (compar_trans hc hle hback))

/-- Sorting keeps the elements. -/
theorem Sorted.mem_iff (h : Sorted A compar mem mem') (P : List (BitVec 8) → Prop) :
    (∃ k < A.nmemb.toNat, P (entry A mem' (k : Nat))) ↔
      ∃ k < A.nmemb.toNat, P (entry A mem (k : Nat)) := by
  have hlist : ∀ m : Word → BitVec 8, (∃ k < A.nmemb.toNat, P (entry A m (k : Nat))) ↔
      ∃ e ∈ entries A.nmemb.toNat (entry A m), P e := by
    intro m
    simp [entries]
  rw [hlist, hlist]
  exact exists_congr fun e => and_congr_left' h.perm.mem_iff

/-- What `qsort` has sorted, `bsearch` finds: it returns a pointer to an element that equals
the key if one of the elements did before they were sorted, and the null pointer otherwise. -/
theorem bsearch_sorted (hc : Std.TransCmp fun a b => compare (compar a b) 0)
    (h : Sorted A compar mem mem') (key : List (BitVec 8)) :
    ∃ r, bsearch A compar key mem' 33 = some r ∧ FindsKey A compar key mem' r ∧
      (r.isSome ↔ ∃ k < A.nmemb.toNat, compar key (entry A mem (k : Nat)) = 0) := by
  obtain ⟨r, hr, hfinds⟩ := bsearch_finds (h.falls hc key) A.nmemb.isLt
  refine ⟨r, hr, hfinds, ?_⟩
  rw [← h.mem_iff fun e => compar key e = 0]
  cases r with
  | some p =>
    obtain ⟨k, hk, -, hzero⟩ := hfinds
    exact ⟨fun _ => ⟨k, hk, hzero⟩, fun _ => rfl⟩
  | none =>
    constructor
    · intro hsome
      cases hsome
    · intro hex
      obtain ⟨k, hk, hzero⟩ := hex
      exact absurd hzero (hfinds k hk)

end Sorted

/-- Five bytes in order, from the address 8 on. -/
def fiveBytes : Word → BitVec 8 := fun a => [2, 3, 3, 7, 9].getD (a.toNat - 8) 0

/-- The array is searched for the byte 7. -/
theorem bsearch_seven : ∃ r, bsearch ⟨8, 5, 1⟩ byFirst [7] fiveBytes 33 = some r ∧
    FindsKey ⟨8, 5, 1⟩ byFirst [7] fiveBytes r ∧
    (r.isSome ↔ ∃ k < 5, byFirst [7] (entry ⟨8, 5, 1⟩ fiveBytes (k : Nat)) = 0) := by
  have hc : Std.TransCmp fun a b => compare (byFirst a b) 0 :=
    transCmp_of_eq (c := compare) (fun a => ((a.headD 0).toNat : Int)) fun _ _ => compare_sub _ _
  have hord : ∀ k < 4, byFirst (entry ⟨8, 5, 1⟩ fiveBytes (k : Nat))
      (entry ⟨8, 5, 1⟩ fiveBytes (k + 1 : Nat)) ≤ 0 := by decide
  have hsorted : Sorted ⟨8, 5, 1⟩ byFirst fiveBytes fiveBytes :=
    ⟨List.Perm.refl _, fun k hk => hord k (Nat.lt_of_succ_lt_succ hk), fun _ _ => rfl⟩
  exact bsearch_sorted hc hsorted [7]

end Pittsfield.Libc
