import Mathlib.Logic.Function.Basic
import Pittsfield.Libc.Compare

/-!
# `strlen`, `strncpy` and `strncat` of `libc.h`

`strncat` appends with `strncpy`, which ends what it copies with a NUL only if there is
room for it and fills the room that is left with NULs. So the result is terminated, and the
bytes behind it are kept, only where NULs stood before in the places in question.
-/

namespace Pittsfield.Libc

open Pittsfield.Region

/-- The loop of `strlen`, none if it takes more than the given number of rounds. -/
def strlenFrom (mem : Word → BitVec 8) : Nat → Word → Word → Option Word
  | 0, _, _ => none
  | n + 1, s, i => if mem s = 0 then some i else strlenFrom mem n (s + 1) (i + 1)

def strlen (mem : Word → BitVec 8) (fuel : Nat) (s : Word) : Option Word := strlenFrom mem fuel s 0

/-- The first loop of `strncpy`, with `n` bytes to go: the index at which it stops. -/
def copyFrom (buf src : Word) : Nat → Nat → (Word → BitVec 8) → Nat × (Word → BitVec 8)
  | 0, i, mem => (i, mem)
  | n + 1, i, mem =>
    let mem := Function.update mem (buf + BitVec.ofNat 32 i) (mem (src + BitVec.ofNat 32 i))
    if mem (src + BitVec.ofNat 32 i) = 0 then (i, mem) else copyFrom buf src n (i + 1) mem

/-- The second loop, with `n` bytes to go. -/
def zeroFrom (buf : Word) : Nat → Nat → (Word → BitVec 8) → Word → BitVec 8
  | 0, _, mem => mem
  | n + 1, i, mem => zeroFrom buf n (i + 1) (Function.update mem (buf + BitVec.ofNat 32 i) 0)

/-- The memory after `strncpy`; it returns `buf`. -/
def strncpy (mem : Word → BitVec 8) (buf src limit : Word) : Word × (Word → BitVec 8) :=
  let stop := copyFrom buf src limit.toNat 0 mem
  (buf, zeroFrom buf (limit.toNat - stop.1) stop.1 stop.2)

def strncat (fuel : Nat) (mem : Word → BitVec 8) (buf extra n : Word) :
    Option (Word × (Word → BitVec 8)) := do
  let len ← strlen mem fuel buf
  let p := buf + len
  return (buf, (strncpy mem p extra n).2)

section Loops

variable {mem : Word → BitVec 8} {p q buf src : Word} {i m n e : Nat}

theorem strlenFrom_eq (h : HasLength mem p n) {fuel : Nat} (hf : n < fuel) (i : Word) :
    strlenFrom mem fuel p i = some (i + BitVec.ofNat 32 n) := by
  induction fuel generalizing p n i with
  | zero => exact absurd hf (Nat.not_lt_zero n)
  | succ fuel ih =>
    rw [strlenFrom]
    cases n with
    | zero => rw [if_pos (hasLength_zero.mp h), BitVec.add_zero]
    | succ n =>
      obtain ⟨hne, htail⟩ := hasLength_succ.mp h
      rw [if_neg hne, ih htail (Nat.lt_of_succ_lt_succ hf), BitVec.ofNat_add, BitVec.add_assoc,
        BitVec.add_comm 1]
      rfl

theorem strlen_eq (h : HasLength mem p n) {fuel : Nat} (hf : n < fuel) :
    strlen mem fuel p = some (BitVec.ofNat 32 n) := by
  rw [strlen, strlenFrom_eq h hf]
  exact congrArg some (BitVec.zero_add _)

/-- The memory with `k` bytes copied from `src` to `p`. -/
def copied (mem : Word → BitVec 8) (p src : Word) (k : Nat) : Word → BitVec 8 := fun x =>
  if (x - p).toNat < k then mem (src + (x - p)) else mem x

theorem copied_zero : copied mem p src 0 = mem := rfl

theorem offset_ofNat (hi : i < 2 ^ 32) : (p + BitVec.ofNat 32 i - p).toNat = i := by
  rw [BitVec.add_comm, BitVec.add_sub_cancel, BitVec.toNat_ofNat, Nat.mod_eq_of_lt hi]

theorem eq_of_offset {x : Word} (h : (x - p).toNat = i) : x = p + BitVec.ofNat 32 i := by
  rw [← h, BitVec.ofNat_toNat, BitVec.setWidth_eq, BitVec.add_comm, BitVec.sub_add_cancel]

/-- What is still to be read has not been overwritten, if the string does not contain the
place that it is copied to. -/
theorem copied_source (hp : ∀ j ≤ e, src + BitVec.ofNat 32 j ≠ p) (hi : i ≤ e) :
    copied mem p src i (src + BitVec.ofNat 32 i) = mem (src + BitVec.ofNat 32 i) := by
  apply if_neg
  intro hlt
  -- the distance from `p` back to `src` would be one of the indices
  have hx := eq_of_offset (x := src + BitVec.ofNat 32 i) (p := p) rfl
  generalize (src + BitVec.ofNat 32 i - p).toNat = d at hlt hx
  have hsum : BitVec.ofNat 32 i = BitVec.ofNat 32 (i - d) + BitVec.ofNat 32 d := by
    rw [← BitVec.ofNat_add]
    congr 1
    omega
  rw [hsum, ← BitVec.add_assoc] at hx
  exact hp (i - d) (by omega) ((BitVec.add_left_inj _).mp hx)

theorem update_copied (hi : i < 2 ^ 32) : Function.update (copied mem p src i) (p + BitVec.ofNat 32 i)
    (mem (src + BitVec.ofNat 32 i)) = copied mem p src (i + 1) := by
  funext x
  rw [Function.update_apply, copied, copied]
  by_cases hx : x = p + BitVec.ofNat 32 i
  · have hoff : (x - p).toNat = i := by rw [hx, offset_ofNat hi]
    have hword : x - p = BitVec.ofNat 32 i := by rw [← hoff, BitVec.ofNat_toNat, BitVec.setWidth_eq]
    rw [if_pos hx, if_pos (by omega), hword]
  · have hoff : (x - p).toNat ≠ i := fun h => hx (eq_of_offset h)
    rw [if_neg hx]
    by_cases hlt : (x - p).toNat < i
    · rw [if_pos hlt, if_pos (by omega)]
    · rw [if_neg hlt, if_neg (by omega)]

/-- The first loop copies up to the limit, or up to the NUL. -/
theorem copyFrom_eq (he : HasLength mem src e) (hp : ∀ j ≤ e, src + BitVec.ofNat 32 j ≠ p) (hi : i ≤ e) :
    copyFrom p src n i (copied mem p src i) =
      if i + n ≤ e then (i + n, copied mem p src (i + n)) else (e, copied mem p src (e + 1)) := by
  have hlt := he.lt
  induction n generalizing i with
  | zero => rw [copyFrom, Nat.add_zero, if_pos hi]
  | succ n ih =>
    have hread : copied mem p src (i + 1) (src + BitVec.ofNat 32 i) = mem (src + BitVec.ofNat 32 i) := by
      rw [← update_copied (by omega), Function.update_apply, copied_source hp hi, ite_self]
    simp only [copyFrom]
    rw [copied_source hp hi, update_copied (by omega), hread]
    by_cases hend : i = e
    · rw [hend, if_pos he.nul, if_neg (by omega)]
    · rw [if_neg (he.chars i (by omega)), ih (by omega), Nat.add_right_comm, Nat.add_assoc]

/-- The second loop fills the places from `i` on. -/
theorem zeroFrom_apply (h : i + n ≤ 2 ^ 32) (x : Word) : zeroFrom p n i mem x =
    if i ≤ (x - p).toNat ∧ (x - p).toNat < i + n then 0 else mem x := by
  induction n generalizing i mem with
  | zero => rw [zeroFrom, if_neg (by omega)]
  | succ n ih =>
    rw [zeroFrom, ih (by omega), Function.update_apply]
    by_cases hx : x = p + BitVec.ofNat 32 i
    · have hoff : (x - p).toNat = i := by rw [hx, offset_ofNat (by omega)]
      rw [if_pos hx, ite_self, if_pos (by omega)]
    · have hoff : (x - p).toNat ≠ i := fun h => hx (eq_of_offset h)
      rw [if_neg hx]
      by_cases hin : i ≤ (x - p).toNat ∧ (x - p).toNat < i + (n + 1)
      · rw [if_pos hin, if_pos (by omega)]
      · rw [if_neg hin, if_neg (by omega)]

/-- `strncpy` copies the characters that fit and puts NULs in all places that are left. -/
theorem strncpy_apply (he : HasLength mem src e) (hp : ∀ j ≤ e, src + BitVec.ofNat 32 j ≠ p)
    (limit x : Word) : (strncpy mem p src limit).2 x =
      if (x - p).toNat < min limit.toNat e then mem (src + (x - p))
      else if (x - p).toNat < limit.toNat then 0 else mem x := by
  have hl := limit.isLt
  have hstop := copyFrom_eq (n := limit.toNat) he hp (Nat.zero_le e)
  rw [copied_zero, Nat.zero_add] at hstop
  rw [strncpy, hstop]
  by_cases hle : limit.toNat ≤ e
  · rw [if_pos hle, Nat.min_eq_left hle]
    simp only [Nat.sub_self, zeroFrom, copied]
    by_cases hlt : (x - p).toNat < limit.toNat
    · rw [if_pos hlt, if_pos hlt]
    · rw [if_neg hlt, if_neg hlt, if_neg hlt]
  · rw [if_neg hle, Nat.min_eq_right (by omega)]
    show zeroFrom p (limit.toNat - e) e (copied mem p src (e + 1)) x = _
    rw [zeroFrom_apply (by omega), copied]
    by_cases hlow : (x - p).toNat < e
    · rw [if_neg (by omega), if_pos (by omega), if_pos hlow]
    · rw [if_neg hlow]
      by_cases hlt : (x - p).toNat < limit.toNat
      · rw [if_pos (by omega), if_pos hlt]
      · rw [if_neg (by omega), if_neg (by omega), if_neg hlt]

end Loops

section Append

variable {mem : Word → BitVec 8} {buf extra : Word} {len e : Nat}

/-- `buf` holds the old string, the first `n` characters of `extra` or all of them, and a NUL;
the bytes behind are kept. -/
structure Appended (mem mem' : Word → BitVec 8) (buf extra : Word) (len e n : Nat) : Prop where
  old : ∀ i < len, mem' (buf + BitVec.ofNat 32 i) = mem (buf + BitVec.ofNat 32 i)
  new : ∀ i < min n e, mem' (buf + BitVec.ofNat 32 (len + i)) = mem (extra + BitVec.ofNat 32 i)
  nul : mem' (buf + BitVec.ofNat 32 (len + min n e)) = 0
  rest : ∀ x, len + min n e < (x - buf).toNat → mem' x = mem x

/-- Where `strncat` writes no NUL there is one, and where it writes too many there were as many. -/
def NulsThere (mem : Word → BitVec 8) (buf : Word) (len e n : Nat) : Prop :=
  if n ≤ e then mem (buf + BitVec.ofNat 32 (len + n)) = 0
  else ∀ i, e < i → i < n → mem (buf + BitVec.ofNat 32 (len + i)) = 0

/-- The two strings do not overlap. -/
def StringsApart (buf extra : Word) (len e : Nat) : Prop :=
  ∀ i ≤ len, ∀ j ≤ e, buf + BitVec.ofNat 32 i ≠ extra + BitVec.ofNat 32 j

/-- Two strings that do not overlap fit into the memory together. -/
theorem StringsApart.fit (h : StringsApart buf extra len e) : len + e + 2 ≤ 2 ^ 32 := by
  have hbuf : extra = buf + BitVec.ofNat 32 (extra - buf).toNat := eq_of_offset rfl
  have hextra : buf = extra + BitVec.ofNat 32 (buf - extra).toNat := eq_of_offset rfl
  have hlen : len < (extra - buf).toNat := by
    apply Nat.lt_of_not_le
    intro hle
    refine h _ hle 0 (Nat.zero_le e) ?_
    rw [← hbuf, BitVec.add_zero]
  have hlow : e < (buf - extra).toNat := by
    apply Nat.lt_of_not_le
    intro hle
    refine h 0 (Nat.zero_le len) _ hle ?_
    rw [← hextra, BitVec.add_zero]
  have hsum : (extra - buf).toNat + (buf - extra).toNat ≤ 2 ^ 32 := by
    rw [BitVec.toNat_sub, BitVec.toNat_sub]
    omega
  omega

/-- What `strncat` does to the byte that stands `i` bytes behind the old string. -/
theorem strncat_eq (hbuf : HasLength mem buf len) (hextra : HasLength mem extra e)
    (hapart : StringsApart buf extra len e) (n : Word) :
    ∃ mem', (∀ fuel, len < fuel → strncat fuel mem buf extra n = some (buf, mem')) ∧
      ∀ i < 2 ^ 32, mem' (buf + BitVec.ofNat 32 (len + i)) =
        if i < min n.toNat e then mem (extra + BitVec.ofNat 32 i)
        else if i < n.toNat then 0 else mem (buf + BitVec.ofNat 32 (len + i)) := by
  refine ⟨(strncpy mem (buf + BitVec.ofNat 32 len) extra n).2, ?_, ?_⟩
  · intro fuel hf
    rw [strncat, strlen_eq hbuf hf]
    rfl
  · intro i hi
    have hword : buf + BitVec.ofNat 32 (len + i) - (buf + BitVec.ofNat 32 len) = BitVec.ofNat 32 i := by
      rw [BitVec.ofNat_add, ← BitVec.add_assoc, BitVec.add_comm, BitVec.add_sub_cancel]
    rw [strncpy_apply hextra (fun j hj h => hapart len le_rfl j hj h.symm), hword, BitVec.toNat_ofNat,
      Nat.mod_eq_of_lt hi]

theorem ofNat_wrap (k : Nat) : BitVec.ofNat 32 (k + 2 ^ 32) = BitVec.ofNat 32 k := by
  apply BitVec.eq_of_toNat_eq
  rw [BitVec.toNat_ofNat, BitVec.toNat_ofNat, Nat.add_mod_right]

variable (buf) in
/-- Every place is some number of bytes behind the old string. -/
theorem exists_behind (hlen : len < 2 ^ 32) (x : Word) : ∃ i < 2 ^ 32,
    x = buf + BitVec.ofNat 32 (len + i) ∧
      ((x - buf).toNat = len + i ∨ (x - buf).toNat < len ∧ len + i = (x - buf).toNat + 2 ^ 32) := by
  have hx := (x - buf).isLt
  by_cases hle : len ≤ (x - buf).toNat
  · refine ⟨(x - buf).toNat - len, by omega, eq_of_offset (by omega), Or.inl (by omega)⟩
  · refine ⟨(x - buf).toNat + 2 ^ 32 - len, by omega, ?_, Or.inr (by omega)⟩
    rw [Nat.add_sub_cancel' (by omega), ofNat_wrap]
    exact eq_of_offset rfl

/-- `strncat` appends and terminates exactly where the NULs it leaves out are there already and
those that it writes too many change nothing. -/
theorem strncat_appends_iff (hbuf : HasLength mem buf len) (hextra : HasLength mem extra e)
    (hapart : StringsApart buf extra len e) (n : Word) :
    ∃ mem', (∀ fuel, len < fuel → strncat fuel mem buf extra n = some (buf, mem')) ∧
      (Appended mem mem' buf extra len e n.toNat ↔ NulsThere mem buf len e n.toNat) := by
  obtain ⟨mem', hrun, hmem⟩ := strncat_eq hbuf hextra hapart n
  refine ⟨mem', hrun, ?_⟩
  have hfit := hapart.fit
  have hn := n.isLt
  rw [NulsThere]
  constructor
  · intro h
    split
    · rename_i hle
      have hnul := h.nul
      rw [Nat.min_eq_left hle, hmem _ hn, if_neg (by omega), if_neg (by omega)] at hnul
      exact hnul
    · rename_i hle
      intro i hlow hhigh
      have hzero := hmem i (by omega)
      rw [if_neg (by omega), if_pos hhigh] at hzero
      rw [← hzero]
      apply Eq.symm
      by_cases hwrap : len + i < 2 ^ 32
      · apply h.rest
        rw [offset_ofNat hwrap]
        omega
      · have hold := h.old (len + i - 2 ^ 32) (by omega)
        rwa [← ofNat_wrap, Nat.sub_add_cancel (Nat.le_of_not_lt hwrap)] at hold
  · intro h
    have hkeep : ∀ i, min n.toNat e < i → i < 2 ^ 32 →
        mem' (buf + BitVec.ofNat 32 (len + i)) = mem (buf + BitVec.ofNat 32 (len + i)) := by
      intro i hlow hi
      rw [hmem i hi, if_neg (by omega)]
      by_cases hlt : i < n.toNat
      · rw [if_neg (by omega : ¬ n.toNat ≤ e)] at h
        rw [if_pos hlt, h i (by omega) hlt]
      · rw [if_neg hlt]
    refine ⟨?_, ?_, ?_, ?_⟩
    · intro i hi
      have hk := hkeep (i + 2 ^ 32 - len) (by omega) (by omega)
      rwa [Nat.add_sub_cancel' (by omega), ofNat_wrap] at hk
    · intro i hi
      rw [hmem i (by omega), if_pos hi]
    · rw [hmem _ (by omega), if_neg (by omega)]
      by_cases hle : n.toNat ≤ e
      · rw [if_pos hle] at h
        rw [Nat.min_eq_left hle, if_neg (by omega)]
        exact h
      · rw [if_pos (by omega)]
    · intro x hx
      obtain ⟨i, hi, hat, hoff⟩ := exists_behind buf (by omega : len < 2 ^ 32) x
      rw [hat]
      exact hkeep i (by omega) hi

/-- An empty string in a memory of ones, with the string `a` to append at 16. -/
def emptyAndA : Word → BitVec 8 := fun x =>
  if x = 0 then 0 else if x = 16 then 0x61 else if x = 17 then 0 else 0xff

theorem apart_sixteen : StringsApart 0 16 0 1 := by
  intro i hi j hj
  rw [Nat.le_zero.mp hi]
  by_cases hzero : j = 0
  · rw [hzero]
    decide
  · rw [show j = 1 by omega]
    decide

/-- Two characters may be appended, the string `a` ends with its NUL. -/
theorem strncat_appends_a : ∃ mem', (∀ fuel, 0 < fuel → strncat fuel emptyAndA 0 16 2 = some (0, mem')) ∧
    (Appended emptyAndA mem' 0 16 0 1 2 ↔ NulsThere emptyAndA 0 0 1 2) :=
  strncat_appends_iff (hasLength_zero.mpr rfl)
    (hasLength_succ.mpr ⟨by decide, hasLength_zero.mpr rfl⟩)
    apart_sixteen 2

/-- One character may be appended: no NUL is written behind it. -/
theorem strncat_unterminated : ¬ ∀ (mem : Word → BitVec 8) (buf extra : Word) (len e : Nat) (n : Word),
    HasLength mem buf len → HasLength mem extra e → StringsApart buf extra len e →
      ∃ mem', (∀ fuel, len < fuel → strncat fuel mem buf extra n = some (buf, mem')) ∧
        Appended mem mem' buf extra len e n.toNat := by
  intro h
  obtain ⟨mem', hrun, happ⟩ := h emptyAndA 0 16 0 1 1 (hasLength_zero.mpr rfl)
    (hasLength_succ.mpr ⟨by decide, hasLength_zero.mpr rfl⟩)
    apart_sixteen
  have hrun := hrun 1 Nat.one_pos
  have hmem : mem' 1 = 0xff := by
    rw [← (Prod.mk.inj (Option.some.inj hrun)).2]
    decide
  have hnul : mem' 1 = 0 := happ.nul
  rw [hmem] at hnul
  exact absurd hnul (by decide)

end Append

end Pittsfield.Libc
