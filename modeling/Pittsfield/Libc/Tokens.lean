import Pittsfield.Foundation.Fields
import Pittsfield.Libc.Sort
import Pittsfield.Libc.Strings

/-!
# `strspn`, `strcspn`, `strpbrk` and `strtok` of `libc.c`

The first three look every character of a string up in a set. `strtok` cuts a string into
its fields in place: each call skips the separators, ends the field that follows with a NUL
and remembers where it has stopped.
-/

namespace Pittsfield.Libc

open Pittsfield.Foundation
open Pittsfield.Region
open Pittsfield.Machine

section

variable (mem : Word → BitVec 8)

/-- The loop over the set, from the index `i` on with `n` characters to go: whether it holds `c`. -/
def inSetFrom (set : Word) (c : BitVec 8) : Nat → Nat → Bool
  | _, 0 => false
  | i, n + 1 => if c = mem (set + BitVec.ofNat 32 i) then true else inSetFrom set c (i + 1) n

/-- The same with the length of the set in an `int`. -/
def inSet (set sl : Word) (c : BitVec 8) : Bool := inSetFrom mem set c 0 sl.toInt.toNat

/-- The loop of `strspn`, and with `false` that of `strcspn`: it counts the characters that
are in the set, or that are not. -/
def spanFrom (set sl : Word) (inside : Bool) : Nat → Word → Word → Option Word
  | 0, _, _ => none
  | n + 1, s, len =>
    if mem s ≠ 0 then
      if inSet mem set sl (mem s) = inside then spanFrom set sl inside n (s + 1) (len + 1) else some len
    else some len

def strspn (fuel : Nat) (s set : Word) : Option Word := do
  let sl ← strlen mem fuel set
  spanFrom mem set sl true fuel s 0

def strcspn (fuel : Nat) (s reject : Word) : Option Word := do
  let rl ← strlen mem fuel reject
  spanFrom mem reject rl false fuel s 0

/-- The loop of `strpbrk`; the null pointer is `none`. -/
def strpbrkFrom (accept len : Word) : Nat → Word → Option (Option Word)
  | 0, _ => none
  | n + 1, s =>
    if mem s ≠ 0 then if inSet mem accept len (mem s) then some (some s) else strpbrkFrom accept len n (s + 1)
    else some none

def strpbrk (fuel : Nat) (s accept : Word) : Option (Option Word) := do
  let len ← strlen mem fuel accept
  strpbrkFrom mem accept len fuel s

end

/-- What a call of `strtok` returns, the new `strtok_pos`, and the memory behind it. -/
structure Token where
  tok : Word
  pos : Word
  mem : Word → BitVec 8

/-- `strtok_r`, with the pointer that `ptrptr` points to as `pos`. -/
def strtok_r (fuel : Nat) (s delim pos : Word) (mem : Word → BitVec 8) : Option Token := do
  let s := if s = 0 then pos else s
  let n ← strspn mem fuel s delim
  let s := s + n
  if mem s ≠ 0 then
    let tmp := s
    let n ← strcspn mem fuel s delim
    let s := s + n
    if mem s ≠ 0 then return ⟨tmp, s + 1, Function.update mem s 0⟩ else return ⟨tmp, s, mem⟩
  else return ⟨0, s, mem⟩

/-- The calls `strtok(s, delim)`, `strtok(0, delim)` and so on up to the first null pointer:
the pointers they return and the state behind them. -/
def strtokAll (fuel : Nat) (delim : Word) : Nat → Word → Word → (Word → BitVec 8) →
    Option (List Word × Token)
  | 0, _, _, _ => none
  | n + 1, s, pos, mem => do
    let t ← strtok_r fuel s delim pos mem
    if t.tok = 0 then return ([], t)
    else
      let (ps, t') ← strtokAll fuel delim n 0 t.pos t.mem
      return (t.tok :: ps, t')

/-- The string at the address is `u`. -/
def StringAt (mem : Word → BitVec 8) : Word → List (BitVec 8) → Prop
  | p, [] => mem p = 0
  | p, c :: u => mem p = c ∧ c ≠ 0 ∧ StringAt mem (p + 1) u

section Strings

variable {mem mem' : Word → BitVec 8} {p q : Word} {u v d : List (BitVec 8)} {fuel : Nat}

theorem StringAt.hasLength (h : StringAt mem p u) : HasLength mem p u.length := by
  induction u generalizing p with
  | nil => exact hasLength_zero.mpr h
  | cons c u ih =>
    obtain ⟨hc, hne, htail⟩ := h
    exact hasLength_succ.mpr ⟨hc ▸ hne, ih htail⟩

theorem StringAt.bytes (h : StringAt mem p u) : bytes mem u.length p = u := by
  induction u generalizing p with
  | nil => rfl
  | cons c u ih =>
    obtain ⟨hc, -, htail⟩ := h
    rw [List.length_cons, Libc.bytes, hc, ih htail]

/-- A part of a string behind the front `u`. -/
theorem StringAt.drop (h : StringAt mem p (u ++ v)) : StringAt mem (p + BitVec.ofNat 32 u.length) v := by
  induction u generalizing p with
  | nil => rwa [List.length_nil, BitVec.add_zero]
  | cons c u ih =>
    rw [List.length_cons, ← Cpu.add_one_ofNat]
    exact ih h.2.2

/-- Memory that agrees in the string and its NUL holds the same string. -/
theorem StringAt.congr (h : StringAt mem p u)
    (heq : ∀ k ≤ u.length, mem' (p + BitVec.ofNat 32 k) = mem (p + BitVec.ofNat 32 k)) :
    StringAt mem' p u := by
  have hfirst := heq 0 (Nat.zero_le _)
  rw [BitVec.add_zero] at hfirst
  induction u generalizing p with
  | nil => exact hfirst.trans h
  | cons c u ih =>
    obtain ⟨hc, hne, htail⟩ := h
    have hnext : ∀ k ≤ u.length,
        mem' (p + 1 + BitVec.ofNat 32 k) = mem (p + 1 + BitVec.ofNat 32 k) := by
      intro k hk
      rw [Cpu.add_one_ofNat]
      exact heq (k + 1) (Nat.succ_le_succ hk)
    have hsecond := hnext 0 (Nat.zero_le _)
    rw [BitVec.add_zero] at hsecond
    exact ⟨hfirst.trans hc, hne, ih htail hnext hsecond⟩

/-- The front of a string is the string there, once its end is written. -/
theorem StringAt.cut (h : StringAt mem p (u ++ v)) :
    StringAt (Function.update mem (p + BitVec.ofNat 32 u.length) 0) p u := by
  have hlt := h.hasLength.lt
  rw [List.length_append] at hlt
  induction u generalizing p with
  | nil =>
    rw [List.length_nil, BitVec.add_zero]
    exact Function.update_self _ _ _
  | cons c u ih =>
    obtain ⟨hc, hne, htail⟩ := h
    rw [List.length_cons] at hlt ⊢
    refine ⟨?_, hne, ?_⟩
    · rw [Function.update_of_ne (ne_add_ofNat (Nat.succ_pos _) (by omega)), hc]
    · rw [← Cpu.add_one_ofNat]
      exact ih htail (by omega)

/-- A byte outside of a string is written. -/
theorem StringAt.update (h : StringAt mem p u) {x : Word} {b : BitVec 8}
    (hx : ∀ k ≤ u.length, p + BitVec.ofNat 32 k ≠ x) : StringAt (Function.update mem x b) p u :=
  h.congr fun k hk => Function.update_of_ne (hx k hk) _ _

theorem StringAt.head (h : StringAt mem p u) : mem p ≠ 0 ↔ u ≠ [] := by
  cases u with
  | nil => exact ⟨fun hne => absurd h hne, fun hne => absurd rfl hne⟩
  | cons c u => exact ⟨fun _ => List.cons_ne_nil _ _, fun _ => h.1 ▸ h.2.1⟩

end Strings

section Spans

variable {mem : Word → BitVec 8} {p set sl : Word} {u d : List (BitVec 8)} {fuel : Nat}

theorem inSetFrom_eq (c : BitVec 8) (i n : Nat) : inSetFrom mem set c i n =
    decide (c ∈ bytes mem n (set + BitVec.ofNat 32 i)) := by
  induction n generalizing i with
  | zero => rfl
  | succ n ih =>
    rw [inSetFrom, bytes, next_byte, ih]
    by_cases hc : c = mem (set + BitVec.ofNat 32 i)
    · rw [if_pos hc, hc, decide_eq_true List.mem_cons_self]
    · rw [if_neg hc, decide_eq_decide, List.mem_cons, or_iff_right hc]

/-- The loop over the set looks at all its characters, if their number fits in an `int`. -/
theorem inSet_eq (hd : StringAt mem set d) (hlen : d.length < 2 ^ 31) (c : BitVec 8) :
    inSet mem set (BitVec.ofNat 32 d.length) c = decide (c ∈ d) := by
  have hint : (BitVec.ofNat 32 d.length).toInt.toNat = d.length := by
    rw [BitVec.toInt_eq_toNat_of_lt, BitVec.toNat_ofNat, Nat.mod_eq_of_lt (by omega)]
    · rfl
    · rw [BitVec.toNat_ofNat, Nat.mod_eq_of_lt (by omega)]
      omega
  rw [inSet, inSetFrom_eq, hint, BitVec.add_zero, hd.bytes]

theorem spanFrom_eq (hu : StringAt mem p u) (hset : ∀ c, inSet mem set sl c = decide (c ∈ d))
    (hf : u.length < fuel) (inside : Bool) (len : Word) : spanFrom mem set sl inside fuel p len =
      some (len + BitVec.ofNat 32 (u.takeWhile fun c => decide (c ∈ d) == inside).length) := by
  induction fuel generalizing p u len with
  | zero => exact absurd hf (Nat.not_lt_zero _)
  | succ fuel ih =>
    rw [spanFrom]
    cases u with
    | nil =>
      have hnul : mem p = 0 := hu
      rw [if_neg (not_not.mpr hnul), List.takeWhile_nil, List.length_nil, BitVec.add_zero]
    | cons c u =>
      obtain ⟨hc, hne, htail⟩ := hu
      rw [hc, if_pos hne, hset]
      by_cases hin : decide (c ∈ d) = inside
      · rw [if_pos hin, ih htail (Nat.lt_of_succ_lt_succ hf),
          List.takeWhile_cons_of_pos (by rw [hin]; exact BEq.rfl), List.length_cons,
          Nat.add_comm _ 1, BitVec.ofNat_add, ← BitVec.add_assoc]
        rfl
      · rw [if_neg hin, List.takeWhile_cons_of_neg (by simpa using hin), List.length_nil,
          BitVec.add_zero]

variable (hu : StringAt mem p u) (hd : StringAt mem set d) (hlen : d.length < 2 ^ 31)
variable (hfu : u.length < fuel) (hfd : d.length < fuel)

include hu hd hlen hfu hfd

/-- `strspn` counts the characters of the set in front of the string. -/
theorem strspn_eq : strspn mem fuel p set =
    some (BitVec.ofNat 32 (u.takeWhile fun c => decide (c ∈ d)).length) := by
  have hspan := spanFrom_eq hu (inSet_eq hd hlen) hfu true 0
  simp only [beq_true] at hspan
  rw [strspn, strlen_eq hd.hasLength hfd, Option.bind_eq_bind, Option.bind_some, hspan]
  exact congrArg some (BitVec.zero_add _)

/-- `strcspn` counts the characters in front of the first one of the set. -/
theorem strcspn_eq : strcspn mem fuel p set =
    some (BitVec.ofNat 32 (u.takeWhile fun c => !decide (c ∈ d)).length) := by
  have hspan := spanFrom_eq hu (inSet_eq hd hlen) hfu false 0
  simp only [beq_false] at hspan
  rw [strcspn, strlen_eq hd.hasLength hfd, Option.bind_eq_bind, Option.bind_some, hspan]
  exact congrArg some (BitVec.zero_add _)

omit hd hlen hfd in
theorem strpbrkFrom_eq (hset : ∀ c, inSet mem set sl c = decide (c ∈ d)) :
    strpbrkFrom mem set sl fuel p =
      some (if (u.dropWhile fun c => !decide (c ∈ d)) = [] then none
        else some (p + BitVec.ofNat 32 (u.takeWhile fun c => !decide (c ∈ d)).length)) := by
  induction fuel generalizing p u with
  | zero => exact absurd hfu (Nat.not_lt_zero _)
  | succ fuel ih =>
    rw [strpbrkFrom]
    cases u with
    | nil =>
      have hnul : mem p = 0 := hu
      rw [if_neg (not_not.mpr hnul), List.dropWhile_nil, if_pos rfl]
    | cons c u =>
      obtain ⟨hc, hne, htail⟩ := hu
      rw [hc, if_pos hne, hset]
      by_cases hin : c ∈ d
      · rw [if_pos (decide_eq_true hin), List.dropWhile_cons_of_neg (by simpa using hin),
          List.takeWhile_cons_of_neg (by simpa using hin), if_neg (List.cons_ne_nil _ _),
          List.length_nil, BitVec.add_zero]
      · rw [if_neg (by simpa using hin), ih htail (Nat.lt_of_succ_lt_succ hfu),
          List.dropWhile_cons_of_pos (by simpa using hin),
          List.takeWhile_cons_of_pos (by simpa using hin), List.length_cons, Cpu.add_one_ofNat]

/-- `strpbrk` points where `strcspn` stops, unless that is the end of the string. -/
theorem strpbrk_eq : strpbrk mem fuel p set =
    some (if (u.dropWhile fun c => !decide (c ∈ d)) = [] then none
      else some (p + BitVec.ofNat 32 (u.takeWhile fun c => !decide (c ∈ d)).length)) := by
  rw [strpbrk, strlen_eq hd.hasLength hfd, Option.bind_eq_bind, Option.bind_some,
    strpbrkFrom_eq hu hfu (inSet_eq hd hlen)]

end Spans

section Tokens

variable {mem : Word → BitVec 8} {p q delim a pos : Word} {u v d : List (BitVec 8)} {fuel : Nat}

/-- The separators that a string of them stands for. -/
def separator (d : List (BitVec 8)) (c : BitVec 8) : Bool := decide (c ∈ d)

/-- What a call of `strtok` does where the string `u` is left at `q`: it returns the first
field `w`, which stands at the offset `k`, and leaves what stands behind its separator at `m`. -/
structure Cut (d : List (BitVec 8)) (mem : Word → BitVec 8) (q : Word) (u : List (BitVec 8))
    (t : Token) (k m : Nat) (w rest : List (BitVec 8)) : Prop where
  first : fields (separator d) u = w :: fields (separator d) rest
  nonempty : w ≠ []
  tok : t.tok = q + BitVec.ofNat 32 k
  pos : t.pos = q + BitVec.ofNat 32 m
  behind : k + w.length < m ∨ rest = []
  within : k + w.length ≤ m
  length : m + rest.length = u.length
  word : StringAt t.mem t.tok w
  left : StringAt t.mem t.pos rest
  kept : ∀ x, (∀ i < u.length, q + BitVec.ofNat 32 i ≠ x) → t.mem x = mem x

theorem offsets_ne {k m : Nat} (hkm : k < m) (hm : m < 2 ^ 32) :
    q + BitVec.ofNat 32 k ≠ q + BitVec.ofNat 32 m := by
  have hne := ne_add_ofNat (x := q + BitVec.ofNat 32 k) (k := m - k) (by omega) (by omega)
  rwa [BitVec.add_assoc, ← BitVec.ofNat_add, Nat.add_sub_cancel' hkm.le] at hne

section

variable (ha : (if a = 0 then pos else a) = q) (hu : StringAt mem q u) (hd : StringAt mem delim d)
variable (hlen : d.length < 2 ^ 31) (hfu : u.length < fuel) (hfd : d.length < fuel)

include ha hu hd hlen hfu hfd

/-- The call where only separators are left. -/
theorem strtok_r_end (hv : u.dropWhile (separator d) = []) :
    strtok_r fuel a delim pos mem = some ⟨0, q + BitVec.ofNat 32 u.length, mem⟩ := by
  have hall : u.takeWhile (separator d) = u := by
    have hsplit := List.takeWhile_append_dropWhile (p := separator d) (l := u)
    rwa [hv, List.append_nil] at hsplit
  have hnul := hu.hasLength.nul
  rw [strtok_r, ha, strspn_eq hu hd hlen hfu hfd]
  simp only [Option.bind_eq_bind, Option.bind_some]
  rw [show (fun c => decide (c ∈ d)) = separator d from rfl, hall, if_neg (not_not.mpr hnul)]
  rfl

/-- The call where a field is left. -/
theorem strtok_r_cut (hv : u.dropWhile (separator d) ≠ []) : ∃ t k m w rest,
    strtok_r fuel a delim pos mem = some t ∧ Cut d mem q u t k m w rest := by
  obtain ⟨v, hdrop⟩ : ∃ v, u.dropWhile (separator d) = v := ⟨_, rfl⟩
  obtain ⟨pre, hpre⟩ : ∃ pre, u.takeWhile (separator d) = pre := ⟨_, rfl⟩
  obtain ⟨w, hw⟩ : ∃ w, v.takeWhile (fun c => !separator d c) = w := ⟨_, rfl⟩
  obtain ⟨r, hr⟩ : ∃ r, v.dropWhile (fun c => !separator d c) = r := ⟨_, rfl⟩
  rw [hdrop] at hv
  have hsplit : u = pre ++ (w ++ r) := by
    rw [← hpre, ← hw, ← hr, List.takeWhile_append_dropWhile, ← hdrop, List.takeWhile_append_dropWhile]
  have hfirst : fields (separator d) u = w :: fields (separator d) r.tail := by
    rw [fields_step hdrop, if_neg hv, hw, hr]
  have hv' : v = w ++ r := by rw [← hw, ← hr, List.takeWhile_append_dropWhile]
  have hlength : u.length = pre.length + (w.length + r.length) := by
    rw [hsplit, List.length_append, List.length_append]
  have hne : w ≠ [] := by
    rw [← hw]
    exact word_ne_nil hdrop hv
  -- the string from the field on, and from where it stops
  rw [hsplit] at hu
  have htok := hu.drop
  have hstop := htok.drop
  have hspan := strspn_eq hu hd hlen (by rwa [← hsplit]) hfd
  have hcspan := strcspn_eq htok hd hlen (by rw [List.length_append]; omega) hfd
  rw [← hsplit, show (fun c => decide (c ∈ d)) = separator d from rfl, hpre] at hspan
  rw [← hv', show (fun c => !decide (c ∈ d)) = fun c => !separator d c from rfl, hw] at hcspan
  have hthere : mem (q + BitVec.ofNat 32 pre.length) ≠ 0 := by
    rw [htok.head, ← hv']
    exact hv
  rw [strtok_r, ha, hspan]
  simp only [Option.bind_eq_bind, Option.bind_some, if_pos hthere, hcspan]
  cases r with
  | nil =>
    have hnul : mem (q + BitVec.ofNat 32 pre.length + BitVec.ofNat 32 w.length) = 0 := hstop
    rw [if_neg (not_not.mpr hnul)]
    refine ⟨_, pre.length, pre.length + w.length, w, [], rfl, hfirst, hne, rfl, ?_, Or.inr rfl,
      le_rfl, ?_, ?_, hstop, fun _ _ => rfl⟩
    · rw [BitVec.ofNat_add, BitVec.add_assoc]
    · rw [hlength]
      rfl
    · rwa [List.append_nil] at htok
  | cons c r =>
    rw [if_pos (hstop.head.mpr (List.cons_ne_nil _ _))]
    rw [List.length_cons] at hlength
    have hlt : u.length < 2 ^ 32 := hsplit ▸ hu.hasLength.lt
    have hplace : q + BitVec.ofNat 32 pre.length + BitVec.ofNat 32 w.length =
        q + BitVec.ofNat 32 (pre.length + w.length) := by
      rw [BitVec.ofNat_add, BitVec.add_assoc]
    refine ⟨_, pre.length, pre.length + w.length + 1, w, r, rfl, hfirst, hne, rfl, ?_,
      Or.inl (Nat.lt_succ_self _), Nat.le_succ _, by omega, htok.cut, ?_, ?_⟩
    · rw [hplace, next_byte]
    · refine hstop.2.2.update fun k hk => ?_
      rw [Cpu.add_one_ofNat]
      exact (ne_add_ofNat (Nat.succ_pos k) (by omega)).symm
    · intro x hx
      rw [hplace]
      exact Function.update_of_ne (hx _ (by omega)).symm _ _

end

/-- The places of a string that is left, among those of the whole string. -/
theorem Cut.places {t : Token} {k m : Nat} {w rest : List (BitVec 8)}
    (h : Cut d mem q u t k m w rest) {P : Word → Prop}
    (hP : ∀ i ≤ u.length, P (q + BitVec.ofNat 32 i)) :
    ∀ i ≤ rest.length, P (t.pos + BitVec.ofNat 32 i) := by
  intro i hi
  have hlen := h.length
  rw [h.pos, BitVec.add_assoc, ← BitVec.ofNat_add]
  exact hP _ (by omega)

/-- What the later calls write is no part of the field that has been returned. -/
theorem Cut.word_later {t : Token} {k m : Nat} {w rest : List (BitVec 8)}
    (h : Cut d mem q u t k m w rest) (hlt : u.length < 2 ^ 32) {mem' : Word → BitVec 8}
    (hmem : ∀ x, (∀ i < rest.length, t.pos + BitVec.ofNat 32 i ≠ x) → mem' x = t.mem x) :
    StringAt mem' t.tok w := by
  have hlen := h.length
  refine h.word.congr fun j hj => hmem _ fun i hi => ?_
  rw [h.tok, h.pos, BitVec.add_assoc, BitVec.add_assoc, ← BitVec.ofNat_add, ← BitVec.ofNat_add]
  rcases h.behind with hbehind | hnil
  · exact (offsets_ne (by omega) (by omega)).symm
  · rw [hnil] at hi
    cases hi

/-- The calls of `strtok` on a string return its fields one after the other: each stands as
a string where its pointer points when all calls are made, nothing outside the string has
changed, and every further call returns the null pointer. -/
theorem strtok_tokens {n : Nat} (ha : (if a = 0 then pos else a) = q) (hu : StringAt mem q u)
    (hd : StringAt mem delim d) (hlen : d.length < 2 ^ 31)
    (hapart : ∀ i ≤ u.length, ∀ j ≤ d.length, delim + BitVec.ofNat 32 j ≠ q + BitVec.ofNat 32 i)
    (hnull : ∀ i ≤ u.length, q + BitVec.ofNat 32 i ≠ 0) (hfu : u.length < fuel)
    (hfd : d.length < fuel) (hn : u.length < n) :
    ∃ ps t, strtokAll fuel delim n a pos mem = some (ps, t) ∧
      List.Forall₂ (StringAt t.mem) ps (fields (separator d) u) ∧
      (∀ x, (∀ i < u.length, q + BitVec.ofNat 32 i ≠ x) → t.mem x = mem x) ∧
      strtok_r fuel 0 delim t.pos t.mem = some ⟨0, t.pos, t.mem⟩ := by
  induction n generalizing a q pos u mem with
  | zero => exact absurd hn (Nat.not_lt_zero _)
  | succ n ih =>
    by_cases hv : u.dropWhile (separator d) = []
    · have hend := strtok_r_end ha hu hd hlen hfu hfd hv
      have hnil : fields (separator d) u = [] := by rw [fields_step hv, if_pos rfl]
      refine ⟨[], ⟨0, q + BitVec.ofNat 32 u.length, mem⟩, ?_, ?_, fun _ _ => rfl, ?_⟩
      · rw [strtokAll, hend]
        rfl
      · rw [hnil]
        exact .nil
      · have hleft : StringAt mem (q + BitVec.ofNat 32 u.length) [] := hu.hasLength.nul
        have hagain := strtok_r_end (a := 0) (if_pos rfl) hleft hd hlen (Nat.zero_lt_of_lt hfu) hfd rfl
        rwa [List.length_nil, BitVec.add_zero] at hagain
    · obtain ⟨t, k, m, w, rest, hrun, hcut⟩ := strtok_r_cut ha hu hd hlen hfu hfd hv
      have hlength := hcut.length
      have hwithin := hcut.within
      have hpos : 0 < w.length := List.length_pos_iff.mpr hcut.nonempty
      have hne : t.tok ≠ 0 := by
        rw [hcut.tok]
        exact hnull k (by omega)
      have hd' : StringAt t.mem delim d :=
        hd.congr fun j hj => hcut.kept _ fun i hi => (hapart i hi.le j hj).symm
      obtain ⟨ps, t', hloop, hfields, hkept, hagain⟩ := ih (a := 0) (if_pos rfl) hcut.left hd'
        (hcut.places (P := fun x => ∀ j ≤ d.length, delim + BitVec.ofNat 32 j ≠ x) hapart)
        (hcut.places (P := (· ≠ 0)) hnull) (by omega) (by omega)
      refine ⟨t.tok :: ps, t', ?_, ?_, ?_, hagain⟩
      · rw [strtokAll, hrun]
        simp only [Option.bind_eq_bind, Option.bind_some, if_neg hne, hloop]
        rfl
      · rw [hcut.first]
        exact .cons (hcut.word_later hu.hasLength.lt hkept) hfields
      · intro x hx
        refine (hkept x fun i hi => ?_).trans (hcut.kept x hx)
        rw [hcut.pos, BitVec.add_assoc, ← BitVec.ofNat_add]
        exact hx _ (by omega)

/-- The string `,a,b` at the address 16 and its separator at 32. -/
def listOfTwo (x : Word) : BitVec 8 :=
  match x.toNat with
  | 16 | 18 | 32 => 44
  | 17 => 97
  | 19 => 98
  | _ => 0

/-- The two fields of `,a,b`. -/
theorem strtok_listOfTwo : ∃ ps t, strtokAll 5 32 5 16 0 listOfTwo = some (ps, t) ∧
    List.Forall₂ (StringAt t.mem) ps (fields (separator [44]) [44, 97, 44, 98]) ∧
    (∀ x, (∀ i < [44, 97, 44, 98].length, 16 + BitVec.ofNat 32 i ≠ x) → t.mem x = listOfTwo x) ∧
    strtok_r 5 0 32 t.pos t.mem = some ⟨0, t.pos, t.mem⟩ :=
  strtok_tokens (q := 16) (if_neg (by decide)) ⟨rfl, by decide, rfl, by decide, rfl, by decide, rfl, by decide, rfl⟩
    ⟨rfl, by decide, rfl⟩ (by decide) (by decide) (by decide) (by decide) (by decide) (by decide)

example : fields (separator [44]) [44, 97, 44, 98] = [[97], [98]] := by decide

end Tokens

end Pittsfield.Libc
