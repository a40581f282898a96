import Mathlib.Data.List.DropRight
import Pittsfield.Libc.Numerals

/-!
# `strtoul` and `strtol` read the longest numeral

The loops over the memory do what the scan does on the characters of the string. The value
is kept modulo `2^32`; the test of the upper 24 bits notices when the magnitude leaves a word.
-/

namespace Pittsfield.Libc

open Pittsfield.Region
open Pittsfield.Machine

section Memory

variable {mem : Word → BitVec 8} {p : Word} {n k fuel base : Nat}

theorem bytes_drop (mem : Word → BitVec 8) (p : Word) (k m : Nat) :
    (bytes mem (k + m) p).drop k = bytes mem m (p + BitVec.ofNat 32 k) := by
  induction k generalizing p with
  | zero => rw [Nat.zero_add, List.drop_zero, BitVec.add_zero]
  | succ k ih =>
    rw [Nat.add_right_comm, bytes, List.drop_succ_cons, ih, Cpu.add_one_ofNat]

theorem HasLength.drop {m : Nat} (h : HasLength mem p (k + m)) : HasLength mem (p + BitVec.ofNat 32 k) m := by
  induction k generalizing p with
  | zero => rwa [Nat.zero_add, ← BitVec.add_zero p] at h
  | succ k ih =>
    rw [Nat.add_right_comm] at h
    have htail := ih (hasLength_succ.mp h).2
    rwa [Cpu.add_one_ofNat] at htail

/-- The characters of a string and its NUL. -/
theorem HasLength.getD (h : HasLength mem p n) (hk : k ≤ n) :
    mem (p + BitVec.ofNat 32 k) = (bytes mem n p).getD k 0 := by
  induction k generalizing p n with
  | zero =>
    cases n with
    | zero => exact h.nul
    | succ n => rw [BitVec.add_zero]; rfl
  | succ k ih =>
    cases n with
    | zero => exact absurd hk (Nat.not_succ_le_zero k)
    | succ n =>
      rw [← Cpu.add_one_ofNat, ih (hasLength_succ.mp h).2 (Nat.le_of_succ_le_succ hk)]
      rfl

theorem HasLength.head (h : HasLength mem p n) : mem p = (bytes mem n p).getD 0 0 := by
  have h0 := h.getD (Nat.zero_le n)
  rwa [BitVec.add_zero] at h0

theorem skipSpaces_eq (h : HasLength mem p n) (hf : n < fuel) : skipSpaces mem fuel p =
    some (p + BitVec.ofNat 32 ((bytes mem n p).takeWhile space).length) := by
  induction fuel generalizing p n with
  | zero => exact absurd hf (Nat.not_lt_zero n)
  | succ fuel ih =>
    rw [skipSpaces]
    cases n with
    | zero =>
      have hnul : isspace (mem p).toInt = false := by
        rw [hasLength_zero.mp h]
        decide
      rw [if_neg (by rw [hnul]; exact Bool.false_ne_true), bytes, List.takeWhile_nil]
      exact congrArg some (BitVec.add_zero p).symm
    | succ n =>
      rw [bytes]
      by_cases hs : isspace (mem p).toInt = true
      · have hspace : space (mem p) = true := hs
        rw [if_pos hs, ih (hasLength_succ.mp h).2 (Nat.lt_of_succ_lt_succ hf),
          List.takeWhile_cons_of_pos hspace, List.length_cons, Cpu.add_one_ofNat]
      · have hspace : ¬ space (mem p) = true := hs
        rw [if_neg hs, List.takeWhile_cons_of_neg hspace]
        exact congrArg some (BitVec.add_zero p).symm

/-- A character that is not NUL is followed by another byte of the string. -/
theorem HasLength.lt_of_getD (h : HasLength mem p n) (hk : k ≤ n) (hne : (bytes mem n p).getD k 0 ≠ 0) :
    k < n := by
  apply Nat.lt_of_le_of_ne hk
  rintro rfl
  rw [← h.getD le_rfl] at hne
  exact hne h.nul

/-- The tests for the prefix look no further than the NUL. -/
theorem prefixed_iff (h : HasLength mem p n) : Prefixed base (bytes mem n p) ↔
    ((base = 16 ∨ base = 0) ∧ mem p = 0x30) ∧
      (mem (p + 1) = 0x78 ∨ mem (p + 1) = 0x58) ∧ isxdigit (mem (p + 2)).toInt = true := by
  have h1 : mem p = 0x30 → 1 ≤ n ∧ mem (p + 1) = (bytes mem n p).getD 1 0 := by
    intro hzero
    have hpos := h.lt_of_getD (Nat.zero_le n) (by rw [← h.head, hzero]; decide)
    exact ⟨hpos, h.getD hpos⟩
  have h2 : mem p = 0x30 → mem (p + 1) = 0x78 ∨ mem (p + 1) = 0x58 →
      mem (p + 2) = (bytes mem n p).getD 2 0 := by
    intro hzero hx
    obtain ⟨hpos, hone⟩ := h1 hzero
    rw [hone] at hx
    have htwo := h.lt_of_getD hpos (by rcases hx with hx | hx <;> rw [hx] <;> decide)
    exact h.getD htwo
  rw [Prefixed, ← h.head]
  constructor
  · rintro ⟨hbase, hzero, hx, hdigit⟩
    rw [← (h1 hzero).2] at hx
    rw [← h2 hzero hx] at hdigit
    exact ⟨⟨hbase, hzero⟩, hx, hdigit⟩
  · rintro ⟨⟨hbase, hzero⟩, hx, hdigit⟩
    rw [h2 hzero hx] at hdigit
    rw [(h1 hzero).2] at hx
    exact ⟨hbase, hzero, hx, hdigit⟩

theorem radix_eq (h : HasLength mem p n) : radix mem base p =
    ((radixOf base (bytes mem n p) : Int), p + BitVec.ofNat 32 (prefixLength base (bytes mem n p))) := by
  have hstay : p = p + BitVec.ofNat 32 0 := (BitVec.add_zero p).symm
  have hcast : (base : Int) = 0 ↔ base = 0 := by omega
  have hbase : ((base : Int) = 16 ∨ (base : Int) = 0) ↔ base = 16 ∨ base = 0 := by omega
  rw [radix, radixOf, prefixLength, ← h.head]
  by_cases hpre : Prefixed base (bytes mem n p)
  · obtain ⟨⟨hb, hzero⟩, hx⟩ := (prefixed_iff h).mp hpre
    rw [if_pos ⟨hbase.mpr hb, hzero⟩, if_pos hx, if_pos hpre, if_pos hpre]
    rfl
  · rw [if_neg hpre, if_neg hpre, ← hstay]
    by_cases hb : (base = 16 ∨ base = 0) ∧ mem p = 0x30
    · rw [if_pos ⟨hbase.mpr hb.1, hb.2⟩, if_neg fun hx => hpre ((prefixed_iff h).mpr ⟨hb, hx⟩), if_pos hb.2]
      by_cases h0 : base = 0
      · rw [if_pos h0, if_pos (hcast.mpr h0)]
        rfl
      · rw [if_neg h0, if_neg fun hb => h0 (hcast.mp hb)]
    · rw [if_neg fun hb' => hb ⟨hbase.mp hb'.1, hb'.2⟩]
      by_cases h0 : base = 0
      · rw [if_pos h0, if_pos (hcast.mpr h0), if_neg fun hz => hb ⟨Or.inr h0, hz⟩]
        rfl
      · rw [if_neg h0, if_neg fun hb => h0 (hcast.mp hb)]

end Memory

section Digits

variable {mem : Word → BitVec 8} {p : Word} {n b m fuel base : Nat}

/-- The test of the code for a digit; NUL is none. -/
theorem digit_iff (hb : b ≤ 36) (c : BitVec 8) : (digit c).toNat < b ↔ IsDigit b c := by
  rcases digit_cases c with ⟨hnone, hlarge⟩ | ⟨hsome, -⟩
  · apply iff_of_false (by omega)
    rintro ⟨d, hd, -⟩
    rw [hnone] at hd
    cases hd
  · rw [IsDigit, hsome]
    constructor
    · exact fun hlt => ⟨_, rfl, hlt⟩
    · rintro ⟨d, hd, hlt⟩
      cases hd
      exact hlt

theorem digitOf_eq {c : BitVec 8} (h : IsDigit b c) : (digitOf c).getD 0 = (digit c).toNat := by
  rcases digit_cases c with ⟨hnone, -⟩ | ⟨hsome, -⟩
  · have hs := h.isSome
    rw [hnone] at hs
    cases hs
  · rw [hsome]
    rfl

/-- One round of the loop: the split multiplication is exact modulo `2^32`, and the upper part
says whether the product leaves a word. -/
theorem split_multiplication {v : Word} {c : BitVec 8} (hb : b ≤ 36) (hc : c.toNat < b) :
    let x := (v &&& 0xff) * BitVec.ofInt 32 b + c.setWidth 32
    let w := (v >>> 8) * BitVec.ofInt 32 b + (x >>> 8)
    (w <<< 8) + (x &&& 0xff) = BitVec.ofNat 32 (v.toNat * b + c.toNat) ∧
      (w > 0xffffff ↔ 2 ^ 32 ≤ v.toNat * b + c.toNat) := by
  intro x w
  have hv := v.isLt
  have hbase : BitVec.ofInt 32 b = BitVec.ofNat 32 b := BitVec.ofInt_natCast 32 b
  have hlow : ∀ y : Word, (y &&& 0xff).toNat = y.toNat % 256 := by
    intro y
    rw [BitVec.toNat_and]
    exact Nat.and_two_pow_sub_one_eq_mod y.toNat 8
  have hhigh : ∀ y : Word, (y >>> 8).toNat = y.toNat / 256 := by
    intro y
    rw [BitVec.toNat_ushiftRight, Nat.shiftRight_eq_div_pow]
  have hB : v.toNat % 256 * b ≤ 255 * 36 := Nat.mul_le_mul (by omega) hb
  have hA : v.toNat / 256 * b ≤ 16777215 * 36 := Nat.mul_le_mul (by omega) hb
  have hsplit : v.toNat * b = 256 * (v.toNat / 256 * b) + v.toNat % 256 * b := by
    rw [← Nat.mul_assoc, ← Nat.add_mul, Nat.div_add_mod]
  have hx : x.toNat = v.toNat % 256 * b + c.toNat := by
    show ((v &&& 0xff) * BitVec.ofInt 32 b + c.setWidth 32).toNat = _
    rw [BitVec.toNat_add, BitVec.toNat_mul, hlow, hbase, BitVec.toNat_ofNat, BitVec.toNat_setWidth,
      Nat.mod_eq_of_lt (by omega : b < 2 ^ 32), Nat.mod_eq_of_lt (by omega : c.toNat < 2 ^ 32),
      Nat.mod_eq_of_lt (by omega : v.toNat % 256 * b < 2 ^ 32), Nat.mod_eq_of_lt (by omega)]
  have hw : w.toNat = v.toNat / 256 * b + x.toNat / 256 := by
    show ((v >>> 8) * BitVec.ofInt 32 b + (x >>> 8)).toNat = _
    rw [BitVec.toNat_add, BitVec.toNat_mul, hhigh, hhigh, hbase, BitVec.toNat_ofNat,
      Nat.mod_eq_of_lt (by omega : b < 2 ^ 32), Nat.mod_eq_of_lt (by omega : v.toNat / 256 * b < 2 ^ 32),
      Nat.mod_eq_of_lt (by omega)]
  constructor
  · apply BitVec.eq_of_toNat_eq
    rw [BitVec.toNat_add, BitVec.toNat_shiftLeft, Nat.shiftLeft_eq, hlow, BitVec.toNat_ofNat]
    omega
  · rw [gt_iff_lt, BitVec.lt_def, hw]
    show 16777215 < _ ↔ _
    omega

theorem next_value {c : Nat} (v : Nat) :
    BitVec.ofNat 32 ((BitVec.ofNat 32 v).toNat * b + c) = BitVec.ofNat 32 (v * b + c) := by
  apply BitVec.eq_of_toNat_eq
  rw [BitVec.toNat_ofNat, BitVec.toNat_ofNat, BitVec.toNat_ofNat, Nat.add_mod, Nat.mod_mul_mod,
    ← Nat.add_mod]

theorem next_overflow {c : Nat} (v : Nat) (hb : 0 < b) :
    (2 ^ 32 ≤ v ∨ 2 ^ 32 ≤ (BitVec.ofNat 32 v).toNat * b + c) ↔ 2 ^ 32 ≤ v * b + c := by
  rw [BitVec.toNat_ofNat]
  by_cases hv : v < 2 ^ 32
  · rw [Nat.mod_eq_of_lt hv]
    omega
  · have hle : v * 1 ≤ v * b := Nat.mul_le_mul_left v hb
    omega

/-- The loop reads the digits at the start of the string. -/
theorem readDigits_eq (hb : 2 ≤ b ∧ b ≤ 36) (h : HasLength mem p n) (hf : n < fuel) (v : Nat) :
    let digits := (bytes mem n p).takeWhile (inBase b)
    let v' := digits.foldl (fun v c => v * b + (digitOf c).getD 0) v
    readDigits mem b fuel p (BitVec.ofNat 32 v) (decide (2 ^ 32 ≤ v)) =
      some (p + BitVec.ofNat 32 digits.length, BitVec.ofNat 32 v', decide (2 ^ 32 ≤ v')) := by
  induction fuel generalizing p n v with
  | zero => exact absurd hf (Nat.not_lt_zero n)
  | succ fuel ih =>
    intro digits v'
    have hstop : digits = [] → some (p, BitVec.ofNat 32 v, decide (2 ^ 32 ≤ v)) =
        some (p + BitVec.ofNat 32 digits.length, BitVec.ofNat 32 v', decide (2 ^ 32 ≤ v')) := by
      intro hnil
      have hv : v' = v := by
        show digits.foldl _ v = v
        rw [hnil]
        rfl
      rw [hv, hnil, List.length_nil, BitVec.add_zero]
    rw [readDigits]
    cases n with
    | zero =>
      rw [if_pos (Or.inl (hasLength_zero.mp h))]
      exact hstop rfl
    | succ n =>
      obtain ⟨hne, htail⟩ := hasLength_succ.mp h
      by_cases hdigit : IsDigit b (mem p)
      · have hlt : (digit (mem p)).toNat < b := (digit_iff hb.2 _).mpr hdigit
        have hin : inBase b (mem p) = true := decide_eq_true hdigit
        have hcons : digits = mem p :: (bytes mem n (p + 1)).takeWhile (inBase b) :=
          List.takeWhile_cons_of_pos hin
        obtain ⟨hval, hover⟩ := split_multiplication (v := BitVec.ofNat 32 v) hb.2 hlt
        have hnext : (decide (2 ^ 32 ≤ v) || decide (2 ^ 32 ≤ (BitVec.ofNat 32 v).toNat * b +
            (digit (mem p)).toNat)) = decide (2 ^ 32 ≤ v * b + (digit (mem p)).toNat) := by
          rw [← Bool.decide_or, decide_eq_decide]
          exact next_overflow v (by omega)
        have hgo : ¬ (mem p = 0 ∨ ((digit (mem p)).toNat : Int) ≥ b) := by
          rintro (hnul | hge)
          · exact hne hnul
          · omega
        rw [if_neg hgo]
        dsimp only
        rw [hval, decide_eq_decide.mpr hover, hnext, next_value,
          ih htail (Nat.lt_of_succ_lt_succ hf)]
        have hv : v' = ((bytes mem n (p + 1)).takeWhile (inBase b)).foldl
            (fun v c => v * b + (digitOf c).getD 0) (v * b + (digit (mem p)).toNat) := by
          show digits.foldl _ v = _
          rw [hcons, List.foldl_cons, digitOf_eq hdigit]
        rw [hv, hcons, List.length_cons, Cpu.add_one_ofNat]
      · have hge : ¬ (digit (mem p)).toNat < b := fun hlt => hdigit ((digit_iff hb.2 _).mp hlt)
        have hin : ¬ inBase b (mem p) = true := fun hd => hdigit (of_decide_eq_true hd)
        rw [if_pos (Or.inr (by omega))]
        exact hstop (List.takeWhile_cons_of_neg hin)

/-- The address `q` in the string at `p`, at which the part `u` of it starts. -/
structure Rest (mem : Word → BitVec 8) (p : Word) (n : Nat) (u : List (BitVec 8)) (q : Word) : Prop where
  le : u.length ≤ n
  place : q = p + BitVec.ofNat 32 (n - u.length)
  chars : HasLength mem q u.length
  text : bytes mem u.length q = u

namespace Rest

variable {q : Word} {s u : List (BitVec 8)} {k : Nat}

theorem start (h : HasLength mem p n) : Rest mem p n (bytes mem n p) p := by
  have hlen : (bytes mem n p).length = n := bytes_length mem n p
  refine ⟨hlen.le, ?_, ?_, ?_⟩
  · rw [hlen, Nat.sub_self, BitVec.add_zero]
  · rwa [hlen]
  · rw [hlen]

theorem drop (h : Rest mem p n s q) (hk : k ≤ s.length) :
    Rest mem p n (s.drop k) (q + BitVec.ofNat 32 k) := by
  have hle := h.le
  have hsplit : s.length = k + (s.length - k) := by omega
  have hlen : (s.drop k).length = s.length - k := List.length_drop
  refine ⟨by omega, ?_, ?_, ?_⟩
  · rw [h.place, BitVec.add_assoc, ← BitVec.ofNat_add, hlen]
    congr 2
    omega
  · rw [hlen]
    apply HasLength.drop
    rw [← hsplit]
    exact h.chars
  · rw [hlen, ← bytes_drop, ← hsplit, h.text]

theorem head (h : Rest mem p n s q) : mem q = s.getD 0 0 := by
  rw [h.chars.head, h.text]

theorem spaces (h : HasLength mem p n) : Rest mem p n ((bytes mem n p).dropWhile space)
    (p + BitVec.ofNat 32 ((bytes mem n p).takeWhile space).length) := by
  have hdrop : (bytes mem n p).drop ((bytes mem n p).takeWhile space).length =
      (bytes mem n p).dropWhile space := drop_part (space_split _).symm
  rw [← hdrop]
  exact (start h).drop (List.takeWhile_sublist _).length_le

theorem sign (h : Rest mem p n s q) : Rest mem p n (afterSign s)
    (if mem q = 0x2d ∨ mem q = 0x2b then q + 1 else q) := by
  rw [afterSign, h.head]
  by_cases hsign : s.getD 0 0 = 0x2d ∨ s.getD 0 0 = 0x2b
  · rw [if_pos hsign, if_pos hsign]
    apply h.drop
    cases s with
    | nil => exact absurd hsign (by decide)
    | cons c s => exact Nat.le_add_left 1 _
  · rw [if_neg hsign, if_neg hsign]
    exact h

theorem lt (h : Rest mem p n s q) : s.length < 2 ^ 32 := h.chars.lt

end Rest

theorem prefixLength_le (base : Nat) (s : List (BitVec 8)) :
    prefixLength base s + (digitsOf base s).length ≤ s.length := by
  obtain ⟨pre, rest, hs, hlen, -⟩ := digitsOf_split base s
  conv_rhs => rw [hs]
  simp only [List.length_append]
  omega

theorem radixOf_bounds (hb : base = 0 ∨ 2 ≤ base ∧ base ≤ 36) (s : List (BitVec 8)) :
    2 ≤ radixOf base s ∧ radixOf base s ≤ 36 := by
  rw [radixOf]
  split_ifs <;> omega

theorem add_eq_start {q : Word} {k : Nat} (hk : k < 2 ^ 32) : q + BitVec.ofNat 32 k = q ↔ k = 0 := by
  rw [BitVec.add_right_eq_self]
  constructor
  · intro heq
    have hnat := congrArg BitVec.toNat heq
    rwa [BitVec.toNat_ofNat, Nat.mod_eq_of_lt hk] at hnat
  · rintro rfl
    rfl

/-- No digit is found only where there is no prefix either. -/
theorem nothing_read {u : List (BitVec 8)} {q : Word} (h : Rest mem p n u q) :
    q + BitVec.ofNat 32 (prefixLength base u + (digitsOf base u).length) = q ↔ digitsOf base u = [] := by
  rw [add_eq_start (Nat.lt_of_le_of_lt (prefixLength_le base u) h.lt), ← List.length_eq_zero_iff]
  constructor
  · exact fun hzero => (Nat.eq_zero_of_add_eq_zero hzero).2
  · intro hzero
    have hpre : ¬ Prefixed base u := fun hp => prefixed_digits hp (List.length_eq_zero_iff.mp hzero)
    rw [prefixLength, if_neg hpre, hzero]

/-- What is stored through `endptr`. -/
def stopAt (endptr : Bool) (p : Word) : Option Word := if endptr then some p else none

/-- The result of `strtoul` for what the scan finds. -/
def unsignedNumber (ptr : Word) (endptr : Bool) (errno : Nat) : Option (Nat × Bool × Nat) → Number Word
  | none => ⟨0, stopAt endptr ptr, EINVAL⟩
  | some (k, neg, mag) =>
    if 2 ^ 32 ≤ mag then ⟨-1, stopAt endptr (ptr + BitVec.ofNat 32 k), ERANGE⟩
    else ⟨if neg then -BitVec.ofNat 32 mag else BitVec.ofNat 32 mag,
      stopAt endptr (ptr + BitVec.ofNat 32 k), errno⟩

theorem base_accepted (hb : base = 0 ∨ 2 ≤ base ∧ base ≤ 36) :
    ¬ ((base : Int) ≠ 0 ∧ BitVec.ofInt 32 ((base : Int) - 2) > 34) := by
  rintro ⟨hne, hlarge⟩
  have hcast : (base : Int) - 2 = ((base - 2 : Nat) : Int) := by omega
  rw [hcast, BitVec.ofInt_natCast, gt_iff_lt, BitVec.lt_def, BitVec.toNat_ofNat,
    Nat.mod_eq_of_lt (by omega)] at hlarge
  have : 34 < base - 2 := hlarge
  omega

theorem readDigits_rest {u : List (BitVec 8)} {q : Word} (h : Rest mem p n u q)
    (hb : base = 0 ∨ 2 ≤ base ∧ base ≤ 36) (hf : n < fuel) :
    readDigits mem (radixOf base u) fuel (q + BitVec.ofNat 32 (prefixLength base u)) 0 false =
      some (q + BitVec.ofNat 32 (prefixLength base u + (digitsOf base u).length),
        BitVec.ofNat 32 (numeral (radixOf base u) (digitsOf base u)),
        decide (2 ^ 32 ≤ numeral (radixOf base u) (digitsOf base u))) := by
  have hle := h.le
  have hlength := prefixLength_le base u
  have hrest := h.drop (Nat.le_of_add_right_le hlength)
  have hshort : (u.drop (prefixLength base u)).length ≤ u.length := by
    rw [List.length_drop]
    exact Nat.sub_le _ _
  have hread := readDigits_eq (radixOf_bounds hb u) hrest.chars
    (Nat.lt_of_le_of_lt (Nat.le_trans hshort hle) hf) 0
  rw [hrest.text] at hread
  rw [BitVec.ofNat_add, ← BitVec.add_assoc]
  exact hread

theorem strtoul_eq (h : HasLength mem p n) (hb : base = 0 ∨ 2 ≤ base ∧ base ≤ 36) (hf : n < fuel)
    (endptr : Bool) (errno : Nat) : strtoul mem fuel p endptr base errno =
      some (unsignedNumber p endptr errno (parse base (bytes mem n p))) := by
  have hsigned := Rest.spaces h
  have hu := hsigned.sign
  have hneg := hsigned.head
  simp only [strtoul, skipSpaces_eq h hf, Option.bind_eq_bind, Option.bind_some, parse]
  generalize (bytes mem n p).dropWhile space = signed at *
  generalize p + BitVec.ofNat 32 ((bytes mem n p).takeWhile space).length = q at *
  generalize (if mem q = 0x2d ∨ mem q = 0x2b then q + 1 else q) = orig at *
  generalize afterSign signed = u at *
  rw [if_neg fun hguard => base_accepted hb hguard.2]
  rw [radix_eq hu.chars, hu.text]
  dsimp only
  rw [readDigits_rest hu hb hf]
  simp only [Option.bind_some, nothing_read hu]
  by_cases hnil : digitsOf base u = []
  · rw [if_pos hnil, if_pos hnil, if_pos hnil, if_pos hnil, hnil]
    have hvalue : (if mem q = 0x2d then -0 else 0 : Word) = 0 := by
      split_ifs <;> rfl
    rw [hvalue]
    exact if_neg (show ¬ decide (2 ^ 32 ≤ 0) = true by decide)
  · rw [if_neg hnil, if_neg hnil, if_neg hnil, if_neg hnil]
    have hplace : orig + BitVec.ofNat 32 (prefixLength base u + (digitsOf base u).length) =
        p + BitVec.ofNat 32 (n - u.length + (prefixLength base u + (digitsOf base u).length)) := by
      rw [BitVec.ofNat_add (x := n - u.length), ← BitVec.add_assoc, ← hu.place]
    rw [hplace, bytes_length, hneg]
    generalize numeral (radixOf base u) (digitsOf base u) = mag
    rw [unsignedNumber]
    by_cases hover : 2 ^ 32 ≤ mag
    · rw [if_pos hover, if_pos (decide_eq_true hover)]
      rfl
    · rw [if_neg hover, if_neg fun h => hover (of_decide_eq_true h)]
      by_cases hminus : signed.getD 0 0 = 0x2d
      · rw [if_pos hminus, if_pos (decide_eq_true hminus)]
        rfl
      · rw [if_neg hminus, if_neg fun h => hminus (of_decide_eq_true h)]
        rfl

/-- A number is read only where a letter or a decimal digit follows the sign. -/
theorem digits_alnum {u : List (BitVec 8)} (hne : digitsOf base u ≠ []) :
    isalnum (u.getD 0 0).toInt = true := by
  obtain ⟨pre, rest, hu, -, hradix⟩ := digitsOf_split base u
  obtain ⟨c, t, hct, hc⟩ := radix_first (hradix hne) hne (fun c => digitsOf_isDigit) rest
  rw [hu, hct]
  exact (digit_char c hc).2.2.2

/-- `strtol` takes off a minus where there is a number behind it, and then no other sign or
white space follows. -/
theorem Rest.minus {signed : List (BitVec 8)} {q : Word} (h : Rest mem p n signed q)
    (hs : signed.dropWhile space = signed) (base : Nat) :
    let neg := mem q == 0x2d && isalnum (mem (q + 1)).toInt
    ∃ r, Rest mem p n r (if neg then q + 1 else q) ∧
      afterSign (r.dropWhile space) = afterSign signed ∧
      (digitsOf base (afterSign signed) ≠ [] →
        (r.dropWhile space).getD 0 0 ≠ 0x2d ∧ neg = decide (signed.getD 0 0 = 0x2d)) := by
  intro neg
  have hnext : signed.getD 0 0 = 0x2d → Rest mem p n (signed.drop 1) (q + 1) ∧
      afterSign signed = signed.drop 1 := by
    intro hminus
    refine ⟨h.drop ?_, if_pos (Or.inl hminus)⟩
    cases signed with
    | nil => exact absurd hminus (by decide)
    | cons c s => exact Nat.le_add_left 1 _
  by_cases hneg : neg = true
  · rw [if_pos hneg, hneg]
    obtain ⟨hminus, halnum⟩ : mem q = 0x2d ∧ isalnum (mem (q + 1)).toInt = true := by
      simpa [neg] using hneg
    rw [h.head] at hminus
    obtain ⟨hrest, hafter⟩ := hnext hminus
    rw [hrest.head] at halnum
    rw [hafter]
    generalize signed.drop 1 = r at *
    cases r with
    | nil => exact absurd halnum (by decide)
    | cons c r =>
      obtain ⟨hspace, hnm, hnp⟩ := alnum_char c halnum
      have hdrop : (c :: r).dropWhile space = c :: r := dropWhile_part (by simp : ∀ c ∈ [], _) hspace
      refine ⟨c :: r, hrest, ?_, fun _ => ⟨?_, (decide_eq_true hminus).symm⟩⟩
      · rw [hdrop]
        exact if_neg (by rintro (h | h) <;> contradiction)
      · rw [hdrop]
        exact hnm
  · rw [if_neg hneg]
    refine ⟨signed, h, by rw [hs], ?_⟩
    intro hne
    have hplain : signed.getD 0 0 ≠ 0x2d := by
      intro hminus
      obtain ⟨hrest, hafter⟩ := hnext hminus
      rw [hafter] at hne
      apply hneg
      show (mem q == 0x2d && isalnum (mem (q + 1)).toInt) = true
      rw [h.head, hminus, hrest.head, digits_alnum hne]
      rfl
    rw [hs, Bool.eq_false_of_not_eq_true hneg]
    exact ⟨hplain, (decide_eq_false hplain).symm⟩

/-- The result of `strtol` for what the scan finds, where `errno` was 0. -/
def signedNumber (ptr : Word) (endptr : Bool) : Option (Nat × Bool × Nat) → Number Int
  | none => ⟨0, stopAt endptr ptr, EINVAL⟩
  | some (k, neg, mag) =>
    let x : Int := if neg then -mag else mag
    ⟨max (-2 ^ 31) (min x (2 ^ 31 - 1)), stopAt endptr (ptr + BitVec.ofNat 32 k),
      if -2 ^ 31 ≤ x ∧ x ≤ 2 ^ 31 - 1 then 0 else ERANGE⟩

theorem clamp_unread (orig nptr : Word) (neg endptr : Bool) :
    clamp orig nptr neg (unsignedNumber nptr endptr 0 none) = signedNumber orig endptr none := by
  cases endptr <;> cases neg <;> simp [clamp, unsignedNumber, signedNumber, stopAt]

/-- The sign and the limits, where no sign was left to read for `strtoul`. -/
theorem clamp_number {orig nptr : Word} {k k' : Nat} (hread : nptr + BitVec.ofNat 32 k ≠ nptr)
    (hstop : nptr + BitVec.ofNat 32 k = orig + BitVec.ofNat 32 k') (neg endptr : Bool) (mag : Nat) :
    clamp orig nptr neg (unsignedNumber nptr endptr 0 (some (k, false, mag))) =
      signedNumber orig endptr (some (k', neg, mag)) := by
  have hkeep : (if stopAt endptr (nptr + BitVec.ofNat 32 k) = some nptr then some orig
      else stopAt endptr (nptr + BitVec.ofNat 32 k)) = stopAt endptr (orig + BitVec.ofNat 32 k') := by
    rw [hstop] at hread ⊢
    cases endptr with
    | false => exact if_neg (Option.some_ne_none nptr).symm
    | true => exact if_neg fun heq => hread (Option.some.inj heq)
  rw [clamp, unsignedNumber, signedNumber]
  by_cases hover : 2 ^ 32 ≤ mag
  · rw [if_pos hover]
    dsimp only
    rw [hkeep, if_pos (by decide), if_neg (fun h => absurd h.1 (by decide)), Number.mk.injEq]
    cases neg with
    | false => exact ⟨by simp; omega, rfl, (if_neg (by simp; omega)).symm⟩
    | true => exact ⟨by simp; omega, rfl, (if_neg (by simp; omega)).symm⟩
  · have hvalue : (BitVec.ofNat 32 mag).toNat = mag := by
      rw [BitVec.toNat_ofNat, Nat.mod_eq_of_lt (by omega)]
    rw [if_neg hover, if_neg Bool.false_ne_true]
    dsimp only
    rw [hkeep, hvalue]
    by_cases hlarge : mag ≥ 2147483648
    · rw [if_pos hlarge]
      by_cases hmin : mag = 2147483648
      · subst hmin
        cases neg with
        | false => rfl
        | true => rfl
      · have hne : ¬ (BitVec.ofNat 32 mag = 2147483648 ∧ neg = true) := by
          rintro ⟨heq, -⟩
          have hnat := congrArg BitVec.toNat heq
          rw [hvalue] at hnat
          exact hmin hnat
        rw [if_neg hne, Number.mk.injEq]
        cases neg with
        | false => exact ⟨by simp; omega, rfl, (if_neg (by simp; omega)).symm⟩
        | true => exact ⟨by simp; omega, rfl, (if_neg (by simp; omega)).symm⟩
    · have hint : (BitVec.ofNat 32 mag).toInt = mag := by
        rw [BitVec.toInt_eq_toNat_of_lt (by omega), hvalue]
      rw [if_neg hlarge, Number.mk.injEq]
      cases neg with
      | false =>
        rw [if_neg Bool.false_ne_true, hint]
        exact ⟨by simp; omega, rfl, (if_pos (by simp; omega)).symm⟩
      | true =>
        have hbmod : (-(mag : Int)).bmod (2 ^ 32) = -mag := Int.bmod_eq_of_le (by omega) (by omega)
        rw [if_pos rfl, BitVec.toInt_neg, hint, hbmod]
        exact ⟨by simp; omega, rfl, (if_pos (by simp; omega)).symm⟩

theorem strtol_eq (h : HasLength mem p n) (hb : base = 0 ∨ 2 ≤ base ∧ base ≤ 36) (hf : n < fuel)
    (endptr : Bool) : strtol mem fuel p endptr base 0 =
      some (signedNumber p endptr (parse base (bytes mem n p))) := by
  have hsigned := Rest.spaces h
  have hidem : ((bytes mem n p).dropWhile space).dropWhile space = (bytes mem n p).dropWhile space :=
    List.dropWhile_idempotent _ _
  obtain ⟨r, hr, hafter, hsign⟩ := hsigned.minus hidem base
  have hu := (Rest.spaces hr.chars).sign
  have hlen := hr.le
  simp only [strtol, skipSpaces_eq h hf, Option.bind_eq_bind, Option.bind_some, parse]
  generalize (bytes mem n p).dropWhile space = signed at *
  generalize p + BitVec.ofNat 32 ((bytes mem n p).takeWhile space).length = q at *
  generalize (mem q == 0x2d && isalnum (mem (q + 1)).toInt) = neg at *
  generalize (if neg = true then q + 1 else q) = nptr at *
  rw [strtoul_eq hr.chars hb (by omega), hr.text, parse]
  rw [hr.text, hafter] at hu
  simp only [hafter, Option.bind_some]
  by_cases hnil : digitsOf base (afterSign signed) = []
  · rw [if_pos hnil, if_pos hnil]
    exact congrArg some (clamp_unread p nptr neg endptr)
  · obtain ⟨hplain, hneg⟩ := hsign hnil
    rw [if_neg hnil, if_neg hnil, decide_eq_false hplain, ← hneg]
    apply congrArg some
    have hread := prefixLength_le base (afterSign signed)
    have hpos := List.length_pos_iff.mpr hnil
    have hshort := hu.le
    have hlt := hr.lt
    apply clamp_number
    · rw [Ne, add_eq_start (by omega)]
      omega
    · rw [hr.place, BitVec.add_assoc, ← BitVec.ofNat_add, bytes_length]
      congr 2
      omega

end Digits

/-- The longest text at the start of the string that is a numeral. -/
def Longest (base : Nat) (s text : List (BitVec 8)) (neg : Bool) (mag : Nat) : Prop :=
  text <+: s ∧ Numeral base text neg mag ∧
    ∀ t n m, t <+: s → Numeral base t n m → t.length ≤ text.length

theorem Longest.parse_eq {base : Nat} {s text : List (BitVec 8)} {neg : Bool} {mag : Nat}
    (h : Longest base s text neg mag) : parse base s = some (text.length, neg, mag) := by
  obtain ⟨hfront, hnumeral, hmax⟩ := h
  obtain ⟨k, n, m, hparse, hcover⟩ := parse_longest hfront hnumeral
  obtain ⟨hk, hfound⟩ := parse_sound hparse
  have hle := hmax _ _ _ (List.take_prefix k s) hfound
  rw [List.length_take_of_le hk] at hle
  rcases hcover with hlt | ⟨hlen, hneg, hmag⟩
  · omega
  · rw [hparse, hlen, hneg, hmag]

theorem Longest.of_parse {base : Nat} {s text : List (BitVec 8)} {neg : Bool} {mag : Nat}
    (h : parse base s = some (text.length, neg, mag)) (ht : s.take text.length = text) :
    Longest base s text neg mag := by
  obtain ⟨-, hnumeral⟩ := parse_sound h
  rw [ht] at hnumeral
  refine ⟨ht ▸ List.take_prefix _ s, hnumeral, ?_⟩
  intro t n m hfront hn
  obtain ⟨k, n', m', hparse, hcover⟩ := parse_longest hfront hn
  have hk : k = text.length := congrArg Prod.fst (Option.some.inj (hparse.symm.trans h))
  omega

theorem parse_none {base : Nat} {s : List (BitVec 8)}
    (h : ∀ text neg mag, text <+: s → ¬ Numeral base text neg mag) : parse base s = none := by
  cases hparse : parse base s with
  | none => rfl
  | some r =>
    obtain ⟨k, neg, mag⟩ := r
    exact absurd (parse_sound hparse).2 (h _ neg mag (List.take_prefix k s))

theorem strtoul_strtol_longest {mem : Word → BitVec 8} {ptr : Word} {n base fuel : Nat}
    (h : HasLength mem ptr n) (hb : base = 0 ∨ 2 ≤ base ∧ base ≤ 36) (hf : n < fuel) (endptr : Bool) :
    ∃ u l, strtoul mem fuel ptr endptr base 0 = some u ∧ strtol mem fuel ptr endptr base 0 = some l ∧
      l.stop = u.stop ∧
      (∀ text neg mag, Longest base (bytes mem n ptr) text neg mag →
        u.value = (if 2 ^ 32 - 1 < mag then BitVec.allOnes 32
          else if neg then -BitVec.ofNat 32 mag else BitVec.ofNat 32 mag) ∧
        u.errno = (if 2 ^ 32 - 1 < mag then ERANGE else 0) ∧
        u.stop = stopAt endptr (ptr + BitVec.ofNat 32 text.length) ∧
        let x : Int := if neg then -mag else mag
        l.value = max (-2 ^ 31) (min x (2 ^ 31 - 1)) ∧
        l.errno = (if x < -2 ^ 31 ∨ 2 ^ 31 - 1 < x then ERANGE else 0)) ∧
      ((∀ text neg mag, text <+: bytes mem n ptr → ¬ Numeral base text neg mag) →
        u = ⟨0, stopAt endptr ptr, EINVAL⟩ ∧ l.value = 0 ∧ l.errno = EINVAL) := by
  refine ⟨_, _, strtoul_eq h hb hf endptr 0, strtol_eq h hb hf endptr, ?_, ?_, ?_⟩
  · cases parse base (bytes mem n ptr) with
    | none => rfl
    | some r =>
      by_cases hover : 2 ^ 32 ≤ r.2.2
      · rw [unsignedNumber, if_pos hover]
        rfl
      · rw [unsignedNumber, if_neg hover]
        rfl
  · intro text neg mag hlongest
    rw [hlongest.parse_eq]
    refine ⟨?_, ?_, ?_, rfl, ?_⟩
    · rw [unsignedNumber]
      by_cases hover : 2 ^ 32 - 1 < mag
      · rw [if_pos hover, if_pos (by omega)]
        rfl
      · rw [if_neg hover, if_neg (by omega : ¬ 2 ^ 32 ≤ mag)]
    · rw [unsignedNumber]
      by_cases hover : 2 ^ 32 - 1 < mag
      · rw [if_pos hover, if_pos (by omega)]
      · rw [if_neg hover, if_neg (by omega : ¬ 2 ^ 32 ≤ mag)]
    · rw [unsignedNumber]
      split_ifs <;> rfl
    · rw [signedNumber]
      dsimp only
      split_ifs <;> first | rfl | omega
  · intro hnone
    rw [parse_none hnone]
    exact ⟨rfl, rfl, rfl⟩

/-- The string `-9`. -/
def minusNine : Word → BitVec 8 := fun a => [0x2d, 0x39].getD a.toNat 0

theorem strtoul_strtol_longest_minus_nine :
    ∃ u l, strtoul minusNine 3 0 true 10 0 = some u ∧ strtol minusNine 3 0 true 10 0 = some l ∧
      u.value = -9 ∧ l.value = -9 ∧ l.stop = some 2 := by
  have hlength : HasLength minusNine 0 2 := ⟨by decide, by decide⟩
  obtain ⟨u, l, hu, hl, hstop, hread, -⟩ :=
    strtoul_strtol_longest hlength (by decide : 10 = 0 ∨ 2 ≤ 10 ∧ 10 ≤ 36) (by decide : 2 < 3) true
  obtain ⟨huv, -, hus, hlv, -⟩ := hread [0x2d, 0x39] true 9 (Longest.of_parse rfl rfl)
  exact ⟨u, l, hu, hl, huv, hlv, hstop.trans hus⟩

end Pittsfield.Libc
