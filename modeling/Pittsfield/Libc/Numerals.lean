import Pittsfield.Libc.Numbers

/-!
# The numeral at the start of a string

A scan from left to right: white space, a sign, the prefix `0x`, and as many digits as
there are. It finds the longest numeral, and says that there is none where it finds no digit.
-/

namespace Pittsfield.Libc

/-- What stands behind a sign. -/
def afterSign (s : List (BitVec 8)) : List (BitVec 8) :=
  if s.getD 0 0 = 0x2d ∨ s.getD 0 0 = 0x2b then s.drop 1 else s

/-- The string starts with `0x` and a hexadecimal digit, where the base allows for it. -/
def Prefixed (base : Nat) (s : List (BitVec 8)) : Prop :=
  (base = 16 ∨ base = 0) ∧ s.getD 0 0 = 0x30 ∧ (s.getD 1 0 = 0x78 ∨ s.getD 1 0 = 0x58) ∧
    isxdigit (s.getD 2 0).toInt

instance (base : Nat) (s : List (BitVec 8)) : Decidable (Prefixed base s) :=
  inferInstanceAs (Decidable (_ ∧ _ ∧ _ ∧ _))

def radixOf (base : Nat) (s : List (BitVec 8)) : Nat :=
  if Prefixed base s then 16 else if base = 0 then if s.getD 0 0 = 0x30 then 8 else 10 else base

def prefixLength (base : Nat) (s : List (BitVec 8)) : Nat := if Prefixed base s then 2 else 0

def inBase (b : Nat) (c : BitVec 8) : Bool := decide (IsDigit b c)

def digitsOf (base : Nat) (s : List (BitVec 8)) : List (BitVec 8) :=
  (s.drop (prefixLength base s)).takeWhile (inBase (radixOf base s))

/-- What the scan finds: the length of the numeral, its sign and its magnitude. -/
def parse (base : Nat) (s : List (BitVec 8)) : Option (Nat × Bool × Nat) :=
  let signed := s.dropWhile space
  let unsigned := afterSign signed
  let digits := digitsOf base unsigned
  if digits = [] then none
  else some (s.length - unsigned.length + (prefixLength base unsigned + digits.length),
    decide (signed.getD 0 0 = 0x2d), numeral (radixOf base unsigned) digits)

section Characters

theorem digit_cases (c : BitVec 8) : digitOf c = none ∧ 36 ≤ (digit c).toNat ∨
    digitOf c = some (digit c).toNat ∧ (digit c).toNat < 36 := by
  revert c
  decide +kernel

/-- A digit is neither white space nor a sign, and is a letter or a decimal digit. -/
theorem digit_char (c : BitVec 8) (h : (digitOf c).isSome) :
    space c = false ∧ c ≠ 0x2d ∧ c ≠ 0x2b ∧ isalnum c.toInt = true := by
  revert c
  decide +kernel

theorem alnum_char (c : BitVec 8) (h : isalnum c.toInt = true) :
    space c = false ∧ c ≠ 0x2d ∧ c ≠ 0x2b := by
  revert c
  decide +kernel

theorem isDigit_sixteen (c : BitVec 8) : IsDigit 16 c ↔ isxdigit c.toInt = true := by
  revert c
  decide +kernel

theorem x_not_digit : ∀ x : BitVec 8, x = 0x78 ∨ x = 0x58 → ¬ IsDigit 16 x := by decide +kernel

theorem IsDigit.mono {a b : Nat} {c : BitVec 8} (h : IsDigit a c) (hab : a ≤ b) : IsDigit b c := by
  obtain ⟨d, hd, hlt⟩ := h
  exact ⟨d, hd, Nat.lt_of_lt_of_le hlt hab⟩

theorem IsDigit.isSome {b : Nat} {c : BitVec 8} (h : IsDigit b c) : (digitOf c).isSome := by
  obtain ⟨d, hd, -⟩ := h
  exact Option.isSome_iff_exists.mpr ⟨d, hd⟩

end Characters

section Scan

variable {base : Nat} {s : List (BitVec 8)}

theorem space_split (s : List (BitVec 8)) : s.takeWhile space ++ s.dropWhile space = s :=
  List.takeWhile_append_dropWhile

/-- The sign in front of what `afterSign` leaves. -/
theorem afterSign_split (s : List (BitVec 8)) :
    ∃ sign, Sign sign (decide (s.getD 0 0 = 0x2d)) ∧ s = sign ++ afterSign s := by
  cases s with
  | nil => exact ⟨[], .none, rfl⟩
  | cons c s =>
    rw [afterSign, List.getD_cons_zero]
    by_cases hminus : c = 0x2d
    · rw [if_pos (Or.inl hminus), hminus]
      exact ⟨[0x2d], .minus, rfl⟩
    · rw [decide_eq_false hminus]
      by_cases hplus : c = 0x2b
      · rw [if_pos (Or.inr hplus), hplus]
        exact ⟨[0x2b], .plus, rfl⟩
      · rw [if_neg (by rintro (h | h) <;> contradiction)]
        exact ⟨[], .none, rfl⟩

theorem prefixed_split (h : Prefixed base s) : (base = 16 ∨ base = 0) ∧
    ∃ x c t, s = 0x30 :: x :: c :: t ∧ (x = 0x78 ∨ x = 0x58) ∧ isxdigit c.toInt = true := by
  obtain ⟨hbase, hzero, hx, hc⟩ := h
  refine ⟨hbase, ?_⟩
  match s with
  | a :: x :: c :: t =>
    rw [List.getD_cons_zero] at hzero
    exact ⟨x, c, t, by rw [hzero], hx, hc⟩
  | [] => exact absurd hzero (by decide)
  | [a] => exact (show ¬ ((0 : BitVec 8) = 0x78 ∨ (0 : BitVec 8) = 0x58) by decide) hx |>.elim
  | [a, x] => exact (show ¬ isxdigit (0 : BitVec 8).toInt = true by decide) hc |>.elim

/-- The first byte is that of a part that is not empty. -/
theorem getD_append {a b : List (BitVec 8)} (h : a ≠ []) : (a ++ b).getD 0 0 = a.getD 0 0 := by
  cases a with
  | nil => exact absurd rfl h
  | cons c a => rfl

/-- The digits, and the prefix in front of them, at the start of a text without a sign. -/
theorem digitsOf_split (base : Nat) (s : List (BitVec 8)) :
    ∃ pre rest, s = pre ++ digitsOf base s ++ rest ∧ pre.length = prefixLength base s ∧
      (digitsOf base s ≠ [] → Radix base (digitsOf base s) pre (radixOf base s)) := by
  obtain ⟨rest, hdigits⟩ : ∃ rest, digitsOf base s ++ rest = s.drop (prefixLength base s) :=
    ⟨_, List.takeWhile_append_dropWhile⟩
  by_cases hpre : Prefixed base s
  · obtain ⟨hbase, x, c, t, hs, hx, -⟩ := prefixed_split hpre
    rw [prefixLength, if_pos hpre] at hdigits ⊢
    refine ⟨[0x30, x], rest, ?_, rfl, ?_⟩
    · rw [List.append_assoc, hdigits, hs]
      rfl
    · intro hne
      rw [radixOf, if_pos hpre]
      exact .hex x hbase hx
  · rw [prefixLength, if_neg hpre] at hdigits ⊢
    have hs : s = digitsOf base s ++ rest := hdigits.symm
    refine ⟨[], rest, hs, rfl, ?_⟩
    intro hne
    have hhead : s.getD 0 0 = (digitsOf base s).getD 0 0 := by
      conv_lhs => rw [hs]
      exact getD_append hne
    generalize digitsOf base s = digits at hne hhead
    rw [radixOf, if_neg hpre, hhead]
    by_cases hzero : base = 0
    · cases digits with
      | nil => exact absurd rfl hne
      | cons c digits =>
        rw [if_pos hzero, List.getD_cons_zero]
        by_cases h0 : c = 0x30
        · rw [if_pos h0]
          exact .octal hzero (congrArg some h0)
        · rw [if_neg h0]
          exact .decimal hzero fun h => h0 (Option.some.inj h)
    · rw [if_neg hzero]
      exact .plain hzero

theorem digitsOf_isDigit {c : BitVec 8} (h : c ∈ digitsOf base s) : IsDigit (radixOf base s) c := by
  have hb : inBase (radixOf base s) c = true := List.mem_takeWhile_imp h
  exact of_decide_eq_true hb

theorem take_part {a b : List (BitVec 8)} (h : s = a ++ b) : s.take a.length = a := by
  rw [h, List.take_left]

theorem drop_part {a b : List (BitVec 8)} (h : s = a ++ b) : s.drop a.length = b := by
  rw [h, List.drop_left]

/-- The scan finds a numeral. -/
theorem parse_sound {k : Nat} {neg : Bool} {mag : Nat} (h : parse base s = some (k, neg, mag)) :
    k ≤ s.length ∧ Numeral base (s.take k) neg mag := by
  obtain ⟨sign, hsign, hsigned⟩ := afterSign_split (s.dropWhile space)
  obtain ⟨pre, rest, hu, hlen, hradix⟩ := digitsOf_split base (afterSign (s.dropWhile space))
  simp only [parse] at h
  rcases ite_eq_iff.mp h with ⟨-, h⟩ | ⟨hne, h⟩
  · cases h
  · have hall : ∀ c ∈ digitsOf base (afterSign (s.dropWhile space)), IsDigit _ c :=
      fun c => digitsOf_isDigit
    generalize digitsOf base (afterSign (s.dropWhile space)) = digits at *
    have hs : s = (s.takeWhile space ++ sign ++ pre ++ digits) ++ rest := by
      rw [List.append_assoc _ pre, List.append_assoc _ (pre ++ _), ← hu, List.append_assoc, ← hsigned,
        space_split]
    have hlength := congrArg List.length hs
    have hulength := congrArg List.length hu
    simp only [List.length_append] at hlength hulength
    obtain ⟨hk, hneg, hmag⟩ : _ ∧ _ ∧ _ := by simpa using h
    have hkparts : k = (s.takeWhile space ++ sign ++ pre ++ digits).length := by
      simp only [List.length_append]
      omega
    refine ⟨by omega, s.takeWhile space, sign, pre, digits, _, ?_, ?_, ?_, hradix hne, hne, hall,
      hmag.symm⟩
    · rw [hkparts]
      exact take_part hs
    · exact fun c hc => List.mem_takeWhile_imp hc
    · rw [← hneg]
      exact hsign

variable {pre digits rest : List (BitVec 8)} {b : Nat}

/-- With the prefix and the base of a numeral the scan gets at least its digits. -/
theorem digits_found (hs : s = pre ++ digits ++ rest) (hb : radixOf base s = b)
    (hpre : prefixLength base s = pre.length) (hall : ∀ c ∈ digits, IsDigit b c) :
    ∃ more, digitsOf base s = digits ++ more := by
  refine ⟨rest.takeWhile (inBase b), ?_⟩
  have hdrop : s.drop (prefixLength base s) = digits ++ rest := by
    rw [hpre, hs, List.append_assoc, List.drop_left]
  rw [digitsOf, hdrop, hb]
  exact List.takeWhile_append_of_pos fun c hc => decide_eq_true (hall c hc)

/-- Behind the prefix `0x` the scan finds a digit. -/
theorem prefixed_digits (h : Prefixed base s) : digitsOf base s ≠ [] := by
  obtain ⟨-, x, c, t, hs, -, hc⟩ := prefixed_split h
  rw [digitsOf, prefixLength, if_pos h, radixOf, if_pos h, hs]
  show (c :: t).takeWhile (inBase 16) ≠ []
  have hdigit : inBase 16 c = true := decide_eq_true ((isDigit_sixteen c).mpr hc)
  rw [List.takeWhile_cons_of_pos hdigit]
  exact List.cons_ne_nil _ _

/-- Digits that start where the scan has seen a prefix end before the `x`. -/
theorem digits_before_x (h : Prefixed base s) (hs : s = digits ++ rest)
    (hall : ∀ c ∈ digits, IsDigit 16 c) : digits.length ≤ 1 := by
  obtain ⟨-, x, c, t, hx, hxx, -⟩ := prefixed_split h
  match digits with
  | [] => exact Nat.zero_le 1
  | [a] => exact le_rfl
  | a :: y :: digits =>
    rw [hs] at hx
    have hxy : y = x := (List.cons.inj (List.cons.inj hx).2).1
    exact absurd (hxy ▸ hall y (by simp)) (x_not_digit x hxx)

/-- The scan gets at least as far as a prefix and digits, and where it gets no further it
reads the same number. -/
def Covers (base : Nat) (s pre digits : List (BitVec 8)) (b : Nat) : Prop :=
  digitsOf base s ≠ [] ∧
    (pre.length + digits.length < prefixLength base s + (digitsOf base s).length ∨
      pre.length + digits.length = prefixLength base s + (digitsOf base s).length ∧
        numeral b digits = numeral (radixOf base s) (digitsOf base s))

theorem covers_same (hs : s = pre ++ digits ++ rest) (hb : radixOf base s = b)
    (hpre : prefixLength base s = pre.length) (hne : digits ≠ []) (hall : ∀ c ∈ digits, IsDigit b c) :
    Covers base s pre digits b := by
  obtain ⟨more, hmore⟩ := digits_found hs hb hpre hall
  rw [Covers, hmore, hb, hpre, List.length_append]
  refine ⟨List.append_ne_nil_of_left_ne_nil hne more, ?_⟩
  cases more with
  | nil => exact Or.inr ⟨rfl, by rw [List.append_nil]⟩
  | cons c more => exact Or.inl (by rw [List.length_cons]; omega)

theorem covers_shorter (h : Prefixed base s) (hs : s = [] ++ digits ++ rest)
    (hall : ∀ c ∈ digits, IsDigit 16 c) : Covers base s [] digits b := by
  have hone : digits.length ≤ 1 := digits_before_x h hs hall
  refine ⟨prefixed_digits h, Or.inl ?_⟩
  have hpos := List.length_pos_iff.mpr (prefixed_digits h)
  rw [prefixLength, if_pos h, List.length_nil]
  omega

theorem radix_covered (hs : s = pre ++ digits ++ rest) (hradix : Radix base digits pre b)
    (hne : digits ≠ []) (hall : ∀ c ∈ digits, IsDigit b c) : Covers base s pre digits b := by
  have hfirst : pre = [] → s.getD 0 0 = digits.getD 0 0 := by
    rintro rfl
    rw [hs]
    exact getD_append hne
  have hplain : pre = [] → ¬ Prefixed base s → prefixLength base s = pre.length := by
    rintro rfl hnot
    rw [prefixLength, if_neg hnot]
    rfl
  cases hradix with
  | plain hbase =>
    by_cases hpre : Prefixed base s
    · have h16 : base = 16 := hpre.1.resolve_right hbase
      exact covers_shorter hpre hs fun c hc => h16 ▸ hall c hc
    · exact covers_same hs (by rw [radixOf, if_neg hpre, if_neg hbase]) (hplain rfl hpre) hne hall
  | hex x hbase hx =>
    have hpre : Prefixed base s := by
      cases digits with
      | nil => exact absurd rfl hne
      | cons c digits =>
        refine ⟨hbase, ?_⟩
        rw [hs]
        exact ⟨rfl, hx, (isDigit_sixteen c).mp (hall c List.mem_cons_self)⟩
    exact covers_same hs (by rw [radixOf, if_pos hpre]) (by rw [prefixLength, if_pos hpre]; rfl) hne hall
  | octal hbase hhead =>
    have h0 : s.getD 0 0 = 0x30 := by
      cases digits with
      | nil => exact absurd rfl hne
      | cons c digits => rw [hfirst rfl, List.getD_cons_zero, Option.some.inj hhead]
    by_cases hpre : Prefixed base s
    · exact covers_shorter hpre hs fun c hc => (hall c hc).mono (by decide)
    · exact covers_same hs (by rw [radixOf, if_neg hpre, if_pos hbase, if_pos h0]) (hplain rfl hpre)
        hne hall
  | decimal hbase hhead =>
    have h0 : s.getD 0 0 ≠ 0x30 := by
      cases digits with
      | nil => exact absurd rfl hne
      | cons c digits =>
        rw [hfirst rfl, List.getD_cons_zero]
        exact fun h => hhead (congrArg some h)
    have hpre : ¬ Prefixed base s := fun h => h0 h.2.1
    exact covers_same hs (by rw [radixOf, if_neg hpre, if_pos hbase, if_neg h0]) (hplain rfl hpre)
      hne hall

/-- A part that starts with no white space ends the white space before it. -/
theorem dropWhile_part {spaces : List (BitVec 8)} (hsp : ∀ c ∈ spaces, space c)
    {c : BitVec 8} {t : List (BitVec 8)} (hc : space c = false) :
    (spaces ++ c :: t).dropWhile space = c :: t := by
  rw [List.dropWhile_append_of_pos fun a ha => hsp a ha]
  exact List.dropWhile_cons_of_neg (by rw [hc]; exact Bool.false_ne_true)

/-- The first character of a numeral behind its sign is a digit. -/
theorem radix_first (hradix : Radix base digits pre b) (hne : digits ≠ [])
    (hall : ∀ c ∈ digits, IsDigit b c) (rest : List (BitVec 8)) :
    ∃ c t, pre ++ digits ++ rest = c :: t ∧ (digitOf c).isSome := by
  have hdigits : pre = [] → ∃ c t, pre ++ digits ++ rest = c :: t ∧ (digitOf c).isSome := by
    rintro rfl
    cases digits with
    | nil => exact absurd rfl hne
    | cons c digits => exact ⟨c, digits ++ rest, rfl, (hall c List.mem_cons_self).isSome⟩
  cases hradix with
  | plain => exact hdigits rfl
  | hex x => exact ⟨0x30, x :: (digits ++ rest), rfl, by decide⟩
  | octal => exact hdigits rfl
  | decimal => exact hdigits rfl

theorem parse_eq {signed u : List (BitVec 8)} (hd : s.dropWhile space = signed)
    (hu : afterSign signed = u) (hne : digitsOf base u ≠ []) : parse base s =
      some (s.length - u.length + (prefixLength base u + (digitsOf base u).length),
        decide (signed.getD 0 0 = 0x2d), numeral (radixOf base u) (digitsOf base u)) := by
  subst hd hu
  exact if_neg hne

/-- The scan finds the longest numeral. -/
theorem parse_longest {text : List (BitVec 8)} {neg : Bool} {mag : Nat} (ht : text <+: s)
    (hn : Numeral base text neg mag) : ∃ k n m, parse base s = some (k, n, m) ∧
      (text.length < k ∨ text.length = k ∧ neg = n ∧ mag = m) := by
  obtain ⟨rest, rfl⟩ := ht
  obtain ⟨spaces, sign, pre, digits, b, rfl, hsp, hsign, hradix, hne, hall, rfl⟩ := hn
  obtain ⟨hfound, hcover⟩ := radix_covered (rfl : pre ++ digits ++ rest = _) hradix hne hall
  have hscan : (spaces ++ sign ++ pre ++ digits ++ rest).dropWhile space =
        sign ++ (pre ++ digits ++ rest) ∧
      afterSign (sign ++ (pre ++ digits ++ rest)) = pre ++ digits ++ rest ∧
      decide ((sign ++ (pre ++ digits ++ rest)).getD 0 0 = 0x2d) = neg := by
    obtain ⟨c, t, hct, hc⟩ := radix_first hradix hne hall rest
    obtain ⟨hspace, hminus, hplus, -⟩ := digit_char c hc
    rw [List.append_assoc _ pre, List.append_assoc _ (pre ++ _), List.append_assoc spaces, hct]
    cases hsign with
    | none =>
      refine ⟨dropWhile_part hsp hspace, ?_, ?_⟩
      · exact if_neg (by rintro (h | h) <;> contradiction)
      · exact decide_eq_false hminus
    | plus => exact ⟨dropWhile_part hsp (by decide), rfl, rfl⟩
    | minus => exact ⟨dropWhile_part hsp (by decide), rfl, rfl⟩
  obtain ⟨hd, hu, hneg⟩ := hscan
  refine ⟨_, _, _, parse_eq hd hu hfound, ?_⟩
  rw [hneg]
  simp only [List.length_append] at hcover ⊢
  rcases hcover with hlt | ⟨heq, hmag⟩
  · exact Or.inl (by omega)
  · exact Or.inr ⟨by omega, trivial, hmag⟩

end Scan

end Pittsfield.Libc
