import Mathlib.Data.List.TakeWhile
import Pittsfield.Libc.Compare

/-!
# `strtoul` and `strtol` of `libc.c`

The numerals are texts of white space, a sign, `0x` or nothing, and digits. Both functions
read the longest numeral at the start of a string. `strtol` takes off a minus itself, if
something that can be a digit follows, and leaves the rest to `strtoul`.
-/

namespace Pittsfield.Libc

open Pittsfield.Foundation
open Pittsfield.Region
open Pittsfield.Machine

def isupper (c : Int) : Bool := 0x41 ≤ c && c ≤ 0x5a

def islower (c : Int) : Bool := 0x61 ≤ c && c ≤ 0x7a

def isalpha (c : Int) : Bool := isupper c || islower c

def isdigit (c : Int) : Bool := 0x30 ≤ c && c ≤ 0x39

def isalnum (c : Int) : Bool := isalpha c || isdigit c

def isspace (c : Int) : Bool :=
  c == 0x20 || c == 0x0c || c == 0x0a || c == 0x0d || c == 0x09 || c == 0x0b

def isxdigit (c : Int) : Bool := isdigit c || (0x41 ≤ c && c ≤ 0x46) || (0x61 ≤ c && c ≤ 0x66)

def EINVAL : Nat := 22

def ERANGE : Nat := 34

/-- A byte as a digit, in an `unsigned char`. -/
def digit (c : BitVec 8) : BitVec 8 :=
  if c ≥ 0x61 then c - 0x61 + 10
  else if c ≥ 0x41 then c - 0x41 + 10
  else if c ≤ 0x39 then c - 0x30
  else 0xff

/-- The value returned, what is stored at `endptr`, and `errno`. -/
structure Number (α : Type) where
  value : α
  stop : Option Word
  errno : Nat

section

variable (mem : Word → BitVec 8)

/-- `while (isspace(*nptr)) ++nptr`, none if it takes more than the given number of rounds. -/
def skipSpaces : Nat → Word → Option Word
  | 0, _ => none
  | n + 1, nptr => if isspace (mem nptr).toInt then skipSpaces n (nptr + 1) else some nptr

/-- The base and the first digit: the tests for `0` and `0x`. -/
def radix (base : Int) (nptr : Word) : Int × Word :=
  if (base = 16 ∨ base = 0) ∧ mem nptr = 0x30 then
    if (mem (nptr + 1) = 0x78 ∨ mem (nptr + 1) = 0x58) ∧ isxdigit (mem (nptr + 2)).toInt then
      (16, nptr + 2)
    else (if base = 0 then 8 else base, nptr)
  else (if base = 0 then 10 else base, nptr)

/-- The loop over the digits: where it ends, the value modulo `2^32`, and `overflow`. -/
def readDigits (base : Int) : Nat → Word → Word → Bool → Option (Word × Word × Bool)
  | 0, _, _, _ => none
  | n + 1, nptr, v, overflow =>
    let c := digit (mem nptr)
    if mem nptr = 0 ∨ (c.toNat : Int) ≥ base then some (nptr, v, overflow)
    else
      let x := (v &&& 0xff) * BitVec.ofInt 32 base + c.setWidth 32
      let w := (v >>> 8) * BitVec.ofInt 32 base + (x >>> 8)
      readDigits base n (nptr + 1) ((w <<< 8) + (x &&& 0xff)) (overflow || w > 0xffffff)

/-- `strtoul`; `endptr` says whether the pointer is there. -/
def strtoul (fuel : Nat) (ptr : Word) (endptr : Bool) (base : Int) (errno : Nat) :
    Option (Number Word) := do
  let nptr ← skipSpaces mem fuel ptr
  let neg := mem nptr = 0x2d
  let orig := if mem nptr = 0x2d ∨ mem nptr = 0x2b then nptr + 1 else nptr
  if ¬ (base = 16 ∧ mem orig = 0x30) ∧ base ≠ 0 ∧ BitVec.ofInt 32 (base - 2) > 34 then
    return ⟨0, none, EINVAL⟩
  else
    let (base, nptr) := radix mem base orig
    let (nptr, v, overflow) ← readDigits mem base fuel nptr 0 false
    let v := if nptr = orig then 0 else v
    let errno := if nptr = orig then EINVAL else errno
    let nptr := if nptr = orig then ptr else nptr
    let stop := if endptr then some nptr else none
    if overflow then return ⟨-1, stop, ERANGE⟩ else return ⟨if neg then -v else v, stop, errno⟩

/-- What `strtol` makes of the result of `strtoul`, which started at `nptr`. -/
def clamp (orig nptr : Word) (neg : Bool) (v : Number Word) : Number Int :=
  let stop := if v.stop = some nptr then some orig else v.stop
  if v.value.toNat ≥ 2147483648 then
    if v.value = 2147483648 ∧ neg then ⟨v.value.toInt, stop, 0⟩
    else ⟨if neg then -2 ^ 31 else 2 ^ 31 - 1, stop, ERANGE⟩
  else ⟨(if neg then -v.value else v.value).toInt, stop, v.errno⟩

def strtol (fuel : Nat) (nptr : Word) (endptr : Bool) (base : Int) (errno : Nat) :
    Option (Number Int) := do
  let orig := nptr
  let nptr ← skipSpaces mem fuel nptr
  let neg := mem nptr == 0x2d && isalnum (mem (nptr + 1)).toInt
  let nptr := if neg then nptr + 1 else nptr
  let v ← strtoul mem fuel nptr endptr base errno
  return clamp orig nptr neg v

end

/-- The digit a character stands for. -/
def digitOf (c : BitVec 8) : Option Nat :=
  if 0x30 ≤ c.toNat ∧ c.toNat ≤ 0x39 then some (c.toNat - 0x30)
  else if 0x61 ≤ c.toNat ∧ c.toNat ≤ 0x7a then some (c.toNat - 0x61 + 10)
  else if 0x41 ≤ c.toNat ∧ c.toNat ≤ 0x5a then some (c.toNat - 0x41 + 10)
  else none

/-- A digit of the base. -/
def IsDigit (b : Nat) (c : BitVec 8) : Prop := ∃ d ∈ digitOf c, d < b

instance (b : Nat) (c : BitVec 8) : Decidable (IsDigit b c) :=
  inferInstanceAs (Decidable (∃ d ∈ digitOf c, d < b))

/-- The value of a row of digits. -/
def numeral (b : Nat) (digits : List (BitVec 8)) : Nat :=
  digits.foldl (fun v c => v * b + (digitOf c).getD 0) 0

/-- The sign as it is written. -/
inductive Sign : List (BitVec 8) → Bool → Prop
  | none : Sign [] false
  | plus : Sign [0x2b] false
  | minus : Sign [0x2d] true

/-- What stands before the digits, and the base in which they are read. -/
inductive Radix (base : Nat) (digits : List (BitVec 8)) : List (BitVec 8) → Nat → Prop
  | plain : base ≠ 0 → Radix base digits [] base
  | hex (x : BitVec 8) : base = 16 ∨ base = 0 → x = 0x78 ∨ x = 0x58 → Radix base digits [0x30, x] 16
  | octal : base = 0 → digits.head? = some 0x30 → Radix base digits [] 8
  | decimal : base = 0 → digits.head? ≠ some 0x30 → Radix base digits [] 10

/-- White space, as a predicate on bytes. -/
def space (c : BitVec 8) : Bool := isspace c.toInt

/-- The text is a numeral with the given sign and magnitude. -/
def Numeral (base : Nat) (text : List (BitVec 8)) (neg : Bool) (mag : Nat) : Prop :=
  ∃ spaces sign pre digits b, text = spaces ++ sign ++ pre ++ digits ∧
    (∀ c ∈ spaces, space c) ∧ Sign sign neg ∧ Radix base digits pre b ∧ digits ≠ [] ∧
    (∀ c ∈ digits, IsDigit b c) ∧ mag = numeral b digits

end Pittsfield.Libc
