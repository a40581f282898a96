import Pittsfield.Region.Sizes

/-!
# The patterns of `x86_common.pm`

The opcode patterns match finitely many strings and are given by the list of these
strings. The number patterns are predicates on the characters. `signed_word` reads
the numbers that objdump prints.
-/

namespace Pittsfield.Offline

open Pittsfield.Region

/-- The strings that a pattern matches. -/
abbrev Words := List String

/-- One pattern behind another. -/
def cat (xs ys : Words) : Words := xs.flatMap fun x => ys.map (x ++ ·)

/-- `pattern?` -/
def opt (xs : Words) : Words := xs ++ [""]

/-- The pattern matches somewhere: it is not anchored. -/
def found (xs : Words) (text : String) : Bool :=
  text.toList.tails.any fun cs => xs.any (·.toList.isPrefixOf cs)

/-- The pattern is anchored at the start only. -/
def starts (xs : Words) (text : String) : Bool := xs.any (·.toList.isPrefixOf text.toList)

section Opcodes

def arith8 : Words := ["add", "adc", "and", "xor", "or", "sbb", "sub", "cmp"]
def ariths : Words := cat (opt ["i"]) ["mul", "div"]
def arith : Words := arith8 ++ ariths ++ ["test", "bsf", "bsr"]
def shift : Words := ["rol", "ror", "rcl", "rcr", "shl", "sal", "shr", "sar"]
def dshift : Words := cat shift ["d"]
def size : Words := ["b", "w", "l"]
def unary : Words :=
  cat ["push", "pop"] (opt ["l"]) ++ cat ["inc", "dec"] (opt size) ++ ["not", "neg"]
def convert : Words := ["cwtl", "cltd", "cbtw"]
def fbin : Words :=
  cat ["f"] (cat (["add", "mul"] ++ cat ["div", "sub"] (opt ["r"])) (cat ["s", "l", ""] (opt ["p"])))
def fstore : Words := cat ["f"] (cat (opt ["i"]) (cat ["st"] (cat (opt ["p"]) ["s", "t", "l", "ll", ""])))
def fload : Words :=
  cat ["f"] (cat (opt ["i"])
    (cat (["add", "mul"] ++ cat ["sub", "div"] (opt ["r"]) ++ cat ["com"] (opt ["p"]) ++ ["ld"])
      ["s", "t", "l", "ll", ""]))
def fconst : Words := cat ["fld"] ["1", "l2t", "l2e", "pi", "lg2", "ln2", "z"]
def funary : Words :=
  cat ["f"] (["xch", "abs", "chs", "cos", "sin", "sincos", "sqrt", "scale", "tst", "rndint", "yl2x",
    "patan", "2xm1", "ucom", "ucomp", "ucompp"] ++ cat ["com", "comp", "compp"] ["s", "l", ""])
def fcstore : Words := cat ["f"] (cat (opt ["n"]) ["stsw", "stcw"])
def fcload : Words := ["fldcw"]
def cond : Words :=
  cat (opt ["n"]) ["o", "b", "c", "ae", "z", "e", "be", "a", "s", "p", "pe", "po", "l", "ge", "le", "g"]

/-- The opcodes that the main loop lets through to `check_insn`. -/
def knownOpcodes : Words :=
  cat ["mov"] (["", "l", "b", "w"] ++ cat ["s", "z"] ["bl", "wl", "bw"]) ++ ["lea"] ++
    cat unary (opt size) ++ ["nop"] ++ cat (shift ++ dshift) (opt size) ++ cat arith (opt size) ++
    ["bt"] ++ cat ["j"] cond ++ cat ["set"] cond ++
    ["jecxz", "jmp", "call", "leave", "ret", "pushf", "popf"] ++ convert ++ ["cld"] ++ fload ++ fbin ++
    fstore ++ fconst ++ funary ++ fcstore ++ fcload ++ ["sahf", "xchg", "int3"] ++ cat ["cmov"] cond

end Opcodes

section Numbers

def hexDigit (c : Char) : Option Nat :=
  if '0' ≤ c ∧ c ≤ '9' then some (c.toNat - '0'.toNat)
  else if 'a' ≤ c ∧ c ≤ 'f' then some (c.toNat - 'a'.toNat + 10)
  else none

def decimalDigit (c : Char) : Option Nat :=
  if '0' ≤ c ∧ c ≤ '9' then some (c.toNat - '0'.toNat) else none

/-- One digit or more. -/
def digits (digit : Char → Option Nat) (cs : List Char) : Bool :=
  cs ≠ [] && cs.all fun c => (digit c).isSome

/-- `0x` and up to `n` digits: `b_hex`, `h_hex` and `w_hex`. -/
def hexUpTo (n : Nat) : List Char → Bool
  | '0' :: 'x' :: ds => digits hexDigit ds && ds.length ≤ n
  | _ => false

/-- `-?` before a pattern. -/
def signed (p : List Char → Bool) : List Char → Bool
  | '-' :: cs => p cs
  | cs => p cs

/-- `12[0-7]|1[01]\d|\d\d|\d` -/
def byteDecimal : List Char → Bool
  | ['1', '2', c] => '0' ≤ c && c ≤ '7'
  | ['1', b, c] => (b = '0' || b = '1') && digits decimalDigit [c]
  | [b, c] => digits decimalDigit [b, c]
  | [c] => digits decimalDigit [c]
  | _ => false

/-- `3276[0-7]|327[0-5]\d|32[0-6]\d\d|3[01]\d{3}|\d{1,4}` -/
def halfDecimal : List Char → Bool
  | ['3', '2', '7', '6', e] => '0' ≤ e && e ≤ '7'
  | ['3', '2', '7', d, e] => '0' ≤ d && d ≤ '5' && digits decimalDigit [e]
  | ['3', '2', c, d, e] => '0' ≤ c && c ≤ '6' && digits decimalDigit [d, e]
  | ['3', b, c, d, e] => (b = '0' || b = '1') && digits decimalDigit [c, d, e]
  | cs => digits decimalDigit cs && cs.length ≤ 4

def lbyte (cs : List Char) : Bool :=
  cs = "-128".toList || signed byteDecimal cs || signed (hexUpTo 2) cs

def lhalf (cs : List Char) : Bool :=
  cs = "-32768".toList || signed halfDecimal cs || signed (hexUpTo 4) cs

def lword (cs : List Char) : Bool := signed (digits decimalDigit) cs || signed (hexUpTo 8) cs

/-- `0xffff[0-9a-f]{4}`: a small negative number as unsigned. -/
def highHalf : List Char → Bool
  | '0' :: 'x' :: 'f' :: 'f' :: 'f' :: 'f' :: ds => digits hexDigit ds && ds.length = 4
  | _ => false

/-- `0x[0-9a-f]+` -/
def anyHex : List Char → Bool
  | '0' :: 'x' :: ds => digits hexDigit ds
  | _ => false

/-- The value of digits in the base. -/
def ofDigits (base : Nat) (digit : Char → Option Nat) (cs : List Char) : Nat :=
  cs.foldl (fun n c => base * n + (digit c).getD 0) 0

/-- `signed_word`: nothing where it gives up on the format. -/
def signed_word (x : String) : Option Int :=
  match x.toList with
  | [] => some 0
  | '-' :: '0' :: 'x' :: ds =>
    if digits hexDigit ds then some (-(ofDigits 16 hexDigit ds : Int)) else none
  | '0' :: 'x' :: ds =>
    if digits hexDigit ds then some (BitVec.ofNat 32 (ofDigits 16 hexDigit ds)).toInt else none
  | '-' :: ds =>
    if digits decimalDigit ds then some (-(ofDigits 10 decimalDigit ds : Int)) else none
  | ds => if digits decimalDigit ds then some (ofDigits 10 decimalDigit ds : Int) else none

/-- `sprintf '0x%08x'` -/
def hexText (w : Word) : String :=
  String.ofList ('0' :: 'x' :: (List.range 8).reverse.map fun k => Nat.digitChar (w.toNat / 16 ^ k % 16))

theorem hexDigit_digitChar {n : Nat} (h : n < 16) : hexDigit (Nat.digitChar n) = some n := by
  have hall : ∀ n < 16, hexDigit (Nat.digitChar n) = some n := by decide
  exact hall n h

/-- What `sprintf` prints, `signed_word` reads back. -/
theorem signed_word_hexText (w : Word) : signed_word (hexText w) = some w.toInt := by
  have hd : ∀ k, hexDigit (Nat.digitChar (w.toNat / 16 ^ k % 16)) = some (w.toNat / 16 ^ k % 16) :=
    fun k => hexDigit_digitChar (Nat.mod_lt _ (by decide))
  have hval : ofDigits 16 hexDigit ((List.range 8).reverse.map fun k =>
      Nat.digitChar (w.toNat / 16 ^ k % 16)) = w.toNat := by
    have hw := w.isLt
    simp only [ofDigits, List.range, List.range.loop, List.reverse_cons, List.reverse_nil,
      List.nil_append, List.cons_append, List.map_cons, List.map_nil, List.foldl_cons, List.foldl_nil,
      hd, Option.getD_some]
    simp only [Nat.reducePow]
    omega
  have hdig : digits hexDigit ((List.range 8).reverse.map fun k =>
      Nat.digitChar (w.toNat / 16 ^ k % 16)) = true := by
    simp [digits, hd]
  simp only [signed_word, hexText, String.toList_ofList, hdig, if_true, hval, BitVec.ofNat_toNat,
    BitVec.setWidth_eq]

end Numbers

end Pittsfield.Offline
