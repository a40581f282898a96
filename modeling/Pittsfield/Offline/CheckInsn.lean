import Pittsfield.Foundation.Pass
import Pittsfield.Machine.Weakening
import Pittsfield.Offline.Listing

/-!
# `check_insn`

The function has one branch for every shape of the operands. Each branch is a
definition here, in the order of the source; `check_insn` chooses among them. A
branch that dies has no flags, only the text of the `die`.
-/

namespace Pittsfield.Offline

open Pittsfield.Foundation
open Pittsfield.Region
open Pittsfield.Machine
open Flag

/-- The style is `and`, as `sizes.pm` sets it. -/
def data_safety : Flag := EBX_DATA_SAFE
def code_safety : Flag := EBX_CODE_SAFE
def stack_top_safety : Flag := STACK_TOP_SAFE
def ebp_safety : Flag := EBP_DATA_SAFE
def esp_safety : Flag := USE_ESP

/-- `$change`: `=~ /bp/` and `=~ /sp/`. -/
def change (r : Reg) : Flags :=
  (if r.whole = some .ebp then {CHANGE_EBP} else ∅) ∪
    (if r.whole = some .esp then {CHANGE_ESP} else ∅)

def unknownInsn (op : String) (args : List Operand) : Except String Flags :=
  .error ("Unknown insn `" ++ op ++ " " ++ argsText args ++ "'")

section Branches

variable (L : Layout) (op : String) (safety unsafety : Flags)

/-- `$args eq ""` -/
def noneFlags : Except String Flags :=
  if op = "nop" then .ok ∅
  else if op = "ret" then
    if stack_top_safety ∈ safety then .ok {JUMP, USE_ESP, CHANGE_ESP}
    else .ok {JUMP, IJUMP, USE_ESP, CHANGE_ESP}
  else if op = "leave" then
    if CHANGE_EBP ∉ unsafety then .ok {USE_ESP, CHANGE_EBP}
    else .ok {USE_ESP, CHANGE_EBP, CHANGE_ESP}
  else if op = "pushf" ∨ op = "popf" then .ok {USE_ESP, CHANGE_ESP}
  else if op ∈ convert ∨ op ∈ fconst ++ funary ∨ op = "sahf" ∨ op = "int3" then .ok ∅
  else .error ("Unknown none-ary insn " ++ op)

/-- `^($reg)$` -/
def regFlags (target : Reg) : Except String Flags :=
  if op = "push" then .ok {USE_ESP, CHANGE_ESP}
  else if op = "pop" then .ok ({USE_ESP} ∪ change target ∪ {CHANGE_ESP})
  else if op ∈ ["inc", "dec", "not", "neg"] ∨ op ∈ shift ∨ op ∈ cat ["set"] cond ∨
      op ∈ ariths ∨ op ∈ fstore ++ funary ++ fload ∨ op ∈ fcstore then
    .ok (change target)
  else unknownInsn op [.reg target]

/-- `^($immed)$` -/
def immFlags (value : String) : Except String Flags :=
  if op = "push" then .ok {USE_ESP, CHANGE_ESP}
  else if op = "ret" then .ok {USE_ESP, CHANGE_ESP}
  else .error ("Unknown insn `" ++ op ++ " $" ++ value ++ "' <$" ++ value ++ ">")

/-- `^(inc|dec|i?div|i?mul|$shift|neg|not)[bwl]|set$cond|$fstore|$fcstore`, anchored
only before its first alternative. -/
def unaryStore : Bool :=
  starts (cat (["inc", "dec"] ++ ariths ++ shift ++ ["neg", "not"]) size) op ||
    found (cat ["set"] cond) op || found fstore op || found fcstore op

/-- The offsets that the branches with `$lhalf` look at. -/
def halfOffset (cs : List Char) : Bool := lhalf cs || highHalf cs

/-- `^($complex)$` -/
def complexFlags (target : Operand) : Except String Flags :=
  let flags : Flags :=
    if (target.offsetFrom .esp false).any fun t => lhalf t.toList || t = "" then {USE_ESP} else ∅
  if op = "pushl" then .ok {USE_ESP}
  else if unaryStore op then
    if target = atEbx ∧ data_safety ∈ safety then .ok flags
    else
      match target.offsetFrom .ebp false, target.offsetFrom .esp true with
      | some t, _ =>
        if CHANGE_EBP ∉ unsafety ∧ smallOffset halfOffset 32767 t then .ok ∅
        else .ok ({IWRITE} ∪ flags)
      | _, some t =>
        if CHANGE_ESP ∉ unsafety ∧ smallOffset (fun cs => halfOffset cs || cs.isEmpty) 127 t then
          .ok ∅
        else .ok ({IWRITE} ∪ flags)
      | _, _ => .ok ({IWRITE} ∪ flags)
  else if op ∈ fload ++ fcload ++ fbin ++ funary then .ok ∅
  else unknownInsn op [target]

/-- `^($immed),($reg),($reg)$` -/
def immRegRegFlags (value : String) (r1 r2 : Reg) : Except String Flags :=
  if op ∈ cat ariths (opt ["l"]) ∨ op ∈ cat dshift (opt ["l"]) then .ok (change r1 ∪ change r2)
  else unknownInsn op [.imm value, .reg r1, .reg r2]

/-- `^($reg),($reg),($reg)$` -/
def regRegRegFlags (r_amt r1 r2 : Reg) : Except String Flags :=
  if op ∈ cat dshift (opt ["l"]) then .ok (change r1 ∪ change r2)
  else unknownInsn op [.reg r_amt, .reg r1, .reg r2]

/-- `^($immed),($complex|$lword),($reg)$` -/
def immSrcRegFlags (value : String) (src : Operand) (dest : Reg) : Except String Flags :=
  if op ∈ cat ["imul", "idiv"] (opt ["l"]) then .ok (change dest)
  else unknownInsn op [.imm value, src, .reg dest]

/-- `^mov([sz](bl|wl|bw))?`, which is a prefix. -/
def isMov : Bool := starts ["mov"] op

/-- `^$arith|$shift|bt|$fbin|cmov$cond$`, anchored only at its two ends. -/
def isRegReg : Bool :=
  starts arith op || found (shift ++ ["bt"] ++ fbin) op ||
    op.toList.tails.any fun cs => (cat ["cmov"] cond).any (·.toList = cs)

/-- `^($reg),($reg)$` -/
def regRegFlags (src dest : Reg) : Except String Flags :=
  if isMov op then
    if op = "mov" ∧ src = .r32 .esp ∧ dest = .r32 .ebp ∧ CHANGE_ESP ∉ unsafety ∧
        BUMP_ESP ∉ unsafety then
      .ok {ebp_safety}
    else if op = "mov" ∧ src = .r32 .ebp ∧ dest = .r32 .esp ∧ CHANGE_EBP ∉ unsafety then .ok {USE_ESP}
    else .ok (change dest)
  else if isRegReg op then .ok (change dest)
  else if op = "xchg" then if src = dest then .ok ∅ else .ok (change dest ∪ change src)
  else unknownInsn op [.reg src, .reg dest]

/-- `^\$$lbyte`, which is a prefix. -/
def startsWithByte (value : String) : Bool := value.toList.inits.any lbyte

/-- What `^($immed),($reg)$` takes the change of the registers to be. -/
def immRegChange (value : String) (dest : Reg) : Flags :=
  (if dest.whole = some .ebp then {CHANGE_EBP} else ∅) ∪
    (if dest = .r32 .esp then
      if op ∈ cat ["add", "sub"] (opt ["l"]) ∧ startsWithByte value then {BUMP_ESP}
      else if op = "and" ∧ value = "0xfffffff0" then {BUMP_ESP}
      else {CHANGE_ESP}
    else ∅)

/-- `^($immed),($reg)$` -/
def immRegFlags (value : String) (dest : Reg) : Except String Flags :=
  let change := immRegChange op value dest
  if op = "mov" then .ok change
  else if op ∈ arith8 then
    if op = "and" ∧ value = hexText L.data_mask ∧ dest = .r32 .ebx then .ok {EBX_DATA_SAFE}
    else if op = "and" ∧ value = hexText L.jump_mask ∧ dest = .r32 .ebx then .ok {EBX_CODE_SAFE}
    else if op = "and" ∧ value = hexText L.data_mask ∧ dest = .r32 .ebp then .ok {EBP_DATA_SAFE}
    else if op = "and" ∧ value = hexText L.data_mask ∧ dest = .r32 .esp then .ok {esp_safety}
    else if op = "or" ∧ value = hexText (BitVec.ofNat 32 L.data_start) ∧ dest = .r32 .ebx ∧
        EBX_DATA_SAFE ∈ safety then
      .ok {EBX_DATA_XSAFE}
    else if op = "or" ∧ value = hexText (BitVec.ofNat 32 L.code_start) ∧ dest = .r32 .ebx ∧
        EBX_CODE_SAFE ∈ safety then
      .ok {EBX_CODE_XSAFE}
    else if op = "or" ∧ value = hexText (BitVec.ofNat 32 L.data_start) ∧ dest = .r32 .ebp ∧
        EBP_DATA_SAFE ∈ safety then
      .ok {EBP_DATA_XSAFE}
    else if op = "or" ∧ value = hexText (BitVec.ofNat 32 L.data_start) ∧ dest = .r32 .esp ∧
        ESP_DATA_SAFE ∈ safety then
      .ok {USE_ESP}
    else .ok change
  else if op ∈ shift ∨ op = "test" then .ok change
  else unknownInsn op [.imm value, .reg dest]

/-- `$simple`, or else the flag for an access that is not checked. -/
def simpleOr (simple : Option Flag) (flag : Flag) : Flags := {simple.getD flag}

/-- The operation of `^($immed),($complex)$`. -/
def immComplexOp (value : String) (dest : Operand) (simple : Option Flag) : Except String Flags :=
  if op ∈ cat ["mov"] (opt size) then .ok (simpleOr simple IWRITE)
  else if op ∈ cat ["cmp", "test"] size then .ok (simpleOr simple IREAD)
  else if op ∈ cat (arith ++ shift) (opt size) then .ok (simpleOr simple IWRITE)
  else unknownInsn op [.imm value, dest]

/-- `^($immed),($complex)$`. The tests of the stack top assign to `$to` where they
mean to compare it, so that every offset passes. -/
def immComplexFlags (value : String) (dest : Operand) : Except String Flags :=
  match dest.offsetFrom .ebp false, dest.offsetFrom .esp true with
  | some t, _ =>
    immComplexOp op value dest
      (if CHANGE_EBP ∉ unsafety ∧ smallOffset halfOffset 32768 t then some USE_EBP else none)
  | _, some t =>
    if halfOffset t.toList || t = "" then
      if op = "andl" ∧ value = hexText L.jump_mask then .ok {USE_ESP, STACK_TOP_SAFE}
      else if op = "orl" ∧ value = hexText (BitVec.ofNat 32 L.code_start) ∧
          STACK_TOP_SAFE ∈ safety then
        .ok {USE_ESP, STACK_TOP_XSAFE}
      else
        immComplexOp op value dest
          (if CHANGE_ESP ∉ unsafety ∧ smallOffset (fun _ => true) 127 t then some USE_ESP else none)
    else immComplexOp op value dest none
  | _, _ =>
    if dest = atEbx ∧ data_safety ∈ safety then .ok ∅
    else immComplexOp op value dest none

/-- Perl's `hex`, which stops at the first character that is no digit. -/
def hex (text : String) : Nat :=
  let ds := match text.toList with
    | '0' :: 'x' :: ds => ds
    | ds => ds
  ofDigits 16 hexDigit (ds.takeWhile fun c => (hexDigit c).isSome)

def inData (haddr : String) : Bool := L.data_start ≤ hex haddr && hex haddr < L.data_end

/-- `^($lword)$` -/
def absFlags (haddr : {t : String // lword t.toList = true}) : Except String Flags :=
  if op ∈ unary ∨ op ∈ cat shift size ∨ op ∈ cat ariths ["l"] ∨ op ∈ fload ++ fbin ++ fstore ++ funary ∨
      op ∈ cat ["set"] cond then
    if !inData L haddr.val then .error ("Bad data address " ++ haddr.val)
    else if op = "pushl" then .ok {USE_ESP}
    else .ok ∅
  else unknownInsn op [.abs haddr]

/-- `^($lword),($reg)$` -/
def absRegFlags (haddr : {t : String // lword t.toList = true}) (dest : Reg) : Except String Flags :=
  if !inData L haddr.val then .error ("Bad data address " ++ haddr.val) else .ok (change dest)

/-- `^($reg|$immed),($lword)$` -/
def toAbsFlags (haddr : {t : String // lword t.toList = true}) : Except String Flags :=
  if !inData L haddr.val then .error ("Bad data address " ++ haddr.val) else .ok ∅

/-- `lea` from near `%esp` or `%ebp`. -/
def isBumpLea (src : Operand) : Bool :=
  op = "lea" && [Reg32.esp, Reg32.ebp].any fun r =>
    (src.offsetFrom r true).any fun t => smallOffset anyHex 128 t

/-- `^($complex),($reg)$` -/
def complexRegFlags (src : Operand) (dest : Reg) : Except String Flags :=
  let change : Flags :=
    (if dest.whole = some .ebp then {CHANGE_EBP} else ∅) ∪
      (if dest.whole = some .esp then
        if isBumpLea op src then {BUMP_ESP} else {CHANGE_ESP}
      else ∅)
  let simple_ebp := (src.offsetFrom .ebp false).any fun t =>
    CHANGE_EBP ∉ unsafety && smallOffset anyHex 65536 t
  if op ∈ ["mov"] ++ cat ["mov"] (cat ["s", "z"] ["bl", "wl", "bw"]) then
    .ok (change ∪ if simple_ebp then {USE_EBP} else {IREAD})
  else if starts arith op ∨ (op.toList.tails.any fun cs => (cat ["cmov"] cond).any (·.toList = cs)) then
    .ok (change ∪ if simple_ebp then {USE_EBP} else {IREAD})
  else if op = "lea" then .ok change
  else unknownInsn op [src, .reg dest]

/-- The operation of `^($reg),($complex)$`. -/
def regComplexOp (src : Reg) (dest : Operand) (simple : Option Flag) : Except String Flags :=
  if op ∈ cat ["mov"] (opt size) then .ok (simpleOr simple IWRITE)
  else if op ∈ cat ["cmp", "test"] (opt size) then .ok (simpleOr simple IREAD)
  else if op ∈ arith ∨ op ∈ cat shift size then .ok (simpleOr simple IWRITE)
  else unknownInsn op [.reg src, dest]

/-- `^($reg),($complex)$` -/
def regComplexFlags (src : Reg) (dest : Operand) : Except String Flags :=
  match dest.offsetFrom .ebp false, dest.offsetFrom .esp true with
  | some t, _ =>
    regComplexOp op src dest
      (if CHANGE_EBP ∉ unsafety ∧ smallOffset (signed anyHex) 32767 t then some USE_EBP else none)
  | _, some t =>
    regComplexOp op src dest
      (if CHANGE_ESP ∉ unsafety ∧ smallOffset (fun cs => signed anyHex cs || cs.isEmpty) 127 t then
        some USE_ESP
      else none)
  | _, _ =>
    if dest = atEbx ∧ data_safety ∈ safety then .ok ∅
    else regComplexOp op src dest none

/-- `([0-9a-f]{1,8}) <.*>$` -/
def targetFlags (address : String) : Except String Flags :=
  if BitVec.ofNat 32 (hex address) &&& BitVec.ofNat 32 (L.chunk_size - 1) ≠ 0 then
    .error "Unaligned literal target"
  else if hex address < L.code_start ∨ L.code_end ≤ hex address then
    .error "Literal target out of range"
  else .ok ({JUMP} ∪ if op = "call" then {USE_ESP} else ∅)

/-- `^\*($reg)$` -/
def starFlags (target : Reg) : Except String Flags :=
  let flags : Flags := {JUMP} ∪ if op = "call" then {USE_ESP} else ∅
  if target = .r32 .ebx ∧ code_safety ∈ safety then .ok flags else .ok ({IJUMP} ∪ flags)

/-- The weird `lea` that is no operation, and the word of the stack protector. -/
def otherRegFlags (text : String) (target : Reg) : Except String Flags :=
  if text ∈ ["%ss:0x0(%esi)", "%ss:0x0(%esi,1)", "0x0(%esi,%eiz,1)"] ∧ target = .r32 .esi ∨
      text = "0x0(%edi,%eiz,1)" ∧ target = .r32 .edi then
    if op = "lea" then .ok ∅ else .error "Weird args"
  else if text = "%gs:0x14" then
    if op = "mov" ∨ op = "xor" then .ok (change target)
    else .error ("Weird stack protector insn: " ++ op ++ " " ++ argsText [.other text, .reg target])
  else .error ("Weird arguments " ++ argsText [.other text, .reg target] ++ " in " ++ op ++ "\n")

end Branches

/-- `check_insn` -/
def check_insn (L : Layout) (op : String) (args : List Operand) (safety unsafety : Flags) :
    Except String Flags :=
  match args with
  | [] => noneFlags op safety unsafety
  | [.reg target] => regFlags op target
  | [.imm value] => immFlags op value
  | [.mem o b i s] => complexFlags op safety unsafety (.mem o b i s)
  | [.imm value, .reg r1, .reg r2] => immRegRegFlags op value r1 r2
  | [.reg r_amt, .reg r1, .reg r2] => regRegRegFlags op r_amt r1 r2
  | [.imm value, .mem o b i s, .reg dest] => immSrcRegFlags op value (.mem o b i s) dest
  | [.imm value, .abs haddr, .reg dest] => immSrcRegFlags op value (.abs haddr) dest
  | [.reg src, .reg dest] => regRegFlags op unsafety src dest
  | [.imm value, .reg dest] => immRegFlags L op safety value dest
  | [.imm value, .mem o b i s] => immComplexFlags L op safety unsafety value (.mem o b i s)
  | [.abs haddr] => absFlags L op haddr
  | [.abs haddr, .reg dest] => absRegFlags L haddr dest
  | [.reg _, .abs haddr] => toAbsFlags L haddr
  | [.imm _, .abs haddr] => toAbsFlags L haddr
  | [.mem o b i s, .reg dest] => complexRegFlags op unsafety (.mem o b i s) dest
  | [.reg src, .mem o b i s] => regComplexFlags op safety unsafety src (.mem o b i s)
  | [.target address _] => targetFlags L op address
  | [.star target] => starFlags op safety target
  | [.other text, .reg target] => otherRegFlags op text target
  | args => .error ("Weird arguments " ++ argsText args ++ " in " ++ op ++ "\n")

end Pittsfield.Offline
