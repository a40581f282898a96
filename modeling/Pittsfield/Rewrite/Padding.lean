import Pittsfield.Rewrite.Encoding

/-!
# `nop_pad`

The fillers that `rewrite.pl` prints in front of a call, what the processor does on them
and what the two verifiers say to them.
-/

namespace Pittsfield.Rewrite

open Pittsfield.Region
open Pittsfield.Machine
open Pittsfield.Loader (Image codedReg codedWord)

/-- A line that `nop_pad` prints: an instruction or a `.byte` directive. -/
inductive PadLine
  | insn (i : Insn)
  | byte (bytes : Image)
  deriving DecidableEq

/-- `nop_pad` for up to seven bytes. -/
def padShort : Nat → List PadLine
  | 1 => [.insn ⟨"nop", []⟩]
  | 2 => [.insn ⟨"mov", [.reg (.r32 .esi), .reg (.r32 .esi)]⟩]
  | 3 => [.byte [0x8d, 0x76, 0]]
  | 4 => [.byte [0x8d, 0x74, 0x26, 0]]
  | 5 => [.byte [0x8d, 0x74, 0x26, 0], .insn ⟨"nop", []⟩]
  | 6 => [.byte [0x8d, 0xb6, 0, 0, 0, 0]]
  | 7 => [.byte [0x8d, 0xb4, 0x26, 0, 0, 0, 0]]
  | _ => []

/-- `while ($bytes > 7)`, at most so many times, and the call behind the loop. -/
def padLoop : Nat → Nat → List PadLine
  | 0, bytes => padShort bytes
  | n + 1, bytes => if 7 < bytes then padShort 7 ++ padLoop n (bytes - 7) else padShort bytes

def nop_pad (bytes : Nat) : List PadLine :=
  if bytes = 8 then padShort 7 ++ padShort 1
  else if 8 < bytes then padLoop bytes bytes
  else padShort bytes

/-- The instructions that a filler can be. -/
inductive Filler
  | nop
  | mov (dest src : Reg32)
  /-- with the size of the displacement, and with or without a SIB byte -/
  | lea (dest base : Reg32) (disp : Word) (size : Nat) (sib : Bool)
  deriving DecidableEq

namespace Filler

/-- The base register behind a ModRM byte, and what follows the SIB byte. An index has no part
in fillers. -/
def decodeBase (m : BitVec 8) (rest : Image) : Option (Reg32 × Bool × Image) :=
  if codedReg m = .esp then
    match rest with
    | sib :: rest => if codedReg (sib >>> 3) = .esp then some (codedReg sib, true, rest) else none
    | [] => none
  else some (codedReg m, false, rest)

/-- The filler at the start of the code, and the rest of the code. -/
def decode : Image → Option (Filler × Image)
  | [] => none
  | b :: rest =>
    if b = 0x90 then some (.nop, rest)
    else
      match rest with
      | [] => none
      | m :: rest =>
        if b = 0x89 ∧ m >>> 6 = 3 then some (.mov (codedReg m) (codedReg (m >>> 3)), rest)
        else if b = 0x8d ∧ m >>> 6 = 1 then do
          let (base, sib, rest) ← decodeBase m rest
          let d ← rest.head?
          return (.lea (codedReg (m >>> 3)) base (d.signExtend 32) 1 sib, rest.tail)
        else if b = 0x8d ∧ m >>> 6 = 2 then do
          let (base, sib, rest) ← decodeBase m rest
          if 4 ≤ rest.length then
            return (.lea (codedReg (m >>> 3)) base (codedWord rest) 4 sib, rest.drop 4)
          else none
        else none

/-- What the processor does, the instruction pointer aside. -/
def exec (s : Cpu) : Filler → Cpu
  | nop => s
  | mov dest src => s.setReg dest (s.reg src)
  | lea dest base disp _ _ => s.setReg dest (s.reg base + disp)

/-- What objdump shows of a filler without a displacement. -/
def shown : Filler → String × List Offline.Operand
  | nop => ("nop", [])
  | mov dest src => ("mov", [.reg (.r32 src), .reg (.r32 dest)])
  | lea dest base _ _ false =>
    ("lea", [.mem (some ⟨"0x0", by decide⟩) (some base) none none, .reg (.r32 dest)])
  | lea dest base _ _ true =>
    ("lea", [.other ("0x0(" ++ Offline.reg32Text base ++ ",%eiz,1)"), .reg (.r32 dest)])

/-- What libdisasm makes of it. -/
def decoded : Filler → Loader.X86Insn
  | nop => ⟨.insn_other, .insn_nop, 4, [], 0, 1⟩
  | mov dest src => ⟨.insn_move, .insn_mov, 4, [Loader.regOperand dest true, Loader.regOperand src false], 2, 2⟩
  | lea dest base disp size sib =>
    ⟨.insn_move, .insn_mov, 4, [Loader.regOperand dest true,
      ⟨.expression ⟨some (.r32 base), none, 1, if size = 1 then .disp8 (disp.setWidth 8) else .disp32 disp⟩,
        .op_dword, false, false⟩], 2, 2 + size + sib.toNat⟩

/-- The filler does nothing, and neither verifier has anything to say to it. -/
structure Allowed (f : Filler) : Prop where
  idle : ∀ s, exec s f = s
  known : f.shown.1 ∈ Offline.knownOpcodes
  offline : ∀ L safety unsafety,
    Offline.check_insn L f.shown.1 f.shown.2 safety unsafety = .ok ∅
  loader : ∀ L st, Loader.checkInsn L st f.decoded = .ok Loader.NONE

theorem allowed_nop : Allowed .nop where
  idle _ := rfl
  known := by decide
  offline _ _ _ := rfl
  loader _ _ := rfl

theorem allowed_mov : Allowed (.mov .esi .esi) where
  idle s := by
    show { s with reg := Function.update s.reg .esi (s.reg .esi) } = s
    rw [Function.update_eq_self]
  known := by decide
  offline _ _ _ := rfl
  loader _ _ := rfl

/-- A `lea` to a register other than `%esp` and `%ebp` needs nothing. -/
theorem lea_flags (unsafety : Offline.Flags) (src : Offline.Operand) :
    Offline.complexRegFlags "lea" unsafety src (.r32 .esi) = .ok ∅ := by
  have hmov : "lea" ∉ ["mov"] ++ Offline.cat ["mov"] (Offline.cat ["s", "z"] ["bl", "wl", "bw"]) := by
    decide
  have harith : ¬ (Offline.starts Offline.arith "lea" = true ∨
      ("lea".toList.tails.any fun cs => (Offline.cat ["cmov"] Offline.cond).any (·.toList = cs)) = true) := by
    decide
  simp only [Offline.complexRegFlags, if_neg hmov]
  rw [if_neg harith]
  rfl

theorem allowed_lea {size : Nat} (sib : Bool) : Allowed (.lea .esi .esi 0 size sib) where
  idle s := by
    have hsame : s.reg .esi + (0 : Word) = s.reg .esi := BitVec.add_zero _
    show { s with reg := Function.update s.reg .esi (s.reg .esi + (0 : Word)) } = s
    rw [hsame, Function.update_eq_self]
  known := by
    cases sib with
    | false => exact (by decide : "lea" ∈ Offline.knownOpcodes)
    | true => exact (by decide : "lea" ∈ Offline.knownOpcodes)
  offline L safety unsafety := by
    cases sib with
    | false =>
      simp only [shown, Offline.check_insn]
      exact lea_flags unsafety _
    | true =>
      have htext : "0x0(" ++ Offline.reg32Text .esi ++ ",%eiz,1)" = "0x0(%esi,%eiz,1)" := by
        decide +kernel
      show Offline.otherRegFlags "lea" ("0x0(" ++ Offline.reg32Text .esi ++ ",%eiz,1)") (.r32 .esi) = .ok ∅
      rw [htext, Offline.otherRegFlags, if_pos (by decide), if_pos rfl]
  loader _ _ := rfl

end Filler

/-- The code of a line; no line calls anything. -/
def PadLine.code : PadLine → Image
  | .insn i => (encode (fun _ => 0) i).getD []
  | .byte bytes => bytes

/-- The code of a padding. -/
def padCode (ls : List PadLine) : Image := ls.flatMap PadLine.code

/-- The code is a row of fillers. -/
inductive Fillers : Image → Prop
  | nil : Fillers []
  | cons {code rest : Image} {f : Filler} : (∀ tail, Filler.decode (code ++ tail) = some (f, tail)) →
      f.Allowed → Fillers rest → Fillers (code ++ rest)

theorem Fillers.append {code rest : Image} (h : Fillers code) (hrest : Fillers rest) :
    Fillers (code ++ rest) := by
  induction h with
  | nil => exact hrest
  | cons hdecode hallowed _ ih =>
    rw [List.append_assoc]
    exact .cons hdecode hallowed ih

theorem Fillers.one {code : Image} {f : Filler} (hdecode : ∀ tail, Filler.decode (code ++ tail) = some (f, tail))
    (hallowed : f.Allowed) : Fillers code := by
  rw [← List.append_nil code]
  exact .cons hdecode hallowed .nil

theorem padShort_fillers {bytes : Nat} (h : bytes ≤ 7) :
    (padCode (padShort bytes)).length = bytes ∧ Fillers (padCode (padShort bytes)) := by
  match bytes with
  | 0 => exact ⟨rfl, .nil⟩
  | 1 => exact ⟨by decide, .one (fun _ => rfl) Filler.allowed_nop⟩
  | 2 => exact ⟨by decide, .one (fun _ => rfl) Filler.allowed_mov⟩
  | 3 => exact ⟨rfl, .one (fun _ => rfl) (@Filler.allowed_lea 1 false)⟩
  | 4 => exact ⟨rfl, .one (fun _ => rfl) (@Filler.allowed_lea 1 true)⟩
  | 5 =>
    exact ⟨by decide, .append (.one (fun _ => rfl) (@Filler.allowed_lea 1 true))
      (.one (fun _ => rfl) Filler.allowed_nop)⟩
  | 6 => exact ⟨rfl, .one (fun tail => rfl) (@Filler.allowed_lea 4 false)⟩
  | 7 => exact ⟨rfl, .one (fun tail => rfl) (@Filler.allowed_lea 4 true)⟩

theorem padCode_append (ls rest : List PadLine) : padCode (ls ++ rest) = padCode ls ++ padCode rest :=
  List.flatMap_append

/-- The loop takes seven bytes a round, and fewer rounds than bytes. -/
theorem padLoop_fillers {n bytes : Nat} (h : bytes ≤ n + 7) :
    (padCode (padLoop n bytes)).length = bytes ∧ Fillers (padCode (padLoop n bytes)) := by
  induction n generalizing bytes with
  | zero => exact padShort_fillers h
  | succ n ih =>
    rw [padLoop]
    by_cases hlong : 7 < bytes
    · obtain ⟨hlen, hfillers⟩ := padShort_fillers (Nat.le_refl 7)
      obtain ⟨hrestlen, hrest⟩ := ih (by omega : bytes - 7 ≤ n + 7)
      rw [if_pos hlong, padCode_append, List.length_append, hlen, hrestlen]
      exact ⟨by omega, hfillers.append hrest⟩
    · rw [if_neg hlong]
      exact padShort_fillers (Nat.not_lt.mp hlong)

/-- `nop_pad` prints as many bytes as it is asked for, all of them fillers. -/
theorem nop_pad_fillers (bytes : Nat) :
    (padCode (nop_pad bytes)).length = bytes ∧ Fillers (padCode (nop_pad bytes)) := by
  rw [nop_pad]
  by_cases height : bytes = 8
  · obtain ⟨hlen, hfillers⟩ := padShort_fillers (Nat.le_refl 7)
    obtain ⟨honelen, hone⟩ := padShort_fillers (by decide : 1 ≤ 7)
    rw [if_pos height, padCode_append, List.length_append, hlen, honelen, height]
    exact ⟨rfl, hfillers.append hone⟩
  rw [if_neg height]
  by_cases hlong : 8 < bytes
  · rw [if_pos hlong]
    exact padLoop_fillers (Nat.le_add_right bytes 7)
  · rw [if_neg hlong]
    exact padShort_fillers (by omega)

end Pittsfield.Rewrite
