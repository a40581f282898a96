import Pittsfield.Loader.Verify

/-!
# A decoder for a few encodings

The results about `verify()` hold for every decoder. Images that are given byte by
byte need one in particular: `disassemble` knows the encodings that occur in them
and nothing else, and yields for them what libdisasm does, implied operands
included. An instruction that does not end inside the buffer is not decoded.
-/

namespace Pittsfield.Loader

open Pittsfield.Region
open Pittsfield.Machine
open InsnGroup InsnType

/-- The register number in the low three bits of an opcode or ModRM byte. -/
def codedReg (b : BitVec 8) : Reg32 :=
  match (b &&& 7).toNat with
  | 0 => .eax
  | 1 => .ecx
  | 2 => .edx
  | 3 => .ebx
  | 4 => .esp
  | 5 => .ebp
  | 6 => .esi
  | _ => .edi

/-- The little-endian number in the first `n` bytes. -/
def codedNat : Nat → Image → Nat
  | 0, _ => 0
  | _ + 1, [] => 0
  | n + 1, b :: bs => b.toNat + 256 * codedNat n bs

def codedWord (bytes : Image) : Word := BitVec.ofNat 32 (codedNat 4 bytes)

def regOperand (r : Reg32) (write : Bool) : X86Op := ⟨.register (.r32 r), .op_dword, write, false⟩
def immOperand (v : Word) : X86Op := ⟨.immediate v, .op_dword, false, false⟩
def memOperand (r : Reg32) : X86Op :=
  ⟨.expression ⟨some (.r32 r), none, 1, .none⟩, .op_dword, true, false⟩

/-- The stack pointer as the implied operand of the stack instructions. -/
def impliedEsp : X86Op := ⟨.register (.r32 .esp), .op_dword, true, true⟩

/-- The group-1 operation in the middle bits of a ModRM byte. -/
def codedLogic (b : BitVec 8) : Option (InsnGroup × InsnType) :=
  match (b >>> 3 &&& 7).toNat with
  | 0 => some (insn_arithmetic, insn_add)
  | 1 => some (insn_logic, insn_or)
  | 4 => some (insn_logic, insn_and)
  | 5 => some (insn_arithmetic, insn_sub)
  | 6 => some (insn_logic, insn_xor)
  | _ => none

/-- `nop`, returns, the near call and the near jump. -/
def decodeTransfer (b : BitVec 8) (rest : Image) : Option X86Insn :=
  if b = 0x90 then
    some { group := insn_other, type := insn_nop, operands := [], explicit_count := 0, size := 1 }
  else if b = 0xc2 then
    some { group := insn_controlflow, type := insn_return,
           operands := [⟨.immediate (BitVec.ofNat 32 (codedNat 2 rest)), .op_word, false, false⟩,
             impliedEsp],
           explicit_count := 1, size := 3 }
  else if b = 0xc3 then
    some { group := insn_controlflow, type := insn_return, operands := [impliedEsp],
           explicit_count := 0, size := 1 }
  else if b = 0xe8 then
    some { group := insn_controlflow, type := insn_call,
           operands := [⟨.relative_far (codedWord rest), .op_dword, false, false⟩, impliedEsp],
           explicit_count := 1, size := 5 }
  else if b = 0xe9 then
    some { group := insn_controlflow, type := insn_jmp,
           operands := [⟨.relative_far (codedWord rest), .op_dword, false, false⟩],
           explicit_count := 1, size := 5 }
  else none

/-- Pushes and pops. -/
def decodeStack (b : BitVec 8) (rest : Image) : Option X86Insn :=
  if b &&& 0xf8 = 0x50 then
    some { group := insn_stack, type := insn_push,
           operands := [regOperand (codedReg b) false, impliedEsp], explicit_count := 1, size := 1 }
  else if b &&& 0xf8 = 0x58 then
    some { group := insn_stack, type := insn_pop,
           operands := [regOperand (codedReg b) true, impliedEsp], explicit_count := 1, size := 1 }
  else if b = 0x68 then
    some { group := insn_stack, type := insn_push,
           operands := [immOperand (codedWord rest), impliedEsp], explicit_count := 1, size := 5 }
  else none

/-- Moves, the group-1 operations and the jump through `%ebx`. -/
def decodeMove (b : BitVec 8) (rest : Image) : Option X86Insn :=
  match rest with
  | [] => none
  | m :: imm =>
    if b &&& 0xf8 = 0xb8 then
      some { group := insn_move, type := insn_mov,
             operands := [regOperand (codedReg b) true, immOperand (codedWord rest)],
             explicit_count := 2, size := 5 }
    else if b = 0x89 ∧ m &&& 0xc0 = 0xc0 then
      some { group := insn_move, type := insn_mov,
             operands := [regOperand (codedReg m) true, regOperand (codedReg (m >>> 3)) false],
             explicit_count := 2, size := 2 }
    else if b = 0x81 ∧ m &&& 0xc0 = 0xc0 then
      (codedLogic m).map fun (group, type) =>
        { group, type, operands := [regOperand (codedReg m) true, immOperand (codedWord imm)],
          explicit_count := 2, size := 6 }
    else if b = 0x81 ∧ m = 0x24 then
      if imm.head? = some 0x24 then
        some { group := insn_logic, type := insn_and,
               operands := [memOperand .esp, immOperand (codedWord imm.tail)],
               explicit_count := 2, size := 7 }
      else none
    else if b = 0xc7 ∧ m = 0x03 then
      some { group := insn_move, type := insn_mov,
             operands := [memOperand .ebx, immOperand (codedWord imm)],
             explicit_count := 2, size := 6 }
    else if b = 0xff ∧ m = 0xe3 then
      some { group := insn_controlflow, type := insn_jmp, operands := [regOperand .ebx false],
             explicit_count := 1, size := 2 }
    else none

/-- The instruction whose first byte is `b`. -/
def decodeOpcode (b : BitVec 8) (rest : Image) : Option X86Insn :=
  (decodeTransfer b rest).or ((decodeStack b rest).or (decodeMove b rest))

def disassemble : Disasm := fun image offset =>
  match image.drop offset with
  | [] => none
  | b :: rest => (decodeOpcode b rest).filter (fun i => i.size ≤ rest.length + 1)

/-- The instructions examined in an image of the default layout, none if it is rejected. -/
def examined (image : Image) : List Examined := (verify classic disassemble image).toOption.getD []

/-- A decoder that keeps every instruction inside the buffer. -/
def KeepsInside (x86_disasm : Disasm) : Prop :=
  ∀ image offset insn, x86_disasm image offset = some insn → offset + insn.size ≤ image.length

theorem disassemble_keepsInside : KeepsInside disassemble := by
  intro image offset insn h
  simp only [disassemble] at h
  split at h
  · cases h
  rename_i b rest hd
  obtain ⟨-, hsize⟩ := Option.filter_eq_some_iff.mp h
  have hlen := congrArg List.length hd
  simp only [List.length_drop, List.length_cons, decide_eq_true_eq] at hlen hsize
  omega

/-- A decoder that looks only at the bytes of the instruction. -/
def ReadsOwnBytes (x86_disasm : Disasm) : Prop :=
  ∀ image image' offset insn, x86_disasm image offset = some insn →
    (∀ k, offset ≤ k → k < offset + insn.size → image'[k]? = image[k]?) →
    x86_disasm image' offset = some insn

section OwnBytes

variable {b : BitVec 8} {rest rest' : Image} {i : X86Insn}

theorem codedNat_congr {n : Nat} {xs ys : Image} (h : ∀ k < n, ys[k]? = xs[k]?) :
    codedNat n ys = codedNat n xs := by
  induction n generalizing xs ys with
  | zero => rw [codedNat, codedNat]
  | succ n ih =>
    have h0 := h 0 (Nat.succ_pos n)
    cases xs <;> cases ys <;> simp only [List.getElem?_nil, List.getElem?_cons_zero, reduceCtorEq,
      Option.some.injEq] at h0
    · rfl
    · rw [codedNat, codedNat, h0, ih fun k hk => ?_]
      simpa using h (k + 1) (by omega)

theorem codedWord_congr {xs ys : Image} (h : ∀ k < 4, ys[k]? = xs[k]?) :
    codedWord ys = codedWord xs := by
  rw [codedWord, codedNat_congr h, codedWord]

/-- The bytes of `i` behind the first one are the same. -/
def SameTail (i : X86Insn) (rest rest' : Image) : Prop := ∀ k, k + 1 < i.size → rest'[k]? = rest[k]?

theorem SameTail.uncons {m : BitVec 8} {imm : Image} (h : SameTail i (m :: imm) rest')
    (hsize : 1 < i.size) :
    ∃ imm', rest' = m :: imm' ∧ ∀ k, k + 2 < i.size → imm'[k]? = imm[k]? := by
  have h0 := h 0 hsize
  cases rest' with
  | nil => cases h0
  | cons m' imm' =>
    cases h0
    exact ⟨imm', rfl, fun k hk => by simpa using h (k + 1) hk⟩

theorem decodeTransfer_congr (h : decodeTransfer b rest = some i) (hrest : SameTail i rest rest') :
    decodeTransfer b rest' = some i := by
  unfold decodeTransfer at h ⊢
  split_ifs at h ⊢
  all_goals cases h
  · rfl
  · rw [codedNat_congr fun k hk => hrest k (Nat.succ_lt_succ hk)]
  · rfl
  all_goals rw [codedWord_congr fun k hk => hrest k (Nat.succ_lt_succ hk)]

theorem decodeTransfer_none (h : decodeTransfer b rest = none) : decodeTransfer b rest' = none := by
  unfold decodeTransfer at h ⊢
  split_ifs at h ⊢
  rfl

theorem decodeStack_congr (h : decodeStack b rest = some i) (hrest : SameTail i rest rest') :
    decodeStack b rest' = some i := by
  unfold decodeStack at h ⊢
  split_ifs at h ⊢
  all_goals cases h
  · rfl
  · rfl
  · rw [codedWord_congr fun k hk => hrest k (Nat.succ_lt_succ hk)]

theorem decodeStack_none (h : decodeStack b rest = none) : decodeStack b rest' = none := by
  unfold decodeStack at h ⊢
  split_ifs at h ⊢
  rfl

theorem decodeMove_size (h : decodeMove b rest = some i) : 1 < i.size := by
  unfold decodeMove at h
  split at h
  · cases h
  split_ifs at h
  · cases h; exact Nat.one_lt_succ_succ 3
  · cases h; exact Nat.one_lt_succ_succ 0
  · obtain ⟨⟨g, t⟩, -, rfl⟩ := Option.map_eq_some_iff.mp h
    exact Nat.one_lt_succ_succ 4
  · cases h; exact Nat.one_lt_succ_succ 5
  · cases h; exact Nat.one_lt_succ_succ 4
  · cases h; exact Nat.one_lt_succ_succ 0

theorem decodeOpcode_size (h : decodeOpcode b rest = some i) : 0 < i.size := by
  rcases Option.or_eq_some_iff.mp h with h | ⟨-, h⟩
  · unfold decodeTransfer at h
    split_ifs at h
    all_goals
      cases h
      exact Nat.succ_pos _
  rcases Option.or_eq_some_iff.mp h with h | ⟨-, h⟩
  · unfold decodeStack at h
    split_ifs at h
    all_goals
      cases h
      exact Nat.succ_pos _
  · exact Nat.lt_of_succ_lt (decodeMove_size h)

theorem decodeMove_congr (h : decodeMove b rest = some i) (hrest : SameTail i rest rest') :
    decodeMove b rest' = some i := by
  have hsize := decodeMove_size h
  cases rest with
  | nil => cases h
  | cons m imm =>
    have htail := hrest
    obtain ⟨imm', rfl, himm⟩ := hrest.uncons hsize
    unfold decodeMove at h ⊢
    simp only at h ⊢
    split_ifs at h ⊢
    · cases h
      rw [codedWord_congr fun k hk => htail k (Nat.succ_lt_succ hk)]
    · exact h
    · obtain ⟨⟨g, t⟩, hm, rfl⟩ := Option.map_eq_some_iff.mp h
      rw [hm, codedWord_congr fun k hk => himm k (Nat.add_lt_add_right hk 2)]
      rfl
    · cases h
      have htail : ∀ k < 4, imm'.tail[k]? = imm.tail[k]? := fun k hk => by
        simpa using himm (k + 1) (Nat.add_lt_add_right hk 3)
      rw [codedWord_congr htail]
    · rename_i hsib' hsib
      cases h
      have hhead : imm'.head? = imm.head? := by
        simpa [List.head?_eq_getElem?] using himm 0 (Nat.lt_of_sub_eq_succ rfl)
      exact absurd (hhead.trans hsib) hsib'
    · cases h
      rw [codedWord_congr fun k hk => himm k (Nat.add_lt_add_right hk 2)]
    · exact h

theorem decodeOpcode_congr (h : decodeOpcode b rest = some i) (hrest : SameTail i rest rest') :
    decodeOpcode b rest' = some i := by
  rcases Option.or_eq_some_iff.mp h with h | ⟨hn, h⟩
  · rw [decodeOpcode, decodeTransfer_congr h hrest, Option.some_or]
  rw [decodeOpcode, decodeTransfer_none hn, Option.none_or]
  rcases Option.or_eq_some_iff.mp h with h | ⟨hn, h⟩
  · rw [decodeStack_congr h hrest, Option.some_or]
  · rw [decodeStack_none hn, Option.none_or, decodeMove_congr h hrest]

theorem disassemble_readsOwnBytes : ReadsOwnBytes disassemble := by
  intro image image' offset insn h himage
  simp only [disassemble] at h
  split at h
  · cases h
  rename_i b rest hdrop
  obtain ⟨hop, hsize⟩ := Option.filter_eq_some_iff.mp h
  rw [decide_eq_true_eq] at hsize
  have hpos : 0 < insn.size := decodeOpcode_size hop
  have hsame : ∀ k < insn.size, (image'.drop offset)[k]? = (b :: rest)[k]? := by
    intro k hk
    rw [← hdrop, List.getElem?_drop, List.getElem?_drop]
    exact himage _ (by omega) (by omega)
  cases hdrop' : image'.drop offset with
  | nil =>
    rw [hdrop'] at hsame
    cases hsame 0 hpos
  | cons b' rest' =>
    rw [hdrop'] at hsame
    cases hsame 0 hpos
    have htail : SameTail insn rest rest' := fun k hk => by simpa using hsame (k + 1) hk
    have hlen : insn.size ≤ rest'.length + 1 := by
      by_contra hlt
      have hlast := hsame (insn.size - 1) (by omega)
      rw [List.getElem?_eq_none (by simp only [List.length_cons]; omega), eq_comm,
        List.getElem?_eq_none_iff, List.length_cons] at hlast
      omega
    simp only [disassemble, hdrop', decodeOpcode_congr hop htail, Option.filter_some, hlen,
      decide_true, if_true]

end OwnBytes

end Pittsfield.Loader
