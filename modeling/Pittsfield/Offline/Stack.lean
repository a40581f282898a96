import Pittsfield.Offline.Pointers

/-!
# What the instructions do to `%esp` and `%ebp`

Which instructions write the two pointers, and what they write.
-/

namespace Pittsfield.Offline

open Pittsfield.Foundation
open Pittsfield.Region
open Pittsfield.Machine

section

variable {L : Layout} {alu : Alu Insn} {fpu : Insn → Cpu → Word → BitVec 8} {i : Insn}
variable {s s' c : Cpu} {q : Reg32}

/-- The two pointers. -/
def IsPointer (q : Reg32) : Prop := q = .esp ∨ q = .ebp

theorem clobber_pointer (hq : IsPointer q) : (alu.clobber i s).reg q = s.reg q := by
  apply Alu.clobber_reg
  rcases hq with rfl | rfl <;> decide

/-- An access writes its register operand and no other register. -/
theorem writeTo_reg {a : Option Word} {o : Operand} {w : Width} {write : Bool} {x : Word}
    (h : writeTo L s a o w write x = some c) (ho : ∀ r, o = .reg r → r.whole ≠ some q) :
    c.reg q = s.reg q := by
  unfold writeTo at h
  split at h
  · rcases ite_eq_iff.mp h with ⟨-, h⟩ | ⟨-, h⟩
    · cases h
    · obtain rfl := Option.some.inj h
      split <;> rfl
  · split at h
    · obtain rfl := Option.some.inj h
      split
      · exact Cpu.writeReg_other _ _ (ho _ rfl)
      · rfl
    · cases h

/-- The instruction swaps a register with an operand. -/
def Swaps (i : Insn) (r : Reg) (dest : Operand) : Prop := i.op = "xchg" ∧ i.args = [.reg r, dest]

/-- A register that no operand of the instruction names for writing is kept. -/
theorem dataOp_keeps (hq : IsPointer q) (hlast : ∀ r, i.args.getLast? = some (.reg r) → r.whole ≠ some q)
    (hswap : ∀ r dest, Swaps i r dest → r.whole ≠ some q) (h : dataOp L alu fpu i s = some c) :
    c.reg q = s.reg q := by
  unfold dataOp at h
  split at h
  · obtain rfl := Option.some.inj h
    exact clobber_pointer hq
  rename_i dest hdest
  extract_lets write after at h
  have hafter : ∀ c, after = some c → c.reg q = s.reg q := by
    intro c hc
    rw [writeTo_reg hc fun r hr => hlast r (hr ▸ hdest)]
    exact clobber_pointer hq
  split at h
  · rename_i hx
    split at h
    · rename_i r o hargs
      obtain ⟨t, ht, rfl⟩ := Option.map_eq_some_iff.mp h
      rw [Cpu.writeReg_other _ _ (hswap r o ⟨hx, hargs⟩)]
      have ho : ∀ b, o = .reg b → b.whole ≠ some q := by
        rintro b rfl
        exact hlast b (by rw [hargs]; rfl)
      rw [writeTo_reg ht ho]
      exact clobber_pointer hq
    · exact hafter _ h
  split at h
  · obtain ⟨t, ht, rfl⟩ := Option.map_eq_some_iff.mp h
    exact hafter t ht
  · exact hafter _ h

/-- An instruction whose last operand lies in a guard zone stops the program. -/
theorem dataOp_address {dest : Operand} {a : Word} (hlast : i.args.getLast? = some dest)
    (ha : operandAddress s dest = some a) (h : dataOp L alu fpu i s = some c) : a ∉ L.guardZone := by
  intro hg
  have hstop : ∀ write x, writeTo L (alu.clobber i s) (operandAddress s dest) dest (accessWidth i)
      write x = none := by
    intro write x
    rw [ha]
    exact if_pos hg
  unfold dataOp at h
  rw [hlast] at h
  simp only [hstop, Option.map_none, ite_self] at h
  split at h
  · split at h
    · rename_i r dest' hargs
      rw [hargs] at hlast
      obtain rfl : dest' = dest := Option.some.inj hlast
      rw [hstop] at h
      cases h
    · cases h
  · cases h

/-- Swapping a register with itself. -/
theorem dataOp_swap_self (hq : IsPointer q) {r : Reg} (hx : Swaps i r (.reg r))
    (h : dataOp L alu fpu i s = some c) : c.reg q = s.reg q := by
  obtain ⟨hop, hargs⟩ := hx
  by_cases hr : r.whole = some q
  swap
  · refine dataOp_keeps hq (fun b hb => ?_) (fun b dest hb => ?_) h
    · rw [hargs] at hb
      cases hb
      exact hr
    · have he := hargs.symm.trans hb.2
      cases he
      exact hr
  unfold dataOp at h
  have hlast : i.args.getLast? = some (.reg r) := by rw [hargs]; rfl
  rw [hlast] at h
  simp only [hop, if_true, hargs, operandAddress, writeTo, Option.map_some, operandValue,
    Option.getD_some, Option.some.injEq] at h
  rw [← h]
  have hsame : (alu.clobber i s).reg q = s.reg q := clobber_pointer hq
  cases r with
  | r32 r =>
    obtain rfl := Option.some.inj hr
    exact Cpu.setReg_same _ _ _
  | r16 r =>
    obtain rfl := Option.some.inj hr
    show (Cpu.setReg _ r _).reg r = s.reg r
    rw [Cpu.setReg_same]
    show ((Cpu.setReg _ r _).reg r &&& 0xffff0000) ||| _ = _
    rw [Cpu.setReg_same, Cpu.readReg_word, hsame, Cpu.word_written_back, Cpu.word_written_back]
  | r8 r =>
    obtain ⟨h1, h2⟩ := Cpu.reg8_whole r
    rcases hq with rfl | rfl
    · exact absurd (Option.some.inj hr) h1
    · exact absurd (Option.some.inj hr) h2
  | other n => cases hr

/-- A register that is the last operand is written as a whole or not at all. -/
theorem dataOp_last {r : Reg} (hlast : i.args.getLast? = some (.reg r))
    (hx : ∀ a b, ¬ Swaps i a (.reg b)) (h : dataOp L alu fpu i s = some c) :
    c = if readsOnly i then alu.clobber i s else
      (alu.clobber i s).writeReg (dataResult alu i s) r := by
  have hafter : writeTo L (alu.clobber i s) (operandAddress s (.reg r)) (.reg r) (accessWidth i)
      (!readsOnly i) (dataResult alu i s) = some (if readsOnly i then alu.clobber i s else
        (alu.clobber i s).writeReg (dataResult alu i s) r) := by
    cases hr : readsOnly i <;> simp [writeTo, operandAddress]
  unfold dataOp at h
  split at h
  · rename_i hnone
    rw [hlast] at hnone
    cases hnone
  rename_i dest hdest
  obtain rfl := Option.some.inj (hdest.symm.trans hlast)
  extract_lets write after at h
  have hc : after = some c := by
    split at h
    · rename_i hop
      split at h
      · rename_i a dest hargs
        rw [hargs] at hlast
        cases hlast
        exact absurd ⟨hop, hargs⟩ (hx a r)
      · exact h
    split at h
    · rename_i hf
      exact absurd hf.2 (by simp [operandAddress])
    · exact h
  exact Option.some.inj (hc.symm.trans hafter)

/-- What the instructions with a control or stack effect do to the pointers. -/
inductive Moved (L : Layout) (alu : Alu Insn) (i : Insn) (s s' : Cpu) : Prop
  | push (w : Width) (hk : opKind i.op = .push ∨ opKind i.op = .pushf ∨ opKind i.op = .call)
    (hg : s.reg .esp - BitVec.ofNat 32 w.bytes ∉ L.guardZone)
    (hesp : s'.reg .esp = s.reg .esp - BitVec.ofNat 32 w.bytes) (hebp : s'.reg .ebp = s.reg .ebp)
  | pop (w : Width) (hk : opKind i.op = .pop ∨ opKind i.op = .popf) (hg : s.reg .esp ∉ L.guardZone)
    (hesp : (∀ r, i.args = [.reg r] → r.whole ≠ some .esp) →
      s'.reg .esp = s.reg .esp + BitVec.ofNat 32 w.bytes)
    (hebp : s'.reg .ebp = s.reg .ebp ∨ ∃ r, i.args = [.reg r] ∧ r.whole = some .ebp)
  | leave (hk : opKind i.op = .leave) (hg : s.reg .ebp ∉ L.guardZone)
    (hesp : s'.reg .esp = s.reg .ebp + 4)
  | ret (hk : opKind i.op = .ret) (n : Word) (hn : returnBytes alu i s = some n)
    (hg : s.reg .esp ∉ L.guardZone) (hesp : s'.reg .esp = s.reg .esp + 4 + n)
    (hebp : s'.reg .ebp = s.reg .ebp)
  | jump (hk : opKind i.op = .jmp ∨ opKind i.op = .jcc) (hreg : s'.reg = s.reg)

theorem push_pointers {w : Width} {x : Word} (h : s.push L w x = some c) :
    s.reg .esp - BitVec.ofNat 32 w.bytes ∉ L.guardZone ∧
      c.reg .esp = s.reg .esp - BitVec.ofNat 32 w.bytes ∧ c.reg .ebp = s.reg .ebp := by
  obtain ⟨hg, rfl⟩ := Cpu.push_some h
  exact ⟨hg, Cpu.setReg_same _ _ _, Cpu.setReg_other _ _ (by decide)⟩

theorem pop_pointers {w : Width} {x : Word} (h : s.pop L w = some (x, c)) :
    s.reg .esp ∉ L.guardZone ∧ c.reg .esp = s.reg .esp + BitVec.ofNat 32 w.bytes ∧
      c.reg .ebp = s.reg .ebp := by
  obtain ⟨hg, -, rfl⟩ := Cpu.pop_some h
  exact ⟨hg, Cpu.setReg_same _ _ _, Cpu.setReg_other _ _ (by decide)⟩

theorem moved_of_exec (hd : opKind i.op ≠ .data) (h : exec L alu fpu i s = some s') :
    Moved L alu i s s' := by
  unfold exec at h
  generalize hk : opKind i.op = kind at hd h
  cases kind with
  | push =>
    obtain ⟨⟨src, x⟩, -, hs⟩ := Option.bind_eq_some_iff.mp h
    obtain ⟨c, hpush, rfl⟩ := Option.map_eq_some_iff.mp hs
    obtain ⟨hg, hesp, hebp⟩ := push_pointers hpush
    exact .push _ (Or.inl hk) hg hesp hebp
  | pushf =>
    rcases ite_eq_iff.mp h with ⟨-, h⟩ | ⟨-, h⟩
    · obtain ⟨c, hpush, rfl⟩ := Option.map_eq_some_iff.mp h
      obtain ⟨hg, hesp, hebp⟩ := push_pointers hpush
      exact .push _ (Or.inr (Or.inl hk)) hg hesp hebp
    · cases h
  | call =>
    obtain ⟨a, -, hs⟩ := Option.bind_eq_some_iff.mp h
    obtain ⟨c, hpush, rfl⟩ := Option.map_eq_some_iff.mp hs
    obtain ⟨hg, hesp, hebp⟩ := push_pointers hpush
    exact .push _ (Or.inr (Or.inr hk)) hg hesp hebp
  | pop =>
    simp only at h
    split at h
    · rename_i dest hargs
      obtain ⟨⟨x, t⟩, hpop, hs⟩ := Option.bind_eq_some_iff.mp h
      obtain ⟨c, hw, rfl⟩ := Option.map_eq_some_iff.mp hs
      obtain ⟨hg, hesp, hebp⟩ := pop_pointers hpop
      refine .pop (slotWidth dest) (Or.inl hk) hg (fun hne => ?_) ?_
      · rw [← hesp, Cpu.jump_reg]
        exact writeTo_reg hw fun r hr => hne r (hr ▸ hargs)
      · by_cases hb : ∃ r, dest = .reg r ∧ r.whole = some .ebp
        · obtain ⟨r, rfl, hr⟩ := hb
          exact Or.inr ⟨r, hargs, hr⟩
        · left
          rw [← hebp, Cpu.jump_reg]
          exact writeTo_reg hw fun r hr hwhole => hb ⟨r, hr, hwhole⟩
    · cases h
  | popf =>
    rcases ite_eq_iff.mp h with ⟨-, h⟩ | ⟨-, h⟩
    · obtain ⟨⟨x, c⟩, hpop, rfl⟩ := Option.map_eq_some_iff.mp h
      obtain ⟨hg, hesp, hebp⟩ := pop_pointers hpop
      exact .pop _ (Or.inr hk) hg (fun _ => hesp) (Or.inl hebp)
    · cases h
  | leave =>
    rcases ite_eq_iff.mp h with ⟨-, h⟩ | ⟨-, h⟩
    · obtain ⟨⟨x, c⟩, hpop, rfl⟩ := Option.map_eq_some_iff.mp h
      obtain ⟨hg, hesp, -⟩ := pop_pointers hpop
      rw [Cpu.setReg_same] at hg hesp
      refine .leave hk hg ?_
      rw [Cpu.jump_reg, Cpu.setReg_other _ _ (by decide), hesp]
      rfl
    · cases h
  | ret =>
    obtain ⟨n, hn, hs⟩ := Option.bind_eq_some_iff.mp h
    obtain ⟨⟨x, c⟩, hpop, rfl⟩ := Option.map_eq_some_iff.mp hs
    obtain ⟨hg, hesp, hebp⟩ := pop_pointers hpop
    refine .ret hk n hn hg ?_ ?_
    · rw [Cpu.jump_reg, Cpu.setReg_same, hesp]
      rfl
    · rw [Cpu.jump_reg, Cpu.setReg_other _ _ (by decide), hebp]
  | jmp =>
    obtain ⟨a, -, rfl⟩ := Option.map_eq_some_iff.mp h
    exact .jump (Or.inl hk) rfl
  | jcc =>
    obtain ⟨a, -, rfl⟩ := Option.map_eq_some_iff.mp h
    exact .jump (Or.inr hk) rfl
  | data => exact absurd rfl hd

/-- With two operands, only the operations on the list leave the last one as it is. -/
theorem writes_of_two {src dest : Operand} (hargs : i.args = [src, dest])
    (hop : i.op ∉ cat ["cmp", "test"] (opt size) ++ ["bt", "nop"] ++ fload ++ fcload ++ fbin ++ funary) :
    readsOnly i = false := by
  rw [readsOnly, decide_eq_false hop, Bool.false_or, hargs]
  exact Bool.and_false _

/-- `add` and `sub` of an immediate. -/
theorem dataResult_sum (alu : Alu Insn) (s : Cpu) {value : String} {k : Int} {r : Reg32}
    (hop : i.op ∈ cat ["add", "sub"] (opt ["l"])) (hargs : i.args = [.imm value, .reg (.r32 r)])
    (hk : signed_word value = some k) :
    ∃ j : Int, j.natAbs = k.natAbs ∧ dataResult alu i s = s.reg r + BitVec.ofInt 32 j := by
  have hall : ∀ op ∈ cat ["add", "sub"] (opt ["l"]), (op ∈ cat ["add"] (opt size) ∨
      op ∈ cat ["sub"] (opt size) ∧ op ∉ cat ["add"] (opt size)) ∧ op ∉ cat ["mov"] (opt size) ∧
      op ≠ "lea" ∧ op ∉ cat ["and"] (opt size) ∧ op ∉ cat ["or"] (opt size) := by decide
  obtain ⟨hsum, hmov, hlea, hand, hor⟩ := hall _ hop
  have hv : operandValue s (accessWidth i) (.imm value) = some (BitVec.ofInt 32 k) := by
    rw [operandValue, textValue, hk, Option.map_some]
  have hold : operandValue s (accessWidth i) (.reg (.r32 r)) = some (s.reg r) := rfl
  rcases hsum with hadd | ⟨hsub, hadd⟩
  · refine ⟨k, rfl, ?_⟩
    simp only [dataResult, hargs, hmov, hlea, hand, hor, hadd, if_false, if_true, hold, hv,
      Option.map_some, Option.getD_some]
  · refine ⟨-k, Int.natAbs_neg k, ?_⟩
    simp only [dataResult, hargs, hmov, hlea, hand, hor, hadd, hsub, if_false, if_true, hold, hv,
      Option.map_some, Option.getD_some]
    rw [BitVec.ofInt_neg, BitVec.sub_eq_add_neg]

/-- The value that `lea` and `mov` move. -/
theorem dataResult_lea {src dest : Operand} (hop : i.op = "lea") (hargs : i.args = [src, dest]) :
    dataResult alu i s = (operandAddress s src).getD (alu.result i s) := by
  have hmov : "lea" ∉ cat ["mov"] (opt size) := by decide
  simp only [dataResult, hargs, hop, hmov, if_false, if_true]

theorem dataResult_mov {src dest : Operand} {x : Word} (hop : i.op = "mov")
    (hargs : i.args = [src, dest]) (hx : operandValue s (accessWidth i) src = some x) :
    dataResult alu i s = x := by
  have hmov : "mov" ∈ cat ["mov"] (opt size) := by decide
  simp only [dataResult, hargs, hop, hmov, if_true, hx, Option.getD_some]

theorem dataResult_or {w : Word} {r : Reg32} (hop : i.op = "or")
    (hargs : i.args = [.imm (hexText w), .reg (.r32 r)]) :
    dataResult alu i s = s.reg r ||| w := by
  have hall : "or" ∉ cat ["mov"] (opt size) ∧ "or" ≠ "lea" ∧ "or" ∉ cat ["and"] (opt size) ∧
      "or" ∈ cat ["or"] (opt size) := by decide
  obtain ⟨hmov, hlea, hand, hor⟩ := hall
  have hv : operandValue s (accessWidth i) (.imm (hexText w)) = some w := textValue_hexText w
  have hold : operandValue s (accessWidth i) (.reg (.r32 r)) = some (s.reg r) := rfl
  simp only [dataResult, hargs, hop, hmov, hlea, hand, hor, if_false, if_true, hv, hold,
    Option.map_some, Option.getD_some]

end

end Pittsfield.Offline
