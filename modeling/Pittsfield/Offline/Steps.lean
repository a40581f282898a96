import Pittsfield.Offline.Execute

/-!
# What one listed instruction does

Where an instruction leads, and what the instructions without control or stack effect
write.
-/

namespace Pittsfield.Offline

open Pittsfield.Foundation
open Pittsfield.Region
open Pittsfield.Machine

section

variable {L : Layout} {alu : Alu Insn} {fpu : Insn → Cpu → Word → BitVec 8} {i : Insn} {s s' : Cpu}

/-- An instruction that is no transfer leads to the one behind it. -/
theorem exec_next (ht : (opKind i.op).transfers = false) (h : exec L alu fpu i s = some s') :
    s'.eip = s.eip + BitVec.ofNat 32 i.size := by
  have hjump : ∀ {o : Option Cpu},
      o.map (fun c => c.jump (s.eip + BitVec.ofNat 32 i.size)) = some s' →
      s'.eip = s.eip + BitVec.ofNat 32 i.size := by
    intro o ho
    obtain ⟨c, -, rfl⟩ := Option.map_eq_some_iff.mp ho
    rfl
  unfold exec at h
  generalize hk : opKind i.op = kind at ht h
  cases kind with
  | push =>
    obtain ⟨p, -, hp⟩ := Option.bind_eq_some_iff.mp h
    exact hjump hp
  | pop =>
    simp only at h
    split at h
    · obtain ⟨p, -, hp⟩ := Option.bind_eq_some_iff.mp h
      exact hjump hp
    · cases h
  | pushf =>
    rcases ite_eq_iff.mp h with ⟨-, h⟩ | ⟨-, h⟩
    · exact hjump h
    · cases h
  | popf =>
    rcases ite_eq_iff.mp h with ⟨-, h⟩ | ⟨-, h⟩
    · obtain ⟨p, -, rfl⟩ := Option.map_eq_some_iff.mp h
      rfl
    · cases h
  | leave =>
    rcases ite_eq_iff.mp h with ⟨-, h⟩ | ⟨-, h⟩
    · obtain ⟨p, -, rfl⟩ := Option.map_eq_some_iff.mp h
      rfl
    · cases h
  | call | ret | jmp | jcc => cases ht
  | data => exact hjump h

theorem exec_data (hk : opKind i.op = .data) (h : exec L alu fpu i s = some s') :
    ∃ c, dataOp L alu fpu i s = some c ∧ s' = c.jump (s.eip + BitVec.ofNat 32 i.size) := by
  unfold exec at h
  rw [hk] at h
  obtain ⟨c, hc, rfl⟩ := Option.map_eq_some_iff.mp h
  exact ⟨c, hc, rfl⟩

/-- A register operand is written as a whole or not at all. -/
theorem dataOp_reg {r : Reg} (hlast : i.args.getLast? = some (.reg r)) (hx : i.op ≠ "xchg") :
    dataOp L alu fpu i s = some (if readsOnly i then alu.clobber i s else
      (alu.clobber i s).writeReg (dataResult alu i s) r) := by
  unfold dataOp
  rw [hlast]
  cases hr : readsOnly i <;> simp [hx, writeTo, operandAddress]

/-- A store to memory. -/
theorem dataOp_store {dest : Operand} {a : Word} (hlast : i.args.getLast? = some dest)
    (haddr : operandAddress s dest = some a) (hx : i.op ≠ "xchg") (hf : i.op ∉ fstore ++ fcstore)
    (hr : readsOnly i = false) :
    dataOp L alu fpu i s = if a ∈ L.guardZone then none else
      some ((alu.clobber i s).store (accessWidth i) a (dataResult alu i s)) := by
  unfold dataOp
  rw [hlast]
  simp only [hx, if_false, haddr, hr, writeTo, hf, false_and, Bool.not_false, if_true]

@[simp] theorem textValue_hexText (w : Word) : textValue (hexText w) = some w := by
  rw [textValue, signed_word_hexText, Option.map_some, BitVec.ofInt_toInt]

/-- The mask of an operand. -/
theorem dataResult_and {w old : Word} {dest : Operand} (hop : i.op ∈ cat ["and"] (opt size))
    (hargs : i.args = [.imm (hexText w), dest])
    (hold : operandValue s (accessWidth i) dest = some old) : dataResult alu i s = old &&& w := by
  have hother : ∀ op ∈ cat ["and"] (opt size), op ∉ cat ["mov"] (opt size) ∧ op ≠ "lea" := by decide
  obtain ⟨hmov, hlea⟩ := hother _ hop
  have himm : operandValue s (accessWidth i) (.imm (hexText w)) = some w := textValue_hexText w
  simp only [dataResult, hargs, hmov, hlea, hop, if_false, if_true, hold, himm, Option.map_some,
    Option.getD_some]

theorem and_plain {op : String} (hop : op ∈ cat ["and"] (opt size)) :
    opKind op = .data ∧ op ≠ "xchg" ∧ op ∉ fstore ++ fcstore := by
  revert op
  decide

theorem and_writes (hop : i.op ∈ cat ["and"] (opt size)) : readsOnly i = false := by
  have hall : ∀ op ∈ cat ["and"] (opt size), op ∉ cat ["cmp", "test"] (opt size) ++ ["bt", "nop"] ++
      fload ++ fcload ++ fbin ++ funary ∧ op ∉ cat ariths (opt size) := by decide
  obtain ⟨h1, h2⟩ := hall _ hop
  rw [readsOnly, decide_eq_false h1, decide_eq_false h2, Bool.false_and, Bool.or_self]

/-- `and $w,%r` -/
theorem exec_and_reg {w : Word} {r : Reg32} (hop : i.op = "and")
    (hargs : i.args = [.imm (hexText w), .reg (.r32 r)]) (h : exec L alu fpu i s = some s') :
    s'.reg r = s.reg r &&& w := by
  have hmem : i.op ∈ cat ["and"] (opt size) := by
    rw [hop]
    decide
  obtain ⟨hk, hx, -⟩ := and_plain hmem
  obtain ⟨c, hc, rfl⟩ := exec_data hk h
  have hlast : i.args.getLast? = some (.reg (.r32 r)) := by rw [hargs]; rfl
  rw [dataOp_reg hlast hx, and_writes hmem, dataResult_and hmem hargs rfl] at hc
  obtain rfl := Option.some.inj hc
  show ((alu.clobber i s).setReg r _).reg r = _
  rw [Cpu.setReg_same]
  rfl

/-- The address of `off(%r)`. -/
theorem offsetFrom_address {dest : Operand} {r : Reg32} {one : Bool} {t : String} {k : Word}
    (h : dest.offsetFrom r one = some t) (hk : textValue t = some k) :
    operandAddress s dest = some (s.reg r + k) := by
  cases dest with
  | mem offset base index scale =>
    rcases ite_eq_iff.mp h with ⟨⟨rfl, rfl, -⟩, ht⟩ | ⟨-, ht⟩
    · cases offset with
      | none =>
        obtain rfl := Option.some.inj ht
        obtain rfl : 0 = k := Option.some.inj hk
        simp [operandAddress]
      | some o =>
        obtain rfl := Option.some.inj ht
        have ho : textValue o.val = some k := hk
        simp [operandAddress, ho]
    · cases ht
  | reg | imm | abs | target | star | other => cases h

/-- `andl $w,(%esp)`: the word on the top of the stack is masked. -/
theorem exec_and_top {w : Word} {dest : Operand} {t : String} (hop : i.op = "andl")
    (hargs : i.args = [.imm (hexText w), dest]) (hdest : dest.offsetFrom .esp true = some t)
    (ht : textValue t = some 0) (h : exec L alu fpu i s = some s') :
    ∃ x, s'.load .dword (s'.reg .esp) = x &&& w := by
  have hmem : i.op ∈ cat ["and"] (opt size) := by
    rw [hop]
    decide
  obtain ⟨hk, hx, hf⟩ := and_plain hmem
  obtain ⟨c, hc, rfl⟩ := exec_data hk h
  have hlast : i.args.getLast? = some dest := by rw [hargs]; rfl
  have haddr : operandAddress s dest = some (s.reg .esp) := by
    rw [offsetFrom_address hdest ht]
    exact congrArg some (BitVec.add_zero _)
  have hold : operandValue s (accessWidth i) dest =
      some (s.load (accessWidth i) (s.reg .esp)) := by
    cases dest with
    | mem offset base index scale =>
      simp only [operandValue, haddr, Option.map_some]
    | reg | imm | abs | target | star | other => cases hdest
  have hwidth : accessWidth i = .dword := by
    rw [accessWidth, hargs, hop]
    rfl
  rw [dataOp_store hlast haddr hx hf (and_writes hmem), dataResult_and hmem hargs hold] at hc
  rcases ite_eq_iff.mp hc with ⟨-, hc⟩ | ⟨-, hc⟩
  · cases hc
  · obtain rfl := Option.some.inj hc
    refine ⟨s.load .dword (s.reg .esp), ?_⟩
    rw [hwidth, Cpu.load_jump, Cpu.jump_reg, Cpu.store_reg, Alu.clobber_esp, Cpu.load_store]

theorem exec_popf (hop : i.op = "popf") (h : exec L alu fpu i s = some s') :
    s'.reg .ebx = s.reg .ebx := by
  have hk : opKind i.op = .popf := by
    rw [hop]
    decide
  unfold exec at h
  rw [hk] at h
  rcases ite_eq_iff.mp h with ⟨-, h⟩ | ⟨-, h⟩
  · obtain ⟨⟨v, c⟩, hp, rfl⟩ := Option.map_eq_some_iff.mp h
    obtain ⟨-, -, rfl⟩ := Cpu.pop_some hp
    exact Cpu.setReg_other s (s.reg .esp + 4) (show Reg32.ebx ≠ .esp by decide)
  · cases h

theorem opKind_ret {op : String} (h : opKind op = .ret) : op = "ret" := by
  unfold opKind at h
  repeat' split at h
  all_goals first | assumption | cases h

/-- Where a return leads. -/
theorem exec_ret (hop : i.op = "ret") (h : exec L alu fpu i s = some s') :
    s'.eip = s.load .dword (s.reg .esp) ∧ (i.args = [] ∨ ∃ value, i.args = [.imm value]) := by
  have hk : opKind i.op = .ret := by
    rw [hop]
    decide
  unfold exec at h
  rw [hk] at h
  obtain ⟨n, hn, hs⟩ := Option.bind_eq_some_iff.mp h
  obtain ⟨⟨x, c⟩, hpop, rfl⟩ := Option.map_eq_some_iff.mp hs
  obtain ⟨-, rfl, -⟩ := Cpu.pop_some hpop
  refine ⟨rfl, ?_⟩
  unfold returnBytes at hn
  split at hn
  · exact Or.inl ‹_›
  · exact Or.inr ⟨_, ‹_›⟩
  · cases hn

/-- Where a jump or a call leads. -/
theorem exec_transfer (hk : (opKind i.op).transfers = true)
    (hret : i.op ≠ "ret") (h : exec L alu fpu i s = some s') :
    ∃ a, transferTarget s i.args = some a ∧
      (s'.eip = a ∨ opKind i.op = .jcc ∧ s'.eip = s.eip + BitVec.ofNat 32 i.size) := by
  unfold exec at h
  generalize hkind : opKind i.op = kind at hk h
  cases kind with
  | call =>
    obtain ⟨a, ha, hs⟩ := Option.bind_eq_some_iff.mp h
    obtain ⟨c, -, rfl⟩ := Option.map_eq_some_iff.mp hs
    exact ⟨a, ha, Or.inl rfl⟩
  | jmp =>
    obtain ⟨a, ha, rfl⟩ := Option.map_eq_some_iff.mp h
    exact ⟨a, ha, Or.inl rfl⟩
  | jcc =>
    obtain ⟨a, ha, rfl⟩ := Option.map_eq_some_iff.mp h
    refine ⟨a, ha, ?_⟩
    by_cases ht : alu.taken i s = true
    · exact Or.inl (by simp [ht])
    · exact Or.inr ⟨rfl, by simp [ht]⟩
  | ret => exact absurd (opKind_ret hkind) hret
  | push | pop | pushf | popf | leave | data => cases hk

end

end Pittsfield.Offline
