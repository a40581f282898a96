import Pittsfield.Offline.Arms
import Pittsfield.Offline.Steps

/-!
# The masks and the runs behind them

Three bits let the next instruction through: `EBX_DATA_SAFE`, `EBX_CODE_SAFE` and
`STACK_TOP_SAFE`. Only an `and` sets one of them, and none outlives a chunk start. So where
control enters at chunk starts only, a bit that is set says what the last instruction, or
the last one before a row of `popf`, has left.
-/

namespace Pittsfield.Offline

open Pittsfield.Foundation
open Pittsfield.Region
open Pittsfield.Machine
open Flag

/-- `and $mask,%ebx` -/
def EbxMask (w : Word) (i : Insn) : Prop :=
  i.op = "and" ∧ i.args = [.imm (hexText w), .reg (.r32 .ebx)]

/-- `andl $JUMP_MASK,off(%esp)` -/
def StackMask (L : Layout) (i : Insn) : Prop :=
  ∃ value dest, i.args = [.imm value, dest] ∧ MasksStack L i.op value dest

/-- The flags besides the three bits and the bit for `%ebp`; no branch gives `ESP_DATA_SAFE`. -/
def quiet : Flags :=
  {USE_ESP, IJUMP, IWRITE, IREAD, USE_EBP, CHANGE_EBP, JUMP, CHANGE_ESP, BUMP_ESP, EBX_DATA_XSAFE,
    EBX_CODE_XSAFE, STACK_TOP_XSAFE, EBP_DATA_XSAFE}

theorem change_subset (r : Reg) : change r ⊆ {CHANGE_EBP, CHANGE_ESP} := by
  unfold change
  apply Finset.union_subset <;> split <;> decide

theorem immRegChange_subset (op value : String) (r : Reg) :
    immRegChange op value r ⊆ weakenings := by
  unfold immRegChange
  apply Finset.union_subset
  · split <;> decide
  · repeat' split
    all_goals decide

theorem loadChange_subset (op : String) (src : Operand) (r : Reg) :
    loadChange op src r ⊆ weakenings := by
  unfold loadChange
  apply Finset.union_subset
  · split <;> decide
  · repeat' split
    all_goals decide

section

variable {L : Layout} {op : String} {safety unsafety f : Flags} {i : Insn}

theorem change_quiet (r : Reg) : change r ⊆ quiet := (change_subset r).trans (by decide)

theorem StoreFlags.quiet {dest : Operand} {half : List Char → Bool} {bound : Nat}
    (h : StoreFlags safety unsafety op dest half bound f) : f ⊆ quiet := by
  rcases h with ⟨-, -, rfl⟩ | ⟨-, simple, hs, rfl | ⟨-, rfl⟩⟩
  · decide
  · cases hs <;> decide
  · cases hs <;> decide

/-- Only the masks and `mov %esp,%ebp` set one of the four bits. -/
theorem Arm.strengthens (h : Arm L i.op safety unsafety f i.args) :
    f ⊆ quiet ∨ EbxMask L.data_mask i ∧ f = {EBX_DATA_SAFE} ∨
      EbxMask L.jump_mask i ∧ f = {EBX_CODE_SAFE} ∨
      StackMask L i ∧ f = {USE_ESP, STACK_TOP_SAFE} ∨
      opKind i.op = .data ∧ f = {EBP_DATA_SAFE} := by
  generalize hargs : i.args = args at h
  have hcall : ({JUMP} ∪ if i.op = "call" then {USE_ESP} else ∅ : Flags) ⊆ quiet := by
    apply Finset.union_subset
    · decide
    · split <;> decide
  cases h with
  | none h =>
    rcases noneFlags_ok h with ⟨-, ⟨-, rfl⟩ | rfl⟩ | ⟨-, ⟨-, rfl⟩ | rfl⟩ | ⟨-, rfl⟩ | ⟨-, rfl⟩ <;>
      exact Or.inl (by decide)
  | reg h =>
    rcases regFlags_ok h with ⟨-, rfl⟩ | ⟨-, rfl⟩ | rfl
    · exact Or.inl (by decide)
    · refine Or.inl (Finset.union_subset (Finset.union_subset ?_ (change_quiet _)) ?_) <;> decide
    · exact Or.inl (change_quiet _)
  | imm h =>
    obtain ⟨-, rfl⟩ := immFlags_ok h
    exact Or.inl (by decide)
  | complex h =>
    rcases complexFlags_ok h with ⟨-, rfl⟩ | ⟨-, ⟨-, hf⟩ | ⟨rfl, -⟩⟩ | ⟨-, -, rfl⟩
    · exact Or.inl (by decide)
    · exact Or.inl (hf.trans (by decide))
    · exact Or.inl (by decide)
    · exact Or.inl (by decide)
  | immRegReg h =>
    obtain ⟨-, rfl⟩ := immRegRegFlags_ok h
    exact Or.inl (Finset.union_subset (change_quiet _) (change_quiet _))
  | regRegReg h =>
    obtain ⟨-, rfl⟩ := regRegRegFlags_ok h
    exact Or.inl (Finset.union_subset (change_quiet _) (change_quiet _))
  | immSrcReg h =>
    obtain ⟨-, rfl⟩ := immSrcRegFlags_ok h
    exact Or.inl (change_quiet _)
  | regReg h =>
    rcases regRegFlags_ok h with ⟨hop, -, -, -, -, rfl⟩ | ⟨-, -, -, -, rfl⟩ | ⟨-, rfl⟩ | ⟨-, rfl⟩
    · rw [hop]
      exact Or.inr (Or.inr (Or.inr (Or.inr ⟨by decide, rfl⟩)))
    · exact Or.inl (by decide)
    · exact Or.inl (change_quiet _)
    · left
      split
      · decide
      · exact Finset.union_subset (change_quiet _) (change_quiet _)
  | immReg h =>
    rcases (immRegFlags_ok h).2 with (⟨hop, hm⟩ | ⟨-, hm⟩) | rfl
    · rcases hm with ⟨rfl, rfl, rfl⟩ | ⟨rfl, rfl, rfl⟩ | ⟨-, -, rfl⟩ | ⟨-, -, rfl⟩
      · exact Or.inr (Or.inl ⟨⟨hop, hargs⟩, rfl⟩)
      · exact Or.inr (Or.inr (Or.inl ⟨⟨hop, hargs⟩, rfl⟩))
      · rw [hop]
        exact Or.inr (Or.inr (Or.inr (Or.inr ⟨by decide, rfl⟩)))
      · exact Or.inl (by decide)
    · rcases hm with ⟨-, rfl | rfl⟩ | ⟨-, -, -, rfl⟩ | ⟨-, -, rfl⟩ <;> exact Or.inl (by decide)
    · exact Or.inl ((immRegChange_subset _ _ _).trans (by decide))
  | immComplex h =>
    rcases immComplexFlags_ok h with ⟨hm, rfl⟩ | ⟨-, -, -, -, rfl⟩ | hs
    · exact Or.inr (Or.inr (Or.inr (Or.inl ⟨⟨_, _, hargs, hm⟩, rfl⟩)))
    · exact Or.inl (by decide)
    · exact Or.inl hs.quiet
  | abs h =>
    rcases (absFlags_ok h).2 with ⟨-, rfl⟩ | rfl <;> exact Or.inl (by decide)
  | absReg h =>
    obtain ⟨-, rfl⟩ := absRegFlags_ok h
    exact Or.inl (change_quiet _)
  | regAbs h | immAbs h =>
    obtain ⟨-, rfl⟩ := toAbsFlags_ok h
    exact Or.inl (by decide)
  | complexReg h =>
    have hw : weakenings ⊆ quiet := by decide
    rcases (complexRegFlags_ok h).2 with rfl | rfl | rfl
    · exact Or.inl ((loadChange_subset _ _ _).trans hw)
    · exact Or.inl (Finset.union_subset ((loadChange_subset _ _ _).trans hw) (by decide))
    · exact Or.inl (Finset.union_subset ((loadChange_subset _ _ _).trans hw) (by decide))
  | regComplex h => exact Or.inl (regComplexFlags_ok h).quiet
  | target h =>
    obtain ⟨-, -, -, rfl⟩ := targetFlags_ok h
    exact Or.inl hcall
  | star h =>
    rcases starFlags_ok h with ⟨-, -, rfl⟩ | rfl
    · exact Or.inl hcall
    · exact Or.inl (Finset.union_subset (by decide) hcall)
  | other h =>
    rcases otherRegFlags_ok h with ⟨-, -, rfl⟩ | ⟨-, rfl⟩
    · exact Or.inl (by decide)
    · exact Or.inl (change_quiet _)

end

section Passes

variable {L : Layout} {rows : List Row} {e s s' : At} {i : Insn} {v : Examined}

/-- What the loop keeps true of `next_aligned`. -/
structure Aligned (L : Layout) (s : At) : Prop where
  multiple : L.chunk_size ∣ s.state.next_aligned
  close : s.state.next_aligned < s.addr + L.chunk_size

theorem Aligned.step (h : Examines L s i s') (ha : Aligned L s) : Aligned L s' := by
  obtain ⟨hrow, hsize, haddr⟩ := h
  obtain ⟨flags, -, -, -, -, hst⟩ := checkRow_ok hrow
  have hnext : s'.state.next_aligned = if s.addr = s.state.next_aligned then
      s.state.next_aligned + L.chunk_size else s.state.next_aligned := by rw [hst]
  have hclose := ha.close
  by_cases he : s.addr = s.state.next_aligned
  · rw [if_pos he] at hnext
    refine ⟨?_, by omega⟩
    rw [hnext]
    exact Nat.dvd_add ha.multiple (Nat.dvd_refl _)
  · rw [if_neg he] at hnext
    refine ⟨?_, by omega⟩
    rw [hnext]
    exact ha.multiple

theorem aligned_start : Aligned L (start L) :=
  ⟨L.code_aligned, Nat.lt_add_of_pos_right L.chunk_pos⟩

variable (hp : Pass (Examines L) (start L) (examined L rows) e) (hv : v ∈ examined L rows)

include hp hv

theorem aligned_before : Aligned L v.before :=
  ((hp.invariant aligned_start fun _ _ _ => Aligned.step).1 v hv).1

/-- At a chunk start the loop waits for the instruction. -/
theorem at_next (hd : L.chunk_size ∣ v.before.addr) :
    v.before.addr = v.before.state.next_aligned := by
  obtain ⟨flags, -, -, -, hle, -⟩ := checkRow_ok (hp.step_of_mem hv).1
  obtain ⟨⟨k, hk⟩, hclose⟩ := aligned_before hp hv
  obtain ⟨m, hm⟩ := hd
  rw [hk, hm] at hle hclose ⊢
  have hc := L.chunk_pos
  rw [← Nat.mul_succ] at hclose
  have hlt := Nat.lt_of_mul_lt_mul_left hclose
  have hge := Nat.le_of_mul_le_mul_left hle hc
  rw [show m = k by omega]

/-- No bit is left at a chunk start. -/
theorem safetyAt_aligned (hd : L.chunk_size ∣ v.before.addr) :
    v.before.state.safetyAt v.before.addr = ∅ := if_pos (at_next hp hv hd)

/-- The flags of a visit, with what the loop does with them. -/
theorem visit_flags : ∃ f,
    Arm L v.item.op (v.before.state.safetyAt v.before.addr) v.before.state.unsafety f v.item.args ∧
      useReports L v.before.state.unsafety v.before.addr v.item = [] ∧
      flagReports (v.before.state.safetyAt v.before.addr) v.before.state.unsafety f v.before.addr
        v.item = [] ∧
      v.after.state = { updateState v.before.state (v.before.state.safetyAt v.before.addr) v.item.op f
        with next_aligned := v.after.state.next_aligned } := by
  obtain ⟨f, hf, hu, hr, -, hst⟩ := checkRow_ok (hp.step_of_mem hv).1
  refine ⟨f, arm_of_ok hf, hu, hr, ?_⟩
  rw [hst]

/-- A bit that is set behind a visit was set by a mask there, or it outlived a `popf`. -/
theorem bit_after {bit : Flag} {w : Word}
    (hbit : bit = EBX_DATA_SAFE ∧ w = L.data_mask ∨ bit = EBX_CODE_SAFE ∧ w = L.jump_mask)
    (hset : bit ∈ v.after.state.safety) : EbxMask w v.item ∨
      v.item.op = "popf" ∧ bit ∈ v.before.state.safetyAt v.before.addr := by
  obtain ⟨f, harm, -, -, hst⟩ := visit_flags hp hv
  rw [hst, updateState] at hset
  rcases Finset.mem_union.mp hset with hold | hnew
  · by_cases hop : v.item.op = "popf"
    · rw [if_pos hop] at hold
      exact Or.inr ⟨hop, (Finset.mem_inter.mp hold).1⟩
    · rw [if_neg hop] at hold
      exact absurd hold (Finset.notMem_empty _)
  · left
    have hf := (Finset.mem_inter.mp hnew).1
    rcases harm.strengthens with hq | ⟨hm, rfl⟩ | ⟨hm, rfl⟩ | ⟨-, rfl⟩ | ⟨-, rfl⟩
    · have hbq := hq hf
      rcases hbit with ⟨rfl, -⟩ | ⟨rfl, -⟩ <;> exact absurd hbq (by decide)
    · rcases hbit with ⟨rfl, rfl⟩ | ⟨rfl, -⟩
      · exact hm
      · exact absurd hf (by decide)
    · rcases hbit with ⟨rfl, -⟩ | ⟨rfl, rfl⟩
      · exact absurd hf (by decide)
      · exact hm
    · rcases hbit with ⟨rfl, -⟩ | ⟨rfl, -⟩ <;> exact absurd hf (by decide)
    · rcases hbit with ⟨rfl, -⟩ | ⟨rfl, -⟩ <;> exact absurd hf (by decide)

theorem stackTop_after (hset : STACK_TOP_SAFE ∈ v.after.state.safety) : StackMask L v.item := by
  obtain ⟨f, harm, -, -, hst⟩ := visit_flags hp hv
  rw [hst, updateState] at hset
  rcases Finset.mem_union.mp hset with hold | hnew
  · exfalso
    revert hold
    split
    · intro hold
      exact absurd (Finset.mem_inter.mp hold).2 (by decide)
    · exact Finset.notMem_empty _
  · have hf := (Finset.mem_inter.mp hnew).1
    rcases harm.strengthens with hq | ⟨-, rfl⟩ | ⟨-, rfl⟩ | ⟨hm, -⟩ | ⟨-, rfl⟩
    · exact absurd (hq hf) (by decide)
    · exact absurd hf (by decide)
    · exact absurd hf (by decide)
    · exact hm
    · exact absurd hf (by decide)

end Passes

section Runs

variable (L : Layout) (alu : Alu Insn) (fpu : Insn → Cpu → Word → BitVec 8)

/-- The step at the visit leads to the instruction behind it or to a chunk start. -/
def EntersAligned (v : Examined) (m : Cpu) : Prop :=
  ∀ m', exec L alu fpu v.item m = some m' →
    m'.eip.toNat = v.after.addr ∨ L.chunk_size ∣ m'.eip.toNat

variable {L alu fpu} {rows : List Row} {e : At} {s s' : Cpu} {ok : Examined → Cpu → Prop}

theorem stands_addr {vs : List Examined} {v : Examined} (h : Stands At.addr loc vs s v) :
    s.eip.toNat = v.before.addr := Option.some.inj h.2

/-- The address of the instruction behind a visit. -/
theorem next_addr (hp : Pass (Examines L) (start L) (examined L rows) e) (he : e.addr < 2 ^ 32)
    {v : Examined} (hv : Stands At.addr loc (examined L rows) s v)
    (h : s'.eip = s.eip + BitVec.ofNat 32 v.item.size) : s'.eip.toNat = v.after.addr := by
  have hend := (hp.pos_bounds (addr_pos L) hv.1).2.2
  have haddr := (hp.step_of_mem hv.1).2.2
  rw [h, BitVec.toNat_add, BitVec.toNat_ofNat, stands_addr hv, Nat.add_mod_mod,
    Nat.mod_eq_of_lt (by omega), haddr]

/-- Where an instruction that is no transfer leads. -/
theorem falls_to_next (hp : Pass (Examines L) (start L) (examined L rows) e) (he : e.addr < 2 ^ 32)
    {v : Examined} (hv : Stands At.addr loc (examined L rows) s v)
    (ht : (opKind v.item.op).transfers = false) (h : exec L alu fpu v.item s = some s') :
    s'.eip.toNat = v.after.addr := next_addr hp he hv (exec_next ht h)

theorem entersAligned_next (hp : Pass (Examines L) (start L) (examined L rows) e)
    (he : e.addr < 2 ^ 32) {v : Examined} (hv : Stands At.addr loc (examined L rows) s v)
    (ht : (opKind v.item.op).transfers = false) : EntersAligned L alu fpu v s :=
  fun _ h => Or.inl (falls_to_next hp he hv ht h)

/-- In every run that enters at chunk starts only, a bit that is set for `%ebx` says that
`%ebx` is masked. -/
theorem ebx_masked (hp : Pass (Examines L) (start L) (examined L rows) e)
    (hok : ∀ v m, ok v m → EntersAligned L alu fpu v m) (h0 : L.chunk_size ∣ s.eip.toNat)
    (hrun : RunsTo At.addr loc (exec L alu fpu) (examined L rows) ok s s') {bit : Flag} {w : Word}
    (hbit : bit = EBX_DATA_SAFE ∧ w = L.data_mask ∨ bit = EBX_CODE_SAFE ∧ w = L.jump_mask) :
    ∀ v, Stands At.addr loc (examined L rows) s' v →
      bit ∈ v.before.state.safetyAt v.before.addr → ∃ x, s'.reg .ebx = x &&& w := by
  have hentry : ∀ v m, Stands At.addr loc (examined L rows) m v → L.chunk_size ∣ m.eip.toNat →
      bit ∈ v.before.state.safetyAt v.before.addr → ∃ x, m.reg .ebx = x &&& w := by
    intro v m hv hd hset
    rw [stands_addr hv] at hd
    rw [safetyAt_aligned hp hv.1 hd] at hset
    exact absurd hset (Finset.notMem_empty _)
  refine hp.run_invariant (addr_pos L)
    (fun st m => bit ∈ st.state.safetyAt st.addr → ∃ x, m.reg .ebx = x &&& w)
    (fun v hv => hentry v s hv h0) ?_ hrun
  intro v a b hv hoka hI hs
  rcases hok v a hoka b hs with hnext | hd
  · refine Or.inl ⟨congrArg some hnext, fun hset => ?_⟩
    have hset' : bit ∈ v.after.state.safety := by
      revert hset
      unfold VState.safetyAt
      split
      · exact fun h => absurd h (Finset.notMem_empty _)
      · exact id
    rcases bit_after hp hv.1 hbit hset' with ⟨hop, hargs⟩ | ⟨hop, hbefore⟩
    · exact ⟨_, exec_and_reg hop hargs hs⟩
    · rw [exec_popf hop hs]
      exact hI hbefore
  · exact Or.inr fun w hw => hentry w b hw hd

/-- Behind the start of a run, control has come from the instruction before or has entered
at a chunk start. -/
theorem arrived (hok : ∀ v m, ok v m → EntersAligned L alu fpu v m)
    (h0 : L.chunk_size ∣ s.eip.toNat)
    (hrun : RunsTo At.addr loc (exec L alu fpu) (examined L rows) ok s s') :
    L.chunk_size ∣ s'.eip.toNat ∨ ∃ u a, Stands At.addr loc (examined L rows) a u ∧
      exec L alu fpu u.item a = some s' ∧ s'.eip.toNat = u.after.addr := by
  cases hrun with
  | refl => exact Or.inl h0
  | tail _ hmove =>
    obtain ⟨u, hu, hoku, hs⟩ := hmove
    rcases hok u _ hoku _ hs with hnext | hd
    · exact Or.inr ⟨u, _, hu, hs, hnext⟩
    · exact Or.inl hd

end Runs

end Pittsfield.Offline
