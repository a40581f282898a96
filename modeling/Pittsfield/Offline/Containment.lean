import Pittsfield.Offline.StackRuns
import Pittsfield.Offline.Stores
import Pittsfield.Offline.Transfers

/-!
# The sandbox as a whole

What a listing that passes means for the machine: the bytes outside the data region, the
zero-tag region and the guard zones keep their values, the code among them, and control
stays on examined instructions until it leaves for a chunk start.
-/

namespace Pittsfield.Offline

open Pittsfield.Foundation
open Pittsfield.Region
open Pittsfield.Machine
open Offline.Flag

/-- The x87 stores write at most ten bytes at the address of their operand. -/
def StoresLocally (fpu : Insn → Cpu → Word → BitVec 8) : Prop :=
  ∀ i s x, fpu i s x ≠ s.mem x → ∀ dest a, i.args.getLast? = some dest →
    operandAddress s dest = some a → ∃ k < 10, x = a + BitVec.ofNat 32 k

/-- The operands in memory that an instruction is let through to write. -/
inductive Writable (L : Layout) (v : Examined) : Operand → Prop
  | ebx (h : EBX_DATA_SAFE ∈ v.before.state.safetyAt v.before.addr) : Writable L v atEbx
  | ebp {dest : Operand} {t : String} {k : Int} (ht : dest.offsetFrom .ebp false = some t)
    (hu : CHANGE_EBP ∉ v.before.state.unsafety) (hk : signed_word t = some k)
    (hoff : k.natAbs ≤ 32768) : Writable L v dest
  | esp {dest : Operand} {t : String} (hlast : v.item.args.getLast? = some dest)
    (ht : dest.offsetFrom .esp true = some t)
    (hacc : CHANGE_ESP ∉ v.before.state.unsafety ∧ smallOffset (fun _ => true) 127 t = true ∨
      MarksTop L v.item.op v.item.args t) : Writable L v dest
  | abs {haddr} (h : inData L haddr.val = true) : Writable L v (.abs haddr)

section

variable {L : Layout} {v : Examined} {f : Flags} {dest : Operand} {c : Cpu} {a : Word}

theorem Simple.writable {half : List Char → Bool} {bound : Nat} {k : Flag} (hb : bound ≤ 32768)
    (h : Simple v.before.state.unsafety dest half bound (some k))
    (hlast : v.item.args.getLast? = some dest) : Writable L v dest := by
  cases h with
  | ebp t ht hu hoff =>
    obtain ⟨j, hj, hlt⟩ := smallOffset_some hoff
    exact .ebp ht hu hj (by omega)
  | esp t ht hu hoff => exact .esp hlast ht (Or.inl ⟨hu, hoff⟩)

theorem StoreFlags.writable {half : List Char → Bool} {bound : Nat} (hb : bound ≤ 32768)
    (h : StoreFlags (v.before.state.safetyAt v.before.addr) v.before.state.unsafety v.item.op dest
      half bound f) (hf : IWRITE ∉ f) (hd : dest ∈ writtenOperands v.item)
    (hlast : v.item.args.getLast? = some dest) : Writable L v dest := by
  rcases h with ⟨rfl, hset, -⟩ | ⟨-, simple, hs, hflag⟩
  · exact .ebx hset
  cases simple with
  | some k => exact hs.writable hb hlast
  | none =>
    rcases hflag with rfl | ⟨hop, -⟩
    · exact absurd (Finset.mem_singleton_self IWRITE) hf
    · refine absurd hd (not_written_of_reads ?_)
      simp only [List.append_assoc]
      exact List.mem_append_left _ hop

/-- What an examined instruction writes in memory is writable. -/
theorem VisitFlags.writable (hf : VisitFlags L v f) (hd : dest ∈ writtenOperands v.item)
    (ha : operandAddress c dest = some a) : Writable L v dest := by
  have hmem := written_mem hd
  have hlast := written_last hd
  have harm := hf.arm
  have hreg : ∀ {r : Reg}, v.item.args.getLast? = some (.reg r) → v.item.op ≠ "xchg" →
      Writable L v dest := by
    intro r hr hx
    cases hr.symm.trans (hlast hx)
    cases ha
  generalize hargs : v.item.args = args at harm hmem
  cases harm with
  | none h => cases hmem
  | reg h | imm h | target h | star h =>
    obtain rfl := List.mem_singleton.mp hmem
    cases ha
  | complex h =>
    obtain rfl := List.mem_singleton.mp hmem
    have hl := (congrArg List.getLast? hargs).trans rfl
    rcases complexFlags_ok h with ⟨hop, -⟩ | ⟨-, ⟨hw, -⟩ | ⟨-, ⟨hebx, hset⟩ | ⟨k, hs⟩⟩⟩ | ⟨-, hop, -⟩
    · exfalso
      rcases written_kind hd with hk | ⟨hk, -⟩ <;> rw [hop] at hk <;> exact absurd hk (by decide)
    · exact absurd hw hf.write
    · rw [hebx]
      exact .ebx hset
    · exact hs.writable (by decide) hl
    · refine absurd hd (not_written_of_reads ?_)
      simp only [List.append_assoc] at hop ⊢
      exact List.mem_append_right _ (List.mem_append_right _ hop)
  | immRegReg h =>
    refine hreg (by rw [hargs]; rfl) ?_
    intro hx
    rw [hx] at h
    exact absurd (immRegRegFlags_ok h).1 (by decide)
  | regRegReg h =>
    refine hreg (by rw [hargs]; rfl) ?_
    intro hx
    rw [hx] at h
    exact absurd (regRegRegFlags_ok h).1 (by decide)
  | immSrcReg h =>
    refine hreg (by rw [hargs]; rfl) ?_
    intro hx
    rw [hx] at h
    exact absurd (immSrcRegFlags_ok h).1 (by decide)
  | regReg h =>
    rcases List.mem_pair.mp hmem with rfl | rfl <;> cases ha
  | immReg h => exact hreg (by rw [hargs]; rfl) (immRegFlags_ok h).1
  | immComplex h =>
    rcases List.mem_pair.mp hmem with rfl | rfl
    · cases ha
    have hl := (congrArg List.getLast? hargs).trans rfl
    rcases immComplexFlags_ok h with ⟨⟨hop, hv, t, ht, -⟩, -⟩ | ⟨hop, hv, -, ⟨t, ht⟩, -⟩ | hs
    · exact .esp hl ht (Or.inr ⟨_, _, hargs, ht, Or.inl ⟨hop, hv⟩⟩)
    · exact .esp hl ht (Or.inr ⟨_, _, hargs, ht, Or.inr ⟨hop, hv⟩⟩)
    · exact hs.writable (by decide) hf.write hd hl
  | abs h =>
    obtain rfl := List.mem_singleton.mp hmem
    exact .abs (absFlags_ok h).1
  | absReg h =>
    rcases List.mem_pair.mp hmem with rfl | rfl
    · exact .abs (absRegFlags_ok h).1
    · cases ha
  | regAbs h | immAbs h =>
    rcases List.mem_pair.mp hmem with rfl | rfl
    · cases ha
    · exact .abs (toAbsFlags_ok h).1
  | complexReg h => exact hreg (by rw [hargs]; rfl) (complexRegFlags_ok h).1
  | regComplex h =>
    rcases List.mem_pair.mp hmem with rfl | rfl
    · cases ha
    exact (regComplexFlags_ok h).writable (by decide) hf.write hd (by rw [hargs]; rfl)
  | other h =>
    rcases List.mem_pair.mp hmem with rfl | rfl <;> cases ha

/-- A pop to memory has a literal address. -/
theorem VisitFlags.popped (hf : VisitFlags L v f) (hk : opKind v.item.op = .pop)
    (hargs : v.item.args = [dest]) (ha : operandAddress c dest = some a) :
    ∃ haddr, dest = .abs haddr := by
  have harm := hf.arm
  rw [hargs] at harm
  cases harm with
  | reg h | imm h | target h | star h => cases ha
  | complex h =>
    exfalso
    have hop : v.item.op ∈ cat ["pop"] ["", "l"] := by
      unfold opKind at hk
      split at hk
      · cases hk
      split at hk
      · assumption
      repeat' split at hk
      all_goals cases hk
    have hall : ∀ op ∈ cat ["pop"] ["", "l"], op ≠ "pushl" ∧ unaryStore op = false ∧
        op ∉ fload ++ fcload ++ fbin ++ funary := by decide +kernel
    obtain ⟨h1, h2, h3⟩ := hall _ hop
    rcases complexFlags_ok h with ⟨hl, -⟩ | ⟨hl, -⟩ | ⟨-, hl, -⟩
    · exact h1 hl
    · rw [h2] at hl
      cases hl
    · exact h3 hl
  | abs h => exact ⟨_, rfl⟩

end

section Memory

variable {L : Layout} {alu : Alu Insn} {fpu : Insn → Cpu → Word → BitVec 8} {i : Insn}
variable {s s' c : Cpu} {x : Word}

theorem writeTo_changes {address : Option Word} {o : Operand} {w : Width} {write : Bool} {y : Word}
    (h : writeTo L s address o w write y = some c) (hx : c.mem x ≠ s.mem x) :
    ∃ a, address = some a ∧ a ∉ L.guardZone ∧ write = true ∧ ∃ k < 4, x = a + BitVec.ofNat 32 k := by
  unfold writeTo at h
  split at h
  · rename_i a
    rcases ite_eq_iff.mp h with ⟨-, h⟩ | ⟨hg, h⟩
    · cases h
    obtain rfl := Option.some.inj h
    cases write with
    | true => exact ⟨a, rfl, hg, rfl, Cpu.store_changes hx⟩
    | false => exact absurd rfl hx
  · split at h
    · obtain rfl := Option.some.inj h
      cases write <;> simp at hx
    · cases h

/-- The x87 stores write their operand. -/
theorem fstore_written (hf : i.op ∈ fstore ++ fcstore) : readsOnly i = false ∧ i.op ≠ "xchg" := by
  have hall : ∀ op ∈ fstore ++ fcstore, op ∉ cat ["cmp", "test"] (opt size) ++ ["bt", "nop"] ++
      fload ++ fcload ++ fbin ++ funary ∧ op ∉ cat ariths (opt size) ∧ op ≠ "xchg" := by
    decide +kernel
  obtain ⟨h1, h2, h3⟩ := hall _ hf
  rw [readsOnly, decide_eq_false h1, decide_eq_false h2, Bool.false_and, Bool.or_self]
  exact ⟨rfl, h3⟩

/-- An instruction without control or stack effect writes what it names for writing. -/
theorem dataOp_changes (hfpu : StoresLocally fpu) (hk : opKind i.op = .data)
    (h : dataOp L alu fpu i s = some c) (hx : c.mem x ≠ s.mem x) :
    ∃ dest ∈ writtenOperands i, ∃ a, operandAddress s dest = some a ∧ a ∉ L.guardZone ∧
      ∃ k < 10, x = a + BitVec.ofNat 32 k := by
  have hwritten : ∀ {dest}, i.args.getLast? = some dest → readsOnly i = false ∨ i.op = "xchg" →
      dest ∈ writtenOperands i := by
    intro dest hlast hw
    unfold writtenOperands
    rw [hk]
    show dest ∈ if i.op = "xchg" then i.args else if readsOnly i then [] else i.args.getLast?.toList
    split
    · exact List.mem_of_getLast? hlast
    · rename_i hne
      rw [if_neg (by rw [hw.resolve_right hne]; decide), hlast]
      exact List.mem_singleton_self _
  unfold dataOp at h
  split at h
  · cases h
    exact absurd rfl hx
  rename_i dest hdest
  extract_lets write after at h
  have hafter : ∀ c, after = some c → c.mem x ≠ s.mem x → ∃ dest ∈ writtenOperands i, ∃ a,
      operandAddress s dest = some a ∧ a ∉ L.guardZone ∧ ∃ k < 10, x = a + BitVec.ofNat 32 k := by
    intro c hc hx
    obtain ⟨a, ha, hg, hw, k, hk, he⟩ := writeTo_changes hc hx
    refine ⟨dest, hwritten hdest (Or.inl ?_), a, ha, hg, k, by omega, he⟩
    simpa [write] using hw
  split at h
  · rename_i hop
    split at h
    · rename_i r o hargs
      obtain ⟨t, ht, rfl⟩ := Option.map_eq_some_iff.mp h
      rw [Cpu.writeReg_mem] at hx
      obtain ⟨a, ha, hg, -, k, hk, he⟩ := writeTo_changes ht hx
      refine ⟨o, hwritten (by rw [hargs]; rfl) (Or.inr hop), a, ha, hg, k, by omega, he⟩
    · exact hafter _ h hx
  split at h
  · rename_i hf
    obtain ⟨t, ht, rfl⟩ := Option.map_eq_some_iff.mp h
    obtain ⟨a, ha⟩ := Option.isSome_iff_exists.mp hf.2
    obtain ⟨k, hk, he⟩ := hfpu i s x hx dest a hdest ha
    refine ⟨dest, hwritten hdest (Or.inl (fstore_written hf.1).1), a, ha, ?_, k, hk, he⟩
    intro hg
    simp only [after, ha, writeTo, if_pos hg] at ht
    cases ht
  · exact hafter _ h hx

/-- The bytes that an instruction changes: below the stack pointer for the pushes, and at
its written operands for everything else. -/
theorem exec_changes (hfpu : StoresLocally fpu) (h : exec L alu fpu i s = some s')
    (hx : s'.mem x ≠ s.mem x) :
    (opKind i.op ∉ [.data, .leave, .jmp, .jcc] ∧ ∃ w : Width,
        s.reg .esp - BitVec.ofNat 32 w.bytes ∉ L.guardZone ∧
        ∃ k < 10, x = s.reg .esp - BitVec.ofNat 32 w.bytes + BitVec.ofNat 32 k) ∨
      ∃ dest ∈ writtenOperands i, ∃ c a, operandAddress c dest = some a ∧
        (c = s ∨ opKind i.op = .pop ∧ i.args = [dest]) ∧ a ∉ L.guardZone ∧
        ∃ k < 10, x = a + BitVec.ofNat 32 k := by
  have hpush : ∀ {w : Width} {y : Word} {c : Cpu}, s.push L w y = some c → c.mem x ≠ s.mem x →
      ∃ w : Width, s.reg .esp - BitVec.ofNat 32 w.bytes ∉ L.guardZone ∧
        ∃ k < 10, x = s.reg .esp - BitVec.ofNat 32 w.bytes + BitVec.ofNat 32 k := by
    intro w y c hc hx
    obtain ⟨hg, k, hlt, he⟩ := Cpu.push_changes hc hx
    exact ⟨w, hg, k, by omega, he⟩
  unfold exec at h
  generalize hk : opKind i.op = kind at h ⊢
  cases kind with
  | push =>
    obtain ⟨⟨src, y⟩, -, hs⟩ := Option.bind_eq_some_iff.mp h
    obtain ⟨c, hc, rfl⟩ := Option.map_eq_some_iff.mp hs
    exact Or.inl ⟨by decide, hpush hc hx⟩
  | pushf =>
    rcases ite_eq_iff.mp h with ⟨-, h⟩ | ⟨-, h⟩
    · obtain ⟨c, hc, rfl⟩ := Option.map_eq_some_iff.mp h
      exact Or.inl ⟨by decide, hpush hc hx⟩
    · cases h
  | call =>
    obtain ⟨a, -, hs⟩ := Option.bind_eq_some_iff.mp h
    obtain ⟨c, hc, rfl⟩ := Option.map_eq_some_iff.mp hs
    exact Or.inl ⟨by decide, hpush hc hx⟩
  | pop =>
    simp only at h
    split at h
    · rename_i dest hargs
      obtain ⟨⟨y, t⟩, hpop, hs⟩ := Option.bind_eq_some_iff.mp h
      obtain ⟨c, hw, rfl⟩ := Option.map_eq_some_iff.mp hs
      obtain ⟨-, -, rfl⟩ := Cpu.pop_some hpop
      obtain ⟨a, ha, hg, -, k, hlt, he⟩ := writeTo_changes hw hx
      refine Or.inr ⟨dest, ?_, _, a, ha, Or.inr ⟨rfl, hargs⟩, hg, k, by omega, he⟩
      rw [writtenOperands, hk, hargs]
      exact List.mem_singleton_self _
    · cases h
  | popf =>
    rcases ite_eq_iff.mp h with ⟨-, h⟩ | ⟨-, h⟩
    · obtain ⟨⟨y, c⟩, hpop, rfl⟩ := Option.map_eq_some_iff.mp h
      obtain ⟨-, -, rfl⟩ := Cpu.pop_some hpop
      exact absurd rfl hx
    · cases h
  | leave =>
    rcases ite_eq_iff.mp h with ⟨-, h⟩ | ⟨-, h⟩
    · obtain ⟨⟨y, c⟩, hpop, rfl⟩ := Option.map_eq_some_iff.mp h
      obtain ⟨-, -, rfl⟩ := Cpu.pop_some hpop
      exact absurd rfl hx
    · cases h
  | ret =>
    obtain ⟨n, -, hs⟩ := Option.bind_eq_some_iff.mp h
    obtain ⟨⟨y, c⟩, hpop, rfl⟩ := Option.map_eq_some_iff.mp hs
    obtain ⟨-, -, rfl⟩ := Cpu.pop_some hpop
    exact absurd rfl hx
  | jmp | jcc =>
    obtain ⟨a, -, rfl⟩ := Option.map_eq_some_iff.mp h
    exact absurd rfl hx
  | data =>
    obtain ⟨c, hc, rfl⟩ := Option.map_eq_some_iff.mp h
    obtain ⟨dest, hd, a, ha, hg, k, hlt, he⟩ := dataOp_changes hfpu hk hc hx
    exact Or.inr ⟨dest, hd, s, a, ha, Or.inl rfl, hg, k, hlt, he⟩

end Memory

section Steps

variable {g : Settings} {sz : Size} {v : Examined} {f : Flags} {dest : Operand} {s s' : Cpu} {a : Word}
variable {alu : Alu Insn} {fpu : Insn → Cpu → Word → BitVec 8}

/-- The address of a write that is let through. -/
theorem Writable.address (hm : Known (compute_sizes g sz) v.before.state.weak s)
    (hf : VisitFlags (compute_sizes g sz) v f) (hok : StepOk (compute_sizes g sz) v s)
    (hebx : EBX_DATA_SAFE ∈ v.before.state.safetyAt v.before.addr →
      ∃ y, s.reg .ebx = y &&& (compute_sizes g sz).data_mask)
    (hlit : LiteralSpelled sz dest) (h : Writable (compute_sizes g sz) v dest)
    (ha : operandAddress s dest = some a) :
    a ∈ (compute_sizes g sz).sandbox ∨ a ∈ (compute_sizes g sz).guardZone := by
  cases h with
  | ebx hset =>
    obtain ⟨y, hy⟩ := hebx hset
    have hat : operandAddress s atEbx = some (s.reg .ebx) := by simp [operandAddress, atEbx]
    obtain rfl := Option.some.inj (hat.symm.trans ha)
    rw [hy]
    exact Or.inl (Layout.mask_mem_sandbox _ y)
  | @ebp _ t k ht hu hk hoff =>
    obtain rfl := Option.some.inj ((offsetFrom_address ht (textValue_of_signed hk)).symm.trans ha)
    have hin := (Slack.pastEnd (compute_sizes g sz)).drift (hm.ebp_mem hu)
    exact Layout.near_sandbox _ (by omega) (near_add hin k)
  | esp hlast ht hacc =>
    obtain ⟨hc, k, hle, haddr⟩ := hf.near_esp hok hlast ht hacc
    obtain rfl := Option.some.inj (haddr.symm.trans ha)
    exact hm.esp.access hf.count (decide_eq_false hc) (by omega)
  | @abs haddr hin =>
    obtain rfl := Option.some.inj ha
    exact (literal_confined_iff g sz haddr.property hin).mpr (hlit haddr rfl)

/-- What an examined instruction changes in memory lies in the sandbox or a guard zone. -/
theorem changes_confined (hfpu : StoresLocally fpu)
    (hm : Known (compute_sizes g sz) v.before.state.weak s)
    (hf : VisitFlags (compute_sizes g sz) v f) (hok : StepOk (compute_sizes g sz) v s)
    (hebx : EBX_DATA_SAFE ∈ v.before.state.safetyAt v.before.addr →
      ∃ y, s.reg .ebx = y &&& (compute_sizes g sz).data_mask)
    (hlit : ∀ dest ∈ writtenOperands v.item, LiteralSpelled sz dest)
    (hs : exec (compute_sizes g sz) alu fpu v.item s = some s') {x : Word}
    (hx : s'.mem x ≠ s.mem x) :
    x ∈ (compute_sizes g sz).sandbox ∨ x ∈ (compute_sizes g sz).guardZone := by
  -- a byte close behind an address in the sandbox
  have hnear : ∀ {a : Word} {k : Nat}, a ∈ (compute_sizes g sz).sandbox → k < 10 →
      x = a + BitVec.ofNat 32 k →
      x ∈ (compute_sizes g sz).sandbox ∨ x ∈ (compute_sizes g sz).guardZone := by
    intro a k ha hk he
    refine Layout.near_sandbox _ (d := 10) (by decide) ⟨a, ha, (k : Int), by omega, ?_⟩
    rw [he, BitVec.ofInt_natCast]
  rcases exec_changes hfpu hs hx with ⟨hk, w, hg, k, hlt, he⟩ |
    ⟨dest, hd, c, a, ha, hc, hg, k, hlt, he⟩
  · exact hnear ((hm.slot hf hk w).1.resolve_right hg) hlt he
  · refine hnear (Or.resolve_right ?_ hg) hlt he
    refine (hf.writable hd ha).address hm hf hok hebx (hlit dest hd) ?_
    rcases hc with rfl | ⟨hpop, hargs⟩
    · exact ha
    · obtain ⟨haddr, rfl⟩ := hf.popped hpop hargs ha
      exact ha

end Steps

section Runs

variable {g : Settings} {sz : Size} {rows : List Row} {e : At} {alu : Alu Insn}
variable {fpu : Insn → Cpu → Word → BitVec 8} {s s' : Cpu}

/-- What is known of the pointers at every visit of a run. -/
theorem known_run {L : Layout} (hp : Pass (Examines L) (start L) (examined L rows) e)
    (he : e.addr < 2 ^ 32) {ok : Examined → Cpu → Prop} (hok : ∀ v m, ok v m → StepOk L v m)
    (hesp : s.reg .esp ∈ L.sandbox) (hebp : s.reg .ebp ∈ L.sandbox)
    (hrun : RunsTo At.addr loc (exec L alu fpu) (examined L rows) ok s s') :
    ∀ v, Stands At.addr loc (examined L rows) s' v → Known L v.before.state.weak s' := by
  refine hp.run_invariant (addr_pos L) (fun st m => Known L st.state.weak m) (fun v _ => ?_) ?_ hrun
  · exact ⟨.of_mem ((Slack.around L).sandbox_subset hesp),
      fun _ => (Slack.pastEnd L).sandbox_subset hebp⟩
  intro v a b hv hokv hm hs
  obtain ⟨f, hf, hafter⟩ := visitFlags hp hv.1
  by_cases ht : (opKind v.item.op).transfers = true
  · obtain ⟨h1, h2⟩ := known_transfer hm hf (hok v a hokv) ht hs
    exact Or.inr fun w _ => ⟨.of_mem h1, fun _ => h2⟩
  · rw [Bool.not_eq_true] at ht
    refine Or.inl ⟨congrArg some (falls_to_next hp he hv ht hs), ?_⟩
    rw [hafter]
    exact known_next hm hf (hok v a hokv) ht hs

/-- The end of the listing: the address behind its last row. -/
def endAddr (L : Layout) (rows : List Row) : Nat :=
  ((examined L rows).getLast?.map (·.after.addr)).getD L.code_start

/-- Control is at an examined instruction, behind the last one, or at a chunk start. -/
inductive Place (g : Settings) (sz : Size) (rows : List Row) (a : Word) : Prop
  | examined {v : Examined} (hv : v ∈ examined (compute_sizes g sz) rows)
    (ha : a.toNat = v.before.addr)
  | behind (ha : a.toNat = endAddr (compute_sizes g sz) rows)
  | chunk (ha : ChunkStart g sz a)

section

variable (hp : Pass (Examines (compute_sizes g sz)) (start (compute_sizes g sz))
  (examined (compute_sizes g sz) rows) e) (he : e.addr < 2 ^ 32)

include hp

/-- Behind an examined instruction stands the next one or the end. -/
theorem place_after {v : Examined} (hv : v ∈ examined (compute_sizes g sz) rows) {a : Word}
    (ha : a.toNat = v.after.addr) : Place g sz rows a := by
  rcases hp.next hv with hl | ⟨w, hw, hb⟩
  · refine .behind ?_
    rw [ha, endAddr, hl]
    rfl
  · exact .examined hw (ha.trans (congrArg At.addr hb.symm))

include he

/-- Where an examined instruction leads. -/
theorem exec_place (hc : ReturnsChecked (compute_sizes g sz) rows)
    (h0 : (compute_sizes g sz).chunk_size ∣ s.eip.toNat)
    (hrun : RunsTo At.addr loc (exec (compute_sizes g sz) alu fpu)
      (examined (compute_sizes g sz) rows) (EntersAligned (compute_sizes g sz) alu fpu) s s')
    {v : Examined} (hv : Stands At.addr loc (examined (compute_sizes g sz) rows) s' v) {s'' : Cpu}
    (hs : exec (compute_sizes g sz) alu fpu v.item s' = some s'') : Place g sz rows s''.eip := by
  have hnext : s''.eip = s'.eip + BitVec.ofNat 32 v.item.size → Place g sz rows s''.eip :=
    fun h => place_after hp hv.1 (next_addr hp he hv h)
  by_cases ht : (opKind v.item.op).transfers = true
  swap
  · rw [Bool.not_eq_true] at ht
    exact hnext (exec_next ht hs)
  have hind : ∀ hind, Place g sz rows s''.eip := fun hind => by
    rcases indirect_lands hp hc (fun _ _ h => h) h0 hrun hv hind hs with ⟨x, hx⟩ | ⟨-, hx⟩
    · rw [hx]
      exact .chunk (masked_chunkStart g sz x)
    · exact hnext hx
  by_cases hret : v.item.op = "ret"
  · exact hind (Or.inl ⟨hret, (exec_ret hret hs).2⟩)
  obtain ⟨a, ha, heip⟩ := exec_transfer ht hret hs
  unfold transferTarget at ha
  split at ha
  · rename_i address symbol hargs
    obtain rfl := Option.some.inj ha
    rcases heip with hx | ⟨-, hx⟩
    · rw [hx]
      obtain ⟨f, harm, -⟩ := visit_flags hp hv.1
      rw [hargs] at harm
      cases harm with
      | target h =>
        obtain ⟨-, hlo, hhi, -⟩ := targetFlags_ok h
        have hfits := (compute_sizes g sz).code_fits
        rw [Layout.code_end] at hhi
        have hnat : (BitVec.ofNat 32 (hex address)).toNat = hex address := by
          rw [BitVec.toNat_ofNat, Nat.mod_eq_of_lt (by omega)]
        exact .chunk ⟨target_aligned hp hv.1 hargs, fun _ => Or.inl ⟨by omega, by omega⟩⟩
    · exact hnext hx
  · rename_i hargs
    exact hind (Or.inr ⟨ht, hret, _, hargs⟩)
  · cases ha

end

/-- What holds all along a run that starts in `s`. -/
structure Contained (g : Settings) (sz : Size) (rows : List Row) (s s' : Cpu) : Prop where
  memory : Set.EqOn s'.mem s.mem ((compute_sizes g sz).sandbox ∪ (compute_sizes g sz).guardZone)ᶜ
  code : Set.EqOn s'.mem s.mem
    (span 32 (compute_sizes g sz).code_start (compute_sizes g sz).code_size)
  control : Place g sz rows s'.eip

/-- The listing is none of those in which `verify.pl` takes an instruction for another one. -/
structure ReadRightly (g : Settings) (sz : Size) (rows : List Row) : Prop where
  returns : ReturnsChecked (compute_sizes g sz) rows
  literals : ∀ v ∈ examined (compute_sizes g sz) rows, ∀ dest ∈ writtenOperands v.item,
    LiteralSpelled sz dest

end Runs

/-- The mask of `%ebx` and a store behind it. -/
def maskedStore : List Row :=
  [.insn 0x10000000 ⟨"and", [.imm "0x20ffffff", .reg (.r32 .ebx)], 6⟩,
    .insn 0x10000006 ⟨"mov", [.reg (.r32 .eax), atEbx], 2⟩]

/-- The processor behind the `k` first instructions of the masked store. -/
def afterMasked (k : Nat) : Cpu :=
  (((examined classic maskedStore).take k).foldl (fun s v =>
    (exec classic (Alu.idle _) (fun _ c => c.mem) v.item s).getD s) (entryState classic))

end Pittsfield.Offline
