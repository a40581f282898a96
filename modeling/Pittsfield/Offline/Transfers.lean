import Pittsfield.Offline.Masking
import Pittsfield.Region.Masks

/-!
# Returns and indirect jumps

A transfer through `%ebx` is let through only behind its mask. A return is not: `ret $imm`
is let through anywhere, and the test for `andl $JUMP_MASK,(%esp)` assigns the operand that
it means to compare. The results say exactly when every indirect transfer goes to an
address that has been masked.
-/

namespace Pittsfield.Offline

open Pittsfield.Foundation
open Pittsfield.Region
open Pittsfield.Machine
open Offline.Flag

/-- The instruction of `u` stands directly before that of `v`, in the same chunk. -/
def DirectlyBefore (L : Layout) (u v : Examined) : Prop :=
  u.after = v.before ∧ u.before.addr / L.chunk_size = v.before.addr / L.chunk_size

/-- A return, with or without an immediate operand. -/
def IsReturn (i : Insn) : Prop := i.op = "ret" ∧ (i.args = [] ∨ ∃ value, i.args = [.imm value])

/-- A jump or call through a register. -/
def ThroughRegister (i : Insn) (r : Reg) : Prop :=
  (i.op = "jmp" ∨ i.op = "call") ∧ i.args = [.star r]

/-- The operand is the top of the stack. -/
def IsTop (dest : Operand) : Prop :=
  ∃ t, dest.offsetFrom .esp true = some t ∧ textValue t = some 0

/-- `andl $JUMP_MASK,(%esp)` -/
def MasksTop (L : Layout) (i : Insn) : Prop :=
  i.op = "andl" ∧ ∃ dest, i.args = [.imm (hexText L.jump_mask), dest] ∧ IsTop dest

section

variable (L : Layout) (rows : List Row)

def ReturnMasked (v : Examined) : Prop :=
  ∃ u ∈ examined L rows, DirectlyBefore L u v ∧ MasksTop L u.item

/-- The mask of `%ebx` stands directly before the visit, `popf` aside. -/
inductive EbxMasked : Examined → Prop
  | mask {u v : Examined} (hu : u ∈ examined L rows) (hb : DirectlyBefore L u v)
      (hm : EbxMask L.jump_mask u.item) : EbxMasked v
  | popf {u v : Examined} (hu : u ∈ examined L rows) (hb : DirectlyBefore L u v)
      (hop : u.item.op = "popf") (h : EbxMasked u) : EbxMasked v

/-- Every indirect transfer stands behind its mask, and whatever the program does, it goes
to a masked address. -/
structure TransfersMasked : Prop where
  returns : ∀ v ∈ examined L rows, IsReturn v.item → ReturnMasked L rows v
  registers : ∀ v ∈ examined L rows, ∀ r, ThroughRegister v.item r →
    r = .r32 .ebx ∧ EbxMasked L rows v
  runs : ∀ (alu : Alu Insn) (fpu : Insn → Cpu → Word → BitVec 8) (s s' : Cpu),
    L.chunk_size ∣ s.eip.toNat →
    RunsTo At.addr loc (exec L alu fpu) (examined L rows) (fun _ _ => True) s s' →
    ∀ v, Stands At.addr loc (examined L rows) s' v →
      IsReturn v.item ∨ (∃ r, ThroughRegister v.item r) →
      ∀ s'', exec L alu fpu v.item s' = some s'' → ∃ x, s''.eip = x &&& L.jump_mask

/-- What `verify.pl` does not look at: every `ret $imm` stands behind the mask of the stack
top, and a mask directly before a plain `ret` has no other offset. -/
structure ReturnsChecked : Prop where
  with_immediate : ∀ v ∈ examined L rows, v.item.op = "ret" → (∃ value, v.item.args = [.imm value]) →
    ReturnMasked L rows v
  plain : ∀ u ∈ examined L rows, ∀ v ∈ examined L rows, u.after = v.before → v.item.op = "ret" →
    v.item.args = [] → ∀ value dest, u.item.args = [.imm value, dest] →
    MasksStack L u.item.op value dest → IsTop dest

end

section

variable {L : Layout} {rows : List Row} {e : At} {u v : Examined}
variable (hp : Pass (Examines L) (start L) (examined L rows) e)

include hp

/-- Two visits in a row lie in one chunk unless the second one starts a chunk. -/
theorem directlyBefore_of_adjacent (hu : u ∈ examined L rows) (hv : v ∈ examined L rows)
    (hadj : u.after = v.before) (hne : v.before.addr ≠ v.before.state.next_aligned) :
    DirectlyBefore L u v := by
  refine ⟨hadj, ?_⟩
  obtain ⟨fu, -, -, -, hleu, hstu⟩ := checkRow_ok (hp.step_of_mem hu).1
  obtain ⟨fv, -, -, -, hlev, -⟩ := checkRow_ok (hp.step_of_mem hv).1
  have hnext : v.before.state.next_aligned = if u.before.addr = u.before.state.next_aligned then
      u.before.state.next_aligned + L.chunk_size else u.before.state.next_aligned := by
    rw [← hadj, hstu]
  obtain ⟨-, hcu⟩ := aligned_before hp hu
  obtain ⟨⟨k, hk⟩, hcv⟩ := aligned_before hp hv
  have hin : ∀ a, a < v.before.state.next_aligned → v.before.state.next_aligned ≤ a + L.chunk_size →
      a / L.chunk_size = k - 1 := by
    intro a hlt hle
    rw [hk, Nat.mul_comm] at hlt hle
    have hpos : 0 < k := by
      apply Nat.pos_of_ne_zero
      rintro rfl
      omega
    apply Nat.div_eq_of_lt_le
    · rw [Nat.sub_mul, Nat.one_mul]
      omega
    · rwa [Nat.sub_add_cancel hpos]
  rw [hin u.before.addr, hin v.before.addr (by omega) (by omega)]
  · split at hnext <;> omega
  · split at hnext <;> omega

/-- A visit directly behind another one starts no chunk. -/
theorem not_aligned_of_directlyBefore (hu : u ∈ examined L rows) (h : DirectlyBefore L u v) :
    ¬ L.chunk_size ∣ v.before.addr := by
  obtain ⟨hadj, hsame⟩ := h
  rintro ⟨k, hk⟩
  have hstep := hp.step_of_mem hu
  have hlt : u.before.addr < v.before.addr := by
    rw [← hadj]
    exact addr_pos L _ _ _ hstep
  rw [hk, Nat.mul_div_cancel_left k L.chunk_pos] at hsame
  have hle := Nat.mul_div_le u.before.addr L.chunk_size
  rw [hsame] at hle
  omega

/-- A bit that lets the visit through was left by the visit directly before it. -/
theorem exists_directlyBefore (hv : v ∈ examined L rows) {bit : Flag}
    (hset : bit ∈ v.before.state.safetyAt v.before.addr) :
    ∃ u ∈ examined L rows, DirectlyBefore L u v ∧ bit ∈ u.after.state.safety := by
  have hne : v.before.addr ≠ v.before.state.next_aligned := by
    intro he
    rw [VState.safetyAt, if_pos he] at hset
    exact absurd hset (Finset.notMem_empty _)
  rw [VState.safetyAt, if_neg hne] at hset
  rcases hp.before_eq hv with he | ⟨u, hu, hadj⟩
  · rw [he] at hset
    exact absurd hset (Finset.notMem_empty _)
  · rw [← hadj] at hset
    exact ⟨u, hu, directlyBefore_of_adjacent hp hu hv hadj hne, hset⟩

/-- A plain return is let through behind a mask of the stack only. -/
theorem plain_return (hv : v ∈ examined L rows) (hop : v.item.op = "ret") (hargs : v.item.args = []) :
    ∃ u ∈ examined L rows, DirectlyBefore L u v ∧ StackMask L u.item := by
  obtain ⟨f, harm, -, hr, -⟩ := visit_flags hp hv
  rw [hop, hargs] at harm
  cases harm with
  | none h =>
    rcases noneFlags_ok h with ⟨-, ⟨hset, -⟩ | rfl⟩ | ⟨hl, -⟩ | ⟨hl, -⟩ | ⟨hk, -⟩
    · obtain ⟨u, hu, hb, hmask⟩ := exists_directlyBefore hp hv hset
      exact ⟨u, hu, hb, stackTop_after hp hu hmask⟩
    · cases hr
    · exact absurd hl (by decide)
    · exact absurd hl (by decide)
    · exact absurd hk (by decide)

/-- A transfer through a register is let through for a masked `%ebx` only. -/
theorem star_let_through (hv : v ∈ examined L rows) {r : Reg} (hargs : v.item.args = [.star r]) :
    r = .r32 .ebx ∧ EBX_CODE_SAFE ∈ v.before.state.safetyAt v.before.addr := by
  obtain ⟨f, harm, -, hr, -⟩ := visit_flags hp hv
  rw [hargs] at harm
  cases harm with
  | star h =>
    rcases starFlags_ok h with ⟨hreg, hset, -⟩ | rfl
    · exact ⟨hreg, hset⟩
    · have hjump : IJUMP ∈ ({IJUMP} ∪ ({JUMP} ∪ if v.item.op = "call" then {USE_ESP} else ∅) : Flags) :=
        Finset.mem_union_left _ (by decide)
      rw [flagReports, if_pos (Or.inl hjump)] at hr
      cases hr

/-- Behind a bit that is set for the code, `%ebx` is masked. -/
theorem ebxMasked_of_bit (n : Nat) (hv : v ∈ examined L rows) (hn : v.before.addr ≤ n)
    (hset : EBX_CODE_SAFE ∈ v.before.state.safetyAt v.before.addr) : EbxMasked L rows v := by
  induction n generalizing v with
  | zero =>
    obtain ⟨u, hu, hb, -⟩ := exists_directlyBefore hp hv hset
    have hlt := addr_pos L _ _ _ (hp.step_of_mem hu)
    rw [hb.1] at hlt
    omega
  | succ n ih =>
    obtain ⟨u, hu, hb, hleft⟩ := exists_directlyBefore hp hv hset
    have hlt := addr_pos L _ _ _ (hp.step_of_mem hu)
    rw [hb.1] at hlt
    rcases bit_after hp hu (Or.inr ⟨rfl, rfl⟩) hleft with hm | ⟨hop, hbefore⟩
    · exact .mask hu hb hm
    · exact .popf hu hb hop (ih hu (by omega) hbefore)

/-- A direct target that is let through is a chunk start. -/
theorem target_aligned (hv : v ∈ examined L rows) {address symbol : String}
    (hargs : v.item.args = [.target address symbol]) :
    L.chunk_size ∣ (BitVec.ofNat 32 (hex address)).toNat := by
  obtain ⟨f, harm, -, -, -⟩ := visit_flags hp hv
  rw [hargs] at harm
  cases harm with
  | target h => exact (L.chunk_bits _).mp (targetFlags_ok h).1

end

section

variable {g : Settings} {sz : Size} {rows : List Row} {e : At} {v : Examined}
variable {alu : Alu Insn} {fpu : Insn → Cpu → Word → BitVec 8} {s s' s'' : Cpu}

variable (hp : Pass (Examines (compute_sizes g sz)) (start (compute_sizes g sz))
  (examined (compute_sizes g sz) rows) e) (he : e.addr < 2 ^ 32)

include hp

theorem returnMasked (hc : ReturnsChecked (compute_sizes g sz) rows)
    (hv : v ∈ examined (compute_sizes g sz) rows) (hret : IsReturn v.item) :
    ReturnMasked (compute_sizes g sz) rows v := by
  obtain ⟨hop, hargs | himm⟩ := hret
  · obtain ⟨u, hu, hb, value, dest, hu', hm⟩ := plain_return hp hv hop hargs
    have htop := hc.plain u hu v hv hb.1 hop hargs value dest hu' hm
    exact ⟨u, hu, hb, hm.1, dest, hm.2.1 ▸ hu', htop⟩
  · exact hc.with_immediate v hv hop himm

/-- Where a masked return leads. -/
theorem return_lands {ok : Examined → Cpu → Prop}
    (hok : ∀ v m, ok v m → EntersAligned (compute_sizes g sz) alu fpu v m)
    (h0 : (compute_sizes g sz).chunk_size ∣ s.eip.toNat)
    (hrun : RunsTo At.addr loc (exec (compute_sizes g sz) alu fpu)
      (examined (compute_sizes g sz) rows) ok s s')
    (hv : Stands At.addr loc (examined (compute_sizes g sz) rows) s' v)
    (hm : ReturnMasked (compute_sizes g sz) rows v) (hop : v.item.op = "ret")
    (hs : exec (compute_sizes g sz) alu fpu v.item s' = some s'') :
    ∃ x, s''.eip = x &&& (compute_sizes g sz).jump_mask := by
  obtain ⟨u, hu, hb, hand, dest, hargs, t, ht, hk⟩ := hm
  rcases arrived hok h0 hrun with hd | ⟨u', a, hu', hs', haddr⟩
  · rw [stands_addr hv] at hd
    exact absurd hd (not_aligned_of_directlyBefore hp hu hb)
  · rw [stands_addr hv, ← hb.1] at haddr
    obtain rfl := hp.eq_of_after (addr_pos _) hu hu'.1 haddr
    rw [(exec_ret hop hs).1]
    exact exec_and_top hand hargs ht hk hs'

/-- Where an indirect transfer leads. -/
theorem indirect_lands (hc : ReturnsChecked (compute_sizes g sz) rows) {ok : Examined → Cpu → Prop}
    (hok : ∀ v m, ok v m → EntersAligned (compute_sizes g sz) alu fpu v m)
    (h0 : (compute_sizes g sz).chunk_size ∣ s.eip.toNat)
    (hrun : RunsTo At.addr loc (exec (compute_sizes g sz) alu fpu)
      (examined (compute_sizes g sz) rows) ok s s')
    (hv : Stands At.addr loc (examined (compute_sizes g sz) rows) s' v)
    (hind : IsReturn v.item ∨ (opKind v.item.op).transfers = true ∧ v.item.op ≠ "ret" ∧
      ∃ r, v.item.args = [.star r])
    (hs : exec (compute_sizes g sz) alu fpu v.item s' = some s'') :
    (∃ x, s''.eip = x &&& (compute_sizes g sz).jump_mask) ∨
      opKind v.item.op = .jcc ∧ s''.eip = s'.eip + BitVec.ofNat 32 v.item.size := by
  rcases hind with hret | ⟨hk, hne, r, hargs⟩
  · exact Or.inl (return_lands hp hok h0 hrun hv (returnMasked hp hc hv.1 hret) hret.1 hs)
  · obtain ⟨hr, hset⟩ := star_let_through hp hv.1 hargs
    obtain ⟨x, hx⟩ := ebx_masked hp hok h0 hrun (Or.inr ⟨rfl, rfl⟩) v hv hset
    obtain ⟨a, ha, heip⟩ := exec_transfer hk hne hs
    rw [hargs, hr] at ha
    obtain rfl := Option.some.inj ha
    exact heip.imp (fun h => ⟨x, h.trans hx⟩) id

include he

/-- Where returns are checked, control enters at chunk starts only. -/
theorem entersAligned_of_checked (hc : ReturnsChecked (compute_sizes g sz) rows)
    (h0 : (compute_sizes g sz).chunk_size ∣ s.eip.toNat)
    (hrun : RunsTo At.addr loc (exec (compute_sizes g sz) alu fpu)
      (examined (compute_sizes g sz) rows) (EntersAligned (compute_sizes g sz) alu fpu) s s')
    (hv : Stands At.addr loc (examined (compute_sizes g sz) rows) s' v) :
    EntersAligned (compute_sizes g sz) alu fpu v s' := by
  intro s'' hs
  by_cases ht : (opKind v.item.op).transfers = true
  swap
  · rw [Bool.not_eq_true] at ht
    exact Or.inl (falls_to_next hp he hv ht hs)
  have hnext : s''.eip = s'.eip + BitVec.ofNat 32 v.item.size → s''.eip.toNat = v.after.addr :=
    fun h => next_addr hp he hv h
  have hind : ∀ hind, _ := fun hind => indirect_lands hp hc (fun _ _ h => h) h0 hrun hv hind hs
  by_cases hret : v.item.op = "ret"
  · rcases hind (Or.inl ⟨hret, (exec_ret hret hs).2⟩) with ⟨x, hx⟩ | ⟨-, hx⟩
    · rw [hx]
      exact Or.inr (jump_mask_aligned g sz x)
    · exact Or.inl (hnext hx)
  obtain ⟨a, ha, heip⟩ := exec_transfer ht hret hs
  unfold transferTarget at ha
  split at ha
  · rename_i hargs
    obtain rfl := Option.some.inj ha
    rcases heip with hx | ⟨-, hx⟩
    · rw [hx]
      exact Or.inr (target_aligned hp hv.1 hargs)
    · exact Or.inl (hnext hx)
  · rename_i hargs
    rcases hind (Or.inr ⟨ht, hret, _, hargs⟩) with ⟨x, hx⟩ | ⟨-, hx⟩
    · rw [hx]
      exact Or.inr (jump_mask_aligned g sz x)
    · exact Or.inl (hnext hx)
  · cases ha

theorem runs_entersAligned (hc : ReturnsChecked (compute_sizes g sz) rows)
    (h0 : (compute_sizes g sz).chunk_size ∣ s.eip.toNat)
    (hrun : RunsTo At.addr loc (exec (compute_sizes g sz) alu fpu)
      (examined (compute_sizes g sz) rows) (fun _ _ => True) s s') :
    RunsTo At.addr loc (exec (compute_sizes g sz) alu fpu)
      (examined (compute_sizes g sz) rows) (EntersAligned (compute_sizes g sz) alu fpu) s s' := by
  induction hrun with
  | refl => exact .refl
  | tail _ hmove ih =>
    obtain ⟨v, hv, -, hs⟩ := hmove
    exact .tail ih ⟨v, hv, entersAligned_of_checked hp he hc h0 ih hv, hs⟩

end

/-- Every indirect transfer stands behind its mask and goes to a masked address, exactly
when the returns are as `verify.pl` takes them to be. -/
theorem transfers_masked_iff (g : Settings) (sz : Size) {rows : List Row}
    (hcont : Contiguous (compute_sizes g sz).code_start rows)
    (h : ChecksFinished (compute_sizes g sz) rows) :
    TransfersMasked (compute_sizes g sz) rows ↔ ReturnsChecked (compute_sizes g sz) rows := by
  obtain ⟨e, hp, he⟩ := examined_pass hcont h
  constructor
  · rintro ⟨hret, -, -⟩
    refine ⟨fun v hv hop himm => hret v hv ⟨hop, Or.inr himm⟩, ?_⟩
    intro u hu v hv hadj hop hargs value dest huargs hm
    obtain ⟨w, hw, hb, -, dest', hwargs, htop⟩ := hret v hv ⟨hop, Or.inl hargs⟩
    have hpos := congrArg At.addr (hadj.trans hb.1.symm)
    obtain rfl := hp.eq_of_after (addr_pos _) hu hw hpos
    rw [huargs] at hwargs
    cases hwargs
    exact htop
  · intro hc
    have hthrough : ∀ {i : Insn} {r : Reg}, ThroughRegister i r →
        (opKind i.op).transfers = true ∧ i.op ≠ "ret" ∧ ∃ r, i.args = [.star r] := by
      rintro i r ⟨hop, hargs⟩
      rcases hop with hop | hop <;> rw [hop] <;> exact ⟨rfl, by decide, r, hargs⟩
    refine ⟨fun v hv hret => returnMasked hp hc hv hret, fun v hv r hr => ?_, ?_⟩
    · obtain ⟨hreg, hset⟩ := star_let_through hp hv hr.2
      exact ⟨hreg, ebxMasked_of_bit hp _ hv (Nat.le_refl _) hset⟩
    · intro alu fpu s s' h0 hrun v hv hind s'' hs
      have hrun' := runs_entersAligned hp he hc h0 hrun
      rcases hind with hret | ⟨r, hr⟩
      · exact return_lands hp (fun _ _ h => h) h0 hrun' hv (returnMasked hp hc hv.1 hret) hret.1 hs
      · rcases indirect_lands hp hc (fun _ _ h => h) h0 hrun' hv (Or.inr (hthrough hr)) hs with
          hx | ⟨hk, -⟩
        · exact hx
        · rcases hr.1 with hop | hop <;> rw [hop] at hk <;> exact absurd hk (by decide)

/-- A return that gives up its argument, at the start of the code. -/
def plainRetImm : List Row := [.insn 0x10000000 ⟨"ret", [.imm "0x4"], 3⟩]

theorem ret_imm_unmasked : ¬ ∀ rows, Contiguous classic.code_start rows →
    ChecksFinished classic rows → TransfersMasked classic rows := by
  intro h
  have hm := h plainRetImm ⟨rfl, by decide, show 0x10000003 < 2 ^ 32 by decide⟩ ⟨_, rfl⟩
  obtain ⟨v, hv, -, hand, -⟩ := hm.returns _ (List.mem_cons_self) ⟨rfl, Or.inr ⟨_, rfl⟩⟩
  obtain rfl := List.mem_singleton.mp hv
  exact absurd hand (by decide)

/-- The only shape of a return that the rewriter emits. -/
def maskedReturn : List Row :=
  [.insn 0x10000000 ⟨"andl", [.imm "0x10fffff0", .mem none (some .esp) none none], 7⟩,
    .insn 0x10000007 ⟨"ret", [], 1⟩]

theorem masked_return_checked : Contiguous classic.code_start maskedReturn ∧
    ChecksFinished classic maskedReturn ∧ TransfersMasked classic maskedReturn := by
  have hcont : Contiguous classic.code_start maskedReturn :=
    ⟨rfl, by decide, rfl, by decide, show 0x10000008 < 2 ^ 32 by decide⟩
  have h : ChecksFinished classic maskedReturn := ⟨_, rfl⟩
  refine ⟨hcont, h, (transfers_masked_iff {} .classic hcont h).mpr ⟨?_, ?_⟩⟩
  · intro v hv hop himm
    rcases List.mem_cons.mp hv with rfl | hv
    · exact absurd hop (by decide)
    · obtain rfl := List.mem_singleton.mp hv
      obtain ⟨value, himm⟩ := himm
      cases himm
  · intro u hu v hv hadj hop hargs value dest huargs hm
    rcases List.mem_cons.mp hu with rfl | hu
    · cases huargs
      exact ⟨"", rfl, rfl⟩
    · obtain rfl := List.mem_singleton.mp hu
      cases huargs

end Pittsfield.Offline
