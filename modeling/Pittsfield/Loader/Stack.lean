import Pittsfield.Loader.Pointers

/-!
# Stack accesses under `verify()`

The step lemma for `%esp` and the result about whole runs: over steps that keep
track of both pointers the verifier's state describes them, and every access
through `%esp` falls into the sandbox or a guard zone.
-/

namespace Pittsfield.Loader

open Pittsfield.Foundation
open Pittsfield.Region
open Pittsfield.Machine
open InsnType EffAddrType

section Steps

variable {L : Layout} {alu : Alu X86Insn} {st : VState} {i : X86Insn} {offset : Nat} {f : Flags}
variable {s s' : Cpu} {S : Slack L}

/-- `add`, `sub` and `and` of `%esp` with a byte that count as a bump. -/
theorem bump_result (alu : Alu X86Insn) (s : Cpu) {a b : X86Op} (hargs : i.args = [a, b]) (ha : a.reg = some (.r32 .esp))
    (hb : b.type = .op_immediate) (hbyte : b.datatype = .op_byte)
    (ht : (i.type = insn_add ∨ i.type = insn_sub) ∨ i.type = insn_and ∧ b.dword = 0xf0) :
    ∃ k : Int, k.natAbs ≤ 255 ∧ dataResult alu i s = s.reg .esp + BitVec.ofInt 32 k := by
  have hcur : currentValue alu i s a = s.reg .esp := by
    simp [currentValue, X86Op.data_of_reg ha, Cpu.readReg]
  have himm : immediateValue b = (b.dword.setWidth 8).signExtend 32 := by
    simp [immediateValue, hbyte]
  rcases ht with (ht | ht) | ⟨ht, hv⟩
  · obtain ⟨k, hk, he⟩ := (bump_near (s.reg .esp) b.dword (alu.carry i s)).1
    exact ⟨k, hk, by rw [← he]; simp [dataResult, ht, hargs, hb, hcur, himm]⟩
  · obtain ⟨k, hk, he⟩ := (bump_near (s.reg .esp) b.dword (alu.carry i s)).2
    exact ⟨k, hk, by rw [← he]; simp [dataResult, ht, hargs, hb, hcur, himm]⟩
  · obtain ⟨k, hk, he⟩ := align_near (s.reg .esp)
    refine ⟨k, hk, ?_⟩
    have hmask : immediateValue b = 0xfffffff0 := by
      rw [himm, hv]
      decide
    rw [← he]
    simp [dataResult, ht, hargs, hb, hcur, hmask]

/-- A data instruction that writes `%esp` justifies its flags. -/
theorem esp_step_written (ha : Arm L st.safety st.unsafety i offset f) (hd : isData i.type = true)
    (hdec : WellDecoded i) (hok : StackOk L st i) (hB : EbpInv S.set st.weak s)
    (hs : dataOp L alu i s = some s') (hw : writes i .esp) : EspStep S st.weak f.post s s' := by
  obtain ⟨a, r, hh, hwr, hr, hq, harm⟩ := regArm_of_writes ha hd hw
  have hnames := changeEsp_of_writes hr hq
  have hset : ∀ g : Flags, g.use_esp = false → g.change_esp = true →
      EspStep S st.weak g.post s s' := fun g hu hc => Or.inr ⟨hu, Or.inr (Or.inl hc)⟩
  have hmov : moves i .esp .ebp → st.unsafety.change_ebp = false → s'.reg .esp ∈ S.set := by
    intro hm hc
    rw [moves_write hm hdec hs]
    exact hB hc
  cases harm with
  | one hargs hf =>
    subst hf
    exact hset _ rfl (by simp [hnames])
  | imm b hargs hb hf =>
    rcases hf with ⟨hm, -⟩ | ⟨hm, -⟩ | ⟨hm, -⟩ | ⟨hm, -⟩ | rfl
    · cases whole_of_id (p := .ebx) hr hq hm.2.1
    · cases whole_of_id (p := .ebx) hr hq hm.2.1
    · cases whole_of_id (p := .ebp) hr hq hm.2.1
    · left
      rw [dataOp_write hs hh (regId_eq (r := .esp) hm.2.1) hwr]
      exact S.sandbox_subset (masked_result (q := .esp) hargs hm hb)
    · have huse := (regImmChange_post (i := i) a b).1
      rcases hok.esp_written hw with hc | hn | ⟨⟨-, a', b', hargs', -, hb'⟩, -⟩
      · exact Or.inr ⟨huse, Or.inl hc⟩
      · have hesp : a.reg = some (.r32 .esp) := by
          simpa [noticed, hargs, hb] using hn
        have hres : s'.reg .esp = dataResult alu i s := dataOp_write hs hh hesp hwr
        have hid : regId a.reg = REGISTER_ESP := by rw [hesp]; rfl
        by_cases hbyte : b.datatype = .op_byte ∧
            ((i.type = insn_add ∨ i.type = insn_sub) ∨ i.type = insn_and ∧ b.dword = 0xf0)
        · obtain ⟨k, hk, he⟩ := bump_result alu s hargs hesp hb hbyte.1 hbyte.2
          have hbump : (regImmChange i a b).bump_esp = true := by
            rcases hbyte with ⟨hby, ht | ⟨ht, hv⟩⟩
            · simp [regImmChange, hid, ht, hby, BUMP_ESP]
            · simp [regImmChange, hid, ht, hby, hv, BUMP_ESP]
          refine Or.inr ⟨huse, Or.inr (Or.inr ⟨k, ?_, by rw [hres, he]⟩)⟩
          simpa [Flags.post, hbump] using hk
        · refine hset _ huse ?_
          simp only [regImmChange, hid, if_true]
          rw [if_neg (fun h => hbyte ⟨h.2, Or.inl h.1⟩),
            if_neg (fun h => hbyte ⟨h.2.1, Or.inr ⟨h.1, h.2.2⟩⟩)]
          simp [CHANGE_ESP]
      · rw [hargs] at hargs'
        cases hargs'
        rw [X86Op.type_register hb'] at hb
        cases hb
  | reg b hargs hb hf =>
    rcases hf with ⟨hm, hc, -⟩ | ⟨hm, -⟩ | rfl
    · exact Or.inl (hmov hm (hok.ebp_clear hdec hm hc))
    · obtain ⟨-, a', b', hargs', ha', -⟩ := hm
      rw [hargs'] at hh
      cases hh
      rw [hr] at ha'
      cases ha'
      cases hq
    · rcases hok.esp_written hw with hc | hn | ⟨hm, hc⟩
      · exact Or.inr ⟨rfl, Or.inl hc⟩
      · refine hset _ rfl ?_
        have hb' : (changeEsp b).change_esp = true := noticed_regReg hargs hb hn
        simp [hb']
      · exact Or.inl (hmov hm hc)
  | mem b hargs hf =>
    subst hf
    exact hset _ rfl (by simp [hnames])
  | load b hargs hb =>
    obtain ⟨r', hr', hw'⟩ := hdec.loads a b hargs hb
    rw [hr] at hr'
    cases hr'
    rw [hq] at hw'
    cases hw'
  | regs b c hargs hb hf =>
    subst hf
    rcases hok.esp_written hw with hc | hn | ⟨⟨-, a', b', hargs', -⟩, -⟩
    · exact Or.inr ⟨rfl, Or.inl hc⟩
    · refine hset _ rfl ?_
      have hbc : (changeEsp b).change_esp = true ∨ (changeEsp c).change_esp = true := by
        simp only [noticed, hargs] at hn
        exact hn.2
      rcases hbc with h | h <;> simp [h]
    · rw [hargs] at hargs'
      cases hargs'
  | memReg b c hargs hb hf =>
    subst hf
    rcases hok.esp_written hw with hc | hn | ⟨⟨-, a', b', hargs', -⟩, -⟩
    · exact Or.inr ⟨rfl, Or.inl hc⟩
    · simp only [noticed, hargs] at hn
      rw [hb] at hn
      cases hn.1
    · rw [hargs] at hargs'
      cases hargs'

/-- Where a data instruction clears W2 and W3 without writing `%esp`: it moves a known
`%esp` to `%ebp` or accesses memory close to `%esp`. -/
theorem use_esp_of_arm (h : Arm L st.safety st.unsafety i offset f) (hd : isData i.type = true)
    (hdec : WellDecoded i) (hf : f.use_esp = true) :
    writes i .esp ∨ moves i .ebp .esp ∧ st.unsafety.change_ebp = false ∨
      ∃ a ea, i.args.head? = some a ∧ a.data = .expression ea ∧
        (classify_ea ea = EA_ESP_OFFSET ∨ classify_ea ea = EA_ESP_EXACT) ∧
        (st.unsafety.change_esp = false ∨ usesStack L i) := by
  have hmem : ∀ {a : X86Op} {ea : X86Ea}, i.args.head? = some a → a.data = .expression ea →
      MemArm L st.safety st.unsafety i ea f →
      ∃ a ea, i.args.head? = some a ∧ a.data = .expression ea ∧
        (classify_ea ea = EA_ESP_OFFSET ∨ classify_ea ea = EA_ESP_EXACT) ∧
        (st.unsafety.change_esp = false ∨ usesStack L i) := by
    intro a ea hh ha hm
    cases hm with
    | esp hea hu _ => exact ⟨a, ea, hh, ha, hea, Or.inl hu⟩
    | ebx _ _ he | direct _ _ he | read _ he | write he => subst he; cases hf
    | ebp _ _ he => rcases he with rfl | rfl <;> cases hf
  cases h with
  | nullary hargs h =>
    rcases nullaryFlags_ok h with ⟨-, rfl⟩ | ⟨ht, -⟩ | ⟨ht, -⟩ | ⟨ht, -⟩
    · cases hf
    · rw [ht] at hd; cases hd
    · rw [ht] at hd; cases hd
    · rcases ht with ht | ht <;> rw [ht] at hd <;> cases hd
  | relative a hargs ht h =>
    rcases (relativeFlags_ok h).2 with ⟨he | he, -⟩ | ⟨he, -⟩ <;> rw [he] at hd <;> cases hd
  | register a r hargs ha h =>
    rcases registerFlags_ok h with ⟨he, -⟩ | ⟨he, -⟩ | ⟨he, -⟩ | ⟨-, rfl⟩
    · rw [he] at hd; cases hd
    · rw [he] at hd; cases hd
    · rcases he with he | he <;> rw [he] at hd <;> cases hd
    · cases hf
  | immediate a v hargs ha h =>
    rcases (immediateFlags_ok h).1 with he | he <;> rw [he] at hd <;> cases hd
  | regImm a b r v hargs ha hb h =>
    rcases (regImmFlags_ok h).2 with ⟨-, rfl⟩ | ⟨-, rfl⟩ | ⟨-, rfl⟩ | ⟨hm, -⟩ | rfl
    · cases hf
    · cases hf
    · cases hf
    · have hhead : i.args.head? = some a := by rw [hargs]; rfl
      exact Or.inl ⟨a, _, hhead, hdec.moves (Or.inr hm.1) a hhead, regId_eq (r := .esp) hm.2.1, rfl⟩
    · rw [(regImmChange_post a b).1] at hf
      cases hf
  | regReg a b r q hargs ha hb h =>
    rcases (regRegFlags_ok h).2 with ⟨-, -, -, -, -, rfl⟩ | ⟨ht, ha', hb', hc, -⟩ | rfl
    · cases hf
    · exact Or.inr (Or.inl ⟨⟨ht, a, b, hargs, regId_eq (r := .ebp) ha', regId_eq (r := .esp) hb'⟩, hc⟩)
    · cases hf
  | regExpr a b r hargs ha hb h =>
    obtain ⟨-, rfl⟩ := regExprFlags_ok h
    cases hf
  | expr a ea hargs ha h =>
    rcases exprFlags_ok h with ⟨he, -⟩ | ⟨-, rfl⟩ | ⟨-, hm⟩
    · rw [he] at hd; cases hd
    · cases hf
    · exact Or.inr (Or.inr (hmem (by rw [hargs]; rfl) ha hm))
  | exprReg a b ea hargs ha hb h =>
    exact Or.inr (Or.inr (hmem (by rw [hargs]; rfl) ha (exprRegFlags_ok h)))
  | exprImm a b ea hargs ha hb h =>
    rcases exprImmFlags_ok h with ⟨hm, -⟩ | hm
    · refine Or.inr (Or.inr ⟨a, ea, by rw [hargs]; rfl, ha, Or.inr ?_,
        Or.inr (Or.inr ⟨a, b, ea, hargs, ha, hm⟩)⟩)
      simp only [masksStackTop, decide_eq_true_eq] at hm
      exact hm.1
    · exact Or.inr (Or.inr (hmem (by rw [hargs]; rfl) ha hm))
  | offsetReg a b hargs ha hb h =>
    obtain ⟨-, -, rfl⟩ := offsetRegFlags_ok h
    cases hf
  | regOffset a b r hargs ha hb h =>
    obtain ⟨-, rfl⟩ := regOffsetFlags_ok h
    cases hf
  | regRegReg a b c r hargs ha hb h =>
    obtain ⟨-, rfl⟩ := regRegRegFlags_ok h
    cases hf
  | regExprReg a b c r hargs ha hb h =>
    obtain ⟨-, rfl⟩ := regExprRegFlags_ok h
    cases hf

/-- A stack address that was accessed lies in the sandbox. -/
theorem access_mem (hE : EspInv S st.weak s) (hu : st.weak.Ok) (hc : st.unsafety.change_esp = false)
    {k : Int} (hk : k.natAbs ≤ 255) (hg : s.reg .esp + BitVec.ofInt 32 k ∉ L.guardZone) :
    s.reg .esp + BitVec.ofInt 32 k ∈ L.sandbox :=
  (hE.access hu hc hk).resolve_right hg

/-- A data instruction justifies its flags for `%esp`. -/
theorem esp_step_data (ha : Arm L st.safety st.unsafety i offset f) (hd : isData i.type = true)
    (hdec : WellDecoded i) (hok : StackOk L st i) (hu : st.weak.Ok)
    (hE : EspInv (Slack.around L) st.weak s) (hB : EbpInv (Slack.around L).set st.weak s)
    (hs : dataOp L alu i s = some s') : EspStep (Slack.around L) st.weak f.post s s' := by
  by_cases hw : writes i .esp
  · exact esp_step_written ha hd hdec hok hB hs hw
  have hsame := dataOp_reg hs (Or.inl rfl) hw
  by_cases hf : f.use_esp = true
  · left
    rw [hsame]
    rcases use_esp_of_arm ha hd hdec hf with hw' | ⟨hm, hc⟩ | ⟨a, ea, hh, hdata, hea, hknown⟩
    · exact absurd hw' hw
    · obtain ⟨hc', hb'⟩ := hok.toFrameOk.esp_clear hdec hm hc
      exact hE.mem hu hc' hb'
    · have hc : st.unsafety.change_esp = false := hknown.elim id hok.esp_known
      obtain ⟨k, hk, haddr⟩ := classify_esp hea
      have hg := dataOp_access hs hh hdata
      rw [haddr] at hg
      have hin := access_mem hE hu hc (by omega) hg
      -- the accessed address is within a byte-sized offset of the register
      exact near_mono (by omega) (near_of_add k (mem_near_self hin 0))
  · exact .of_eq (by simpa [Flags.post] using hf) hsame

/-- An instruction that falls through justifies its flags for `%esp`. -/
theorem esp_step (hc : checkInsn L st i = .ok f) (hdec : WellDecoded i) (hok : StackOk L st i)
    (hu : st.weak.Ok) (hE : EspInv (Slack.around L) st.weak s)
    (hB : EbpInv (Slack.around L).set st.weak s) (ht : transfers i.type = false)
    (hs : exec L alu i s = some s') : EspStep (Slack.around L) st.weak f.post s s' := by
  have harm := operandFlags_ok (checkInsn_ok hc).2.1
  by_cases hd : isData i.type = true
  · rw [exec_data hd] at hs
    obtain ⟨t, hop, rfl⟩ := Option.map_eq_some_iff.mp hs
    have hstep : EspStep (Slack.around L) st.weak f.post s t :=
      esp_step_data harm hd hdec hok hu hE hB hop
    exact hstep
  · rw [Bool.not_eq_true] at hd
    left
    cases exec_stack hd hs with
    | push hp hg hesp _ =>
      have hknown : st.unsafety.change_esp = false := by
        refine hok.esp_known (Or.inl ?_)
        rcases hp with hp | hp | hp
        · simp [hp]
        · simp [hp]
        · rw [hp] at ht; cases ht
      obtain ⟨he, hk⟩ := sub_bytes (s.reg .esp) (slotWidth i)
      rw [he] at hg
      rw [hesp, he]
      exact (Slack.around L).sandbox_subset (access_mem hE hu hknown hk hg)
    | pop hp hg hesp _ =>
      have hknown : st.unsafety.change_esp = false := by
        refine hok.esp_known (Or.inl ?_)
        rcases hp with hp | hp <;> simp [hp]
      have hw : ¬ writes i .esp := by
        rcases hp with hp | hp
        · exact hok.esp_popped hp
        · rintro ⟨a, r, hh, -⟩
          rw [hdec.no_operand (Or.inr (Or.inl hp))] at hh
          cases hh
      have hin := (hE.access hu hknown (k := 0) (by decide)).resolve_right (by simpa using hg)
      rw [hesp hw]
      exact (Slack.around L).pop_mem _ (by simpa using hin) _ (Width.bytes_le _)
    | leave hl hg hesp =>
      have hin := ((Slack.around L).mem_or_guard (hB (hok.ebp_known hl))).resolve_right hg
      rw [hesp]
      exact (Slack.around L).pop_mem _ hin _ (Width.bytes_le _)
    | ret hr => rw [hr] at ht; cases ht
    | jump hj => rcases hj with hj | hj <;> rw [hj] at ht <;> cases ht

/-- A transfer is made only where no weakening is set. -/
theorem StackOk.weak_clear (hok : StackOk L st i) (hc : checkInsn L st i = .ok f)
    (hdec : WellDecoded i) (ht : transfers i.type = true) :
    st.unsafety.change_esp = false ∧ st.unsafety.bump_esp = false := by
  by_cases hret : i.type = insn_return → i.args = []
  · obtain ⟨h1, h2, -⟩ := transfer_weak hc hdec ht hret
    exact ⟨h1, h2⟩
  · rw [Classical.not_imp] at hret
    obtain ⟨h1, h2, -⟩ := hok.ret_known hret.1 hret.2
    exact ⟨h1, h2⟩

/-- A return leaves `%esp` near the sandbox. -/
theorem return_near (hok : StackOk L st i) (hr : i.type = insn_return) {b : Word}
    (hb : b ∈ L.sandbox) :
    b + BitVec.ofNat 32 (slotWidth i).bytes + returnBytes i ∈ (Slack.around L).set := by
  have hbytes : (returnBytes i).toNat ≤ 128 := by
    by_cases hargs : i.args = []
    · simp [returnBytes, hargs]
    · exact (hok.ret_known hr hargs).2.2
  have hw := (slotWidth i).bytes_le
  refine ⟨b, hb, ((slotWidth i).bytes + (returnBytes i).toNat : Nat), by omega, ?_⟩
  rw [BitVec.ofInt_natCast, BitVec.ofNat_add, BitVec.ofNat_toNat, BitVec.setWidth_eq,
    BitVec.add_assoc]

/-- A transfer is made only where both pointers are known, and leaves them so. -/
theorem pointers_transfer (hc : checkInsn L st i = .ok f) (hdec : WellDecoded i)
    (hok : StackOk L st i) (hu : st.weak.Ok) (hE : EspInv (Slack.around L) st.weak s)
    (hB : EbpInv (Slack.around L).set st.weak s) (ht : transfers i.type = true)
    (hs : exec L alu i s = some s') :
    s'.reg .esp ∈ (Slack.around L).set ∧ s'.reg .ebp ∈ (Slack.around L).set := by
  obtain ⟨hce, hbe⟩ := hok.weak_clear hc hdec ht
  refine ⟨?_, ebp_transfer hc hdec hok.toFrameOk hB ht hs⟩
  have hd : isData i.type = false := by
    revert ht
    unfold transfers
    split <;> simp_all [isData]
  cases exec_stack hd hs with
  | push _ hg hesp _ =>
    obtain ⟨he, hk⟩ := sub_bytes (s.reg .esp) (slotWidth i)
    rw [he] at hg
    rw [hesp, he]
    exact (Slack.around L).sandbox_subset (access_mem hE hu hce hk hg)
  | pop hp => rcases hp with hp | hp <;> rw [hp] at ht <;> cases ht
  | leave hl => rw [hl] at ht; cases ht
  | ret hr hg hesp _ =>
    have hin := ((Slack.around L).mem_or_guard (hE.mem hu hce hbe)).resolve_right hg
    rw [hesp]
    exact return_near hok hr hin
  | jump _ hreg =>
    rw [hreg]
    exact hE.mem hu hce hbe

theorem throughEsp_classified {ea : X86Ea} (h : throughEsp ea = true) :
    classify_ea ea = EA_ESP_OFFSET ∨ classify_ea ea = EA_ESP_EXACT ∨ classify_ea ea = EA_OTHER := by
  rw [throughEsp, Bool.and_eq_true, beq_iff_eq, beq_iff_eq] at h
  unfold classify_ea
  simp only [h.1, h.2]
  repeat' split
  all_goals simp_all [REGISTER_ESP, REGISTER_EBX, REGISTER_EBP]

/-- A write to `off(%esp)` that is let through is checked against W2, or it is the
mask of the stack top. -/
theorem esp_write_checked {a : X86Op} {ea : X86Ea}
    (h : Arm L st.safety st.unsafety i offset f) (hd : isData i.type = true) (hdec : WellDecoded i)
    (hfpu : i.type ≠ fpu) (hwrite : f.iwrite = false) (hh : i.args.head? = some a)
    (ha : a.data = .expression ea) (hw : a.write = true) (ht : throughEsp ea = true) :
    (classify_ea ea = EA_ESP_OFFSET ∨ classify_ea ea = EA_ESP_EXACT) ∧
      (st.unsafety.change_esp = false ∨ usesStack L i) := by
  have hmem : MemArm L st.safety st.unsafety i ea f →
      (classify_ea ea = EA_ESP_OFFSET ∨ classify_ea ea = EA_ESP_EXACT) ∧
        (st.unsafety.change_esp = false ∨ usesStack L i) := by
    intro hm
    cases hm with
    | esp hea hu _ => exact ⟨hea, Or.inl hu⟩
    | ebx hea | ebp hea | direct hea =>
      rcases throughEsp_classified ht with he | he | he <;> rw [he] at hea <;> cases hea
    | read hr =>
      rw [hdec.compares hr a (List.mem_of_mem_head? hh)] at hw
      cases hw
    | write hf => subst hf; cases hwrite
  cases h with
  | expr a' ea' hargs ha' h =>
    rw [hargs] at hh
    cases hh
    cases ha.symm.trans ha'
    rcases exprFlags_ok h with ⟨he, -⟩ | ⟨he, -⟩ | ⟨-, hm⟩
    · rw [he] at hd; cases hd
    · rw [hdec.multiplies (he.resolve_left hfpu) a hargs] at hw
      cases hw
    · exact hmem hm
  | exprReg a' b ea' hargs ha' hb h =>
    rw [hargs] at hh
    cases hh
    cases ha.symm.trans ha'
    exact hmem (exprRegFlags_ok h)
  | exprImm a' b ea' hargs ha' hb h =>
    rw [hargs] at hh
    cases hh
    cases ha.symm.trans ha'
    rcases exprImmFlags_ok h with ⟨hm, -⟩ | hm
    · refine ⟨Or.inr ?_, Or.inr (Or.inr ⟨a, b, ea, hargs, ha, hm⟩)⟩
      simp only [masksStackTop, decide_eq_true_eq] at hm
      exact hm.1
    · exact hmem hm
  | nullary hargs => rw [hargs] at hh; cases hh
  | relative a' hargs ht' =>
    rw [hargs] at hh
    cases hh
    rw [X86Op.type_expression ha] at ht'
    rcases ht' with ht' | ht' <;> cases ht'
  | offsetReg a' b hargs ha' =>
    rw [hargs] at hh
    cases hh
    rw [X86Op.type_expression ha] at ha'
    cases ha'
  | immediate a' v hargs ha' | register a' r hargs ha' =>
    rw [hargs] at hh
    cases hh
    cases ha.symm.trans ha'
  | regImm a' b r v hargs ha' | regReg a' b r q hargs ha' | regExpr a' b r hargs ha'
  | regOffset a' b r hargs ha' =>
    rw [hargs] at hh
    cases hh
    cases ha.symm.trans ha'
  | regRegReg a' b c r hargs ha' | regExprReg a' b c r hargs ha' =>
    rw [hargs] at hh
    cases hh
    cases ha.symm.trans ha'

/-- A jump that is let through has no memory operand. -/
theorem jump_operand {a : X86Op} (h : Arm L st.safety st.unsafety i offset f)
    (ht : i.type = insn_jmp ∨ i.type = insn_jcc) (hargs : i.args = [a]) :
    a.type ≠ .op_expression := by
  intro ha
  obtain ⟨ea, hea⟩ := X86Op.data_of_expression ha
  cases h with
  | expr a' ea' hargs' _ h =>
    rcases exprFlags_ok h with ⟨he, -⟩ | ⟨he, -⟩ | ⟨he, -⟩
    · rcases ht with ht | ht <;> rw [ht] at he <;> cases he
    · rcases ht with ht | ht <;> rw [ht] at he <;> rcases he with he | he | he <;> cases he
    · rcases ht with ht | ht <;> simp [ht] at he
  | nullary hargs' => rw [hargs] at hargs'; cases hargs'
  | relative a' hargs' ht' =>
    rw [hargs] at hargs'
    cases hargs'
    rw [ha] at ht'
    rcases ht' with ht' | ht' <;> cases ht'
  | register a' r hargs' ha' | immediate a' v hargs' ha' =>
    rw [hargs] at hargs'
    cases hargs'
    cases hea.symm.trans ha'
  | regImm _ _ _ _ ha | regReg _ _ _ _ ha | regExpr _ _ _ ha | exprReg _ _ _ ha
  | exprImm _ _ _ ha | offsetReg _ _ ha | regOffset _ _ _ ha | regRegReg _ _ _ _ ha
  | regExprReg _ _ _ _ ha =>
    rw [hargs] at ha
    cases ha

/-- A checked access through `%esp` reaches the sandbox or a guard zone. -/
theorem access_safe (hc : checkInsn L st i = .ok f) (hdec : WellDecoded i) (hfpu : i.type ≠ fpu)
    (hok : StackOk L st i) (hu : st.weak.Ok) (hE : EspInv (Slack.around L) st.weak s)
    (hB : EbpInv (Slack.around L).set st.weak s) {x : Word} (hx : espAccess i s = some x) :
    x ∈ L.sandbox ∨ x ∈ L.guardZone := by
  have hbelow : st.unsafety.change_esp = false →
      s.reg .esp - BitVec.ofNat 32 (slotWidth i).bytes ∈ L.sandbox ∨
        s.reg .esp - BitVec.ofNat 32 (slotWidth i).bytes ∈ L.guardZone := by
    intro hknown
    obtain ⟨he, hk⟩ := sub_bytes (s.reg .esp) (slotWidth i)
    rw [he]
    exact hE.access hu hknown hk
  have hat : st.unsafety.change_esp = false → s.reg .esp ∈ L.sandbox ∨ s.reg .esp ∈ L.guardZone :=
    fun hknown => by simpa using hE.access hu hknown (k := 0) (by decide)
  by_cases hd : isData i.type = true
  · obtain ⟨a, ea, hh, hdata, hw, ht, rfl⟩ := espAccess_data hd hx
    obtain ⟨-, ho, hflags⟩ := checkInsn_ok hc
    obtain ⟨hea, hknown⟩ := esp_write_checked (operandFlags_ok ho) hd hdec hfpu
      (checkFlags_none hflags).2.1 hh hdata hw ht
    obtain ⟨k, hk, haddr⟩ := classify_esp hea
    rw [haddr]
    exact hE.access hu (hknown.elim id hok.esp_known) (by omega)
  · unfold espAccess at hx
    split at hx
    case h_1 ht => cases hx; exact hbelow (hok.esp_known (Or.inl (by simp [ht])))
    case h_2 ht => cases hx; exact hbelow (hok.esp_known (Or.inl (by simp [ht])))
    case h_3 ht =>
      cases hx
      exact hbelow (hok.weak_clear hc hdec (by rw [ht]; rfl)).1
    case h_4 ht => cases hx; exact hat (hok.esp_known (Or.inl (by simp [ht])))
    case h_5 ht => cases hx; exact hat (hok.esp_known (Or.inl (by simp [ht])))
    case h_6 ht =>
      cases hx
      exact hat (hok.weak_clear hc hdec (by rw [ht]; rfl)).1
    case h_7 ht => cases hx; exact (Slack.around L).mem_or_guard (hB (hok.ebp_known ht))
    case h_8 =>
      have ht : i.type = insn_jmp ∨ i.type = insn_jcc := by
        revert hd
        unfold isData
        split <;> simp_all
      obtain ⟨a, hargs⟩ := hdec.transfer_operand (by tauto)
      rw [hargs] at hx
      simp only at hx
      split at hx
      · rename_i ea hea
        exact absurd (jump_operand (operandFlags_ok (checkInsn_ok hc).2.1) ht hargs)
          (by rw [X86Op.type_expression hea]; decide)
      · cases hx

end Steps

section StackRuns

variable {L : Layout} {x86_disasm : Disasm} {image : Image} {es : List Examined}
variable {alu : Alu X86Insn} {s s' : Cpu}

/-- In every run whose steps keep track of both pointers, every access to memory
through `%esp` falls into the data region, the zero-tag region or a guard zone. -/
theorem stack_accesses_safe (h : verify L x86_disasm image = .ok es)
    (hlen : image.length ≤ L.code_size) (hkeep : KeepsInside x86_disasm)
    (hdec : ∀ v ∈ es, WellDecoded v.item) (hfpu : ∀ v ∈ es, v.item.type ≠ fpu)
    (hesp : s.reg .esp ∈ L.sandbox) (hebp : s.reg .ebp ∈ L.sandbox)
    (hrun : RunsTo VState.offset (loc L) (exec L alu) es
      (fun v _ => StackOk L v.before v.item) s s') :
    ∀ v, Stands VState.offset (loc L) es s' v → StackOk L v.before v.item →
      ∀ x, espAccess v.item s' = some x → x ∈ L.sandbox ∨ x ∈ L.guardZone := by
  obtain ⟨t, hp, -⟩ := verify_pass h
  have hweak : ∀ v ∈ es, v.before.weak.Ok := fun v hv =>
    ((hp.invariant (I := fun st => st.weak.Ok) Weak.ok_initial (by
      rintro a i b hab ha
      obtain ⟨n, f, -, -, -, -, rfl⟩ := loopBody_ok hab.2
      rw [weak_updateState]
      exact ha.after _)).1 v hv).1
  have hsub := (Slack.around L).sandbox_subset
  have hinv : ∀ v, Stands VState.offset (loc L) es s' v →
      EspInv (Slack.around L) v.before.weak s' ∧
        EbpInv (Slack.around L).set v.before.weak s' := by
    refine hp.run_invariant (offset_pos L x86_disasm image)
      (fun st m => EspInv (Slack.around L) st.weak m ∧ EbpInv (Slack.around L).set st.weak m)
      (fun v _ => ⟨.of_mem (hsub hesp), fun _ => hsub hebp⟩) ?_ hrun
    intro v a b hv hok hI hs
    obtain ⟨f, hc, hafter⟩ := weak_after hp hv.1
    have hd := hdec v hv.1
    have hu := hweak v hv.1
    by_cases ht : transfers v.item.type = true
    · obtain ⟨h1, h2⟩ := pointers_transfer hc hd hok hu hI.1 hI.2 ht hs
      exact Or.inr fun w _ => ⟨.of_mem h1, fun _ => h2⟩
    · rw [Bool.not_eq_true] at ht
      refine Or.inl ⟨falls_to_next hp hlen hkeep hv ht hs, ?_⟩
      rw [hafter]
      have hknown : v.before.unsafety.change_esp = false → v.before.unsafety.bump_esp = false →
          a.reg .esp ∈ (Slack.around L).set := fun h1 h2 => hI.1.mem hu h1 h2
      exact ⟨hI.1.after (esp_step hc hd hok hu hI.1 hI.2 ht hs),
        hI.2.after (ebp_step hc hd hok.toFrameOk hsub hknown hI.2 ht hs)⟩
  intro v hv hok x hx
  obtain ⟨f, hc, -⟩ := weak_after hp hv.1
  exact access_safe hc (hdec v hv.1) (hfpu v hv.1) hok (hweak v hv.1) (hinv v hv).1 (hinv v hv).2 hx

end StackRuns

/-- `mov $0x30000000,%esp`, and a push behind it. -/
def stackElsewhere : Image := [0xbc, 0, 0, 0, 0x30, 0x50]

def wildEsp : Cpu := (firstStep stackElsewhere (entryState classic)).get rfl

theorem stack_access_outside :
    ¬ ∀ (L : Layout) (x86_disasm : Disasm) (image : Image) (es : List Examined) (s s' : Cpu),
      verify L x86_disasm image = .ok es → image.length ≤ L.code_size → KeepsInside x86_disasm →
      (∀ v ∈ es, WellDecoded v.item) → (∀ v ∈ es, v.item.type ≠ fpu) →
      s.reg .esp ∈ L.sandbox → s.reg .ebp ∈ L.sandbox →
      RunsTo VState.offset (loc L) (exec L (Alu.idle _)) es (fun _ _ => True) s s' →
      ∀ v, Stands VState.offset (loc L) es s' v → ∀ x, espAccess v.item s' = some x →
        x ∈ L.sandbox ∨ x ∈ L.guardZone := by
  intro h
  have hv : verify classic disassemble stackElsewhere = .ok (examined stackElsewhere) := rfl
  have hfirst : firstStep stackElsewhere (entryState classic) = some wildEsp :=
    (Option.some_get rfl).symm
  have hrun := runsTo_first (fun _ _ => True) hfirst (by
    rintro v ⟨⟩
    exact ⟨by decide, trivial⟩)
  have hlast : Stands VState.offset (loc classic) (examined stackElsewhere) wildEsp
      ((examined stackElsewhere).getLast (by decide)) := ⟨List.getLast_mem _, by decide⟩
  rcases h classic disassemble stackElsewhere _ _ wildEsp hv (by decide) disassemble_keepsInside
    (fun v hm => examined_wellDecoded hv hm) (by decide) (by decide) (by decide) hrun _ hlast
    0x2ffffffc (by decide) with hin | hin <;> revert hin <;> decide

/-- Two pushes. -/
def twoPushes : Image := [0x50, 0x50]

theorem twoPushes_safe : ∃ s' x, firstStep twoPushes (entryState classic) = some s' ∧
    espAccess ((examined twoPushes).getLast (by decide)).item s' = some x ∧
    (x ∈ classic.sandbox ∨ x ∈ classic.guardZone) := by
  have hv : verify classic disassemble twoPushes = .ok (examined twoPushes) := rfl
  have hfirst : firstStep twoPushes (entryState classic) =
    some ((firstStep twoPushes (entryState classic)).get rfl) := (Option.some_get rfl).symm
  have hok : ∀ v ∈ examined twoPushes, StackOk classic v.before v.item := by
    have hall : ∀ v ∈ examined twoPushes, v.item = ((examined twoPushes).head (by decide)).item ∧
        v.before.unsafety.change_esp = false := by decide
    intro v hm
    obtain ⟨he, hclear⟩ := hall v hm
    have hnot : ∀ q, ¬ writes v.item q := by
      rintro q ⟨a, r, hh, hw, -⟩
      rw [he] at hh
      cases hh
      cases hw
    refine ⟨⟨fun hw => absurd hw (hnot _), ?_, ?_⟩, fun hw => absurd hw (hnot _),
      fun _ => hnot _, fun _ => hclear, ?_, ?_⟩
    · rintro ⟨ht, -⟩
      rw [he] at ht
      cases ht
    · intro ht
      rw [he] at ht
      cases ht
    · intro ht
      rw [he] at ht
      cases ht
    · intro ht
      rw [he] at ht
      cases ht
  have hrun := runsTo_first (fun v _ => StackOk classic v.before v.item) hfirst (by
    rintro v ⟨⟩
    exact ⟨by decide, hok _ List.mem_cons_self⟩)
  have hlast : Stands VState.offset (loc classic) (examined twoPushes)
      ((firstStep twoPushes (entryState classic)).get rfl)
      ((examined twoPushes).getLast (by decide)) := ⟨List.getLast_mem _, by decide⟩
  exact ⟨_, 0x20fffff0, hfirst, by decide, stack_accesses_safe hv (by decide)
    disassemble_keepsInside (fun v hm => examined_wellDecoded hv hm) (by decide) (by decide)
    (by decide) hrun _ hlast (hok _ (List.getLast_mem _)) _ (by decide)⟩

end Pittsfield.Loader
