import Pittsfield.Loader.Masking
import Pittsfield.Loader.Stubs
import Pittsfield.Region.Masks

/-!
# A verified module as a whole

What acceptance by `verify()` means for a processor that fetches its instructions from
memory: the bytes outside the data region, the zero-tag region and the guard zones keep
their values, the code among them, so that it goes on executing what was verified, and
control leaves the examined instructions only for a chunk start.
-/

namespace Pittsfield.Loader

open Pittsfield.Foundation
open Pittsfield.Region
open Pittsfield.Machine
open InsnType OpType EffAddrType

/-- The operands in memory that an instruction is let through to write. -/
inductive Writable (L : Layout) (st : VState) (i : X86Insn) (o : X86Op) : Prop
  | ebx {ea : X86Ea} (ho : o.data = .expression ea) (hea : classify_ea ea = EA_EBX_EXACT)
    (hneeds : Needs i .ebx_data)
  | ebp {ea : X86Ea} (ho : o.data = .expression ea) (hea : classify_ea ea = EA_EBP_OFFSET)
    (hu : st.unsafety.change_ebp = false)
  | esp {ea : X86Ea} (ho : o.data = .expression ea)
    (hea : classify_ea ea = EA_ESP_OFFSET ∨ classify_ea ea = EA_ESP_EXACT)
    (hu : st.unsafety.change_esp = false ∨ usesStack L i)
  | direct {ea : X86Ea} (ho : o.data = .expression ea) (hea : classify_ea ea = EA_DIRECT)
    (hd : inData L ea.disp.disp = true)
  | offset {d : Word} (ho : o.data = .offset d) (hd : inData L d = true)

section Writes

variable {L : Layout} {st : VState} {i : X86Insn} {offset : Nat} {f : Flags} {a : X86Op}
variable {alu : Alu X86Insn} {s s' c : Cpu} {x y : Word}

theorem MemArm.writable {ea : X86Ea} (h : MemArm L st.safety st.unsafety i ea f)
    (hdec : WellDecoded i) (hwrite : f.iwrite = false) (hh : i.args.head? = some a)
    (ha : a.data = .expression ea) (hw : a.write = true)
    (hlen : i.args.length = 1 → i.type ∈ [insn_inc, insn_dec, insn_not, insn_neg, insn_movcc]) :
    Writable L st i a := by
  cases h with
  | ebx hea hs hf =>
    refine .ebx ha hea ⟨a, ea, hh, ha, hea, ?_⟩
    split
    · rename_i hone
      exact hlen hone
    · intro hmem
      have hcmp : i.type = insn_cmp ∨ i.type = insn_test := by simpa using hmem
      rw [hdec.compares hcmp a (List.mem_of_mem_head? hh)] at hw
      cases hw
  | ebp hea hu hf => exact .ebp ha hea hu
  | esp hea hu hf => exact .esp ha hea (Or.inl hu)
  | direct hea hd hf => exact .direct ha hea hd
  | read ht hf =>
    rw [hdec.compares ht a (List.mem_of_mem_head? hh)] at hw
    cases hw
  | write hf =>
    subst hf
    cases hwrite

/-- What an accepted data instruction writes in memory is writable. -/
theorem Arm.writable (h : Arm L st.safety st.unsafety i offset f) (hd : isData i.type = true)
    (hdec : WellDecoded i) (hfpu : i.type ≠ fpu) (hwrite : f.iwrite = false)
    (hh : i.args.head? = some a) (hw : a.write = true) (hx : operandAddress s a = some x) :
    Writable L st i a := by
  have hnone : ∀ {r : Reg}, a.data = .register r → Writable L st i a := by
    intro r ha
    rw [operandAddress, ha] at hx
    cases hx
  cases h with
  | nullary hargs =>
    rw [hargs] at hh
    cases hh
  | relative a' hargs ht h =>
    rcases (relativeFlags_ok h).2 with ⟨he | he, -⟩ | ⟨he, -⟩ <;> rw [he] at hd <;> cases hd
  | immediate a' v hargs ha h =>
    rcases (immediateFlags_ok h).1 with he | he <;> rw [he] at hd <;> cases hd
  | register a' r hargs ha | regImm a' b r v hargs ha | regReg a' b r q hargs ha
  | regExpr a' b r hargs ha | regOffset a' b r hargs ha =>
    rw [hargs] at hh
    cases hh
    exact hnone ha
  | regRegReg a' b c r hargs ha | regExprReg a' b c r hargs ha =>
    rw [hargs] at hh
    cases hh
    exact hnone ha
  | expr a' ea hargs ha h =>
    rw [hargs] at hh
    cases hh
    rcases exprFlags_ok h with ⟨he, -⟩ | ⟨he, -⟩ | ⟨he, hm⟩
    · rw [he] at hd
      cases hd
    · rw [hdec.multiplies (he.resolve_left hfpu) a hargs] at hw
      cases hw
    · exact hm.writable hdec hwrite (by rw [hargs]; rfl) ha hw fun _ => he
  | exprReg a' b ea hargs ha hb h =>
    rw [hargs] at hh
    cases hh
    refine (exprRegFlags_ok h).writable hdec hwrite (by rw [hargs]; rfl) ha hw fun hone => ?_
    rw [hargs] at hone
    cases hone
  | exprImm a' b ea hargs ha hb h =>
    rw [hargs] at hh
    cases hh
    rcases exprImmFlags_ok h with ⟨hm, -⟩ | hm
    · refine .esp ha (Or.inr ?_) (Or.inr (Or.inr ⟨a, b, ea, hargs, ha, hm⟩))
      simp only [masksStackTop, decide_eq_true_eq] at hm
      exact hm.1
    · refine hm.writable hdec hwrite (by rw [hargs]; rfl) ha hw fun hone => ?_
      rw [hargs] at hone
      cases hone
  | offsetReg a' b hargs ha hb h =>
    rw [hargs] at hh
    cases hh
    obtain ⟨d, hdata⟩ : ∃ d, a.data = .offset d := by
      simp only [X86Op.type] at ha
      cases hdata : a.data with
      | offset d => exact ⟨d, rfl⟩
      | _ => simp [hdata] at ha
    obtain ⟨-, hin, -⟩ := offsetRegFlags_ok h
    refine .offset hdata ?_
    rwa [X86Op.offset, hdata] at hin

/-- A pop that is let through goes to a register. -/
theorem pop_operand (h : Arm L st.safety st.unsafety i offset f) (ht : i.type = insn_pop)
    (hargs : i.args = [a]) : operandAddress s a = none := by
  cases h with
  | register a' r hargs' ha | immediate a' v hargs' ha =>
    rw [hargs] at hargs'
    cases hargs'
    rw [operandAddress, ha]
  | relative a' hargs' _ h =>
    rcases (relativeFlags_ok h).2 with ⟨he | he, -⟩ | ⟨he, -⟩ <;> rw [ht] at he <;> cases he
  | expr a' ea hargs' ha h =>
    rcases exprFlags_ok h with ⟨he, -⟩ | ⟨he, -⟩ | ⟨he, -⟩
    · rw [ht] at he; cases he
    · rcases he with he | he | he <;> rw [ht] at he <;> cases he
    · simp [ht] at he
  | nullary ha | regImm _ _ _ _ ha | regReg _ _ _ _ ha | regExpr _ _ _ ha | exprReg _ _ _ ha
  | exprImm _ _ _ ha | offsetReg _ _ ha | regOffset _ _ _ ha | regRegReg _ _ _ _ ha
  | regExprReg _ _ _ _ ha =>
    rw [hargs] at ha
    cases ha

theorem writeTo_changes {address : Option Word} {v : Word}
    (h : writeTo L s address a v = some c) (hx : c.mem x ≠ s.mem x) :
    ∃ y, address = some y ∧ y ∉ L.guardZone ∧ a.write = true ∧
      ∃ k < 4, x = y + BitVec.ofNat 32 k := by
  unfold writeTo at h
  split at h
  · rename_i y
    rcases ite_eq_iff.mp h with ⟨-, h⟩ | ⟨hg, h⟩
    · cases h
    obtain rfl := Option.some.inj h
    cases hw : a.write with
    | true =>
      rw [hw, if_pos rfl] at hx
      exact ⟨y, rfl, hg, rfl, Cpu.store_changes hx⟩
    | false =>
      rw [hw, if_neg (by decide)] at hx
      exact absurd rfl hx
  · split at h <;> obtain rfl := Option.some.inj h
    · split at hx
      · rw [Cpu.writeReg_mem] at hx
        exact absurd rfl hx
      · exact absurd rfl hx
    · exact absurd rfl hx

/-- The bytes that an instruction changes: below the stack pointer for the pushes, and at
its first operand for everything else. -/
theorem exec_changes (h : exec L alu i s = some s') (hx : s'.mem x ≠ s.mem x) :
    (i.type ∈ [insn_push, insn_pushflags, insn_call] ∧
        s.reg .esp - BitVec.ofNat 32 (slotWidth i).bytes ∉ L.guardZone ∧
        ∃ k < 4, x = s.reg .esp - BitVec.ofNat 32 (slotWidth i).bytes + BitVec.ofNat 32 k) ∨
      ∃ a c y, i.args.head? = some a ∧ a.write = true ∧ operandAddress c a = some y ∧
        (isData i.type = true ∧ c = s ∨ i.type = insn_pop) ∧ y ∉ L.guardZone ∧
        ∃ k < 4, x = y + BitVec.ofNat 32 k := by
  have hpush : ∀ {v : Word} {a : Word}, (s.push L (slotWidth i) v).map (·.jump a) = some s' →
      s.reg .esp - BitVec.ofNat 32 (slotWidth i).bytes ∉ L.guardZone ∧
        ∃ k < 4, x = s.reg .esp - BitVec.ofNat 32 (slotWidth i).bytes + BitVec.ofNat 32 k := by
    intro v a hm
    obtain ⟨t, hp, rfl⟩ := Option.map_eq_some_iff.mp hm
    exact Cpu.push_changes hp hx
  by_cases hd : isData i.type = true
  · rw [exec_data hd] at h
    obtain ⟨t, hop, rfl⟩ := Option.map_eq_some_iff.mp h
    unfold dataOp at hop
    split at hop
    · obtain rfl := Option.some.inj hop
      exact absurd rfl hx
    · rename_i a rest hargs
      obtain ⟨y, hy, hg, hw, hk⟩ := writeTo_changes hop hx
      exact Or.inr ⟨a, s, y, by rw [hargs]; rfl, hw, hy, Or.inl ⟨hd, rfl⟩, hg, hk⟩
  unfold exec at h
  simp only at h
  split at h
  case h_1 ht => exact Or.inl ⟨by simp [ht], hpush h⟩
  case h_2 ht => exact Or.inl ⟨by simp [ht], hpush h⟩
  case h_6 ht => exact Or.inl ⟨by simp [ht], hpush h⟩
  case h_3 ht =>
    obtain ⟨⟨v, t⟩, hpop, h⟩ := Option.bind_eq_some_iff.mp h
    obtain ⟨-, -, rfl⟩ := Cpu.pop_some hpop
    simp only at h
    split at h
    · obtain rfl := Option.some.inj h
      exact absurd rfl hx
    · rename_i a rest hargs
      obtain ⟨t', hw, rfl⟩ := Option.map_eq_some_iff.mp h
      obtain ⟨y, hy, hg, hwr, hk⟩ := writeTo_changes hw hx
      exact Or.inr ⟨a, _, y, by rw [hargs]; rfl, hwr, hy, Or.inr ht, hg, hk⟩
  case h_4 | h_7 =>
    obtain ⟨⟨v, t⟩, hpop, rfl⟩ := Option.map_eq_some_iff.mp h
    obtain ⟨-, -, rfl⟩ := Cpu.pop_some hpop
    exact absurd rfl hx
  case h_5 =>
    obtain ⟨⟨v, t⟩, hpop, rfl⟩ := Option.map_eq_some_iff.mp h
    obtain ⟨-, -, rfl⟩ := Cpu.pop_some hpop
    simp at hx
  case h_8 | h_9 =>
    obtain rfl := Option.some.inj h
    exact absurd rfl hx
  case h_10 h1 h2 h3 h4 h5 h6 h7 h8 h9 =>
    exfalso
    revert hd
    unfold isData
    split <;> simp_all

end Writes

section Masks

variable {L : Layout} {i : X86Insn} {k : Strength} {ea : X86Ea}
variable {alu : Alu X86Insn} {s s' : Cpu}

/-- What a safety bit says of the processor. -/
def Masked (L : Layout) (s : Cpu) : Strength → Prop
  | .ebx_data => ∃ x, s.reg .ebx = x &&& L.data_mask
  | .ebx_code => ∃ x, s.reg .ebx = x &&& L.jump_mask
  | .stack_top => ∃ x, s.load .dword (s.reg .esp) = x &&& L.jump_mask

/-- A base register alone addresses what it points to. -/
theorem effectiveAddress_exact {r : Reg32} (hb : regId ea.base = reg32Id r)
    (hi : regId ea.index = 0) (hd : ea.disp.disp_size = 0) (s : Cpu) :
    effectiveAddress s ea = s.reg r := by
  have hzero : ea.disp.disp = 0 := by
    cases hdisp : ea.disp with
    | none => rfl
    | disp8 d | disp16 d | disp32 d => rw [hdisp] at hd; cases hd
  rw [effectiveAddress_base hb hi, hzero]
  exact BitVec.add_zero _

theorem classify_ebx_exact (h : classify_ea ea = EA_EBX_EXACT) (s : Cpu) :
    effectiveAddress s ea = s.reg .ebx := by
  unfold classify_ea at h
  split at h
  · rename_i hc
    exact effectiveAddress_exact hc.1 hc.2.1 hc.2.2 s
  · repeat' split at h
    all_goals cases h

theorem classify_esp_exact (h : classify_ea ea = EA_ESP_EXACT) (s : Cpu) :
    effectiveAddress s ea = s.reg .esp := by
  unfold classify_ea at h
  split at h
  · cases h
  split at h
  · rename_i hc
    exact effectiveAddress_exact hc.1 hc.2.1 hc.2.2 s
  · repeat' split at h
    all_goals cases h

theorem classify_direct (h : classify_ea ea = EA_DIRECT) (s : Cpu) :
    effectiveAddress s ea = ea.disp.disp := by
  have hea : regId ea.base = 0 ∧ regId ea.index = 0 := by
    unfold classify_ea at h
    repeat' split at h
    all_goals simp_all
  simp [effectiveAddress, reg_of_id hea.1, reg_of_id hea.2]

theorem masksEbx_result {mask : Word} (h : masksEbx mask i) (hdec : WellDecoded i)
    (hs : exec L alu i s = some s') : ∃ x, s'.reg .ebx = x &&& mask := by
  obtain ⟨ht, a, b, hargs, ha, hb, hwidth, hv⟩ := h
  rw [exec_data (by rw [ht]; rfl)] at hs
  obtain ⟨t, hop, rfl⟩ := Option.map_eq_some_iff.mp hs
  have hhead : i.args.head? = some a := by rw [hargs]; rfl
  have himm : immediateValue b = mask := by simp [immediateValue, hwidth, hv]
  refine ⟨currentValue alu i s a, ?_⟩
  rw [Cpu.jump_reg, dataOp_write hop hhead ha (hdec.moves (Or.inr ht) a hhead)]
  simp [dataResult, ht, hargs, hb, himm]

/-- The mask of the stack top leaves a masked word there, if it masks all four bytes. -/
theorem stack_top_result (h : IsMask L i .stack_top) (hdec : WellDecoded i)
    (hwide : ∀ a, i.args.head? = some a → operandWidth a = .dword)
    (hs : exec L alu i s = some s') : Masked L s' .stack_top := by
  obtain ⟨a, b, ea, hargs, ha, hb, hm⟩ := h
  simp only [masksStackTop, decide_eq_true_eq] at hm
  obtain ⟨hea, ht, hwidth, hv⟩ := hm
  rw [exec_data (by rw [ht]; rfl)] at hs
  obtain ⟨t, hop, rfl⟩ := Option.map_eq_some_iff.mp hs
  have hhead : i.args.head? = some a := by rw [hargs]; rfl
  have himm : immediateValue b = L.jump_mask := by simp [immediateValue, hwidth, hv]
  have hres : dataResult alu i s = currentValue alu i s a &&& L.jump_mask := by
    simp [dataResult, ht, hargs, hb, himm]
  have hdata : operandAddress s a = some (s.reg .esp) := by
    rw [← classify_esp_exact hea s]
    simp only [operandAddress, ha]
  simp only [dataOp, hargs, hdata, writeTo] at hop
  rw [hdec.moves (Or.inr ht) a hhead, hwide a hhead, hres] at hop
  split at hop
  · cases hop
  obtain rfl := Option.some.inj hop
  exact ⟨currentValue alu i s a, by simp⟩

/-- A mask makes good what its bit says. -/
theorem mask_step (h : IsMask L i k) (hdec : WellDecoded i)
    (hwide : IsMask L i .stack_top → ∀ a, i.args.head? = some a → operandWidth a = .dword)
    (hs : exec L alu i s = some s') : Masked L s' k := by
  cases k with
  | ebx_data => exact masksEbx_result h hdec hs
  | ebx_code => exact masksEbx_result h hdec hs
  | stack_top => exact stack_top_result h hdec (hwide h) hs

/-- A `popf` leaves `%ebx` alone. -/
theorem popf_step (ht : i.type = insn_popflags) (hk : k.outlivesPopf = true)
    (hs : exec L alu i s = some s') (h : Masked L s k) : Masked L s' k := by
  have hebx : s'.reg .ebx = s.reg .ebx := by
    simp only [exec, ht] at hs
    obtain ⟨⟨v, t⟩, hpop, rfl⟩ := Option.map_eq_some_iff.mp hs
    obtain ⟨-, -, rfl⟩ := Cpu.pop_some hpop
    rw [Cpu.jump_reg, Cpu.setFlags_reg, Cpu.setReg_other _ _ (by decide)]
  cases k with
  | ebx_data => rwa [Masked, hebx]
  | ebx_code => rwa [Masked, hebx]
  | stack_top => cases hk

end Masks

section Control

variable {g : Settings} {sz : Size} {x86_disasm : Disasm} {image : Image} {es : List Examined}
variable {alu : Alu X86Insn} {s s' : Cpu} {t : VState} {v : Examined}

/-- A load of two bytes is the low half of a load of four. -/
theorem load_word (s : Cpu) (a : Word) : s.load .word a = s.load .dword a &&& 0xffff := by
  simp only [Cpu.load, Width.bytes, Cpu.bytesAt]
  generalize s.mem a = low, s.mem (a + 1) = high
  apply BitVec.eq_of_getLsbD_eq
  intro k hk
  have hones : (0xffff : Word).getLsbD k = decide (k < 16) := by
    rw [show (0xffff : Word) = BitVec.ofNat 32 (2 ^ 16 - 1) from rfl, BitVec.getLsbD_ofNat,
      Nat.testBit_two_pow_sub_one]
    simp [hk]
  simp only [BitVec.getLsbD_or, BitVec.getLsbD_and, BitVec.getLsbD_shiftLeft, hones,
    BitVec.getLsbD_setWidth]
  by_cases h8 : k < 8
  · simp [h8, hk, show k < 16 by omega]
  by_cases h16 : k < 16
  · simp [h8, h16, hk, show k - 8 < 8 by omega]
  · simp [h8, h16, BitVec.getLsbD_of_ge low k (by omega), BitVec.getLsbD_of_ge high (k - 8) (by omega)]

theorem truncated_chunkStart {a : Word} (h : (compute_sizes g sz).chunk_size ∣ a.toNat) :
    ChunkStart g sz (a &&& 0xffff) := by
  have hlow : (a &&& 0xffff).toNat = a.toNat % 2 ^ 16 := by
    rw [BitVec.toNat_and]
    exact Nat.and_two_pow_sub_one_eq_mod _ 16
  have hdvd : (compute_sizes g sz).chunk_size ∣ 2 ^ 16 := by
    rw [(compute_sizes g sz).chunk_eq]
    refine pow_dvd_pow 2 ?_
    show g.log_chunk_size ≤ 16
    rcases g.supported with hl | hl <;> omega
  have hsize : (compute_sizes g sz).code_size = 2 ^ 24 := by
    show 1 <<< (sizes sz).log_code_size = _
    cases sz <;> decide
  constructor
  · rw [hlow]
    exact (Nat.dvd_mod_iff hdvd).mpr h
  · intro _
    refine Or.inr ⟨Nat.zero_le _, ?_⟩
    rw [hlow, hsize]
    have hlt := Nat.mod_lt a.toNat (show 2 ^ 16 > 0 by decide)
    omega

/-- Where a jump or a call leads that is made to an aligned address. -/
theorem transfer_lands {x : Word} (h : ChunkStart g sz x) (i : X86Insn) :
    ChunkStart g sz (if i.op_size = 2 then x &&& 0xffff else x) := by
  split
  · exact truncated_chunkStart h.aligned
  · exact h

/-- The literal target that `verify()` computes is the one that the processor jumps to. -/
theorem relative_lands {i : X86Insn} {a : X86Op} {offset : Nat} {f : Flags}
    (hloc : loc (compute_sizes g sz) s = some offset) (hargs : i.args = [a])
    (ha : a.type = op_relative_near ∨ a.type = op_relative_far)
    (h : relativeFlags (compute_sizes g sz) i offset a = .ok f) :
    ChunkStart g sz (transferTarget alu i s) := by
  obtain ⟨⟨hd, hlo, hhi⟩, -⟩ := relativeFlags_ok h
  have hstart : ChunkStart g sz (relativeTarget (compute_sizes g sz) i offset a.data) :=
    ⟨hd, fun _ => Or.inl ⟨hlo, hhi⟩⟩
  have hnext : s.eip = BitVec.ofNat 32 (compute_sizes g sz).code_start + BitVec.ofNat 32 offset := by
    rw [← BitVec.ofNat_add]
    exact eip_of_loc hloc
  have htarget := transfer_lands hstart i
  simp only [transferTarget, hargs]
  simp only [relativeTarget, ← hnext] at htarget
  cases hdata : a.data with
  | relative_near d | relative_far d =>
    rw [hdata] at htarget
    exact htarget
  | _ => simp [X86Op.type, hdata] at ha

/-- A conditional jump has a literal target. -/
theorem jcc_relative {L : Layout} {st : VState} {i : X86Insn} {offset : Nat} {f : Flags}
    (h : Arm L st.safety st.unsafety i offset f) (hdec : WellDecoded i) (ht : i.type = insn_jcc) :
    ∃ a, i.args = [a] ∧ (a.type = op_relative_near ∨ a.type = op_relative_far) := by
  obtain ⟨a, hargs⟩ := hdec.transfer_operand (Or.inr (Or.inr ht))
  cases h with
  | relative a' hargs' ha => exact ⟨a', hargs', ha⟩
  | register a' r hargs' ha h =>
    rcases registerFlags_ok h with ⟨he, -⟩ | ⟨he, -⟩ | ⟨he, -⟩ | ⟨he, -⟩
    · rw [ht] at he; cases he
    · rw [ht] at he; cases he
    · rcases he with he | he <;> rw [ht] at he <;> cases he
    · rw [ht] at he; cases he
  | immediate a' v hargs' ha h =>
    rcases (immediateFlags_ok h).1 with he | he <;> rw [ht] at he <;> cases he
  | expr a' ea hargs' ha h =>
    rcases exprFlags_ok h with ⟨he, -⟩ | ⟨he, -⟩ | ⟨he, -⟩
    · rw [ht] at he; cases he
    · rcases he with he | he | he <;> rw [ht] at he <;> cases he
    · simp [ht] at he
  | nullary ha | regImm _ _ _ _ ha | regReg _ _ _ _ ha | regExpr _ _ _ ha | exprReg _ _ _ ha
  | exprImm _ _ _ ha | offsetReg _ _ ha | regOffset _ _ _ ha | regRegReg _ _ _ _ ha
  | regExprReg _ _ _ _ ha =>
    rw [hargs] at ha
    cases ha

section

variable (hlen : image.length ≤ (compute_sizes g sz).code_size) (hkeep : KeepsInside x86_disasm)
variable (hp : Pass (Examines (compute_sizes g sz) x86_disasm image) {} es t)

include hp in
/-- The jumps and calls lead to chunk starts, where the masks make good what their bits say. -/
theorem target_lands (hv : Stands VState.offset (loc (compute_sizes g sz)) es s v)
    (hdec : WellDecoded v.item)
    (hmasked : ∀ k, Needs v.item k → Masked (compute_sizes g sz) s k)
    (ht : v.item.type = insn_jmp ∨ v.item.type = insn_call ∨ v.item.type = insn_jcc) :
    ChunkStart g sz (transferTarget alu v.item s) := by
  obtain ⟨f, hc, -⟩ := weak_after hp hv.1
  have ho := (checkInsn_ok hc).2.1
  by_cases hrel : ∃ a, v.item.args = [a] ∧ (a.type = op_relative_near ∨ a.type = op_relative_far)
  · obtain ⟨a, hargs, ha⟩ := hrel
    rw [operandFlags_relative hargs ha] at ho
    exact relative_lands hv.2 hargs ha ho
  have hind : v.item.type = insn_jmp ∨ v.item.type = insn_call := by
    rcases ht with ht | ht | ht
    · exact Or.inl ht
    · exact Or.inr ht
    · exact absurd (jcc_relative (operandFlags_ok ho) hdec ht) hrel
  obtain ⟨b, hargs⟩ := hdec.transfer_operand ht
  have hnoret : v.item.type ≠ insn_return := by
    intro hr
    rcases hind with hi | hi <;> rw [hr] at hi <;> cases hi
  have hmem : v.item.type ∈ [insn_jmp, insn_call] := by
    rcases hind with hi | hi <;> simp [hi]
  have hthree : v.item.type ∈ [insn_jmp, insn_call, insn_return] := by
    rcases hind with hi | hi <;> simp [hi]
  obtain ⟨-, hebx, -⟩ := indirect_masked hc ⟨hthree, hrel⟩ (by rw [hargs]; exact Nat.le_refl 1)
    (fun hr => absurd hr hnoret)
  obtain ⟨-, a, ha, hr⟩ := hebx hind
  obtain ⟨x, hx⟩ := hmasked .ebx_code ⟨hmem, a, ha, hr⟩
  have hlands := transfer_lands (masked_chunkStart g sz x) v.item
  rw [← hx] at hlands
  simpa only [transferTarget, ha, X86Op.data_of_reg hr, Cpu.readReg] using hlands

include hp hlen hkeep in
/-- An examined instruction leads to the next one or to a chunk start. -/
theorem exec_leads (hv : Stands VState.offset (loc (compute_sizes g sz)) es s v)
    (hdec : WellDecoded v.item) (hret : v.item.type = insn_return → v.item.args = [])
    (hmasked : ∀ k, Needs v.item k → Masked (compute_sizes g sz) s k)
    (hs : exec (compute_sizes g sz) alu v.item s = some s') :
    fallsThrough v.item = true ∧ loc (compute_sizes g sz) s' = some v.after.offset ∨
      ChunkStart g sz s'.eip := by
  have htarget : ∀ ht, ChunkStart g sz (transferTarget alu v.item s) :=
    fun ht => target_lands hp hv hdec hmasked ht
  by_cases htr : transfers v.item.type = true
  swap
  · rw [Bool.not_eq_true] at htr
    refine Or.inl ⟨?_, falls_to_next hp hlen hkeep hv htr hs⟩
    unfold fallsThrough
    split
    all_goals first | rfl | (rename_i hty; rw [hty] at htr; cases htr)
  have hnext : loc (compute_sizes g sz)
      (s.jump (s.eip + BitVec.ofNat 32 v.item.size)) = some v.after.offset := by
    have hstep := hp.step_of_mem hv.1
    obtain ⟨_, _, -, hd, -, -, -⟩ := loopBody_ok hstep.2
    have hin := hkeep image _ _ hd
    rw [loc_next hv.2 (by omega), offset_after hstep]
  unfold exec at hs
  simp only at hs
  split at hs
  case h_6 ht =>
    obtain ⟨c, -, rfl⟩ := Option.map_eq_some_iff.mp hs
    exact Or.inr (htarget (Or.inr (Or.inl ht)))
  case h_7 ht =>
    obtain ⟨⟨y, c⟩, hpop, rfl⟩ := Option.map_eq_some_iff.mp hs
    obtain ⟨-, rfl, -⟩ := Cpu.pop_some hpop
    obtain ⟨x, hx⟩ := hmasked .stack_top ⟨ht, hret ht⟩
    refine Or.inr ?_
    rw [Cpu.jump_eip, slotWidth]
    split
    · rw [load_word, hx]
      exact truncated_chunkStart (masked_chunkStart g sz x).aligned
    · rw [hx]
      exact masked_chunkStart g sz x
  case h_8 ht =>
    obtain rfl := Option.some.inj hs
    exact Or.inr (htarget (Or.inl ht))
  case h_9 ht =>
    obtain rfl := Option.some.inj hs
    split
    · exact Or.inr (htarget (Or.inr (Or.inr ht)))
    · exact Or.inl ⟨by simp [fallsThrough, ht], hnext⟩
  case h_10 h1 h2 h3 h4 h5 h6 h7 h8 h9 =>
    exfalso
    revert htr
    unfold transfers
    split <;> simp_all
  all_goals
    rename_i hty
    rw [hty] at htr
    cases htr

end

end Control

section Confinement

variable {L : Layout} {st : VState} {i : X86Insn} {f : Flags} {a : X86Op}
variable {alu : Alu X86Insn} {s s' : Cpu} {x : Word}

theorem inData_mem (h : inData L x = true) : x ∈ L.sandbox := by
  simp only [inData, decide_eq_true_eq] at h
  exact Or.inl h

/-- The address of a write that is let through. -/
theorem Writable.address (h : Writable L st i a) (hok : StackOk L st i) (hu : st.weak.Ok)
    (hE : EspInv (Slack.around L) st.weak s) (hB : EbpInv (Slack.around L).set st.weak s)
    (hmasked : Needs i .ebx_data → Masked L s .ebx_data) (hx : operandAddress s a = some x) :
    x ∈ L.sandbox ∨ x ∈ L.guardZone := by
  have haddr : ∀ {ea : X86Ea}, a.data = .expression ea → effectiveAddress s ea = x := by
    intro ea ha
    rw [operandAddress, ha] at hx
    exact Option.some.inj hx
  cases h with
  | ebx ho hea hneeds =>
    obtain ⟨y, hy⟩ := hmasked hneeds
    rw [← haddr ho, classify_ebx_exact hea, hy]
    exact Or.inl (L.mask_mem_sandbox y)
  | ebp ho hea hclear =>
    obtain ⟨k, hk, he⟩ := classify_ebp hea
    rw [← haddr ho, he]
    exact L.near_sandbox (by omega) (near_add ((Slack.around L).drift (hB hclear)) k)
  | esp ho hea hknown =>
    obtain ⟨k, hk, he⟩ := classify_esp hea
    rw [← haddr ho, he]
    exact hE.access hu (hknown.elim id hok.esp_known) (by omega)
  | direct ho hea hd =>
    rw [← haddr ho, classify_direct hea]
    exact Or.inl (inData_mem hd)
  | offset ho hd =>
    rw [operandAddress, ho] at hx
    obtain rfl := Option.some.inj hx
    exact Or.inl (inData_mem hd)

/-- What an accepted instruction changes in memory lies in the sandbox or a guard zone. -/
theorem changes_confined (hc : checkInsn L st i = .ok f) (hdec : WellDecoded i)
    (hfpu : i.type ≠ fpu) (hok : StackOk L st i) (hu : st.weak.Ok)
    (hE : EspInv (Slack.around L) st.weak s) (hB : EbpInv (Slack.around L).set st.weak s)
    (hmasked : Needs i .ebx_data → Masked L s .ebx_data) (hs : exec L alu i s = some s')
    (hx : s'.mem x ≠ s.mem x) : x ∈ L.sandbox ∨ x ∈ L.guardZone := by
  obtain ⟨-, ho, hflags⟩ := checkInsn_ok hc
  have harm := operandFlags_ok ho
  -- a byte close behind an address in the sandbox
  have hnear : ∀ {y : Word} {k : Nat}, y ∈ L.sandbox → k < 4 → x = y + BitVec.ofNat 32 k →
      x ∈ L.sandbox ∨ x ∈ L.guardZone := by
    intro y k hy hk he
    refine L.near_sandbox (d := 4) (by decide) ⟨y, hy, (k : Int), by omega, ?_⟩
    rw [he, BitVec.ofInt_natCast]
  rcases exec_changes hs hx with ⟨ht, hg, k, hk, he⟩ | ⟨a, c, y, hh, hw, hy, hcase, hg, k, hk, he⟩
  · have hacc : espAccess i s = some (s.reg .esp - BitVec.ofNat 32 (slotWidth i).bytes) := by
      simp only [List.mem_cons, List.not_mem_nil, or_false] at ht
      unfold espAccess
      rcases ht with ht | ht | ht <;> rw [ht]
    exact hnear ((access_safe hc hdec hfpu hok hu hE hB hacc).resolve_right hg) hk he
  · rcases hcase with ⟨hd, rfl⟩ | hpop
    · have hwritable := harm.writable hd hdec hfpu (checkFlags_none hflags).2.1 hh hw hy
      exact hnear ((hwritable.address hok hu hE hB hmasked hy).resolve_right hg) hk he
    · obtain ⟨b, hargs⟩ := hdec.stack_operand (Or.inr hpop)
      rw [hargs] at hh
      cases hh
      rw [pop_operand harm hpop hargs] at hy
      cases hy

end Confinement

section Runs

variable {g : Settings} {sz : Size} {x86_disasm : Disasm} {image : Image} {es : List Examined}
variable {alu : Alu X86Insn} {s s' : Cpu} {t : VState} {v : Examined}

/-- What containment relies on beyond acceptance: operands as libdisasm gives them, masks
in the chunk of their use and of four bytes, and neither returns with an operand nor x87
instructions, which `verify()` lets write anywhere. -/
structure DecodedRightly (L : Layout) (es : List Examined) : Prop where
  decoded : ∀ v ∈ es, WellDecoded v.item
  masks : MasksInChunk L es
  wide : ∀ v ∈ es, IsMask L v.item .stack_top →
    ∀ a, v.item.args.head? = some a → operandWidth a = .dword
  returns : ∀ v ∈ es, v.item.type = insn_return → v.item.args = []
  no_fpu : ∀ v ∈ es, v.item.type ≠ fpu

/-- The instructions that have led to `v`, the latest first, and that the masks among them
have made good what their bits say. -/
def Traced (L : Layout) (es : List Examined) (s : Cpu) (v : Examined) : Prop :=
  ∃ r, Run L es (v :: r) ∧ ∀ k, MaskedBefore L k r → Masked L s k

/-- An instruction that needs a bit finds what the bit says. -/
theorem Traced.masked {L : Layout} (hp : Pass (Examines L x86_disasm image) {} es t)
    (hright : DecodedRightly L es) (hv : v ∈ es) (h : Traced L es s v) {k : Strength}
    (hn : Needs v.item k) : Masked L s k := by
  obtain ⟨f, hc, -⟩ := weak_after hp hv
  obtain ⟨m, hm, hmask, hfol⟩ := mask_of_bit hp v hv (needs_bit hc hn)
  obtain ⟨r, hrun, hr⟩ := h
  exact hr k (maskedBefore_of_run hp hm hmask hfol (hright.masks k m hm v hv hmask hfol hn) hrun)

/-- At a chunk start control stands at an instruction whose offset is aligned. -/
theorem stands_aligned {L : Layout} (hp : Pass (Examines L x86_disasm image) {} es t)
    (hlen : image.length ≤ L.code_size) (hv : Stands VState.offset (loc L) es s v)
    (h : L.chunk_size ∣ s.eip.toNat) : L.chunk_size ∣ v.before.offset := by
  have hin := (hp.step_of_mem hv.1).1
  have hf := L.code_fits
  rw [eip_of_loc hv.2, BitVec.toNat_ofNat, Nat.mod_eq_of_lt (by omega)] at h
  exact (Nat.dvd_add_right L.code_aligned).mp h

section

variable (hp : Pass (Examines (compute_sizes g sz) x86_disasm image) {} es t)
variable (hlen : image.length ≤ (compute_sizes g sz).code_size) (hkeep : KeepsInside x86_disasm)
variable (hright : DecodedRightly (compute_sizes g sz) es)

include hp hlen hkeep hright

/-- One step keeps the trace. -/
theorem traced_step {w : Examined} (hv : Stands VState.offset (loc (compute_sizes g sz)) es s v)
    (h : Traced (compute_sizes g sz) es s v)
    (hs : exec (compute_sizes g sz) alu v.item s = some s')
    (hw : Stands VState.offset (loc (compute_sizes g sz)) es s' w) :
    Traced (compute_sizes g sz) es s' w := by
  have hdec := hright.decoded v hv.1
  rcases exec_leads hlen hkeep hp hv hdec (hright.returns v hv.1)
    (fun k hn => h.masked hp hright hv.1 hn) hs with ⟨hfall, hloc⟩ | hstart
  · obtain ⟨r, hrun, hr⟩ := h
    have he : w.before.offset = v.after.offset := Option.some.inj (hw.2.symm.trans hloc)
    refine ⟨v :: r, .next hrun hw.1 hfall he, fun k hk => ?_⟩
    rcases hk with hmask | ⟨hout, hpop, hk⟩
    · exact mask_step hmask hdec (hright.wide v hv.1) hs
    · exact popf_step hpop hout hs (hr k hk)
  · exact ⟨[], .enter .nil hw.1 (stands_aligned hp hlen hw hstart.aligned), fun k hk => hk.elim⟩

/-- Every visit of a run that enters at a chunk start is traced. -/
theorem traced_run {ok : Examined → Cpu → Prop}
    (h0 : (compute_sizes g sz).chunk_size ∣ s.eip.toNat)
    (hrun : RunsTo VState.offset (loc (compute_sizes g sz)) (exec (compute_sizes g sz) alu) es ok s s') :
    ∀ v, Stands VState.offset (loc (compute_sizes g sz)) es s' v →
      Traced (compute_sizes g sz) es s' v := by
  induction hrun with
  | refl =>
    exact fun v hv => ⟨[], .enter .nil hv.1 (stands_aligned hp hlen hv h0), fun k hk => hk.elim⟩
  | tail _ hmove ih =>
    obtain ⟨u, hu, -, hs⟩ := hmove
    exact fun v hv => traced_step hp hlen hkeep hright hu (ih u hu) hs hv

end

/-- Before and behind an examined instruction the weakenings are counted rightly. -/
theorem weak_examined {L : Layout} (hp : Pass (Examines L x86_disasm image) {} es t) (hv : v ∈ es) :
    v.before.weak.Ok ∧ v.after.weak.Ok := by
  refine (hp.invariant (I := fun st => st.weak.Ok) Weak.ok_initial ?_).1 v hv
  intro a i b hab ha
  obtain ⟨n, f, -, -, -, -, rfl⟩ := loopBody_ok hab.2
  rw [weak_updateState]
  exact ha.after _

/-- What a step does to the pointers: they are what the state behind the instruction says
of them, or both are known. -/
theorem pointers_step {L : Layout} (hp : Pass (Examines L x86_disasm image) {} es t)
    (hlen : image.length ≤ L.code_size) (hkeep : KeepsInside x86_disasm)
    (hv : Stands VState.offset (loc L) es s v) (hd : WellDecoded v.item)
    (hok : StackOk L v.before v.item) (hE : EspInv (Slack.around L) v.before.weak s)
    (hB : EbpInv (Slack.around L).set v.before.weak s) (hs : exec L alu v.item s = some s') :
    transfers v.item.type = false ∧ loc L s' = some v.after.offset ∧
        EspInv (Slack.around L) v.after.weak s' ∧ EbpInv (Slack.around L).set v.after.weak s' ∨
      transfers v.item.type = true ∧
        s'.reg .esp ∈ (Slack.around L).set ∧ s'.reg .ebp ∈ (Slack.around L).set := by
  obtain ⟨f, hc, hafter⟩ := weak_after hp hv.1
  have hu := (weak_examined hp hv.1).1
  cases ht : transfers v.item.type with
  | true => exact Or.inr ⟨rfl, pointers_transfer hc hd hok hu hE hB ht hs⟩
  | false =>
    refine Or.inl ⟨rfl, falls_to_next hp hlen hkeep hv ht hs, ?_⟩
    rw [hafter]
    exact ⟨hE.after (esp_step hc hd hok hu hE hB ht hs),
      hB.after (ebp_step hc hd hok.toFrameOk (Slack.around L).sandbox_subset
        (fun h1 h2 => hE.mem hu h1 h2) hB ht hs)⟩

/-- What is known of the pointers at every visit of a run. -/
theorem known_run {L : Layout} (hp : Pass (Examines L x86_disasm image) {} es t)
    (hlen : image.length ≤ L.code_size) (hkeep : KeepsInside x86_disasm)
    (hdec : ∀ v ∈ es, WellDecoded v.item)
    (hesp : s.reg .esp ∈ L.sandbox) (hebp : s.reg .ebp ∈ L.sandbox)
    (hrun : RunsTo VState.offset (loc L) (exec L alu) es
      (fun v _ => StackOk L v.before v.item) s s') :
    ∀ v, Stands VState.offset (loc L) es s' v → v.before.weak.Ok ∧
      EspInv (Slack.around L) v.before.weak s' ∧ EbpInv (Slack.around L).set v.before.weak s' := by
  have hsub := (Slack.around L).sandbox_subset
  have hinv : ∀ v, Stands VState.offset (loc L) es s' v →
      EspInv (Slack.around L) v.before.weak s' ∧ EbpInv (Slack.around L).set v.before.weak s' := by
    refine hp.run_invariant (offset_pos L x86_disasm image)
      (fun st m => EspInv (Slack.around L) st.weak m ∧ EbpInv (Slack.around L).set st.weak m)
      (fun v _ => ⟨.of_mem (hsub hesp), fun _ => hsub hebp⟩) ?_ hrun
    intro v a b hv hok hI hs
    rcases pointers_step hp hlen hkeep hv (hdec v hv.1) hok hI.1 hI.2 hs with
      ⟨-, hloc, h1, h2⟩ | ⟨-, h1, h2⟩
    · exact Or.inl ⟨hloc, h1, h2⟩
    · exact Or.inr fun w _ => ⟨.of_mem h1, fun _ => h2⟩
  exact fun v hv => ⟨(weak_examined hp hv.1).1, hinv v hv⟩

end Runs

section Fetching

variable (L : Layout) (x86_disasm : Disasm) (alu : Alu X86Insn) (es : List Examined)

/-- The `n` bytes of code in memory. -/
def codeBytes (n : Nat) (mem : Word → BitVec 8) : Image :=
  (List.range n).map fun o => mem (BitVec.ofNat 32 (L.code_start + o))

/-- A step of a processor that decodes what stands at `%eip` in the code in its memory. -/
def Fetches (n : Nat) (s s' : Cpu) : Prop :=
  ∃ o i, loc L s = some o ∧ x86_disasm (codeBytes L n s.mem) o = some i ∧ exec L alu i s = some s'

/-- Runs of that processor all of whose steps are made where an instruction was examined,
and keep track of both pointers. -/
def FetchRun (n : Nat) : Cpu → Cpu → Prop :=
  Relation.ReflTransGen fun s s' => Fetches L x86_disasm alu n s s' ∧
    ∃ v, Stands VState.offset (loc L) es s v ∧ StackOk L v.before v.item

end Fetching

section Contained

variable (g : Settings) (sz : Size) (image : Image) (es : List Examined)

/-- Control is at an examined instruction, behind the last one, or at a chunk start. -/
inductive Place (a : Word) : Prop
  | examined {v : Examined} (hv : v ∈ es)
    (ha : a.toNat = (compute_sizes g sz).code_start + v.before.offset)
  | behind (ha : a.toNat = (compute_sizes g sz).code_start + image.length)
  | chunk (ha : ChunkStart g sz a)

/-- What holds all along a run of the module that starts in `s`. -/
structure Contained (s s' : Cpu) : Prop where
  memory : Set.EqOn s'.mem s.mem ((compute_sizes g sz).sandbox ∪ (compute_sizes g sz).guardZone)ᶜ
  code : codeBytes (compute_sizes g sz) image.length s'.mem = image
  control : Place g sz image es s'.eip

variable {g sz image es} {x86_disasm : Disasm} {alu : Alu X86Insn} {s s' : Cpu} {t : VState}
variable {v : Examined} {a : Word} {o : Nat}

theorem loc_toNat {L : Layout} (h : loc L s = some o) (ho : o ≤ L.code_size) :
    s.eip.toNat = L.code_start + o := by
  have hf := L.code_fits
  rw [eip_of_loc h, BitVec.toNat_ofNat, Nat.mod_eq_of_lt (by omega)]

/-- Behind an examined instruction stands the next one or the end. -/
theorem place_after (hp : Pass (Examines (compute_sizes g sz) x86_disasm image) {} es t)
    (hkeep : KeepsInside x86_disasm) (ht : image.length ≤ t.offset) (hv : v ∈ es)
    (ha : a.toNat = (compute_sizes g sz).code_start + v.after.offset) : Place g sz image es a := by
  rcases hp.next hv with hl | ⟨w, hw, hb⟩
  · have hstep := hp.step_of_mem hv
    obtain ⟨_, _, -, hd, -⟩ := loopBody_ok hstep.2
    have hin := hkeep image _ _ hd
    have hafter := offset_after hstep
    rw [← hp.last_after hl] at ht
    exact .behind (by omega)
  · exact .examined hw (ha.trans (congrArg _ (congrArg VState.offset hb.symm)))

/-- Memory that agrees in the code region holds the same code. -/
theorem codeBytes_congr {n : Nat} {mem mem' : Word → BitVec 8}
    (hn : n ≤ (compute_sizes g sz).code_size)
    (h : Set.EqOn mem' mem ((compute_sizes g sz).sandbox ∪ (compute_sizes g sz).guardZone)ᶜ) :
    codeBytes (compute_sizes g sz) n mem' = codeBytes (compute_sizes g sz) n mem := by
  refine List.map_congr_left fun o ho => h ?_
  have hlt := List.mem_range.mp ho
  have hf := (compute_sizes g sz).code_fits
  have hat : (BitVec.ofNat 32 ((compute_sizes g sz).code_start + o)).toNat =
      (compute_sizes g sz).code_start + o := by
    rw [BitVec.toNat_ofNat, Nat.mod_eq_of_lt (by omega)]
  have hin : BitVec.ofNat 32 ((compute_sizes g sz).code_start + o) ∈
      span 32 (compute_sizes g sz).code_start (compute_sizes g sz).code_size :=
    ⟨by omega, by omega⟩
  obtain ⟨h1, h2⟩ := code_apart hin
  exact not_or.mpr ⟨h1, h2⟩

end Contained

section Quiet

variable {v : Examined}

/-- The instruction is examined with no weakening, and neither takes anything off the
stack nor writes one of the two pointers. -/
def Quiet (v : Examined) : Prop :=
  v.before.unsafety = NONE ∧ v.item.type ≠ insn_pop ∧ v.item.type ≠ insn_return ∧
    ∀ a ∈ v.item.args.head?, ∀ r ∈ a.reg, r.whole ≠ some .esp ∧ r.whole ≠ some .ebp

instance (v : Examined) : Decidable (Quiet v) := inferInstanceAs (Decidable (_ ∧ _ ∧ _ ∧ _))

theorem Quiet.stackOk {L : Layout} (h : Quiet v) : StackOk L v.before v.item := by
  obtain ⟨hclear, hpop, hret, hwhole⟩ := h
  have hesp : ¬ writes v.item .esp := by
    rintro ⟨a, r, ha, -, hr, hw⟩
    exact (hwhole a ha r hr).1 hw
  have hebp : ¬ writes v.item .ebp := by
    rintro ⟨a, r, ha, -, hr, hw⟩
    exact (hwhole a ha r hr).2 hw
  refine ⟨⟨fun hw => absurd hw hebp, ?_, ?_⟩, fun hw => absurd hw hesp, fun ht => absurd ht hpop,
    ?_, ?_, fun ht => absurd ht hret⟩ <;> rw [hclear]
  · exact fun _ _ _ => rfl
  · exact fun _ _ => rfl
  · exact fun _ => rfl
  · exact fun _ => rfl

end Quiet

/-- The entry state with the code of `maskInChunk` in memory. -/
def loadedMask : Cpu := { entryState classic with mem := loadedCode classic maskInChunk }

/-- The processor behind the `k` first instructions of `maskInChunk`. -/
def afterMasks (k : Nat) : Cpu :=
  ((examined maskInChunk).take k).foldl (fun s v => (exec classic (Alu.idle _) v.item s).getD s)
    loadedMask

end Pittsfield.Loader
