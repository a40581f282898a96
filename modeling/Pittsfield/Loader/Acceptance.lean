import Pittsfield.Loader.Verify

/-!
# What `verify()` accepts

A pass over the whole code makes `verify()` succeed. An instruction that does not straddle
the end of a chunk takes the loop on if the switch and the flag tests let it through. What the
weakenings can be behind it is computed from a bound on what they were before it.
-/

namespace Pittsfield.Loader

open Pittsfield.Foundation
open Pittsfield.Region
open Pittsfield.Machine
open InsnGroup InsnType OpType

section Loop

variable {L : Layout} {x86_disasm : Disasm} {image : Image} {st st' : VState} {x : X86Insn} {flags : Flags}
  {es : List Examined}

theorem verifyLoop_of_pass (h : Pass (Examines L x86_disasm image) st es st')
    (hend : image.length ≤ st'.offset) {fuel : Nat} (hfuel : image.length ≤ st.offset + fuel) :
    verifyLoop L x86_disasm image fuel st = .ok es := by
  induction h generalizing fuel with
  | done st =>
    cases fuel with
    | zero => rw [verifyLoop, if_neg (Nat.not_lt.mpr hend)]
    | succ fuel => rw [verifyLoop, if_neg (Nat.not_lt.mpr hend)]
  | @visit st st' t x es hstep _ ih =>
    have hlt := offset_lt hstep
    obtain ⟨hinside, hbody⟩ := hstep
    cases fuel with
    | zero => omega
    | succ fuel =>
      have hrest : verifyLoop L x86_disasm image fuel _ = .ok es := ih hend (by omega)
      rw [verifyLoop, if_pos hinside, hbody]
      simp only [hrest]

/-- A pass from the first state to the end of the code is all that `verify()` asks for. -/
theorem verify_of_pass (h : Pass (Examines L x86_disasm image) {} es st) (hend : image.length ≤ st.offset) :
    verify L x86_disasm image = .ok es :=
  verifyLoop_of_pass h hend (Nat.le_add_left _ _)

variable (L x86_disasm image) in
/-- The loop comes to the state, and the next chunk start that it looks for is the first one from
there on. -/
structure Comes (st : VState) : Prop where
  pass : ∃ es, Pass (Examines L x86_disasm image) {} es st
  aligned : L.chunk_size ∣ st.next_aligned
  ahead : st.offset ≤ st.next_aligned
  near : st.next_aligned < st.offset + L.chunk_size

theorem comes_first : Comes L x86_disasm image {} where
  pass := ⟨[], .done _⟩
  aligned := Nat.dvd_zero _
  ahead := Nat.le_refl _
  near := by
    show 0 < 0 + L.chunk_size
    rw [Nat.zero_add]
    exact L.chunk_pos

/-- What is left to the end of the chunk, at the next chunk start itself all of it. -/
theorem Comes.room (h : Comes L x86_disasm image st) {size : Nat} (hpos : 0 < size)
    (hfit : st.offset % L.chunk_size + size ≤ L.chunk_size) :
    ∃ n, nextAligned L st = some n ∧ L.chunk_size ∣ n ∧ st.offset + size ≤ n ∧
      n < st.offset + size + L.chunk_size := by
  obtain ⟨-, haligned, hahead, hnear⟩ := h
  by_cases hstart : st.offset = st.next_aligned
  · have hzero : st.offset % L.chunk_size = 0 := Nat.mod_eq_zero_of_dvd (hstart ▸ haligned)
    exact ⟨_, if_pos hstart, Nat.dvd_add haligned (Nat.dvd_refl _), by omega, by omega⟩
  · refine ⟨st.next_aligned, ?_, haligned, ?_, by omega⟩
    · rw [nextAligned, if_neg hstart, if_neg (by omega)]
    · obtain ⟨k, hk⟩ := haligned
      have hsplit := Nat.div_add_mod st.offset L.chunk_size
      have hlater : st.offset / L.chunk_size < k := by
        apply Nat.lt_of_mul_lt_mul_left (a := L.chunk_size)
        omega
      have hnext := Nat.mul_le_mul_left L.chunk_size (Nat.succ_le_of_lt hlater)
      rw [Nat.mul_succ] at hnext
      omega

/-- One more instruction. -/
theorem Comes.insn (h : Comes L x86_disasm image st) (hinside : st.offset + x.size ≤ image.length)
    (hdisasm : x86_disasm image st.offset = some x) (hpos : 0 < x.size)
    (hfit : st.offset % L.chunk_size + x.size ≤ L.chunk_size) (hcheck : checkInsn L st x = .ok flags) :
    ∃ n, Comes L x86_disasm image (updateState st n x flags) := by
  obtain ⟨n, hnext, haligned, hahead, hnear⟩ := h.room hpos hfit
  obtain ⟨es, hpass⟩ := h.pass
  have hbody : loopBody L x86_disasm image st = .ok (x, updateState st n x flags) := by
    simp only [loopBody, hnext, hdisasm, if_neg (Nat.ne_of_gt hpos), hcheck]
  exact ⟨n, ⟨_, hpass.snoc ⟨by omega, hbody⟩⟩, haligned, hahead, hnear⟩

end Loop

section Checks

variable {L : Layout} {st : VState} {x : X86Insn} {flags : Flags}

/-- libdisasm shows an instruction of the type with these explicit operands. -/
structure Is (x : X86Insn) (type : InsnType) (args : List X86Op) : Prop where
  group : legalGroup x.group = true
  type : x.type = type
  explicit : x.explicit_count ≤ 3
  args : x.args = args

theorem checkFlags_of {unsafety : Flags} {offset : Nat} (hijump : flags.ijump = false)
    (hiwrite : flags.iwrite = false) (hjump : flags.jump = true → unsafety.weak = false) :
    checkFlags flags unsafety offset = none := by
  rw [checkFlags, hijump, if_neg Bool.false_ne_true, hiwrite, if_neg Bool.false_ne_true]
  cases hj : flags.jump with
  | false => rfl
  | true =>
    have hweak := hjump hj
    simp only [Flags.weak, Bool.or_eq_false_iff] at hweak
    obtain ⟨⟨hesp, hbump⟩, hebp⟩ := hweak
    rw [hesp, hbump, hebp]
    rfl

theorem checkInsn_of (hgroup : legalGroup x.group = true) (htype : legalType x.type = true)
    (hcount : x.explicit_count ≤ 3) (hflags : operandFlags L st.safety st.unsafety x st.offset = .ok flags)
    (hcheck : checkFlags flags st.unsafety st.offset = none) : checkInsn L st x = .ok flags := by
  rw [checkInsn, hgroup, htype, Bool.not_true, if_neg Bool.false_ne_true, if_neg Bool.false_ne_true,
    if_neg (Nat.not_lt.mpr hcount), hflags]
  simp only [hcheck]

/-- An instruction that is known by its type and its operands. -/
theorem Is.check {type : InsnType} {args : List X86Op} (h : Is x type args) (htype : legalType type = true)
    (hflags : operandFlags L st.safety st.unsafety x st.offset = .ok flags)
    (hcheck : checkFlags flags st.unsafety st.offset = none) : checkInsn L st x = .ok flags :=
  checkInsn_of h.group (h.type ▸ htype) h.explicit hflags hcheck

end Checks

section Bounds

/-- The weakenings that may be set. -/
structure Bound where
  ebp : Bool := false
  esp : Bool := false
  bump : Bool := false
  deriving DecidableEq

/-- The bound behind an instruction with the flags. -/
def Bound.after (b : Bound) (f : Flags) : Bound where
  ebp := (b.ebp || f.change_ebp) && !f.ebp_data_safe
  esp := (b.esp || f.change_esp) && !f.use_esp
  bump := (b.bump || f.bump_esp) && !f.use_esp

/-- The weakenings keep within the bound. -/
structure Fits (b : Bound) (w : Weak) : Prop where
  counted : w.Ok
  ebp : w.change_ebp = true → b.ebp = true
  esp : w.change_esp = true → b.esp = true
  bump : w.bump_esp = true → b.bump = true

variable {b b' : Bound} {w : Weak} {f : Flags} {st : VState} {x : X86Insn}

theorem fits_first : Fits {} (({} : VState).weak) := ⟨Weak.ok_initial, nofun, nofun, nofun⟩

theorem Fits.mono (h : Fits b w) (hebp : b.ebp = true → b'.ebp = true) (hesp : b.esp = true → b'.esp = true)
    (hbump : b.bump = true → b'.bump = true) : Fits b' w :=
  ⟨h.counted, fun hw => hebp (h.ebp hw), fun hw => hesp (h.esp hw), fun hw => hbump (h.bump hw)⟩

/-- The bound behind an instruction with the effect on the pointers. -/
def Bound.post (b : Bound) (p : Post) : Bound where
  ebp := (b.ebp || p.change_ebp) && !p.ebp_safe
  esp := (b.esp || p.change_esp) && !p.use_esp
  bump := (b.bump || p.bump_esp) && !p.use_esp

/-- One bump at a time is counted, so that the count stays far below its limit. -/
theorem Fits.post (h : Fits b w) {p : Post} (hone : p.bump_esp = true → b.bump = false ∨ p.use_esp = true) :
    Fits (b.post p) (w.after p) := by
  obtain ⟨hok, hebp, hesp, hbump⟩ := h
  refine ⟨hok.after p, ?_, ?_, ?_⟩
  · intro hset
    simp only [Weak.after, Bool.and_eq_true, Bool.or_eq_true] at hset
    simp only [Bound.post, Bool.and_eq_true, Bool.or_eq_true]
    exact ⟨hset.1.imp_left hebp, hset.2⟩
  · intro hset
    simp only [Weak.after, Bool.and_eq_true, Bool.or_eq_true, decide_eq_true_eq] at hset
    simp only [Bound.post, Bool.and_eq_true, Bool.or_eq_true]
    refine ⟨?_, hset.2⟩
    obtain ⟨(hset | hset) | hcount, huse⟩ := hset
    · exact Or.inl (hesp hset)
    · exact Or.inr hset
    · by_cases hchanged : w.change_esp = true
      · exact Or.inl (hesp hchanged)
      have hlt := hok.count_lt (Bool.eq_false_iff.mpr hchanged)
      by_cases hp : p.bump_esp = true
      · rw [if_pos hp] at hcount
        have hnot : p.use_esp ≠ true := fun hu => by
          rw [hu] at huse
          cases huse
        have hclear : b.bump = false := (hone hp).resolve_right hnot
        have hnone : w.bump_esp = false := by
          by_contra hw
          rw [hbump (Bool.eq_true_of_not_eq_false hw)] at hclear
          cases hclear
        have hzero := hok.count_zero hnone
        omega
      · rw [if_neg hp] at hcount
        omega
  · intro hset
    simp only [Weak.after, Bool.and_eq_true, Bool.or_eq_true] at hset
    simp only [Bound.post, Bool.and_eq_true, Bool.or_eq_true]
    exact ⟨hset.1.imp_left hbump, hset.2⟩

theorem Fits.after (h : Fits b w) (hone : f.bump_esp = true → b.bump = false ∨ f.use_esp = true) :
    Fits (b.after f) (w.after f.post) :=
  h.post (p := f.post) hone

/-- The weakenings of the state behind an instruction. -/
theorem Fits.update (h : Fits b st.weak) (n : Nat)
    (hone : f.bump_esp = true → b.bump = false ∨ f.use_esp = true) :
    Fits (b.after f) (updateState st n x f).weak := by
  rw [weak_updateState]
  exact h.after hone

/-- Behind an instruction without weakenings the bound still holds. -/
theorem Fits.keeps (h : Fits (b.after f) w) (hf : f.weakenings = NONE) : Fits b w := by
  have hebp : f.change_ebp = false := congrArg Flags.change_ebp hf
  have hesp : f.change_esp = false := congrArg Flags.change_esp hf
  have hbump : f.bump_esp = false := congrArg Flags.bump_esp hf
  refine h.mono ?_ ?_ ?_ <;> intro hset
  · rw [Bound.after, hebp, Bool.or_false, Bool.and_eq_true] at hset
    exact hset.1
  · rw [Bound.after, hesp, Bool.or_false, Bool.and_eq_true] at hset
    exact hset.1
  · rw [Bound.after, hbump, Bool.or_false, Bool.and_eq_true] at hset
    exact hset.1

/-- Behind a use of `%esp` its weakenings are gone. -/
theorem Fits.uses (h : Fits (b.after f) w) (hf : f.use_esp = true) (hebp : f.change_ebp = false) :
    Fits { ebp := b.ebp } w := by
  refine h.mono ?_ ?_ ?_ <;> intro hset
  · rw [Bound.after, hebp, Bool.or_false, Bool.and_eq_true] at hset
    exact hset.1
  · simp [Bound.after, hf] at hset
  · simp [Bound.after, hf] at hset

/-- Behind the mask of `%ebp` its weakening is gone. -/
theorem Fits.masks_ebp (h : Fits (b.after EBP_DATA_SAFE) w) : Fits { esp := b.esp, bump := b.bump } w := by
  refine h.mono ?_ ?_ ?_ <;> intro hset
  · rw [Bound.after, Bool.and_eq_true] at hset
    cases hset.2
  · rw [Bound.after, Bool.and_eq_true, Bool.or_eq_true] at hset
    exact hset.1.resolve_right nofun
  · rw [Bound.after, Bool.and_eq_true, Bool.or_eq_true] at hset
    exact hset.1.resolve_right nofun

/-- No weakening is left. -/
theorem Fits.clean (h : Fits {} st.weak) : st.unsafety.weak = false := by
  have hesp : st.unsafety.change_esp = false := Bool.eq_false_iff.mpr fun hw => Bool.noConfusion (h.esp hw)
  have hbump : st.unsafety.bump_esp = false := Bool.eq_false_iff.mpr fun hw => Bool.noConfusion (h.bump hw)
  have hebp : st.unsafety.change_ebp = false := Bool.eq_false_iff.mpr fun hw => Bool.noConfusion (h.ebp hw)
  rw [Flags.weak, hesp, hbump, hebp]
  rfl

end Bounds

section Forms

variable {L : Layout} {safety unsafety : Flags} {x : X86Insn} {offset : Nat} {a b : X86Op}

theorem Is.pushflags (h : Is x insn_pushflags []) :
    operandFlags L safety unsafety x offset = .ok (USE_ESP ||| CHANGE_ESP) := by
  rw [operandFlags, h.args]
  simp only [nullaryFlags, h.type]

theorem Is.popflags (h : Is x insn_popflags []) :
    operandFlags L safety unsafety x offset = .ok (USE_ESP ||| CHANGE_ESP) := by
  rw [operandFlags, h.args]
  simp only [nullaryFlags, h.type]

/-- A return behind the mask of the stack top. -/
theorem Is.return_top (h : Is x insn_return []) (hsafe : safety.stack_top_safe = true) :
    operandFlags L safety unsafety x offset = .ok (JUMP ||| USE_ESP ||| CHANGE_ESP) := by
  rw [operandFlags, h.args]
  simp only [nullaryFlags, h.type, hsafe, if_true]

theorem Is.return_immediate (h : Is x insn_return [a]) (ha : a.type = op_immediate) :
    operandFlags L safety unsafety x offset = .ok (USE_ESP ||| CHANGE_ESP) := by
  rw [operandFlags, h.args]
  simp only [unaryFlags, ha, immediateFlags, h.type]

/-- A pop into a register that is neither pointer. -/
theorem Is.pop (h : Is x insn_pop [a]) (ha : a.type = op_register) (hebp : a.names REGISTER_EBP = false)
    (hesp : a.names REGISTER_ESP = false) :
    operandFlags L safety unsafety x offset = .ok (USE_ESP ||| CHANGE_ESP) := by
  rw [operandFlags, h.args]
  simp only [unaryFlags, ha, registerFlags, h.type, changeEbp, changeEsp, hebp, hesp]
  rfl

/-- A mask of a register. -/
theorem Is.and_reg {r : Reg32} {v : Word} (h : Is x insn_and [⟨.register (.r32 r), .op_dword, true, false⟩,
    ⟨.immediate v, .op_dword, false, false⟩]) : operandFlags L safety unsafety x offset =
      .ok (if r = .ebx ∧ v = L.data_mask then EBX_DATA_SAFE
        else if r = .ebx ∧ v = L.jump_mask then EBX_CODE_SAFE
        else if r = .ebp ∧ v = L.data_mask then EBP_DATA_SAFE
        else if r = .esp ∧ v = L.data_mask then ESP_SAFETY
        else regImmChange x ⟨.register (.r32 r), .op_dword, true, false⟩
          ⟨.immediate v, .op_dword, false, false⟩) := by
  have hreg : ∀ q, regId (some (.r32 r)) = reg32Id q ↔ r = q := fun q =>
    ⟨fun heq => reg32Id_inj heq, fun heq => heq ▸ rfl⟩
  rw [operandFlags, h.args]
  simp only [binaryFlags, X86Op.type, regImmFlags, h.type, X86Op.reg, X86Op.dword]
  have hebx := hreg .ebx
  have hebp := hreg .ebp
  have hesp := hreg .esp
  simp only [reg32Id] at hebx hebp hesp
  simp only [hebx, hebp, hesp, true_and]
  split_ifs <;> rfl

/-- The mask of the stack top. -/
theorem Is.and_top {datatype : Datatype} (h : Is x insn_and
    [⟨.expression ⟨some (.r32 .esp), none, 1, .none⟩, datatype, true, false⟩,
      ⟨.immediate L.jump_mask, .op_dword, false, false⟩]) :
    operandFlags L safety unsafety x offset = .ok (USE_ESP ||| STACK_TOP_SAFE) := by
  have hea : classify_ea ⟨some (.r32 .esp), none, 1, .none⟩ = .EA_ESP_EXACT := rfl
  rw [operandFlags, h.args]
  simp only [binaryFlags, X86Op.type, exprImmFlags, X86Op.expression, hea, masksStackTop, h.type, X86Op.dword]
  simp

/-- A sum of `%esp` and an immediate. -/
theorem Is.add_esp (h : Is x insn_add [a, b]) (ha : a.reg = some (.r32 .esp)) (hb : b.type = op_immediate) :
    ∃ f, operandFlags L safety unsafety x offset = .ok f ∧ (f = BUMP_ESP ∨ f = CHANGE_ESP) := by
  have hreg : a.type = op_register := by
    cases a with
    | mk data datatype write implied => cases data <;> first | rfl | cases ha
  refine ⟨regImmChange x a b, ?_, ?_⟩
  · rw [operandFlags, h.args]
    simp only [binaryFlags, hreg, hb, regImmFlags, h.type]
  · have hebp : changeEbp a = NONE := by
      rw [changeEbp, X86Op.names, ha]
      rfl
    have hesp : regId a.reg = REGISTER_ESP := by rw [ha]; rfl
    rw [regImmChange, hebp, if_pos hesp, h.type]
    by_cases hbyte : b.datatype = .op_byte
    · exact Or.inl (if_pos ⟨Or.inl rfl, hbyte⟩)
    · rw [if_neg fun hand => hbyte hand.2, if_neg fun hand => InsnType.noConfusion hand.1]
      exact Or.inr rfl

/-- A move into `%ebx` from anything that does not name the pointers. -/
theorem Is.mov_ebx (h : Is x insn_mov [a, b]) (ha : a = ⟨.register (.r32 .ebx), .op_dword, true, false⟩)
    (hb : b.type = op_register ∧ b.names REGISTER_EBP = false ∧ b.names REGISTER_ESP = false ∨
      b.type = op_expression ∨ b.type = op_offset) :
    operandFlags L safety unsafety x offset = .ok NONE := by
  have hreg : a.type = op_register := by rw [ha]; rfl
  rw [operandFlags, h.args]
  rcases hb with ⟨hb, hebp, hesp⟩ | hb | hb
  · have hnotEsp : regId a.reg ≠ REGISTER_ESP := by rw [ha]; decide
    have hnotEbp : regId a.reg ≠ REGISTER_EBP := by rw [ha]; decide
    simp only [binaryFlags, hreg, hb, regRegFlags, h.type, hnotEsp, hnotEbp, false_and, if_false, changeEbp,
      changeEsp, hebp, hesp]
    rfl
  · have hnone : changeEbp a ||| changeEsp a = NONE := by rw [ha]; rfl
    simp only [binaryFlags, hreg, hb, regExprFlags, h.type, hnone]
  · simp only [binaryFlags, hreg, hb, regOffsetFlags, h.type, if_true]

/-- A jump through `%ebx` behind its mask. -/
theorem Is.jmp_ebx {datatype : Datatype} {write : Bool}
    (h : Is x insn_jmp [⟨.register (.r32 .ebx), datatype, write, false⟩]) (hsafe : safety.ebx_code_safe = true) :
    operandFlags L safety unsafety x offset = .ok JUMP := by
  rw [operandFlags, h.args]
  simp only [unaryFlags, X86Op.type, registerFlags, h.type, hsafe]
  rfl

/-- A call through `%ebx` behind its mask. -/
theorem Is.call_ebx {datatype : Datatype} {write : Bool}
    (h : Is x insn_call [⟨.register (.r32 .ebx), datatype, write, false⟩]) (hsafe : safety.ebx_code_safe = true) :
    operandFlags L safety unsafety x offset = .ok (USE_ESP ||| JUMP) := by
  rw [operandFlags, h.args]
  simp only [unaryFlags, X86Op.type, registerFlags, h.type, hsafe]
  rfl

/-- The target is the start of a chunk in the code region. -/
def Lands (L : Layout) (target : Word) : Prop :=
  target &&& BitVec.ofNat 32 (L.chunk_size - 1) = 0 ∧ L.code_start ≤ target.toNat ∧ target.toNat < L.code_end

instance (target : Word) : Decidable (Lands L target) := inferInstanceAs (Decidable (_ ∧ _ ∧ _))

/-- A call to the start of a chunk. -/
theorem Is.call_relative (h : Is x insn_call [a]) (ha : a.type = op_relative_near ∨ a.type = op_relative_far)
    (hlands : Lands L (relativeTarget L x offset a.data)) :
    operandFlags L safety unsafety x offset = .ok (JUMP ||| USE_ESP) := by
  obtain ⟨haligned, hstart, hend⟩ := hlands
  have hflags : relativeFlags L x offset a = .ok (JUMP ||| USE_ESP) := by
    simp only [relativeFlags, h.type, haligned, ne_eq, not_true_eq_false, if_false]
    rw [if_neg (by omega)]
    rfl
  rw [operandFlags, h.args]
  rcases ha with ha | ha
  · simp only [unaryFlags, ha, hflags]
  · simp only [unaryFlags, ha, hflags]

/-- A store through a masked `%ebx`, whatever the operation. -/
theorem Is.store_ebx {type : InsnType} (h : Is x type [a, b]) (ha : a.type = op_expression)
    (hexact : classify_ea a.expression = .EA_EBX_EXACT) (hb : b.type = op_register ∨ b.type = op_immediate)
    (hsafe : safety.ebx_data_safe = true) : operandFlags L safety unsafety x offset = .ok NONE := by
  rw [operandFlags, h.args]
  rcases hb with hb | hb
  · simp only [binaryFlags, ha, hb, exprRegFlags, hexact, hsafe, and_self, if_true]
  · simp only [binaryFlags, ha, hb, exprImmFlags, hexact, hsafe, and_self, if_true]

/-- An operation on one operand through a masked `%ebx`. -/
theorem Is.unary_ebx {type : InsnType} (h : Is x type [a]) (ha : a.type = op_expression)
    (hexact : classify_ea a.expression = .EA_EBX_EXACT)
    (htype : type ∈ [fpu, insn_mul, insn_div, insn_inc, insn_dec, insn_not, insn_neg, insn_movcc])
    (hsafe : safety.ebx_data_safe = true) : operandFlags L safety unsafety x offset = .ok NONE := by
  rw [operandFlags, h.args]
  simp only [unaryFlags, ha, exprFlags, h.type]
  simp only [List.mem_cons, List.not_mem_nil, or_false] at htype
  rcases htype with rfl | rfl | rfl | rfl | rfl | rfl | rfl | rfl <;> simp only [hexact, hsafe, and_self, if_true]

end Forms

end Pittsfield.Loader
