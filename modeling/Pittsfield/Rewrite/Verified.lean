import Pittsfield.Rewrite.Accepted
import Pittsfield.Rewrite.Derivation

/-!
# The verifier accepts what the rewriter prints

A line that the script prints as it is may leave weakenings that the script masks at once, or
a bump of `%esp` that its mark `dirty_esp` remembers. If every such line passes `verify()` where
the script puts it, all of the output does.
-/

namespace Pittsfield.Rewrite

open Pittsfield.Foundation
open Pittsfield.Region
open Pittsfield.Machine
open Pittsfield.Offline (starts unaryStore)
open Pittsfield.Loader (Image Disasm X86Insn X86Op VState Comes Fits Bound Is Lands checkInsn updateState
  operandFlags checkFlags)
open Pittsfield.Loader.InsnType

section Input

variable (L : Layout) (threadsafe_return : Bool) (shown : Nat → Insn → X86Insn)

/-- The flags that `verify()` gives to a line ask for no mask that the script does not print. -/
structure Mild (i : Insn) (flags : Loader.Flags) : Prop where
  ijump : flags.ijump = false
  iwrite : flags.iwrite = false
  ebp : flags.change_ebp = true → setsEbp i = true
  esp : flags.change_esp = true → flags.use_esp = true ∨ setsEbp i = false ∧ bumpsEspFar i = true
  bump : flags.bump_esp = true → flags.use_esp = true ∨ remasksEsp i.op = true ∧ i.secondIs .esp = true
  stack : starts ["push", "pop"] i.op = true → flags.use_esp = true

/-- A line passes as it is where the script prints it: `%ebp` is good, and `%esp` has at most been bumped
if the mark is set. -/
structure Suits (o : Out) (i : Insn) : Prop where
  legal (a : Nat) : Loader.legalGroup (shown a i).group = true ∧ Loader.legalType (shown a i).type = true ∧
    (shown a i).explicit_count ≤ 3
  passes (a : Nat) (safety unsafety : Loader.Flags) : unsafety.change_ebp = false → unsafety.change_esp = false →
    (unsafety.bump_esp = true → (remask L o i).dirty_esp = true) →
      ∃ flags, operandFlags L safety unsafety (shown a i) a = .ok flags ∧ Mild i flags ∧
        (flags.jump = true → unsafety.bump_esp = false)

/-- What the lines of the input must keep to. -/
structure Regular (input : List Line) : Prop where
  targets (op : String) (r : Reg) : op = "call" ∨ op = "jmp" → .insn ⟨op, [.star (.reg r)]⟩ ∈ input →
    r.whole ≠ some .esp ∧ r.whole ≠ some .ebp
  returns (args : List Operand) : .insn ⟨"ret", args⟩ ∈ input → args = [] ∨ ∃ value, args = [.imm value]
  pushes (i : Insn) : .insn i ∈ input → starts ["push", "pop"] i.op = true →
    ∀ o p o', maybe_rewriteWith L threadsafe_return o p i ≠ .ok (some o')
  own (o : Out) (i : Insn) (ls : List Line) : Reach L threadsafe_return input o (.insn i :: ls) →
    (∃ o p, maybe_rewriteWith L threadsafe_return o p i = .ok none) → Suits L shown o i

end Input

section Steps

variable {L : Layout} {x86_disasm : Disasm} {image : Image} {shown : Nat → Insn → X86Insn} {len : Insn → Nat}
  {input : List Line} {items : List Item} {b : Bound} {o : Out} {i : Insn} {m : Masked} {threadsafe_return d : Bool}

/-- A line without code. -/
theorem Reaches.still {items : List Item} {P : VState → Prop} (item : Item)
    (h : Reaches L x86_disasm image shown len items P) (hitem : ∀ a, advance len L.chunk_size a item = a) :
    Reaches L x86_disasm image shown len (items ++ [item]) P := by
  intro hitems
  obtain ⟨st, hcomes, hoffset, hP⟩ := h hitems.last.1
  refine ⟨st, hcomes, ?_, hP⟩
  rw [endOf_append, hoffset]
  exact (hitem _).symm

/-- A line that passes as it is. What it may leave is told by what the script prints behind it. -/
theorem Reaches.own (hsuits : Suits L shown o i) (hleaves : Leaves L o i b)
    (h : Reaches L x86_disasm image shown len items (Within { bump := (Rewrite.remask L o i).dirty_esp })) :
    Reaches L x86_disasm image shown len (items ++ [.insn i]) (Within b) := by
  refine h.insn fun st hst => ?_
  obtain ⟨hgroup, htype, hcount⟩ := hsuits.legal st.offset
  have hgoodEbp : st.unsafety.change_ebp = false := Bool.eq_false_iff.mpr fun hw => Bool.noConfusion (hst.ebp hw)
  have hgoodEsp : st.unsafety.change_esp = false := Bool.eq_false_iff.mpr fun hw => Bool.noConfusion (hst.esp hw)
  obtain ⟨flags, hflags, hmild, hjump⟩ :=
    hsuits.passes st.offset st.safety st.unsafety hgoodEbp hgoodEsp hst.bump
  have hcheck : checkFlags flags st.unsafety st.offset = none := by
    refine Loader.checkFlags_of hmild.ijump hmild.iwrite fun hj => ?_
    rw [Loader.Flags.weak, hgoodEsp, hjump hj, hgoodEbp]
    rfl
  refine ⟨flags, Loader.checkInsn_of hgroup htype hcount hflags hcheck, fun n => ?_⟩
  have hgentle : Gentle i flags.post := ⟨hmild.ebp, hmild.esp, hmild.bump, hmild.stack⟩
  show Fits b (updateState st n (shown st.offset i) flags).weak
  rw [Loader.weak_updateState]
  exact hleaves.fits hgentle hst

/-- What `verify()` has noted about the last mask. -/
def Masked.Noted (st : VState) : Masked → Prop
  | .nothing => True
  | .data => st.safety.ebx_data_safe = true
  | .code => st.safety.ebx_code_safe = true
  | .top => st.safety.stack_top_safe = true

theorem Reaches.noted (h : Reaches L x86_disasm image shown len items (Within b)) :
    Reaches L x86_disasm image shown len items fun st => Within b st ∧ Masked.nothing.Noted st :=
  h.mono fun _ hst => ⟨hst, trivial⟩

theorem Reaches.within (h : Reaches L x86_disasm image shown len items fun st => Within b st ∧ m.Noted st) :
    Reaches L x86_disasm image shown len items (Within b) :=
  h.mono fun _ hst => hst.1

/-- `verify()` keeps the rules. -/
theorem Derives.reaches (hF : Faithful L input shown) (hL : Usual L)
    (hreg : Regular L threadsafe_return shown input) (h : Derives L threadsafe_return input items b m) :
    Reaches L x86_disasm image shown len items fun st => Within b st ∧ m.Noted st := by
  induction h with
  | nil => exact (reaches_nil Loader.fits_first).noted
  | wider _ hb ih =>
    exact (ih.within.mono fun _ hst => Fits.mono hst hb.ebp hb.esp hb.bump).noted
  | fill _ hitem ih =>
    refine (ih.within.fill (idle_within _) ?_).noted
    exact hitem.imp_right (Or.imp_left fun halign => ⟨halign, hL.four⟩)
  | label name _ ih => exact (ih.within.still _ fun _ => rfl).noted
  | text _ hline ih =>
    refine (ih.within.still _ fun a => ?_).noted
    rw [advance, hline]
    rfl
  | own _ hreach hkept hleaves ih => exact (ih.within.own (hreg.own _ _ _ hreach hkept) hleaves).noted
  | pushf _ ih => exact (ih.within.pushf hF).noted
  | popf _ ih => exact (ih.within.popf hF).noted
  | popl _ ih => exact (ih.within.popl hF).noted
  | addl value _ ih => exact (ih.within.addl_esp hF value).noted
  | load _ hload ih =>
    refine Reaches.noted ?_
    cases hload with
    | lea hmemory => exact ih.within.load hF (Or.inr rfl) (Or.inl hmemory)
    | memory hmemory => exact ih.within.load hF (Or.inl rfl) (Or.inl hmemory)
    | const value => exact ih.within.load hF (Or.inl rfl) (Or.inr (Or.inl ⟨value, rfl⟩))
    | @reg r hesp hebp => exact ih.within.load hF (Or.inl rfl) (Or.inr (Or.inr ⟨rfl, r, rfl, hesp, hebp⟩))
  | mask_data _ ih => exact ih.within.mask_data hF hL
  | mask_data_popf _ ih => exact (ih.within.mask_data hF hL).popf_masked hF
  | mask_jump _ ih => exact ih.within.mask_jump hF hL
  | mask_top _ ih => exact ih.within.mask_top hF hL
  | mask_esp _ ih => exact (ih.within.mask_esp hF hL).noted
  | mask_ebp _ ih => exact (ih.within.mask_ebp hF hL).noted
  | store_two _ hi hstore hkept ih => exact (ih.store (store_two_check hF hi hstore hkept)).noted
  | store_one _ hi hstore hkept ih => exact (ih.store (store_one_check hF hi hstore hkept)).noted
  | call_name _ hi ih => exact (ih.within.call_name hF hi).noted
  | call_ebx _ ih => exact (ih.call_ebx hF).noted
  | jmp_ebx _ ih => exact (ih.jmp_ebx hF).noted
  | ret _ hargs ih => exact (ih.ret hF hargs).noted

theorem Regular.tame (h : Regular L threadsafe_return shown input)
    (hdirective : ∀ text, .other text ∈ input → alignment text = none) : Tame L threadsafe_return input :=
  ⟨h.targets, h.returns, h.pushes, hdirective⟩

end Steps

section Runs

variable {x86_disasm : Disasm} {image : Image} {shown : Nat → Insn → X86Insn} {len : Insn → Nat}
  {displacement : String → Word} {g : Settings} {sz : Size} {input ls : List Line} {o : Out} {threadsafe_return : Bool}

end Runs

section Sample

open Pittsfield.Loader (disassemble regOperand immOperand memOperand impliedEsp)
open Pittsfield.Loader.InsnGroup

/-- What libdisasm shows of a few lines: a call leads to the start of the code, and a store through `%ebx`
is shown as a move or an increment. -/
def sampleShown (a : Nat) (i : Insn) : X86Insn :=
  match i.args with
  | [] =>
    if i.op = "ret" then ⟨insn_controlflow, insn_return, 4, [impliedEsp], 0, 1⟩
    else if i.op = "nop" then Filler.nop.decoded
    else if i.op = "pushf" then ⟨insn_stack, insn_pushflags, 4, [impliedEsp], 0, 1⟩
    else ⟨insn_stack, insn_popflags, 4, [impliedEsp], 0, 1⟩
  | [.imm value] =>
    ⟨insn_controlflow, insn_return, 4, [immOperand ((immediate value).getD 0), impliedEsp], 1, 3⟩
  | [.reg (.r32 r)] =>
    if i.op = "popl" then ⟨insn_stack, insn_pop, 4, [regOperand r true, impliedEsp], 1, 1⟩
    else ⟨insn_stack, insn_push, 4, [regOperand r false, impliedEsp], 1, 1⟩
  | [.const _] =>
    ⟨insn_controlflow, insn_call, 4,
      [⟨.relative_far (-(BitVec.ofNat 32 a + 5)), .op_dword, false, false⟩, impliedEsp], 1, 5⟩
  | [.star _] =>
    if i.op = "call" then ⟨insn_controlflow, insn_call, 4, [regOperand .ebx false, impliedEsp], 1, 2⟩
    else ⟨insn_controlflow, insn_jmp, 4, [regOperand .ebx false], 1, 2⟩
  | [.mem _ _ _ _] => ⟨insn_arithmetic, insn_inc, 4, [memOperand .ebx], 1, 2⟩
  | [.imm value, .reg (.r32 r)] =>
    if i.op = "andl" then
      ⟨insn_logic, insn_and, 4, [regOperand r true, immOperand ((immediate value).getD 0)], 2, 6⟩
    else
      ⟨insn_arithmetic, insn_add, 4,
        [regOperand r true, ⟨.immediate ((immediate value).getD 0), .op_byte, false, false⟩], 2, 3⟩
  | [.imm value, .mem _ (some .esp) _ _] =>
    ⟨insn_logic, insn_and, 4, [memOperand .esp, immOperand ((immediate value).getD 0)], 2, 7⟩
  | [.imm value, _] =>
    ⟨insn_move, insn_mov, 4, [memOperand .ebx, immOperand ((immediate value).getD 0)], 2, 6⟩
  | [.reg r, .reg _] =>
    ⟨insn_move, insn_mov, 4, [regOperand .ebx true, ⟨.register r, .op_dword, false, false⟩], 2, 2⟩
  | [.reg _, _] => ⟨insn_move, insn_mov, 4, [memOperand .ebx, regOperand .eax false], 2, 2⟩
  | _ => ⟨insn_move, insn_mov, 4, [regOperand .ebx true, memOperand .eax], 2, 2⟩

/-- A function that calls itself, with a frame pointer to restore. -/
def callsItself : List Line :=
  [.label "f", .insn ⟨"pushl", [.reg (.r32 .ebp)]⟩, .insn (callName ⟨"f", by decide⟩),
    .insn ⟨"popl", [.reg (.r32 .ebp)]⟩, .insn ⟨"ret", []⟩]

theorem sampleShown_explicit (a : Nat) (i : Insn) : (sampleShown a i).explicit_count ≤ 3 := by
  rw [sampleShown]
  split <;> (try split_ifs) <;> exact Nat.le_of_ble_eq_true rfl

theorem sampleShown_faithful {input : List Line}
    (hstores : ∀ i, .insn i ∈ input → ∀ target ∈ i.args, target.inMemory = false) :
    Faithful (compute_sizes {} .classic) input sampleShown where
  pushf _ := ⟨rfl, rfl, sampleShown_explicit _ _, rfl⟩
  popf _ := ⟨rfl, rfl, sampleShown_explicit _ _, rfl⟩
  mask a v r _ := by
    have himm := immediate_hexConst v
    refine ⟨rfl, rfl, sampleShown_explicit _ _, ?_⟩
    show [regOperand r true, immOperand ((immediate (hexConst v)).getD 0)] = _
    rw [himm, Option.getD_some]
  mask_top a v _ := by
    have himm := immediate_hexConst v
    refine ⟨rfl, rfl, sampleShown_explicit _ _, ?_⟩
    show [memOperand .esp, immOperand ((immediate (hexConst v)).getD 0)] = _
    rw [himm, Option.getD_some]
  popl _ := ⟨rfl, rfl, sampleShown_explicit _ _, rfl⟩
  addl _ _ := ⟨_, rfl, rfl, rfl, sampleShown_explicit _ _, rfl⟩
  jmp _ := ⟨rfl, rfl, sampleShown_explicit _ _, rfl⟩
  call _ := ⟨rfl, rfl, sampleShown_explicit _ _, rfl⟩
  ret _ := ⟨rfl, rfl, sampleShown_explicit _ _, rfl⟩
  ret_immediate _ _ := ⟨_, rfl, rfl, rfl, sampleShown_explicit _ _, rfl⟩
  load_reg _ r := by cases r <;> exact ⟨_, rfl, rfl, sampleShown_explicit _ _, rfl⟩
  load a i target hi htarget := by
    refine ⟨memOperand .eax, Or.inl rfl, ?_⟩
    obtain rfl | rfl := hi <;> cases target <;>
      first
        | exact ⟨rfl, rfl, sampleShown_explicit _ _, rfl⟩
        | simp [Operand.inMemory] at htarget
  store_two a op source target hi hstore _ := by
    have hnone := hstores _ hi target (by simp)
    rw [hnone, Bool.and_false, Bool.false_and] at hstore
    cases hstore
  store_one a op target hi hstore _ := by
    have hnone := hstores _ hi target (by simp)
    rw [hnone, Bool.false_and] at hstore
    cases hstore
  call_name a name hi := by
    refine ⟨_, Or.inr rfl, ⟨rfl, rfl, sampleShown_explicit _ _, rfl⟩, ?_⟩
    have htarget : Loader.relativeTarget (compute_sizes {} .classic) (sampleShown a (callName name)) a
        (.relative_far (-(BitVec.ofNat 32 a + 5))) = BitVec.ofNat 32 (compute_sizes {} .classic).code_start := by
      show BitVec.ofNat 32 _ + BitVec.ofNat 32 a + 5 + -(BitVec.ofNat 32 a + 5) = _
      rw [BitVec.add_assoc (BitVec.ofNat 32 _), BitVec.add_neg_eq_sub, BitVec.add_sub_cancel]
    show Lands _ (Loader.relativeTarget _ _ _ (.relative_far (-(BitVec.ofNat 32 a + 5))))
    rw [htarget]
    decide +kernel

/-- The lengths of what can be encoded. -/
def encodedLength (i : Insn) : Nat := (encode (fun _ => 0) i).elim 0 List.length

theorem encodedLength_true : TrueLengths encodedLength fun _ => 0 := by
  intro i code hcode
  rw [encodedLength, hcode]
  rfl

theorem callsItself_lines {i : Insn} (h : .insn i ∈ callsItself) :
    i = ⟨"pushl", [.reg (.r32 .ebp)]⟩ ∨ i = callName ⟨"f", by decide⟩ ∨ i = ⟨"popl", [.reg (.r32 .ebp)]⟩ ∨
      i = ⟨"ret", []⟩ := by
  simpa only [callsItself, List.mem_cons, List.not_mem_nil, or_false, reduceCtorEq, false_or,
    Line.insn.injEq] using h

theorem callsItself_faithful : Faithful (compute_sizes {} .classic) callsItself sampleShown := by
  refine sampleShown_faithful fun i hi target htarget => ?_
  obtain rfl | rfl | rfl | rfl := callsItself_lines hi
  · rw [List.mem_singleton.mp htarget]
    rfl
  · rw [List.mem_singleton.mp htarget]
    rfl
  · rw [List.mem_singleton.mp htarget]
    rfl
  · cases htarget

theorem callsItself_estimated : Estimated encodedLength false callsItself := by
  have hlines : ∀ i ∈ [(⟨"pushl", [.reg (.r32 .ebp)]⟩ : Insn), callName ⟨"f", by decide⟩,
      ⟨"popl", [.reg (.r32 .ebp)]⟩, ⟨"ret", []⟩], encodedLength i ≤ insn_len i := by decide +kernel
  intro i hi j n hpass
  have hcases := callsItself_lines hi
  cases hpass with
  | line =>
    refine hlines i ?_
    simpa only [List.mem_cons, List.not_mem_nil, or_false] using hcases
  | leaTwo => simp [callName] at hcases
  | storeTwo => simp [callName] at hcases
  | leaOne hstore =>
    simp only [callName, Insn.mk.injEq, List.cons.injEq, and_true, reduceCtorEq, and_false, or_false] at hcases
    obtain ⟨-, rfl⟩ | ⟨-, rfl⟩ | ⟨-, rfl⟩ := hcases <;> cases hstore
  | storeOne hstore =>
    simp only [callName, Insn.mk.injEq, List.cons.injEq, and_true, reduceCtorEq, and_false, or_false] at hcases
    obtain ⟨-, rfl⟩ | ⟨-, rfl⟩ | ⟨-, rfl⟩ := hcases <;> cases hstore
  | @ret args _ =>
    have hargs : args = [] := by simpa [callName] using hcases
    subst hargs
    exact Nat.le_of_eq rfl
  | add hoption => cases hoption
  | call => simp [callName] at hcases
  | jmp => simp [callName] at hcases

theorem callsItself_regular : Regular (compute_sizes {} .classic) false sampleShown callsItself where
  targets op r _ hi := by simp [callsItself, callName] at hi
  returns args hi := by
    have hargs : args = [] := by simpa [callName] using callsItself_lines hi
    exact Or.inl hargs
  pushes i hi hstack o p o' := by
    obtain rfl | rfl | rfl | rfl := callsItself_lines hi
    · exact fun hrun => nomatch hrun
    · exact absurd hstack (by decide)
    · exact fun hrun => nomatch hrun
    · exact absurd hstack (by decide)
  own o i ls hreach hkept := by
    obtain ⟨done, hdone⟩ := hreach.suffix
    have hi : .insn i ∈ callsItself := by
      rw [hdone]
      exact List.mem_append_right _ List.mem_cons_self
    obtain ⟨o', p, hrun⟩ := hkept
    obtain rfl | rfl | rfl | rfl := callsItself_lines hi
    · refine ⟨fun a => ⟨rfl, rfl, sampleShown_explicit _ _⟩, fun _ _ _ _ _ _ => ⟨_, rfl, ?_, nofun⟩⟩
      exact ⟨rfl, rfl, nofun, fun _ => Or.inl rfl, nofun, fun _ => rfl⟩
    · cases hrun
    · refine ⟨fun a => ⟨rfl, rfl, sampleShown_explicit _ _⟩, fun _ _ _ _ _ _ => ⟨_, rfl, ?_, nofun⟩⟩
      exact ⟨rfl, rfl, fun _ => by decide, fun _ => Or.inl rfl, nofun, fun _ => rfl⟩
    · cases hrun

/-- `addl` of a byte to `%esp`. -/
def disassembleBump : Disasm := fun image a =>
  match image.drop a with
  | 0x83 :: 0xc4 :: d :: _ =>
    some ⟨insn_arithmetic, insn_add, 4,
      [regOperand .esp true, ⟨.immediate (d.signExtend 32), .op_byte, false, false⟩], 2, 3⟩
  | _ => none

/-- libdisasm on these instructions, on fillers and on a sum. -/
def disassembleFilled : Disasm := fun image a =>
  (disassemble image a).or (((Filler.decode (image.drop a)).map fun r => r.1.decoded).or (disassembleBump image a))

/-- The code of the function: one byte, the fillers of a chunk and of the call, and from 27 on the call, the
pop, the two masks and the return. -/
def callsItselfCode : Image :=
  [0x55] ++ padCode (nop_pad 15) ++ padCode (nop_pad 11) ++ [0xe8, 0xe0, 0xff, 0xff, 0xff] ++ [0x5d] ++
    [0x81, 0xe5] ++ Loader.codedBytes classic.data_mask ++ [0x81, 0x24, 0x24] ++
    Loader.codedBytes classic.jump_mask ++ [0xc3]

/-- What the script prints for the function. -/
def callsItselfItems : List Item :=
  [.align, .label "f", .insn ⟨"pushl", [.reg (.r32 .ebp)]⟩, .align, .nops 11,
    .insn (callName ⟨"f", by decide⟩), .insn ⟨"popl", [.reg (.r32 .ebp)]⟩,
    .insn (andData classic .ebp), .insn (andJump classic (.mem none (some .esp) none none)), .insn ⟨"ret", []⟩]

/-- Fillers where a long, a short or a single byte has been left. -/
theorem callsItself_fillers :
    (∀ a ∈ [1, 8, 16], disassembleFilled callsItselfCode a = some (Filler.lea .esi .esi 0 4 true).decoded) ∧
      disassembleFilled callsItselfCode 23 = some (Filler.lea .esi .esi 0 1 true).decoded ∧
      disassembleFilled callsItselfCode 15 = some Filler.nop.decoded := by
  decide +kernel

theorem callsItself_insns : ∀ v ∈ [((0, ⟨"pushl", [.reg (.r32 .ebp)]⟩) : Nat × Insn),
    (27, callName ⟨"f", by decide⟩), (32, ⟨"popl", [.reg (.r32 .ebp)]⟩),
    (33, andData (compute_sizes {} .classic) .ebp),
    (39, andJump (compute_sizes {} .classic) (.mem none (some .esp) none none)), (46, ⟨"ret", []⟩)],
      disassembleFilled callsItselfCode v.1 = some (sampleShown v.1 v.2) ∧
        (sampleShown v.1 v.2).size = encodedLength v.2 ∧ 0 < encodedLength v.2 := by
  decide +kernel

theorem callsItself_laid :
    Laid (compute_sizes {} .classic) disassembleFilled callsItselfCode sampleShown encodedLength 0 callsItselfItems := by
  obtain ⟨hlong, hshort, hone⟩ := callsItself_fillers
  have hinsns := callsItself_insns
  simp only [List.forall_mem_cons, List.not_mem_nil, false_implies, implies_true, and_true] at hlong hinsns
  obtain ⟨hpush, hcall, hpop, hdata, hjump, hret⟩ := hinsns
  have hlea := fun size => @Filler.allowed_lea size true
  refine ⟨.nil _, trivial, hpush, ?_, ?_, hcall, hpop, hdata, hjump, hret, trivial⟩
  · exact .cons (hlea 4) hlong.1 (.cons (hlea 4) hlong.2.1 (.cons Filler.allowed_nop hone (.nil _)))
  · exact .cons (hlea 4) hlong.2.2 (.cons (hlea 1) hshort (.nil _))

theorem callsItself_run : ∃ o, Reach (compute_sizes {} .classic) false callsItself o [] ∧
    o.printed = callsItselfItems :=
  ⟨_, .step (.step (.step (.step (.step .start rfl) rfl) rfl) rfl) rfl, rfl⟩

end Sample

end Pittsfield.Rewrite
