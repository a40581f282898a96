import Pittsfield.Loader.Chunks
import Pittsfield.Rewrite.Verified

/-!
# The text of the main module before `verify()`

The entry chunk, the exit chunk and the stubs, which the script prints in front of the code of
the main module.
-/

namespace Pittsfield.Rewrite

open Pittsfield.Foundation
open Pittsfield.Region
open Pittsfield.Machine
open Pittsfield.Loader (Image Disasm X86Insn VState Fits Is slot)
open Pittsfield.Loader.InsnType

/-- The calls of the entry chunk and of the exit chunk. -/
structure CallsMain (input : List Line) : Prop where
  start : .insn (callName ⟨"_start", by decide⟩) ∈ input
  exit : .insn (callName ⟨"exit", by decide⟩) ∈ input

/-- What libdisasm shows of the other lines there. -/
structure FaithfulMain (shown : Nat → Insn → X86Insn) : Prop where
  pushl (a : Nat) (r : Reg32) : Is (shown a ⟨"pushl", [.reg (.r32 r)]⟩) insn_push [Loader.regOperand r false]
  nop (a : Nat) : Is (shown a ⟨"nop", []⟩) insn_nop []

section Rules

variable {L : Layout} {x86_disasm : Disasm} {image : Image} {shown : Nat → Insn → X86Insn} {len : Insn → Nat}
  {input : List Line} {items : List Item} {b : Loader.Bound} {o : Out}

variable (hM : FaithfulMain shown) (hF : Faithful L input shown) (hL : Usual L)

include hM

/-- A push uses `%esp`. -/
theorem Reaches.pushl (r : Reg32) (h : Reaches L x86_disasm image shown len items (Within b)) :
    Reaches L x86_disasm image shown len (items ++ [.insn ⟨"pushl", [.reg (.r32 r)]⟩])
      (Within { ebp := b.ebp }) := by
  have hflags : ∀ safety unsafety a, Loader.operandFlags L safety unsafety
      (shown a ⟨"pushl", [.reg (.r32 r)]⟩) a = .ok (Loader.USE_ESP ||| Loader.CHANGE_ESP) := by
    intro safety unsafety a
    rw [Loader.operandFlags, (hM.pushl a r).args]
    simp only [Loader.unaryFlags, Loader.regOperand, Loader.X86Op.type, Loader.registerFlags, (hM.pushl a r).type]
  refine (h.quiet rfl (hM.pushl · r) hflags rfl rfl rfl fun hset => ?_).mono fun st hst => hst.1.uses rfl rfl
  cases hset

theorem Reaches.nop (h : Reaches L x86_disasm image shown len items (Within b)) :
    Reaches L x86_disasm image shown len (items ++ [.insn ⟨"nop", []⟩]) (Within b) := by
  have hflags : ∀ safety unsafety a, Loader.operandFlags L safety unsafety (shown a ⟨"nop", []⟩) a =
      .ok Loader.NONE := by
    intro safety unsafety a
    rw [Loader.operandFlags, (hM.nop a).args]
    simp only [Loader.nullaryFlags, (hM.nop a).type]
  refine (h.quiet rfl hM.nop hflags rfl rfl rfl fun hset => ?_).mono fun st hst => hst.1.keeps rfl
  cases hset

include hF hL

/-- The entry chunk and the exit chunk: the bump behind the first call is used by the push behind it. -/
theorem mainPrologue_reaches (hcalls : CallsMain input) :
    Reaches L x86_disasm image shown len (mainPrologue L {}).printed (Within {}) := by
  have hchunk := hL.chunk
  have hsection : Reaches L x86_disasm image shown len
      [.text "\t.section\t.text.startup,\"ax\",@progbits"] (Within {}) :=
    Reaches.still _ (reaches_nil (Fits.mono Loader.fits_first nofun nofun nofun)) fun _ => rfl
  have hpadded : Reaches L x86_disasm image shown len
      ([.text "\t.section\t.text.startup,\"ax\",@progbits"] ++ [.nops (L.chunk_size - 7)]) (Within {}) :=
    hsection.fill (idle_within _) (Or.inr (Or.inr ⟨_, rfl⟩))
  have hentry := ((hpadded.pushl hM .edx).pushl hM .ecx).call_name hF hcalls.start
  have hexit := (((hentry.addl_esp hF ⟨"8", by decide⟩).pushl hM .eax).mask_esp hF hL).call_name hF
    hcalls.exit
  have hall := hexit.fill (idle_within _) (Or.inl rfl)
  have hnone : ¬ L.chunk_size < 0 + 6 := by omega
  have hpad : ¬ L.chunk_size - 7 = 0 := by omega
  simp only [mainPrologue, Out.print, Out.nop_pad, Out.emit, maybe_align_for, if_neg hpad, if_neg hnone]
  exact hall

theorem printStub_reaches (f : String) (h : Reaches L x86_disasm image shown len o.printed (Within {})) :
    Reaches L x86_disasm image shown len (printStub L o f).printed (Within {}) := by
  have hglobl : ∀ a, advance len L.chunk_size a (.text (".globl " ++ f)) = a := by
    intro a
    have halignment : alignment (".globl " ++ f) = none := by
      rw [alignment, String.toList_append]
      rfl
    rw [advance, halignment]
    rfl
  have hlabel := (h.still _ hglobl).still (.label f) fun _ => rfl
  have hpopped := (((((hlabel.nop hM).nop hM).nop hM).nop hM).nop hM).popl hF
  exact ((hpopped.mask_jump hF hL).jmp_ebx hF).fill (idle_within _) (Or.inl rfl)

theorem print_stubs_reaches (names : List String) (h : Reaches L x86_disasm image shown len o.printed (Within {})) :
    Reaches L x86_disasm image shown len (print_stubs L names o).printed (Within {}) := by
  induction names generalizing o with
  | nil => exact h
  | cons f names ih => exact ih (printStub_reaches hM hF hL f h)

end Rules

section Places

variable {len : Insn → Nat} {displacement : String → Word} {g : Settings} {sz : Size} {a : Nat}

/-- A line without code and what follows it. -/
theorem placed_still (item : Item) {items : List Item} {chunk_size b : Nat}
    (hitem : Placed len chunk_size a item ∧ advance len chunk_size a item = a)
    (hrest : AllPlaced len chunk_size a items ∧ endOf len chunk_size a items = b) :
    AllPlaced len chunk_size a (item :: items) ∧ endOf len chunk_size a (item :: items) = b := by
  obtain ⟨hplaced, hend⟩ := hrest
  refine ⟨⟨hitem.1, ?_⟩, ?_⟩
  · rwa [hitem.2]
  · show endOf len chunk_size (advance len chunk_size a item) items = b
    rwa [hitem.2]

/-- Code that fits into the chunk at whose start it stands, and the alignment behind it. -/
theorem placed_chunk {items : List Item} {L : Layout} (ha : L.chunk_size ∣ a)
    (hcode : ∀ item ∈ items, (∃ i, item = .insn i) ∨ ∃ bytes, item = .nops bytes)
    (hpos : 0 < (items.map (codeLength len)).sum) (hfit : (items.map (codeLength len)).sum < L.chunk_size) :
    AllPlaced len L.chunk_size a (items ++ [.align]) ∧
      endOf len L.chunk_size a (items ++ [.align]) = a + L.chunk_size := by
  have hzero : a % L.chunk_size = 0 := Nat.mod_eq_zero_of_dvd ha
  obtain ⟨hplaced, hend⟩ := @code_placed len items L.chunk_size a hcode (by omega)
  rw [allPlaced_append, endOf_append, hend]
  refine ⟨⟨hplaced, trivial, trivial⟩, ?_⟩
  show _ + room L.chunk_size _ = _
  rw [room_eq ha hpos hfit]
  omega

theorem insns_code (is : List Insn) :
    ∀ item ∈ is.map Item.insn, (∃ i, item = .insn i) ∨ ∃ bytes, item = .nops bytes := by
  intro item hmem
  obtain ⟨i, -, rfl⟩ := List.mem_map.mp hmem
  exact Or.inl ⟨i, rfl⟩

theorem stub_placed (hlen : TrueLengths len displacement) (ha : (compute_sizes g sz).chunk_size ∣ a) (f : String) :
    AllPlaced len (compute_sizes g sz).chunk_size a (stubItems (compute_sizes g sz) f) ∧
      endOf len (compute_sizes g sz).chunk_size a (stubItems (compute_sizes g sz) f) =
        a + (compute_sizes g sz).chunk_size := by
  have hchunk := chunk_ge g sz
  have hnop : len ⟨"nop", []⟩ = 1 := hlen _ [0x90] rfl
  have hpop : len ⟨"popl", [.reg (.r32 .ebx)]⟩ = 1 := hlen _ [0x5b] rfl
  have hjmp : len ⟨"jmp", [.star (.reg (.r32 .ebx))]⟩ = 2 := hlen _ [0xff, 0xe3] rfl
  have hsum : (((stubInsns (compute_sizes g sz)).map Item.insn).map (codeLength len)).sum = 14 := by
    simp [stubInsns, codeLength, hnop, hpop, hjmp, length_andJump hlen]
  have halignment : alignment (".globl " ++ f) = none := by
    rw [alignment, String.toList_append]
    rfl
  refine placed_still _ ⟨trivial, ?_⟩ (placed_still _ ⟨ha, rfl⟩
    (placed_chunk ha (insns_code _) (by omega) (by omega)))
  rw [advance, halignment]
  rfl

theorem stubs_placed (hlen : TrueLengths len displacement) (ha : (compute_sizes g sz).chunk_size ∣ a)
    (names : List String) :
    AllPlaced len (compute_sizes g sz).chunk_size a (names.flatMap (stubItems (compute_sizes g sz))) := by
  induction names generalizing a with
  | nil => trivial
  | cons f names ih =>
    obtain ⟨hplaced, hend⟩ := stub_placed hlen ha f
    rw [List.flatMap_cons, allPlaced_append, hend]
    exact ⟨hplaced, ih (Nat.dvd_add ha (Nat.dvd_refl _))⟩

/-- The entry chunk. -/
def entryItems (L : Layout) (start : Const) : List Item :=
  padItems (L.chunk_size - 7) ++ ([⟨"pushl", [.reg (.r32 .edx)]⟩, ⟨"pushl", [.reg (.r32 .ecx)]⟩,
    callName start] : List Insn).map .insn

/-- The exit chunk up to the room at its end. -/
def exitItems (L : Layout) (eight exit : Const) : List Item :=
  ([⟨"addl", [.imm eight, .reg (.r32 .esp)]⟩, ⟨"pushl", [.reg (.r32 .eax)]⟩, andData L .esp,
    callName exit] : List Insn).map .insn

theorem prologueItems_eq (L : Layout) : prologueItems L ++ [.align] =
    entryItems L ⟨"_start", by decide⟩ ++ (exitItems L ⟨"8", by decide⟩ ⟨"exit", by decide⟩ ++ [.align]) := by
  simp [prologueItems, entryItems, exitItems]

theorem length_pushl (hlen : TrueLengths len displacement) (r : Reg32) : len ⟨"pushl", [.reg (.r32 r)]⟩ = 1 :=
  hlen _ [0x50 + regCode r] rfl

theorem length_callName (hlen : TrueLengths len displacement) (name : Const) : len (callName name) = 5 :=
  hlen (callName name) (0xe8 :: Loader.codedBytes (displacement name.val)) rfl

/-- The padding fills up the entry chunk. -/
theorem entry_placed (hlen : TrueLengths len displacement) (start : Const) :
    AllPlaced len (compute_sizes g sz).chunk_size 0 (entryItems (compute_sizes g sz) start) ∧
      endOf len (compute_sizes g sz).chunk_size 0 (entryItems (compute_sizes g sz) start) =
        (compute_sizes g sz).chunk_size := by
  have hchunk := chunk_ge g sz
  obtain ⟨hpad, hpadlen⟩ := padItems_code len ((compute_sizes g sz).chunk_size - 7)
  have hsum : ((entryItems (compute_sizes g sz) start).map (codeLength len)).sum = (compute_sizes g sz).chunk_size := by
    rw [entryItems, List.map_append, List.sum_append, hpadlen]
    simp only [List.map_cons, List.map_nil, List.sum_cons, List.sum_nil, codeLength, length_pushl hlen,
      length_callName hlen]
    omega
  have hcode : ∀ item ∈ entryItems (compute_sizes g sz) start,
      (∃ i, item = .insn i) ∨ ∃ bytes, item = .nops bytes := by
    intro item hmem
    obtain hmem | hmem := List.mem_append.mp hmem
    · exact hpad item hmem
    · exact insns_code _ item hmem
  have hplaced := @code_placed len _ (compute_sizes g sz).chunk_size 0 hcode (by
    rw [hsum, Nat.zero_mod, Nat.zero_add])
  rwa [hsum, Nat.zero_add] at hplaced

theorem exit_placed (hlen : TrueLengths len displacement) (ha : (compute_sizes g sz).chunk_size ∣ a)
    (exit : Const) : AllPlaced len (compute_sizes g sz).chunk_size a
        (exitItems (compute_sizes g sz) ⟨"8", by decide⟩ exit ++ [.align]) ∧
      endOf len (compute_sizes g sz).chunk_size a
          (exitItems (compute_sizes g sz) ⟨"8", by decide⟩ exit ++ [.align]) =
        a + (compute_sizes g sz).chunk_size := by
  have hchunk := chunk_ge g sz
  have hadd : len ⟨"addl", [.imm ⟨"8", by decide⟩, .reg (.r32 .esp)]⟩ = 3 := by
    refine hlen _ [0x83, 0xc4, 8] ?_
    show (immediate ⟨"8", by decide⟩).map (encodeOnReg 0 .esp) = _
    decide +kernel
  have hmask : len (andData (compute_sizes g sz) .esp) = 6 := length_andData hlen (by decide)
  have hsum : ((exitItems (compute_sizes g sz) ⟨"8", by decide⟩ exit).map (codeLength len)).sum = 15 := by
    simp [exitItems, codeLength, length_pushl hlen, length_callName hlen, hadd, hmask]
  exact placed_chunk ha (insns_code _) (by rw [hsum]; decide) (by rw [hsum]; omega)

theorem main_text_placed (hlen : TrueLengths len displacement) (names : List String) :
    AllPlaced len (compute_sizes g sz).chunk_size 0
      (print_stubs (compute_sizes g sz) names (mainPrologue (compute_sizes g sz) {})).printed := by
  obtain ⟨hentry, hentryend⟩ := @entry_placed len displacement g sz hlen ⟨"_start", by decide⟩
  obtain ⟨hexit, hexitend⟩ := @exit_placed len displacement g sz _ hlen (Nat.dvd_refl _) ⟨"exit", by decide⟩
  have hprologue : AllPlaced len (compute_sizes g sz).chunk_size 0 (prologueItems (compute_sizes g sz) ++ [.align]) ∧
      endOf len (compute_sizes g sz).chunk_size 0 (prologueItems (compute_sizes g sz) ++ [.align]) =
        (compute_sizes g sz).chunk_size + (compute_sizes g sz).chunk_size := by
    rw [prologueItems_eq, allPlaced_append, endOf_append, hentryend]
    exact ⟨⟨hentry, hexit⟩, hexitend⟩
  obtain ⟨hplaced, hend⟩ := placed_still (.text "\t.section\t.text.startup,\"ax\",@progbits") ⟨trivial, rfl⟩ hprologue
  rw [print_stubs_printed, mainPrologue_printed, allPlaced_append, hend]
  exact ⟨hplaced, stubs_placed hlen (Nat.dvd_add (Nat.dvd_refl _) (Nat.dvd_refl _)) names⟩

end Places

/-- `verify()` accepts the entry chunk, the exit chunk and the stubs, however many there are. -/
theorem main_text_accepted {x86_disasm : Disasm} {image : Image} {shown : Nat → Insn → X86Insn} {len : Insn → Nat}
    {displacement : String → Word} {g : Settings} {sz : Size} {input : List Line} {names : List String}
    (hlen : TrueLengths len displacement) (hcalls : CallsMain input)
    (hF : Faithful (compute_sizes g sz) input shown) (hM : FaithfulMain shown)
    (hlaid : Laid (compute_sizes g sz) x86_disasm image shown len 0
      (print_stubs (compute_sizes g sz) names (mainPrologue (compute_sizes g sz) {})).printed)
    (hend : endOf len (compute_sizes g sz).chunk_size 0
      (print_stubs (compute_sizes g sz) names (mainPrologue (compute_sizes g sz) {})).printed = image.length) :
    ∃ es, Loader.verify (compute_sizes g sz) x86_disasm image = .ok es := by
  obtain ⟨st, hcomes, hoffset, -⟩ := print_stubs_reaches hM hF (usual g sz) names
    (mainPrologue_reaches hM hF (usual g sz) hcalls) ⟨hlaid, main_text_placed hlen names, hend.le⟩
  obtain ⟨es, hpass⟩ := hcomes.pass
  exact ⟨es, Loader.verify_of_pass hpass (hoffset.trans hend).ge⟩

section OneStub

/-- The text of a main module with one stub: the entry chunk, the exit chunk from 16 on and the stub at 32. Both
calls lead to the start. -/
def oneStubCode : Image :=
  padCode (nop_pad 9) ++ [0x52, 0x51] ++ [0xe8, 0xf0, 0xff, 0xff, 0xff] ++ [0x83, 0xc4, 8] ++ [0x50] ++
    [0x81, 0xe4] ++ Loader.codedBytes classic.data_mask ++ [0xe8, 0xe1, 0xff, 0xff, 0xff] ++
    padCode (nop_pad 1) ++ Loader.print_stub classic ++ padCode (nop_pad 2)

theorem oneStub_faithful : Faithful (compute_sizes {} .classic)
    [.insn (callName ⟨"_start", by decide⟩), .insn (callName ⟨"exit", by decide⟩)] sampleShown := by
  refine sampleShown_faithful fun i hi target htarget => ?_
  simp only [List.mem_cons, List.not_mem_nil, or_false, Line.insn.injEq] at hi
  obtain rfl | rfl := hi
  · rw [List.mem_singleton.mp htarget]
    rfl
  · rw [List.mem_singleton.mp htarget]
    rfl

theorem sampleShown_faithfulMain : FaithfulMain sampleShown where
  pushl _ _ := ⟨rfl, rfl, sampleShown_explicit _ _, rfl⟩
  nop _ := ⟨rfl, rfl, sampleShown_explicit _ _, rfl⟩

theorem oneStub_fillers : disassembleFilled oneStubCode 0 = some (Filler.lea .esi .esi 0 4 true).decoded ∧
    (∀ a ∈ [7, 46], disassembleFilled oneStubCode a = some (Filler.mov .esi .esi).decoded) ∧
      disassembleFilled oneStubCode 31 = some Filler.nop.decoded := by
  decide +kernel

theorem oneStub_insns : ∀ v ∈ [((9, ⟨"pushl", [.reg (.r32 .edx)]⟩) : Nat × Insn),
    (10, ⟨"pushl", [.reg (.r32 .ecx)]⟩), (11, callName ⟨"_start", by decide⟩),
    (16, ⟨"addl", [.imm ⟨"8", by decide⟩, .reg (.r32 .esp)]⟩), (19, ⟨"pushl", [.reg (.r32 .eax)]⟩),
    (20, andData (compute_sizes {} .classic) .esp), (26, callName ⟨"exit", by decide⟩), (32, ⟨"nop", []⟩),
    (33, ⟨"nop", []⟩), (34, ⟨"nop", []⟩), (35, ⟨"nop", []⟩), (36, ⟨"nop", []⟩),
    (37, ⟨"popl", [.reg (.r32 .ebx)]⟩), (38, andJump (compute_sizes {} .classic) (.reg (.r32 .ebx))),
    (44, ⟨"jmp", [.star (.reg (.r32 .ebx))]⟩)],
      disassembleFilled oneStubCode v.1 = some (sampleShown v.1 v.2) ∧
        (sampleShown v.1 v.2).size = encodedLength v.2 ∧ 0 < encodedLength v.2 := by
  decide +kernel

/-- A main module with the stub `open`. -/
theorem main_text_accepted_open : ∃ es,
    Loader.verify (compute_sizes {} .classic) disassembleFilled oneStubCode = .ok es := by
  have hprinted : (print_stubs (compute_sizes {} .classic) ["open"] (mainPrologue (compute_sizes {} .classic) {})).printed =
      .text "\t.section\t.text.startup,\"ax\",@progbits" ::
        (entryItems (compute_sizes {} .classic) ⟨"_start", by decide⟩ ++
          (exitItems (compute_sizes {} .classic) ⟨"8", by decide⟩ ⟨"exit", by decide⟩ ++ [.align])) ++
      stubItems (compute_sizes {} .classic) "open" := by
    rw [print_stubs_printed, mainPrologue_printed, prologueItems_eq]
    rfl
  obtain ⟨hlong, hshort, hone⟩ := oneStub_fillers
  have hinsns := oneStub_insns
  simp only [List.forall_mem_cons, List.not_mem_nil, false_implies, implies_true, and_true] at hshort hinsns
  obtain ⟨hedx, hecx, hstart, hadd, heax, hdata, hexit, h1, h2, h3, h4, h5, hpop, hjump, hjmp⟩ := hinsns
  have hlaid : Laid (compute_sizes {} .classic) disassembleFilled oneStubCode sampleShown encodedLength 0
      (print_stubs (compute_sizes {} .classic) ["open"] (mainPrologue (compute_sizes {} .classic) {})).printed := by
    rw [hprinted]
    refine ⟨trivial, ?_, hedx, hecx, hstart, hadd, heax, hdata, hexit, ?_, trivial, trivial, h1, h2, h3, h4, h5,
      hpop, hjump, hjmp, ?_, trivial⟩
    · exact .cons (@Filler.allowed_lea 4 true) hlong (.cons Filler.allowed_mov hshort.1 (.nil _))
    · exact .cons Filler.allowed_nop hone (.nil _)
    · exact .cons Filler.allowed_mov hshort.2 (.nil _)
  refine main_text_accepted encodedLength_true ⟨List.mem_cons_self, List.mem_cons_of_mem _ List.mem_cons_self⟩
    oneStub_faithful sampleShown_faithfulMain hlaid ?_
  rw [hprinted]
  decide +kernel

end OneStub

end Pittsfield.Rewrite
