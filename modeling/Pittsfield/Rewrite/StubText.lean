import Pittsfield.Rewrite.Calls

/-!
# The stubs of a main module

`index-stubs.pl` writes the list of the stubs and the table of the wrappers, `rewrite.pl -main`
prints two chunks and a stub for every entry of the list, and `install_stubs` of the loader
goes through the table with an address of its own. The three agree about the places.
-/

namespace Pittsfield.Rewrite

open Pittsfield.Region
open Pittsfield.Machine
open Pittsfield.Loader (Image codedBytes loadedCode install_stubs jumpTarget)

section Lists

/-- The three files of `index-stubs.pl` and the number of the next forbidden stub. -/
structure StubLists where
  stub_list : List String := []
  vx32_stub_list : List String := []
  wrappers : List String := []
  forbidden : Nat := 1
  deriving DecidableEq

/-- `/vx32/`, `fail_check` or `/^__/` -/
def keptForVx32 (name : String) : Bool :=
  (name.toList.tails.any fun cs => "vx32".toList.isPrefixOf cs) || name = "fail_check" ||
    "__".toList.isPrefixOf name.toList

def handle (l : StubLists) (name : String) : StubLists :=
  { stub_list := l.stub_list ++ [name]
    vx32_stub_list := l.vx32_stub_list ++ [if keptForVx32 name then name else "forbidden" ++ toString l.forbidden]
    wrappers := l.wrappers ++ ["wrap_" ++ name]
    forbidden := if keptForVx32 name then l.forbidden else l.forbidden + 1 }

/-- `/ \*?(\w+)\(/` -/
def stubName : List Char → Option String
  | [] => none
  | c :: cs =>
    let name := (if cs.head? = some '*' then cs.tail else cs).takeWhile wordChar
    let rest := (if cs.head? = some '*' then cs.tail else cs).dropWhile wordChar
    if c = ' ' ∧ name ≠ [] ∧ rest.head? = some '(' then some (String.ofList name) else stubName cs

/-- `m[^//] or /^\s*$/ or /^#/` -/
def skippedLine (cs : List Char) : Bool :=
  "//".toList.isPrefixOf cs || cs.all Char.isWhitespace || cs.head? = some '#'

/-- The loop over the lines of `stubs.h`, none where the script dies. -/
def readStubs : StubLists → List (List Char) → Option StubLists
  | l, [] => some l
  | l, cs :: lines =>
    if skippedLine cs then readStubs l lines
    else (stubName cs).bind fun name => readStubs (handle l name) lines

/-- `index-stubs.pl` -/
def index_stubs (lines : List (List Char)) : Option StubLists :=
  readStubs (["__udivdi3", "__divdi3", "__umoddi3", "__moddi3", "__floatdidf", "__fixdfdi"].foldl handle {})
    lines

/-- The wrappers stand in the order of the stubs. -/
theorem handle_wrappers {l : StubLists} (h : l.wrappers = l.stub_list.map ("wrap_" ++ ·)) (name : String) :
    (handle l name).wrappers = (handle l name).stub_list.map ("wrap_" ++ ·) := by
  show l.wrappers ++ [_] = (l.stub_list ++ [name]).map _
  rw [List.map_append, h]
  rfl

theorem foldl_handle {l : StubLists} (h : l.wrappers = l.stub_list.map ("wrap_" ++ ·)) (names : List String) :
    (names.foldl handle l).wrappers = (names.foldl handle l).stub_list.map ("wrap_" ++ ·) := by
  induction names generalizing l with
  | nil => exact h
  | cons name names ih => exact ih (handle_wrappers h name)

/-- What the script writes comes from handling some names in turn. -/
theorem readStubs_names {l l' : StubLists} {lines : List (List Char)} (h : readStubs l lines = some l') :
    ∃ names : List String, l' = names.foldl handle l := by
  induction lines generalizing l with
  | nil => exact ⟨[], (Option.some.inj h).symm⟩
  | cons cs lines ih =>
    rw [readStubs] at h
    by_cases hskip : skippedLine cs = true
    · rw [if_pos hskip] at h
      exact ih h
    · rw [if_neg hskip] at h
      obtain ⟨name, _, hrest⟩ := Option.bind_eq_some_iff.mp h
      obtain ⟨names, hnames⟩ := ih hrest
      exact ⟨name :: names, hnames⟩

/-- What handling names in turn gives. -/
def Listed (l : StubLists) : Prop := ∃ names : List String, l = names.foldl handle {}

theorem index_stubs_listed {lines : List (List Char)} {l : StubLists} (h : index_stubs lines = some l) :
    Listed l := by
  obtain ⟨names, hnames⟩ := readStubs_names h
  refine ⟨["__udivdi3", "__divdi3", "__umoddi3", "__moddi3", "__floatdidf", "__fixdfdi"] ++ names, ?_⟩
  rw [hnames, List.foldl_append]

theorem Listed.wrappers {l : StubLists} (h : Listed l) : l.wrappers = l.stub_list.map ("wrap_" ++ ·) := by
  have hempty : ({} : StubLists).wrappers = ({} : StubLists).stub_list.map ("wrap_" ++ ·) := rfl
  obtain ⟨names, rfl⟩ := h
  exact foldl_handle hempty names

end Lists

section Text

/-- `call name` -/
def callName (name : Const) : Insn := ⟨"call", [.const name]⟩

variable (L : Layout)

/-- What `rewrite.pl -main` prints before the stubs. -/
def mainPrologue (o : Out) : Out :=
  let o := o.print (.text "\t.section\t.text.startup,\"ax\",@progbits")
  let o := o.nop_pad (L.chunk_size - 7)
  let o := o.print (.insn ⟨"pushl", [.reg (.r32 .edx)]⟩)
  let o := o.print (.insn ⟨"pushl", [.reg (.r32 .ecx)]⟩)
  let o := o.print (.insn (callName ⟨"_start", by decide⟩))
  let o := o.print (.insn ⟨"addl", [.imm ⟨"8", by decide⟩, .reg (.r32 .esp)]⟩)
  let o := o.print (.insn ⟨"pushl", [.reg (.r32 .eax)]⟩)
  let o := (maybe_align_for L o 6).emit (andData L .esp) 6
  let o := o.print (.insn (callName ⟨"exit", by decide⟩))
  o.print .align

/-- The body of the loop of `print_stubs`. -/
def printStub (o : Out) (f : String) : Out :=
  let o := o.print (.text (".globl " ++ f))
  let o := o.print (.label f)
  let o := (List.replicate 5 (⟨"nop", []⟩ : Insn)).foldl (fun o i => o.print (.insn i)) o
  let o := { o.print (.insn ⟨"popl", [.reg (.r32 .ebx)]⟩) with this_chunk := 0 }
  let o := o.print (.insn (andJump L (.reg (.r32 .ebx))))
  let o := o.print (.insn ⟨"jmp", [.star (.reg (.r32 .ebx))]⟩)
  { o.print .align with this_chunk := 0 }

def print_stubs (names : List String) (o : Out) : Out := names.foldl (printStub L) o

end Text

section Object

/-- What the assembler and the linker add: the displacements of the calls, and what fills the
room in front of an aligned place. -/
structure Linker where
  displacement : String → Word
  fill : Nat → Image
  fill_length : ∀ n, (fill n).length = n

/-- Machine code, and the labels with their offsets. -/
structure Object where
  image : Image := []
  labels : List (String × Nat) := []

variable (k : Linker) (chunk_size : Nat)

/-- Behind how many bytes the next chunk begins. -/
def room (offset : Nat) : Nat := (chunk_size - offset % chunk_size) % chunk_size

def Object.code (b : Object) (code : Image) : Object := { b with image := b.image ++ code }

/-- The assembler on a printed line; a directive such as `.globl` makes no code. -/
def Object.place (b : Object) : Item → Option Object
  | .insn i => (encode k.displacement i).map b.code
  | .nops bytes => some (b.code (padCode (nop_pad bytes)))
  | .align => some (b.code (k.fill (room chunk_size b.image.length)))
  | .align2 => some (b.code (k.fill (room 4 b.image.length)))
  | .label name => some { b with labels := b.labels ++ [(name, b.image.length)] }
  | .text _ => some b

def Object.assemble (b : Object) (items : List Item) : Option Object := items.foldlM (Object.place k chunk_size) b

/-- The table with the null pointer behind the wrappers, as `install_stubs` reads it. -/
def untilNull (table : List Word) : List Word := table.takeWhile (· ≠ 0)

variable {k chunk_size} {b b' : Object} {items rest : List Item} {code : Image}

theorem assemble_append (h : b.assemble k chunk_size items = some b') :
    b.assemble k chunk_size (items ++ rest) = b'.assemble k chunk_size rest := by
  rw [Object.assemble, List.foldlM_append]
  rw [Object.assemble] at h
  rw [h]
  rfl

theorem assemble_cons {item : Item} (h : b.place k chunk_size item = some b') :
    b.assemble k chunk_size (item :: items) = b'.assemble k chunk_size items := by
  rw [Object.assemble, List.foldlM_cons, h]
  rfl

/-- Lines that make code are assembled in turn. -/
theorem assemble_code (h : itemsCode k.displacement items = some code) :
    b.assemble k chunk_size items = some (b.code code) := by
  induction items generalizing b code with
  | nil =>
    rw [← Option.some.inj h, Object.code, List.append_nil]
    rfl
  | cons item items ih =>
    obtain ⟨front, hfront, hmore⟩ := Option.bind_eq_some_iff.mp h
    obtain ⟨back, hback, hcode⟩ := Option.bind_eq_some_iff.mp hmore
    have hplace : b.place k chunk_size item = some (b.code front) := by
      cases item with
      | insn i => exact congrArg (Option.map b.code) hfront
      | nops bytes => exact congrArg (Option.map b.code) hfront
      | align => cases hfront
      | align2 => cases hfront
      | label name => cases hfront
      | text line => cases hfront
    rw [assemble_cons hplace, ih hback, ← Option.some.inj hcode, Object.code, Object.code, Object.code,
      List.append_assoc]

theorem room_eq {n len : Nat} (h : chunk_size ∣ n) (hpos : 0 < len) (hlen : len < chunk_size) :
    room chunk_size (n + len) = chunk_size - len := by
  obtain ⟨q, rfl⟩ := h
  rw [room, Nat.mul_add_mod, Nat.mod_eq_of_lt hlen, Nat.mod_eq_of_lt (by omega)]

end Object

section Stubs

/-- The instructions of a stub. -/
def stubInsns (L : Layout) : List Insn :=
  List.replicate 5 ⟨"nop", []⟩ ++
    [⟨"popl", [.reg (.r32 .ebx)]⟩, andJump L (.reg (.r32 .ebx)), ⟨"jmp", [.star (.reg (.r32 .ebx))]⟩]

/-- What is printed for a stub. -/
def stubItems (L : Layout) (f : String) : List Item :=
  .text (".globl " ++ f) :: .label f :: ((stubInsns L).map .insn ++ [.align])

variable {k : Linker} {g : Settings} {sz : Size} {b : Object}

theorem printStub_printed (L : Layout) (o : Out) (f : String) :
    (printStub L o f).printed = o.printed ++ stubItems L f := by
  simp [printStub, Out.print, stubItems, stubInsns, List.replicate]

theorem print_stubs_printed (L : Layout) (names : List String) (o : Out) :
    (print_stubs L names o).printed = o.printed ++ names.flatMap (stubItems L) := by
  induction names generalizing o with
  | nil => exact (List.append_nil _).symm
  | cons f names ih =>
    rw [print_stubs, List.foldl_cons, ← print_stubs, ih, printStub_printed, List.append_assoc]
    rfl

/-- The code of a stub is what the loader takes a slot to hold. -/
theorem stubInsns_code (g : Settings) (sz : Size) (k : Linker) :
    itemsCode k.displacement ((stubInsns (compute_sizes g sz)).map .insn) =
      some (Loader.print_stub (compute_sizes g sz)) := by
  have hnops : itemsCode k.displacement ((List.replicate 5 (⟨"nop", []⟩ : Insn)).map .insn) =
      some (List.replicate 5 0x90) := rfl
  have hpop : encode k.displacement ⟨"popl", [.reg (.r32 .ebx)]⟩ = some [0x5b] := rfl
  have hmask : encode k.displacement (andJump (compute_sizes g sz) (.reg (.r32 .ebx))) = _ :=
    encode_andMask_reg (masks_wide g sz).2 (by decide) k.displacement
  have hjmp : encode k.displacement ⟨"jmp", [.star (.reg (.r32 .ebx))]⟩ = some [0xff, 0xe3] := rfl
  have hrest := itemsCode_append (itemsCode_one hpop)
    (itemsCode_append (itemsCode_one hmask) (itemsCode_one hjmp))
  have hall := itemsCode_append hnops hrest
  rw [stubInsns, List.map_append]
  exact hall

theorem chunk_ge (g : Settings) (sz : Size) : 16 ≤ (compute_sizes g sz).chunk_size := by
  show 16 ≤ 1 <<< g.log_chunk_size
  rcases g.supported with h | h <;> rw [h] <;> decide

/-- A stub takes one chunk. -/
theorem assemble_stub (hb : (compute_sizes g sz).chunk_size ∣ b.image.length) (f : String) :
    b.assemble k (compute_sizes g sz).chunk_size (stubItems (compute_sizes g sz) f) =
      some ⟨b.image ++ (Loader.print_stub (compute_sizes g sz) ++
          k.fill ((compute_sizes g sz).chunk_size - 14)), b.labels ++ [(f, b.image.length)]⟩ := by
  have hchunk := chunk_ge g sz
  have hlen : (Loader.print_stub (compute_sizes g sz)).length = 14 := rfl
  rw [stubItems, assemble_cons rfl, assemble_cons rfl, assemble_append (assemble_code (stubInsns_code g sz k)),
    assemble_cons rfl]
  show some (Object.code _ (k.fill (room _ (b.image ++ Loader.print_stub (compute_sizes g sz)).length))) = _
  rw [List.length_append, hlen, room_eq hb (by decide) (by omega), Object.code, Object.code, List.append_assoc]

/-- All stubs: their labels, and their code at the labels. -/
theorem assemble_stubs (hb : (compute_sizes g sz).chunk_size ∣ b.image.length) (names : List String) :
    ∃ b', b.assemble k (compute_sizes g sz).chunk_size (names.flatMap (stubItems (compute_sizes g sz))) = some b' ∧
      b'.labels = b.labels ++ names.mapIdx (fun i f => (f, b.image.length + i * (compute_sizes g sz).chunk_size)) ∧
      (∃ tail, b'.image = b.image ++ tail) ∧
      ∀ i < names.length, ∃ front tail, b'.image = front ++ (Loader.print_stub (compute_sizes g sz) ++ tail) ∧
        front.length = b.image.length + i * (compute_sizes g sz).chunk_size := by
  induction names generalizing b with
  | nil =>
    refine ⟨b, rfl, (List.append_nil _).symm, ⟨[], (List.append_nil _).symm⟩, ?_⟩
    intro i hi
    exact absurd hi (Nat.not_lt_zero i)
  | cons f names ih =>
    have hchunk := chunk_ge g sz
    have hone : (Loader.print_stub (compute_sizes g sz) ++
        k.fill ((compute_sizes g sz).chunk_size - 14)).length = (compute_sizes g sz).chunk_size := by
      rw [List.length_append, k.fill_length]
      show 14 + _ = _
      omega
    have hnext : (b.image ++ (Loader.print_stub (compute_sizes g sz) ++
        k.fill ((compute_sizes g sz).chunk_size - 14))).length =
          b.image.length + (compute_sizes g sz).chunk_size := by
      rw [List.length_append, hone]
    obtain ⟨b', hrun, hlabels, ⟨tail, htail⟩, hstubs⟩ := @ih ⟨b.image ++ (Loader.print_stub (compute_sizes g sz) ++
      k.fill ((compute_sizes g sz).chunk_size - 14)), b.labels ++ [(f, b.image.length)]⟩
      (by rw [hnext]; exact Nat.dvd_add hb (Nat.dvd_refl _))
    refine ⟨b', ?_, ?_, ?_, ?_⟩
    · rw [List.flatMap_cons, assemble_append (assemble_stub hb f), hrun]
    · rw [hlabels, List.mapIdx_cons, List.append_assoc]
      show b.labels ++ ((f, b.image.length) :: names.mapIdx _) = _
      rw [Nat.zero_mul, Nat.add_zero, hnext]
      congr 3
      funext i f
      rw [Nat.add_mul, Nat.one_mul]
      congr 1
      omega
    · exact ⟨_, by rw [htail, List.append_assoc]⟩
    · intro i hi
      cases i with
      | zero =>
        refine ⟨b.image, k.fill ((compute_sizes g sz).chunk_size - 14) ++ tail, ?_, ?_⟩
        · rw [htail, List.append_assoc, List.append_assoc]
        · rw [Nat.zero_mul, Nat.add_zero]
      | succ i =>
        obtain ⟨front, back, himage, hfront⟩ := hstubs i (Nat.lt_of_succ_lt_succ hi)
        refine ⟨front, back, himage, ?_⟩
        rw [hfront, hnext, Nat.add_mul, Nat.one_mul]
        omega

/-- The code of the two chunks in front of the stubs, up to the room at the end. -/
def prologueItems (L : Layout) : List Item :=
  padItems (L.chunk_size - 7) ++ ([⟨"pushl", [.reg (.r32 .edx)]⟩, ⟨"pushl", [.reg (.r32 .ecx)]⟩,
    callName ⟨"_start", by decide⟩, ⟨"addl", [.imm ⟨"8", by decide⟩, .reg (.r32 .esp)]⟩,
    ⟨"pushl", [.reg (.r32 .eax)]⟩, andData L .esp, callName ⟨"exit", by decide⟩] : List Insn).map .insn

/-- Nothing has been counted yet, so that the mask needs no alignment directive. -/
theorem mainPrologue_printed (g : Settings) (sz : Size) :
    (mainPrologue (compute_sizes g sz) {}).printed =
      .text "\t.section\t.text.startup,\"ax\",@progbits" :: (prologueItems (compute_sizes g sz) ++ [.align]) := by
  have hchunk := chunk_ge g sz
  have hnone : ¬ (compute_sizes g sz).chunk_size < 0 + 6 := by omega
  have hpad : ¬ (compute_sizes g sz).chunk_size - 7 = 0 := by omega
  simp only [mainPrologue, Out.print, Out.nop_pad, Out.emit, maybe_align_for, prologueItems, padItems,
    if_neg hpad, if_neg hnone]
  rfl

theorem prologue_code (g : Settings) (sz : Size) (k : Linker) :
    ∃ code, itemsCode k.displacement (prologueItems (compute_sizes g sz)) = some code ∧
      code.length = (compute_sizes g sz).chunk_size + 15 := by
  have hchunk := chunk_ge g sz
  have hpush : ∀ r : Reg32, encode k.displacement ⟨"pushl", [.reg (.r32 r)]⟩ = some [0x50 + regCode r] :=
    fun r => rfl
  have hcall : ∀ name : Const, encode k.displacement (callName name) =
      some (0xe8 :: codedBytes (k.displacement name.val)) := fun name => rfl
  have hadd : encode k.displacement ⟨"addl", [.imm ⟨"8", by decide⟩, .reg (.r32 .esp)]⟩ = some [0x83, 0xc4, 8] := by
    show (immediate ⟨"8", by decide⟩).map (encodeOnReg 0 .esp) = _
    decide +kernel
  have hmask : encode k.displacement (andData (compute_sizes g sz) .esp) = _ :=
    encode_andMask_reg (masks_wide g sz).1 (by decide) k.displacement
  have hrest := itemsCode_append (itemsCode_one (hpush .edx)) (itemsCode_append (itemsCode_one (hpush .ecx))
    (itemsCode_append (itemsCode_one (hcall ⟨"_start", by decide⟩)) (itemsCode_append (itemsCode_one hadd)
      (itemsCode_append (itemsCode_one (hpush .eax)) (itemsCode_append (itemsCode_one hmask)
        (itemsCode_one (hcall ⟨"exit", by decide⟩)))))))
  refine ⟨_, itemsCode_append (itemsCode_padItems _) hrest, ?_⟩
  rw [List.length_append, (nop_pad_fillers _).1]
  show (compute_sizes g sz).chunk_size - 7 + 22 = _
  omega

/-- The stubs stand behind two chunks. -/
theorem assemble_main (k : Linker) (g : Settings) (sz : Size) (hstyle : g.style = .and) (names : List String) :
    ∃ b, Object.assemble k (compute_sizes g sz).chunk_size {} (print_stubs (compute_sizes g sz) names
        (mainPrologue (compute_sizes g sz) {})).printed = some b ∧
      b.labels = names.mapIdx (fun i f => (f, Loader.slot (compute_sizes g sz) i)) ∧
      ∀ i < names.length, ∃ front tail, b.image = front ++ (Loader.print_stub (compute_sizes g sz) ++ tail) ∧
        front.length = Loader.slot (compute_sizes g sz) i := by
  have hchunk := chunk_ge g sz
  have hstub : (compute_sizes g sz).stub_size = (compute_sizes g sz).chunk_size := by
    show 1 <<< (if g.style = .test then g.log_chunk_size + 1 else g.log_chunk_size) = 1 <<< g.log_chunk_size
    rw [hstyle, if_neg (by decide)]
  obtain ⟨code, hcode, hlen⟩ := prologue_code g sz k
  have hroom : room (compute_sizes g sz).chunk_size code.length = (compute_sizes g sz).chunk_size - 15 := by
    rw [hlen]
    exact room_eq (Nat.dvd_refl _) (by decide) (by omega)
  have hfront : Object.assemble k (compute_sizes g sz).chunk_size {} (mainPrologue (compute_sizes g sz) {}).printed =
      some ⟨code ++ k.fill ((compute_sizes g sz).chunk_size - 15), []⟩ := by
    rw [mainPrologue_printed, assemble_cons rfl, assemble_append (assemble_code hcode), assemble_cons rfl]
    show some (Object.code _ (k.fill (room _ ([] ++ code).length))) = _
    rw [List.nil_append, hroom]
    rfl
  have htwo : (code ++ k.fill ((compute_sizes g sz).chunk_size - 15)).length =
      2 * (compute_sizes g sz).chunk_size := by
    rw [List.length_append, hlen, k.fill_length]
    omega
  have hplace : ∀ i, (code ++ k.fill ((compute_sizes g sz).chunk_size - 15)).length +
      i * (compute_sizes g sz).chunk_size = Loader.slot (compute_sizes g sz) i := by
    intro i
    rw [htwo, Loader.slot, hstub]
  obtain ⟨b, hrun, hlabels, -, hstubs⟩ := @assemble_stubs k g sz
    ⟨code ++ k.fill ((compute_sizes g sz).chunk_size - 15), []⟩ (by rw [htwo]; exact Nat.dvd_mul_left _ _) names
  refine ⟨b, ?_, ?_, ?_⟩
  · rw [print_stubs_printed, assemble_append hfront, hrun]
  · rw [hlabels, List.nil_append]
    simp only [hplace]
  · intro i hi
    obtain ⟨front, tail, himage, hlength⟩ := hstubs i hi
    exact ⟨front, tail, himage, hlength.trans (hplace i)⟩

/-- The stubs in the loaded code before and after `install_stubs`: where their labels stand, what
they begin with, and what is written there. -/
structure StubsMatch (L : Layout) (names : List String) (image : Image) (labels : List (String × Nat))
    (table : List Word) (address : String → Word) : Prop where
  labels : labels = names.mapIdx fun i f => (f, 2 * L.chunk_size + i * L.stub_size)
  nops : ∀ i < names.length, ∀ j < 5,
    loadedCode L image (BitVec.ofNat 32 (L.code_start + Loader.slot L i + j)) = 0x90
  jumps : ∀ i, ∀ hi : i < names.length,
    install_stubs L (untilNull table) (loadedCode L image) (BitVec.ofNat 32 (L.code_start + Loader.slot L i)) = 0xe9 ∧
      jumpTarget (install_stubs L (untilNull table) (loadedCode L image))
        (BitVec.ofNat 32 (L.code_start + Loader.slot L i)) = address ("wrap_" ++ names[i])
  rest : ∀ o < 2 ^ 32, (∀ i < names.length, o < L.code_start + Loader.slot L i ∨ L.code_start + Loader.slot L i + 5 ≤ o) →
    install_stubs L (untilNull table) (loadedCode L image) (BitVec.ofNat 32 o) =
      loadedCode L image (BitVec.ofNat 32 o)

theorem untilNull_table {ps : List Word} (h : ∀ p ∈ ps, p ≠ 0) : untilNull (ps ++ [0]) = ps := by
  rw [untilNull, List.takeWhile_append_of_pos fun p hp => decide_eq_true (h p hp)]
  exact List.append_nil ps

/-- A byte of the image behind `front`, as the loader reads it in. -/
theorem loadedCode_at {L : Layout} {image front back : Image} {j : Nat} (himage : image = front ++ back)
    (hj : j < back.length) (hfit : L.code_start + front.length + j < 2 ^ 32) :
    loadedCode L image (BitVec.ofNat 32 (L.code_start + front.length + j)) = back[j] := by
  have hsub : BitVec.ofNat 32 (L.code_start + front.length + j) - BitVec.ofNat 32 L.code_start =
      BitVec.ofNat 32 (front.length + j) := by
    rw [Nat.add_assoc, BitVec.ofNat_add]
    grind
  rw [loadedCode, hsub, BitVec.toNat_ofNat, Nat.mod_eq_of_lt (by omega), himage,
    List.getD_append_right _ _ _ _ (Nat.le_add_right _ _), Nat.add_sub_cancel_left,
    List.getD_eq_getElem _ _ hj]

/-- A stub begins with five `nop`. -/
theorem print_stub_nops (L : Layout) (tail : Image) {j : Nat} (hj : j < 5) :
    (Loader.print_stub L ++ tail)[j]? = some 0x90 := by
  have hlen : j < (List.replicate 5 (0x90 : BitVec 8)).length := by
    rw [List.length_replicate]
    exact hj
  rw [Loader.print_stub, List.append_assoc, List.append_assoc, List.append_assoc,
    List.getElem?_append_left hlen, List.getElem?_replicate, if_pos hj]

/-- The labels of the stubs that `rewrite.pl -main` prints, and the jumps that `install_stubs` writes
over them from the table that was written with the list. The code of the module follows the stubs. -/
theorem stub_table_matches (k : Linker) (g : Settings) (sz : Size) (hstyle : g.style = .and)
    {l : StubLists} (hl : Listed l)
    (hfit : Loader.slot (compute_sizes g sz) l.stub_list.length ≤ (compute_sizes g sz).code_size)
    (address : String → Word) (haddress : ∀ name ∈ l.wrappers, address name ≠ 0) (rest : Image) :
    ∃ b, Object.assemble k (compute_sizes g sz).chunk_size {} (print_stubs (compute_sizes g sz)
        l.stub_list (mainPrologue (compute_sizes g sz) {})).printed = some b ∧
      StubsMatch (compute_sizes g sz) l.stub_list (b.image ++ rest) b.labels
        (l.wrappers.map address ++ [0]) address := by
  obtain ⟨b, hrun, hlabels, hstubs⟩ := assemble_main k g sz hstyle l.stub_list
  have htable : untilNull (l.wrappers.map address ++ [0]) =
      l.stub_list.map fun name => address ("wrap_" ++ name) := by
    rw [untilNull_table, hl.wrappers, List.map_map]
    · rfl
    · intro p hp
      obtain ⟨name, hname, rfl⟩ := List.mem_map.mp hp
      exact haddress name hname
  have hcode := (compute_sizes g sz).code_fits
  have hspace : (compute_sizes g sz).code_start + 2 * (compute_sizes g sz).chunk_size +
      (l.stub_list.map fun name => address ("wrap_" ++ name)).length * (compute_sizes g sz).stub_size ≤ 2 ^ 32 := by
    rw [List.length_map]
    simp only [Loader.slot] at hfit
    omega
  refine ⟨b, hrun, hlabels, ?_, ?_, ?_⟩
  · intro i hi j hj
    obtain ⟨front, tail, himage, hfront⟩ := hstubs i hi
    have hslot : Loader.slot (compute_sizes g sz) i + 5 ≤ Loader.slot (compute_sizes g sz) l.stub_list.length :=
      Loader.slot_le hi
    have hnop := print_stub_nops (compute_sizes g sz) (tail ++ rest) hj
    rw [← List.append_assoc] at hnop
    obtain ⟨hlt, hbyte⟩ := List.getElem?_eq_some_iff.mp hnop
    have hall : b.image ++ rest = front ++ (Loader.print_stub (compute_sizes g sz) ++ tail ++ rest) := by
      rw [himage, List.append_assoc]
    rw [← hfront, loadedCode_at hall hlt (by omega)]
    exact hbyte
  · intro i hi
    have hi' : i < (l.stub_list.map fun name => address ("wrap_" ++ name)).length := by
      rw [List.length_map]
      exact hi
    rw [htable, Loader.slot, ← Nat.add_assoc]
    obtain ⟨hopcode, htarget⟩ := Loader.installFrom_jump hspace hi'
    exact ⟨hopcode, htarget.trans (List.getElem_map _)⟩
  · intro o ho hout
    rw [htable]
    refine Loader.installFrom_other ho hspace ?_
    intro i hi
    rw [List.length_map] at hi
    have hi' := hout i hi
    rw [Loader.slot, ← Nat.add_assoc] at hi'
    exact hi'

/-- One stub, and a wrapper at 0x8048000. -/
theorem stub_table_matches_open : ∃ b, Object.assemble ⟨fun _ => 0, fun n => List.replicate n 0x90,
      fun _ => List.length_replicate⟩ (compute_sizes {} .classic).chunk_size {}
        (print_stubs (compute_sizes {} .classic) ["open"] (mainPrologue (compute_sizes {} .classic) {})).printed =
      some b ∧
    StubsMatch (compute_sizes {} .classic) ["open"] (b.image ++ [0xc3]) b.labels [0x8048000, 0]
      fun _ => 0x8048000 :=
  stub_table_matches _ {} .classic rfl (l := handle {} "open") ⟨["open"], rfl⟩ (by decide) (fun _ => 0x8048000)
    (fun _ _ => by decide) [0xc3]

end Stubs

end Pittsfield.Rewrite
