import Pittsfield.Loader.System
import Pittsfield.Wrappers.Break

/-!
# `main()` of the loader

From the ELF file to the first instruction of the module: the two regions are mapped and
filled from the file, the code is verified and patched, and `call_in` goes to its first
byte on the sandbox stack. libelf is the parsed file that it hands over; what the loader
itself keeps in memory is the memory of the processor that runs it.
-/

namespace Pittsfield.Loader

open Pittsfield.Foundation
open Pittsfield.Region
open Pittsfield.Machine
open InsnType
open Pittsfield.Wrappers (DataSection addSections initial_break main_break)

def PT_LOAD : Word := 1

def PF_X : Word := 1
def PF_W : Word := 2
def PF_R : Word := 4

def SHT_PROGBITS : Word := 1

def SHF_WRITE : Word := 1
def SHF_ALLOC : Word := 2
def SHF_EXECINSTR : Word := 4

structure Elf32_Phdr where
  p_type : Word
  p_vaddr : Word
  p_paddr : Word
  p_memsz : Word
  p_flags : Word

/-- A section header, with its name in the string table if it has one. -/
structure Elf32_Shdr where
  name : Option String
  sh_type : Word
  sh_flags : Word
  sh_addr : Word
  sh_offset : Word
  sh_size : Word

/-- What libelf says of the file, the bytes of the file, and where libelf leaves the
position in it. -/
structure Elf where
  phdr : List Elf32_Phdr
  sections : List Elf32_Shdr
  bytes : List (BitVec 8)
  position : Nat

section Sections

variable (L : Layout)

/-- The assertions on one program header. -/
def Elf32_Phdr.Loads (phdr : Elf32_Phdr) (start size : Nat) (flags : Word) : Prop :=
  phdr.p_type = PT_LOAD ∧ phdr.p_vaddr.toNat = start ∧ phdr.p_paddr.toNat = start ∧
    phdr.p_memsz.toNat ≤ size ∧ phdr.p_flags = flags

instance (phdr : Elf32_Phdr) (start size : Nat) (flags : Word) :
    Decidable (phdr.Loads start size flags) := inferInstanceAs (Decidable (_ ∧ _))

/-- The assertions on the program headers: the lower region comes first, which is what
`CODE_IS_LOWER` and `DATA_IS_LOWER` choose between. -/
def checkPhdrs : List Elf32_Phdr → Bool
  | first :: second :: _ =>
    if L.code_start < L.data_start then
      first.Loads L.code_start L.code_size (PF_R ||| PF_X) &&
        second.Loads L.data_start L.data_size (PF_R ||| PF_W)
    else
      first.Loads L.data_start L.data_size (PF_R ||| PF_W) &&
        second.Loads L.code_start L.code_size (PF_R ||| PF_X)
  | _ => false

/-- The variables of the loop over the sections; `mapped` is whether it has mapped the
code region. -/
structure Scan where
  mapped : Bool := false
  code_len : Word := 0
  code_offset : Word := 0
  data_len : Word := 0
  data_offset : Word := 0
  data_size : Word := 0

/-- The assertions on `.text` and `.data`. -/
def Elf32_Shdr.Fills (shdr : Elf32_Shdr) (start size : Nat) (flags : Word) : Prop :=
  shdr.sh_size.toNat ≤ size ∧ shdr.sh_addr.toNat = start ∧ shdr.sh_type = SHT_PROGBITS ∧
    shdr.sh_flags = flags ∧ shdr.sh_offset &&& 0xfff = 0

instance (shdr : Elf32_Shdr) (start size : Nat) (flags : Word) :
    Decidable (shdr.Fills start size flags) := inferInstanceAs (Decidable (_ ∧ _))

/-- One section; none where an assertion fails, and at `.rodata`, where `main` aborts. -/
def scanSection (scan : Scan) (shdr : Elf32_Shdr) : Option Scan :=
  if shdr.name = some ".text" then
    if shdr.Fills L.code_start L.code_size (SHF_ALLOC ||| SHF_EXECINSTR) then
      some { scan with mapped := true, code_len := shdr.sh_size, code_offset := shdr.sh_offset }
    else none
  else if shdr.name = some ".rodata" then none
  else if shdr.name = some ".data" then
    if shdr.Fills L.data_start L.data_size (SHF_WRITE ||| SHF_ALLOC) then
      some { scan with
        data_len := shdr.sh_size
        data_offset := shdr.sh_offset
        data_size := scan.data_size + shdr.sh_size }
    else none
  else if shdr.name = some ".bss" then
    some { scan with data_size := scan.data_size + shdr.sh_size }
  else some scan

/-- The loop over the sections, with the assertion behind it. -/
def scanSections (sections : List Elf32_Shdr) : Option Scan := do
  let scan ← sections.foldlM (scanSection L) {}
  if scan.data_size.toNat ≤ L.data_size then some scan else none

/-- The sections whose sizes `main` adds up. -/
def dataSections (sections : List Elf32_Shdr) : List DataSection :=
  sections.filterMap fun shdr =>
    if shdr.name = some ".data" then some (.data shdr.sh_size)
    else if shdr.name = some ".bss" then some (.bss shdr.sh_size)
    else none

/-- The lengths to be read fit in their regions. -/
structure Scan.Fits (scan : Scan) : Prop where
  code : scan.code_len.toNat ≤ L.code_size
  data : scan.data_len.toNat ≤ L.data_size

variable {L} {scan scan' : Scan} {shdr : Elf32_Shdr} {sections : List Elf32_Shdr}

theorem scanSection_fits (h : scanSection L scan shdr = some scan') (hfits : scan.Fits L) :
    scan'.Fits L := by
  unfold scanSection at h
  split at h
  · split at h
    · rename_i hfill
      obtain rfl := Option.some.inj h
      exact ⟨hfill.1, hfits.data⟩
    · cases h
  split at h
  · cases h
  split at h
  · split at h
    · rename_i hfill
      obtain rfl := Option.some.inj h
      exact ⟨hfits.code, hfill.1⟩
    · cases h
  split at h
  · obtain rfl := Option.some.inj h
    exact ⟨hfits.code, hfits.data⟩
  · obtain rfl := Option.some.inj h
    exact hfits

theorem scan_fits (h : sections.foldlM (scanSection L) scan = some scan') (hfits : scan.Fits L) :
    scan'.Fits L := by
  induction sections generalizing scan with
  | nil =>
    obtain rfl := Option.some.inj h
    exact hfits
  | cons shdr sections ih =>
    rw [List.foldlM_cons] at h
    obtain ⟨next, hone, hrest⟩ := Option.bind_eq_some_iff.mp h
    exact ih hrest (scanSection_fits hone hfits)

/-- The sum of the loop is the one from which the break is computed. -/
theorem scan_sum (h : sections.foldlM (scanSection L) scan = some scan') :
    addSections L scan.data_size (dataSections sections) = some scan'.data_size := by
  induction sections generalizing scan with
  | nil =>
    obtain rfl := Option.some.inj h
    rfl
  | cons shdr sections ih =>
    rw [List.foldlM_cons] at h
    obtain ⟨next, hone, hrest⟩ := Option.bind_eq_some_iff.mp h
    have hsum := ih hrest
    unfold scanSection at hone
    split at hone
    · rename_i htext
      split at hone
      · obtain rfl := Option.some.inj hone
        simpa [dataSections, htext] using hsum
      · cases hone
    split at hone
    · cases hone
    split at hone
    · rename_i hdata
      split at hone
      · rename_i hfill
        obtain rfl := Option.some.inj hone
        simpa [dataSections, hdata, addSections, hfill.1] using hsum
      · cases hone
    rename_i hnodata
    split at hone
    · rename_i hbss
      obtain rfl := Option.some.inj hone
      simpa [dataSections, hbss, addSections] using hsum
    · rename_i hnobss
      obtain rfl := Option.some.inj hone
      simpa [dataSections, hnodata, hnobss] using hsum

/-- What the loop leaves when no assertion fails. -/
theorem scanSections_ok (h : scanSections L sections = some scan) :
    scan.Fits L ∧ main_break L (dataSections sections) = some (initial_break L scan.data_size.toNat) := by
  obtain ⟨last, hfold, hlast⟩ := Option.bind_eq_some_iff.mp h
  rcases ite_eq_iff.mp hlast with ⟨hsize, hsame⟩ | ⟨-, hnone⟩
  · obtain rfl := Option.some.inj hsame
    refine ⟨scan_fits hfold ⟨Nat.zero_le _, Nat.zero_le _⟩, ?_⟩
    have hsum : addSections L 0 (dataSections sections) = some last.data_size := scan_sum hfold
    exact Option.bind_eq_some_iff.mpr ⟨_, hsum, if_pos hsize⟩
  · cases hnone

end Sections

section Loading

/-- `mmap` of anonymous memory at a fixed address. -/
def mapAnonymous (mem : Word → BitVec 8) (start size : Nat) : Word → BitVec 8 :=
  fun a => if a ∈ span 32 start size then 0 else mem a

/-- `lseek(fd, offset, SEEK_SET)`, which leaves the position where the offset is negative. -/
def lseek (position : Nat) (offset : Word) : Nat := if offset.msb then position else offset.toNat

/-- The bytes that `read` gets. -/
def readBytes (bytes : List (BitVec 8)) (position len : Nat) : List (BitVec 8) :=
  (bytes.drop position).take len

/-- The memory behind a `read` of these bytes. -/
def putList (mem : Word → BitVec 8) (start : Nat) (bytes : List (BitVec 8)) : Word → BitVec 8 :=
  fun a => if start ≤ a.toNat then bytes.getD (a.toNat - start) (mem a) else mem a

variable (L : Layout)

/-- `call_in`: the arguments are in registers, and the call leaves an address of the loader
on the sandbox stack. -/
def call_in (addr argc argv back : Word) (inside_esp inside_ebp : Word) (s : Cpu) : Option Cpu :=
  let s := ((s.setReg .ecx argc).setReg .edx argv).setReg .eax addr
  let s := (s.setReg .esp inside_esp).setReg .ebp inside_ebp
  (s.push L .dword back).map (·.jump (s.reg .eax))

/-- What `main` has set up when the module starts. -/
structure Loaded where
  cpu : Cpu
  data_break : Word
  image : Image
  examined : List Examined

/-- `main`, up to the first instruction of the module. None where an assertion fails, where
`verify` ends the program, and where there is no `.text`, so that the region to jump to is
not mapped. -/
def main (x86_disasm : Disasm) (stubs : List Word) (elf : Elf) (argc argv back : Word) (s : Cpu) :
    Option Loaded := do
  let mem := mapAnonymous s.mem L.data_start L.data_size
  if !checkPhdrs L elf.phdr then none
  let scan ← scanSections L elf.sections
  if !scan.mapped then none
  let mem := mapAnonymous mem L.code_start L.code_size
  let position := lseek elf.position scan.code_offset
  let code := readBytes elf.bytes position scan.code_len.toNat
  if code.length ≠ scan.code_len.toNat then none
  let mem := putList mem L.code_start code
  let position := lseek (position + code.length) scan.data_offset
  let data := readBytes elf.bytes position scan.data_len.toNat
  if data.length ≠ scan.data_len.toNat then none
  let mem := putList mem L.data_start data
  let image := codeBytes L scan.code_len.toNat mem
  let examined ← (verify L x86_disasm image).toOption
  let mem := install_stubs L stubs mem
  let top := BitVec.ofNat 32 (L.data_end - 4)
  let cpu ← call_in L (BitVec.ofNat 32 L.code_start) argc argv back top top { s with mem := mem }
  return { cpu, data_break := initial_break L scan.data_size.toNat, image, examined }

variable {L} {x86_disasm : Disasm} {stubs : List Word} {elf : Elf} {argc argv back : Word}
variable {s : Cpu} {m : Loaded}

/-- The memory that `verify` reads. -/
def filled (L : Layout) (mem : Word → BitVec 8) (code data : List (BitVec 8)) : Word → BitVec 8 :=
  putList (putList (mapAnonymous (mapAnonymous mem L.data_start L.data_size) L.code_start L.code_size)
    L.code_start code) L.data_start data

/-- Everything `main` does to get to the module. -/
theorem main_ok (h : main L x86_disasm stubs elf argc argv back s = some m) :
    ∃ scan code data, scanSections L elf.sections = some scan ∧
      code = readBytes elf.bytes (lseek elf.position scan.code_offset) scan.code_len.toNat ∧
      code.length = scan.code_len.toNat ∧ data.length = scan.data_len.toNat ∧
      m.image = codeBytes L code.length (filled L s.mem code data) ∧
      verify L x86_disasm m.image = .ok m.examined ∧
      m.data_break = initial_break L scan.data_size.toNat ∧
      call_in L (BitVec.ofNat 32 L.code_start) argc argv back (BitVec.ofNat 32 (L.data_end - 4))
        (BitVec.ofNat 32 (L.data_end - 4))
        { s with mem := install_stubs L stubs (filled L s.mem code data) } = some m.cpu := by
  unfold main at h
  simp only at h
  split at h
  · cases h
  obtain ⟨scan, hscan, h⟩ := Option.bind_eq_some_iff.mp h
  split at h
  · cases h
  split at h
  · cases h
  rename_i hcode
  split at h
  · cases h
  rename_i hdata
  obtain ⟨es, hver, h⟩ := Option.bind_eq_some_iff.mp h
  obtain ⟨cpu, hcall, h⟩ := Option.bind_eq_some_iff.mp h
  obtain rfl := Option.some.inj h
  rw [ne_eq, Decidable.not_not] at hcode hdata
  refine ⟨scan, _, _, hscan, rfl, hcode, hdata, ?_, ?_, rfl, hcall⟩
  · rw [hcode]
    rfl
  · cases hv : verify L x86_disasm (codeBytes L scan.code_len.toNat _) with
    | error e =>
      rw [hv] at hver
      cases hver
    | ok es' =>
      rw [hv] at hver
      exact congrArg Except.ok (Option.some.inj hver)

end Loading

section Memory

variable {g : Settings} {sz : Size} {mem mem' : Word → BitVec 8} {code data : List (BitVec 8)}
variable {ps stubs : List Word} {s s' : Cpu} {x : Word}

theorem putList_outside {start : Nat} {bytes : List (BitVec 8)} (h : x ∉ span 32 start bytes.length) :
    putList mem start bytes x = mem x := by
  rw [putList]
  split
  · rename_i hlo
    refine List.getD_eq_default _ _ ?_
    by_contra hlt
    exact h ⟨hlo, by omega⟩
  · rfl

theorem mapAnonymous_outside {start size : Nat} (h : x ∉ span 32 start size) :
    mapAnonymous mem start size x = mem x := if_neg h

/-- The data lies apart from the code. -/
theorem data_apart (hdata : data.length ≤ (compute_sizes g sz).data_size)
    (hx : x ∈ span 32 (compute_sizes g sz).code_start (compute_sizes g sz).code_size) :
    x ∉ span 32 (compute_sizes g sz).data_start data.length :=
  fun hin => (code_apart hx).1 (Or.inl ⟨hin.1, by have := hin.2; omega⟩)

/-- The code region holds the code that was read, and zeros behind it. -/
theorem filled_code (hcode : code.length ≤ (compute_sizes g sz).code_size)
    (hdata : data.length ≤ (compute_sizes g sz).data_size) :
    Set.EqOn (filled (compute_sizes g sz) mem code data) (loadedCode (compute_sizes g sz) code)
      (span 32 (compute_sizes g sz).code_start (compute_sizes g sz).code_size) := by
  intro x hx
  have hf := (compute_sizes g sz).code_fits
  have hoff : (x - BitVec.ofNat 32 (compute_sizes g sz).code_start).toNat =
      x.toNat - (compute_sizes g sz).code_start := by
    have hlo := hx.1
    rw [BitVec.toNat_sub_of_le, BitVec.toNat_ofNat, Nat.mod_eq_of_lt (by omega)]
    rw [BitVec.le_def, BitVec.toNat_ofNat, Nat.mod_eq_of_lt (by omega)]
    exact hlo
  rw [filled, putList_outside (data_apart hdata hx), putList, if_pos hx.1, loadedCode, hoff,
    mapAnonymous, if_pos hx]

/-- Outside the two regions `main` changes nothing. -/
theorem filled_outside (hcode : code.length ≤ (compute_sizes g sz).code_size)
    (hdata : data.length ≤ (compute_sizes g sz).data_size)
    (h1 : x ∉ span 32 (compute_sizes g sz).code_start (compute_sizes g sz).code_size)
    (h2 : x ∉ span 32 (compute_sizes g sz).data_start (compute_sizes g sz).data_size) :
    filled (compute_sizes g sz) mem code data x = mem x := by
  rw [filled, putList_outside, putList_outside, mapAnonymous_outside h1, mapAnonymous_outside h2]
  · exact fun hin => h1 ⟨hin.1, by have := hin.2; omega⟩
  · exact fun hin => h2 ⟨hin.1, by have := hin.2; omega⟩

/-- The jumps of the stubs are written over whatever is there. -/
theorem installFrom_eqOn {L : Layout} {A : Set Word} (h : Set.EqOn mem mem' A) (addr : Nat) :
    Set.EqOn (installFrom L addr ps mem) (installFrom L addr ps mem') A := by
  induction ps generalizing addr mem mem' with
  | nil => exact h
  | cons p ps ih =>
    exact ih (Cpu.putBytes_eqOn (Cpu.putBytes_eqOn h _ _ _) _ _ _) _

/-- The stubs are in the code region. -/
theorem install_outside {L : Layout} (hfit : slot L stubs.length ≤ L.code_size)
    (hx : x ∉ span 32 L.code_start L.code_size) : install_stubs L stubs mem x = mem x := by
  have hf := L.code_fits
  have hat : BitVec.ofNat 32 x.toNat = x := by rw [BitVec.ofNat_toNat, BitVec.setWidth_eq]
  rw [← hat, install_stubs, installFrom_other x.isLt]
  · simp only [slot] at hfit
    omega
  · intro k hk
    have hroom := slot_le (L := L) hk
    by_contra hin
    refine hx ⟨?_, ?_⟩
    · simp only [slot] at hroom
      omega
    · simp only [slot] at hroom hfit
      omega

/-- The buffer that `verify` gets is the code that was read. -/
theorem codeBytes_filled (hcode : code.length ≤ (compute_sizes g sz).code_size)
    (hdata : data.length ≤ (compute_sizes g sz).data_size) :
    codeBytes (compute_sizes g sz) code.length (filled (compute_sizes g sz) mem code data) = code := by
  refine List.ext_getElem (by simp [codeBytes]) fun o h1 h2 => ?_
  have hf := (compute_sizes g sz).code_fits
  have hmem : BitVec.ofNat 32 ((compute_sizes g sz).code_start + o) ∈ _ := code_word g sz (by omega)
  have hsub : BitVec.ofNat 32 ((compute_sizes g sz).code_start + o) -
      BitVec.ofNat 32 (compute_sizes g sz).code_start = BitVec.ofNat 32 o := by
    rw [BitVec.ofNat_add]
    grind
  simp only [codeBytes, List.getElem_map, List.getElem_range]
  rw [filled_code hcode hdata hmem, loadedCode, hsub, BitVec.toNat_ofNat, Nat.mod_eq_of_lt (by omega),
    List.getD_eq_getElem _ _ h2]

end Memory

section Started

variable (g : Settings) (sz : Size) (stubs : List Word) (elf : Elf) (s : Cpu) (m : Loaded)

/-- What `main` has set up: the code of the file is verified and patched in its region, the
break lies behind the data, the module starts at its first byte on the sandbox stack, and
nothing else in memory has changed. -/
structure SetUp (x86_disasm : Disasm) : Prop where
  verified : verify (compute_sizes g sz) x86_disasm m.image = .ok m.examined
  fits : m.image.length ≤ (compute_sizes g sz).code_size
  from_file : m.image <:+: elf.bytes
  code : Patched g sz m.image stubs m.cpu
  outside : Set.EqOn m.cpu.mem s.mem (span 32 (compute_sizes g sz).code_start
    (compute_sizes g sz).code_size ∪ span 32 (compute_sizes g sz).data_start
    (compute_sizes g sz).data_size)ᶜ
  entry : m.cpu.eip = BitVec.ofNat 32 (compute_sizes g sz).code_start
  stack : m.cpu.reg .esp = BitVec.ofNat 32 ((compute_sizes g sz).data_end - 8)
  frame : m.cpu.reg .ebp = BitVec.ofNat 32 ((compute_sizes g sz).data_end - 4)
  break_eq : main_break (compute_sizes g sz) (dataSections elf.sections) = some m.data_break

variable {g sz stubs elf s m} {x86_disasm : Disasm} {argc argv back : Word}

theorem call_in_ok {L : Layout} {addr inside_esp inside_ebp : Word} {s' : Cpu}
    (h : call_in L addr argc argv back inside_esp inside_ebp s = some s') :
    s'.eip = addr ∧ s'.reg .esp = inside_esp - 4 ∧ s'.reg .ebp = inside_ebp ∧
      ∀ x, s'.mem x ≠ s.mem x → ∃ k < 4, x = inside_esp - 4 + BitVec.ofNat 32 k := by
  obtain ⟨c, hpush, rfl⟩ := Option.map_eq_some_iff.mp h
  have hchanges := fun x => Cpu.push_changes (x := x) hpush
  obtain ⟨-, rfl⟩ := Cpu.push_some hpush
  have h1 : Reg32.esp ≠ .ebp := by decide
  have h2 : Reg32.ebp ≠ .esp := by decide
  have h3 : Reg32.eax ≠ .esp := by decide
  have h4 : Reg32.eax ≠ .ebp := by decide
  refine ⟨?_, ?_, ?_, fun x hx => ?_⟩
  · rw [Cpu.jump_eip, Cpu.setReg_other _ _ h4, Cpu.setReg_other _ _ h3, Cpu.setReg_same]
  · rw [Cpu.jump_reg, Cpu.setReg_same, Cpu.setReg_other _ _ h1, Cpu.setReg_same]
    rfl
  · rw [Cpu.jump_reg, Cpu.setReg_other _ _ h2, Cpu.store_reg, Cpu.setReg_same]
  · obtain ⟨-, k, hk, he⟩ := hchanges x hx
    refine ⟨k, hk, ?_⟩
    rw [Cpu.setReg_other _ _ h1, Cpu.setReg_same] at he
    exact he

theorem stack_words (g : Settings) (sz : Size) :
    8 ≤ (compute_sizes g sz).data_size ∧ (compute_sizes g sz).data_end ≤ 2 ^ 31 := by
  show 8 ≤ 1 <<< (sizes sz).log_data_size ∧
    (sizes sz).data_tag <<< (sizes sz).log_data_size + 1 <<< (sizes sz).log_data_size ≤ 2 ^ 31
  cases sz <;> decide

variable (g sz) in
/-- The words at the end of the data region. -/
theorem stack_word {n : Nat} (h0 : 0 < n) (h8 : n ≤ 8) :
    BitVec.ofNat 32 ((compute_sizes g sz).data_end - n) ∈
      span 32 (compute_sizes g sz).data_start (compute_sizes g sz).data_size := by
  obtain ⟨hsize, hend⟩ := stack_words g sz
  have hsum : (compute_sizes g sz).data_end =
    (compute_sizes g sz).data_start + (compute_sizes g sz).data_size := rfl
  have hat : (BitVec.ofNat 32 ((compute_sizes g sz).data_end - n)).toNat =
      (compute_sizes g sz).data_end - n := by
    rw [BitVec.toNat_ofNat, Nat.mod_eq_of_lt (by omega)]
  exact ⟨by omega, by omega⟩

theorem main_sets_up (hfit : slot (compute_sizes g sz) stubs.length ≤ (compute_sizes g sz).code_size)
    (h : main (compute_sizes g sz) x86_disasm stubs elf argc argv back s = some m) :
    SetUp g sz stubs elf s m x86_disasm := by
  obtain ⟨scan, code, data, hscan, hread, hcode, hdata, himage, hver, hbreak, hcall⟩ := main_ok h
  obtain ⟨hfits, hmain⟩ := scanSections_ok hscan
  have hcfit : code.length ≤ (compute_sizes g sz).code_size := hcode ▸ hfits.code
  have hdfit : data.length ≤ (compute_sizes g sz).data_size := hdata ▸ hfits.data
  rw [codeBytes_filled hcfit hdfit] at himage
  obtain ⟨hentry, hesp, hebp, hpushed⟩ := call_in_ok hcall
  obtain ⟨hsize, hend⟩ := stack_words g sz
  have hstack : BitVec.ofNat 32 ((compute_sizes g sz).data_end - 4) - 4 =
      BitVec.ofNat 32 ((compute_sizes g sz).data_end - 8) := by
    have hsum : (compute_sizes g sz).data_end =
      (compute_sizes g sz).data_start + (compute_sizes g sz).data_size := rfl
    have hsplit : (compute_sizes g sz).data_end - 4 = (compute_sizes g sz).data_end - 8 + 4 := by omega
    rw [hsplit, BitVec.ofNat_add]
    grind
  rw [hstack] at hesp hpushed
  -- the call writes the last but one word of the data region
  have hkept : ∀ x, x ∉ span 32 (compute_sizes g sz).data_start (compute_sizes g sz).data_size →
      m.cpu.mem x = install_stubs (compute_sizes g sz) stubs
        (filled (compute_sizes g sz) s.mem code data) x := by
    intro x hx
    by_contra hne
    obtain ⟨k, hk, rfl⟩ := hpushed x hne
    refine hx ?_
    have hword := stack_word g sz (n := 8 - k) (by omega) (by omega)
    rw [← BitVec.ofNat_add]
    have hadd : (compute_sizes g sz).data_end - 8 + k = (compute_sizes g sz).data_end - (8 - k) := by
      have hsum : (compute_sizes g sz).data_end =
        (compute_sizes g sz).data_start + (compute_sizes g sz).data_size := rfl
      omega
    rwa [hadd]
  refine ⟨hver, himage ▸ hcfit, ?_, ?_, ?_, hentry, hesp, hebp, hbreak ▸ hmain⟩
  · rw [himage, hread]
    exact (List.take_prefix _ _).isInfix.trans (List.drop_suffix _ _).isInfix
  · intro x hx
    rw [hkept x fun hin => (code_apart hx).1 (Or.inl hin), himage]
    exact installFrom_eqOn (filled_code hcfit hdfit) _ hx
  · intro x hx
    obtain ⟨h1, h2⟩ := not_or.mp hx
    rw [hkept x h2, install_outside hfit h1, filled_outside hcfit hdfit h1 h2]

end Started

/-- The first chunk of `callStub`: a mask, a move and a call of the first slot. -/
def callOut : Image :=
  [0x81, 0xe3, 0xff, 0xff, 0xff, 0x20, 0xb8, 0, 0, 0, 0, 0xe8, 16, 0, 0, 0]

/-- A module that consists of it, without data. -/
def callOutFile : Elf where
  phdr := [⟨PT_LOAD, 0x10000000, 0x10000000, 16, PF_R ||| PF_X⟩,
    ⟨PT_LOAD, 0x20000000, 0x20000000, 100, PF_R ||| PF_W⟩]
  sections := [⟨some ".text", SHT_PROGBITS, SHF_ALLOC ||| SHF_EXECINSTR, 0x10000000, 0, 16⟩,
    ⟨some ".bss", 8, SHF_WRITE ||| SHF_ALLOC, 0x20000000, 16, 100⟩]
  bytes := callOut
  position := 52

/-- The loader, as far as it is seen here. -/
def loaderCpu : Cpu := ⟨0x08048000, fun _ => 0, 0, fun _ => 0⟩

def callOutLoaded : Loaded :=
  (main classic disassemble oneStub callOutFile 1 0 0x08048400 loaderCpu).getD ⟨loaderCpu, 0, [], []⟩

/-- The processor behind the `k` first instructions of the module. -/
def afterCallOut (k : Nat) : Cpu :=
  ((examined callOut).take k).foldl (fun s v => (exec classic (Alu.idle _) v.item s).getD s)
    callOutLoaded.cpu

/-- And behind the return of the trusted function that it calls. -/
def returnedCallOut : Cpu :=
  ((afterCallOut 3).setReg .esp ((afterCallOut 3).reg .esp + 4)).jump
    ((afterCallOut 3).load .dword ((afterCallOut 3).reg .esp))

end Pittsfield.Loader
