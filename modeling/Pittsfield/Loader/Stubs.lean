import Pittsfield.Loader.Stack

/-!
# The stubs and the patch after verification

`print_stubs` of `rewrite.pl` puts a slot for every host function behind the second
chunk, and after `verify()` the loader overwrites the first five bytes of every slot
with a jump to that function. Here are the patched code, a machine that runs it, and
what verification is still worth for it.
-/

namespace Pittsfield.Loader

open Pittsfield.Foundation
open Pittsfield.Region
open Pittsfield.Machine
open InsnType

/-- The bytes of a word, as the assembler emits them. -/
def codedBytes (v : Word) : Image := (List.range 4).map fun k => (v >>> (8 * k)).setWidth 8

/-- A slot as `print_stubs` writes it: five `nop`, `popl %ebx`, `andl $JUMP_MASK,%ebx`
and `jmp *%ebx`, up to the padding. -/
def print_stub (L : Layout) : Image :=
  List.replicate 5 0x90 ++ [0x5b, 0x81, 0xe3] ++ codedBytes L.jump_mask ++ [0xff, 0xe3]

section Patch

variable (L : Layout)

/-- The offset of the slot for the `k`-th host function. -/
def slot (k : Nat) : Nat := 2 * L.chunk_size + k * L.stub_size

/-- The code region after loading: the code of the module, and zeros behind it. -/
def loadedCode (image : Image) : Word → BitVec 8 :=
  fun a => image.getD (a - BitVec.ofNat 32 L.code_start).toNat 0

/-- The loop of `install_stubs`, from the address of the next slot on. -/
def installFrom : Nat → List Word → (Word → BitVec 8) → Word → BitVec 8
  | _, [], code => code
  | addr, p :: ps, code =>
    let offset := p - BitVec.ofNat 32 (addr + 5)
    installFrom (addr + L.stub_size) ps
      (Cpu.putBytes (Cpu.putBytes code (BitVec.ofNat 32 addr) 0xe9 1)
        (BitVec.ofNat 32 (addr + 1)) offset 4)

def install_stubs (stubs : List Word) (code : Word → BitVec 8) : Word → BitVec 8 :=
  installFrom L (L.code_start + 2 * L.chunk_size) stubs code

/-- Where the jump at the address `a` leads: its offset counts from its end. -/
def jumpTarget (code : Word → BitVec 8) (a : Word) : Word := a + 5 + Cpu.bytesAt code (a + 1) 4

/-- The patched code as a buffer that reaches over the module and over all slots. -/
def patchedCode (stubs : List Word) (image : Image) : Image :=
  (List.range (max image.length (slot L stubs.length))).map fun o =>
    install_stubs L stubs (loadedCode L image) (BitVec.ofNat 32 (L.code_start + o))

variable {L}

theorem ofNat_ne {a b : Nat} (ha : a < 2 ^ 32) (hb : b < 2 ^ 32) (h : a ≠ b) :
    BitVec.ofNat 32 a ≠ BitVec.ofNat 32 b := by
  intro he
  have hn := congrArg BitVec.toNat he
  rw [BitVec.toNat_ofNat, BitVec.toNat_ofNat, Nat.mod_eq_of_lt ha, Nat.mod_eq_of_lt hb] at hn
  exact h hn

/-- One slot is written: nothing else changes. -/
theorem putJump_other {code : Word → BitVec 8} {addr o : Nat} (v : Word) (ho : o < 2 ^ 32)
    (haddr : addr + 5 ≤ 2 ^ 32) (h : o < addr ∨ addr + 5 ≤ o) :
    Cpu.putBytes (Cpu.putBytes code (BitVec.ofNat 32 addr) 0xe9 1) (BitVec.ofNat 32 (addr + 1)) v 4
      (BitVec.ofNat 32 o) = code (BitVec.ofNat 32 o) := by
  rw [Cpu.putBytes_other, Cpu.putBytes_other]
  · intro k hk
    rw [← BitVec.ofNat_add]
    exact ofNat_ne ho (by omega) (by omega)
  · intro k hk
    rw [← BitVec.ofNat_add]
    exact ofNat_ne ho (by omega) (by omega)

/-- A byte outside all the jumps is not changed. -/
theorem installFrom_other {ps : List Word} {addr o : Nat} {code : Word → BitVec 8}
    (ho : o < 2 ^ 32) (hfit : addr + ps.length * L.stub_size ≤ 2 ^ 32)
    (h : ∀ k < ps.length, o < addr + k * L.stub_size ∨ addr + k * L.stub_size + 5 ≤ o) :
    installFrom L addr ps code (BitVec.ofNat 32 o) = code (BitVec.ofNat 32 o) := by
  induction ps generalizing addr code with
  | nil => rfl
  | cons p ps ih =>
    have hroom := L.stub_holds_jump
    rw [List.length_cons, Nat.add_mul, Nat.one_mul] at hfit
    rw [installFrom, ih (by omega), putJump_other _ ho (by omega)]
    · simpa using h 0 (Nat.succ_pos _)
    · intro k hk
      have hk' := h (k + 1) (Nat.succ_lt_succ hk)
      rw [Nat.add_mul, Nat.one_mul] at hk'
      omega

/-- Every slot gets a jump to its function. -/
theorem installFrom_jump {ps : List Word} {addr k : Nat} {code : Word → BitVec 8}
    (hfit : addr + ps.length * L.stub_size ≤ 2 ^ 32) (hk : k < ps.length) :
    installFrom L addr ps code (BitVec.ofNat 32 (addr + k * L.stub_size)) = 0xe9 ∧
      jumpTarget (installFrom L addr ps code) (BitVec.ofNat 32 (addr + k * L.stub_size)) =
        ps[k] := by
  induction ps generalizing addr k code with
  | nil => cases hk
  | cons p ps ih =>
    have hroom := L.stub_holds_jump
    rw [List.length_cons, Nat.add_mul, Nat.one_mul] at hfit
    cases k with
    | zero =>
      rw [Nat.zero_mul, Nat.add_zero, List.getElem_cons_zero, installFrom]
      -- the slots behind this one leave its five bytes alone
      have hrest : ∀ o, addr ≤ o → o < addr + 5 → ∀ c : Word → BitVec 8,
          installFrom L (addr + L.stub_size) ps c (BitVec.ofNat 32 o) = c (BitVec.ofNat 32 o) := by
        intro o hlo hhi c
        refine installFrom_other (by omega) (by omega) fun j hj => Or.inl ?_
        omega
      refine ⟨?_, ?_⟩
      · rw [hrest addr (by omega) (by omega), Cpu.putBytes_other]
        · simp [Cpu.putBytes]
        · intro j hj
          rw [← BitVec.ofNat_add]
          exact ofNat_ne (by omega) (by omega) (by omega)
      · have hoffset : ∀ c : Word → BitVec 8,
            Cpu.bytesAt (installFrom L (addr + L.stub_size) ps c) (BitVec.ofNat 32 (addr + 1)) 4 =
              Cpu.bytesAt c (BitVec.ofNat 32 (addr + 1)) 4 := fun c =>
          Cpu.bytesAt_congr fun j hj => by
            rw [← BitVec.ofNat_add, hrest _ (by omega) (by omega)]
        rw [jumpTarget, show (1 : Word) = BitVec.ofNat 32 1 from rfl, ← BitVec.ofNat_add, hoffset,
          Cpu.bytesAt_putBytes, BitVec.ofNat_add]
        grind
    | succ k =>
      rw [Nat.add_mul, Nat.one_mul, Nat.add_comm (k * L.stub_size), ← Nat.add_assoc]
      exact ih (by omega) (by simpa using hk)

end Patch

section Machine

variable (L : Layout) (x86_disasm : Disasm) (image : Image) (stubs : List Word)
variable (alu : Alu X86Insn) (host : Word → Cpu → Cpu → Prop)

/-- One step of the patched code: a slot runs the function to which its jump leads,
up to the return of that function, and everywhere else the machine executes what
stands in the patched code. -/
inductive PatchedStep : Cpu → Cpu → Prop
  | insn {s s' : Cpu} {o : Nat} {i : X86Insn} :
      loc L s = some o → (∀ k < stubs.length, o ≠ slot L k) →
      x86_disasm (patchedCode L stubs image) o = some i → exec L alu i s = some s' →
      PatchedStep s s'
  | stub {s s' : Cpu} {k : Nat} :
      k < stubs.length → loc L s = some (slot L k) →
      host (jumpTarget (install_stubs L stubs (loadedCode L image)) s.eip) s s' → PatchedStep s s'

/-- Runs of the patched code all of whose steps meet `ok`. -/
def PatchedRun (ok : Cpu → Cpu → Prop) : Cpu → Cpu → Prop :=
  Relation.ReflTransGen fun s s' =>
    PatchedStep L x86_disasm image stubs alu host s s' ∧ ok s s'

/-- The functions of the trusted side follow cdecl and end with `ret`: they return to
the word on top of the stack, take it off, and keep `%ebp`. -/
structure Cdecl : Prop where
  resumes : ∀ p s s', host p s s' → s'.eip = s.load .dword (s.reg .esp)
  pops : ∀ p s s', host p s s' → s'.reg .esp = s.reg .esp + 4
  keeps_ebp : ∀ p s s', host p s s' → s'.reg .ebp = s.reg .ebp

/-- The patch for `n` functions leaves the bytes of the instruction alone. -/
def Untouched (n : Nat) (v : Examined) : Prop :=
  ∀ k < n, v.after.offset ≤ slot L k ∨ slot L k + 5 ≤ v.before.offset

/-- Control stands at a slot. -/
def AtSlot (n : Nat) (s : Cpu) : Prop := ∃ k < n, loc L s = some (slot L k)

/-- A chunk start of the code region, or an address in the zero-tag region. -/
def ChunkAddress (a : Word) : Prop :=
  (L.code_start ≤ a.toNat ∧ a.toNat < L.code_end ∧ L.chunk_size ∣ a.toNat) ∨
    a ∈ span 32 0 L.data_size

instance (n : Nat) (v : Examined) : Decidable (Untouched L n v) :=
  inferInstanceAs (Decidable (∀ k < n, _))

instance (n : Nat) (s : Cpu) : Decidable (AtSlot L n s) :=
  inferInstanceAs (Decidable (∃ k < n, _))

instance (a : Word) : Decidable (ChunkAddress L a) := inferInstanceAs (Decidable (_ ∨ _))

variable {L x86_disasm image stubs alu host} {es : List Examined} {s s' : Cpu}

theorem slot_le {n k : Nat} (hk : k < n) : slot L k + 5 ≤ slot L n := by
  have hroom := L.stub_holds_jump
  have hmul := Nat.mul_le_mul_right L.stub_size (Nat.succ_le_of_lt hk)
  rw [Nat.succ_mul] at hmul
  simp only [slot]
  omega

/-- Where the machine stands, as an address. -/
theorem eip_of_loc {o : Nat} (h : loc L s = some o) :
    s.eip = BitVec.ofNat 32 (L.code_start + o) := by
  have hf := L.code_fits
  have he : (s.eip - BitVec.ofNat 32 L.code_start).toNat = o := Option.some.inj h
  have hw : s.eip - BitVec.ofNat 32 L.code_start = BitVec.ofNat 32 o := by
    rw [← he, BitVec.ofNat_toNat, BitVec.setWidth_eq]
  rw [BitVec.ofNat_add, ← hw]
  grind

/-- At a slot the machine finds a jump to the function of the slot. -/
theorem slot_patched {k : Nat} (hfit : slot L stubs.length ≤ L.code_size) (hk : k < stubs.length)
    (hs : loc L s = some (slot L k)) :
    install_stubs L stubs (loadedCode L image) s.eip = 0xe9 ∧
      jumpTarget (install_stubs L stubs (loadedCode L image)) s.eip = stubs[k] := by
  have hle := slot_le (L := L) hk
  have hf := L.code_fits
  rw [eip_of_loc hs, slot, ← Nat.add_assoc]
  refine installFrom_jump ?_ hk
  simp only [slot] at hfit
  omega

/-- An instruction that the patch leaves alone is decoded as it was verified. -/
theorem untouched_decoded (h : verify L x86_disasm image = .ok es)
    (hlen : image.length ≤ L.code_size) (hkeep : KeepsInside x86_disasm)
    (hown : ReadsOwnBytes x86_disasm) (hfit : slot L stubs.length ≤ L.code_size) {v : Examined}
    (hv : v ∈ es) (hout : Untouched L stubs.length v) :
    x86_disasm (patchedCode L stubs image) v.before.offset = some v.item := by
  obtain ⟨t, hp, -⟩ := verify_pass h
  have hstep := hp.step_of_mem hv
  obtain ⟨_, _, -, hd, -⟩ := loopBody_ok hstep.2
  have hin := hkeep image _ _ hd
  have hafter := offset_after hstep
  have hf := L.code_fits
  refine hown image _ _ _ hd fun o hlo hhi => ?_
  have ho : o < image.length := by omega
  have hload : loadedCode L image (BitVec.ofNat 32 (L.code_start + o)) = image[o] := by
    have hsub : BitVec.ofNat 32 (L.code_start + o) - BitVec.ofNat 32 L.code_start =
        BitVec.ofNat 32 o := by
      rw [BitVec.ofNat_add]
      grind
    rw [loadedCode, hsub, BitVec.toNat_ofNat, Nat.mod_eq_of_lt (by omega), List.getD_eq_getElem _ _ ho]
  rw [patchedCode, List.getElem?_map, List.getElem?_range (by omega), Option.map_some,
    install_stubs, installFrom_other (by omega), hload, List.getElem?_eq_getElem ho]
  · simp only [slot] at hfit
    omega
  · intro k hk
    have hk' := hout k hk
    simp only [slot] at hk'
    omega

/-- Where an untouched instruction stands there is no slot, so that the machine
executes that instruction. -/
theorem step_untouched (h : verify L x86_disasm image = .ok es)
    (hlen : image.length ≤ L.code_size) (hkeep : KeepsInside x86_disasm)
    (hown : ReadsOwnBytes x86_disasm) (hfit : slot L stubs.length ≤ L.code_size) {v : Examined}
    (hv : Stands VState.offset (loc L) es s v) (hout : Untouched L stubs.length v)
    (hs : PatchedStep L x86_disasm image stubs alu host s s') : exec L alu v.item s = some s' := by
  cases hs with
  | insn hloc _ hd he =>
    rw [hv.2] at hloc
    cases hloc
    rw [untouched_decoded h hlen hkeep hown hfit hv.1 hout] at hd
    cases hd
    exact he
  | stub hk hloc _ =>
    obtain ⟨t, hp, -⟩ := verify_pass h
    have hlt := offset_lt (hp.step_of_mem hv.1)
    rw [hv.2] at hloc
    have he : v.before.offset = _ := Option.some.inj hloc
    have hk' := hout _ hk
    omega

/-- At a slot the machine runs the function of the slot. -/
theorem step_slot (hfit : slot L stubs.length ≤ L.code_size)
    (hs : PatchedStep L x86_disasm image stubs alu host s s') (hslot : AtSlot L stubs.length s) :
    ∃ p ∈ stubs, host p s s' := by
  obtain ⟨k, hk, hloc⟩ := hslot
  cases hs with
  | insn hloc' hne _ _ =>
    rw [hloc] at hloc'
    exact absurd (Option.some.inj hloc').symm (hne k hk)
  | stub _ _ hhost =>
    rw [(slot_patched hfit hk hloc).2] at hhost
    exact ⟨_, List.getElem_mem hk, hhost⟩

end Machine

section Returns

variable {L : Layout} {x86_disasm : Disasm} {image : Image} {stubs : List Word}
variable {alu : Alu X86Insn} {host : Word → Cpu → Cpu → Prop} {es : List Examined}
variable {s s' s'' : Cpu}

/-- The call leaves the address behind it on top of the stack. -/
theorem call_pushes {i : X86Insn} (ht : i.type = insn_call) (hw : slotWidth i = .dword)
    (hs : exec L alu i s = some s') :
    s'.load .dword (s'.reg .esp) = s.eip + BitVec.ofNat 32 i.size := by
  simp only [exec, ht, hw] at hs
  obtain ⟨c, hp, rfl⟩ := Option.map_eq_some_iff.mp hs
  obtain ⟨-, rfl⟩ := Cpu.push_some hp
  simp

/-- If the step enters a slot, it is a call with a 32-bit return address that ends on a
chunk boundary inside the code region, or the word on top of the stack happens to be
an address that a return may go to. -/
def EntersForReturn (L : Layout) (es : List Examined) (n : Nat) (s s' : Cpu) : Prop :=
  AtSlot L n s' →
    (∃ v, Stands VState.offset (loc L) es s v ∧ Untouched L n v ∧ v.item.type = insn_call ∧
      slotWidth v.item = .dword ∧ L.chunk_size ∣ v.after.offset ∧ v.after.offset < L.code_size) ∨
    ChunkAddress L (s'.load .dword (s'.reg .esp))

end Returns

section Entries

variable {L : Layout} {x86_disasm : Disasm} {image : Image} {stubs : List Word}
variable {alu : Alu X86Insn} {host : Word → Cpu → Cpu → Prop} {es : List Examined}
variable {s s' : Cpu}

/-- Both pointers point into the data or the zero-tag region: I1 and I2. -/
def Inside (L : Layout) (s : Cpu) : Prop := s.reg .esp ∈ L.sandbox ∧ s.reg .ebp ∈ L.sandbox

/-- What the state of `verify()` says about the two pointers. -/
def Tracked (L : Layout) (st : VState) (s : Cpu) : Prop :=
  (st.unsafety.change_esp = false → st.unsafety.bump_esp = false → s.reg .esp ∈ L.sandbox) ∧
    (st.unsafety.change_ebp = false → s.reg .ebp ∈ L.sandbox)

/-- The checks of `verify()` on the instruction are right about the step from `s`: what
its state says before the instruction, it says behind it, or the step ends with I1 and I2. -/
def CheckedSoundly (L : Layout) (alu : Alu X86Insn) (v : Examined) (s : Cpu) : Prop :=
  Tracked L v.before s → ∀ s' ∈ exec L alu v.item s,
    loc L s' = some v.after.offset ∧ Tracked L v.after s' ∨ Inside L s'

/-- No weakening is left where the instruction ends at a slot. -/
def ClearAtSlot (L : Layout) (n : Nat) (v : Examined) : Prop :=
  ∀ k < n, v.after.offset = slot L k → v.after.unsafety.weak = false

instance (s : Cpu) : Decidable (Inside L s) := inferInstanceAs (Decidable (_ ∧ _))

instance (st : VState) (s : Cpu) : Decidable (Tracked L st s) :=
  inferInstanceAs (Decidable ((_ → _ → _) ∧ (_ → _)))

instance (v : Examined) (s : Cpu) : Decidable (CheckedSoundly L alu v s) :=
  inferInstanceAs (Decidable (_ → ∀ s' ∈ exec L alu v.item s, _))

instance (n : Nat) (v : Examined) : Decidable (ClearAtSlot L n v) :=
  inferInstanceAs (Decidable (∀ k < n, _ → _))

theorem Inside.tracked (h : Inside L s) (st : VState) : Tracked L st s :=
  ⟨fun _ _ => h.1, fun _ => h.2⟩

theorem Tracked.inside {st : VState} (h : Tracked L st s) (hclear : st.unsafety.weak = false) :
    Inside L s := by
  simp only [Flags.weak, Bool.or_eq_false_iff] at hclear
  exact ⟨h.1 hclear.1.1 hclear.1.2, h.2 hclear.2⟩

/-- The step is made at an examined instruction that the patch leaves alone, that is
checked soundly and leaves no weakening at a slot, or at a slot from which the return
stays on the sandbox stack. -/
def KeepsPointers (L : Layout) (alu : Alu X86Insn) (es : List Examined) (n : Nat) (s : Cpu) : Prop :=
  (∃ v ∈ es, loc L s = some v.before.offset ∧ Untouched L n v ∧ CheckedSoundly L alu v s ∧
      ClearAtSlot L n v) ∨
    AtSlot L n s ∧ s.reg .esp + 4 ∈ L.sandbox

instance (n : Nat) (s : Cpu) : Decidable (KeepsPointers L alu es n s) :=
  inferInstanceAs (Decidable ((∃ v ∈ es, _) ∨ _))

/-- How a run gets to a state: with both pointers inside, or by falling through from an
instruction behind which `verify()` is right about them. -/
def Arrives (L : Layout) (es : List Examined) (n : Nat) (s : Cpu) : Prop :=
  Inside L s ∨
    ∃ v ∈ es, loc L s = some v.after.offset ∧ Tracked L v.after s ∧ ClearAtSlot L n v

theorem Arrives.inside {n : Nat} (h : Arrives L es n s) (hslot : AtSlot L n s) : Inside L s := by
  obtain ⟨k, hk, hloc⟩ := hslot
  rcases h with hin | ⟨v, -, hl, ht, hclear⟩
  · exact hin
  · exact ht.inside (hclear k hk (Option.some.inj (hl.symm.trans hloc)))

theorem Arrives.tracked {n : Nat} {t : VState} (hp : Pass (Examines L x86_disasm image) {} es t)
    (h : Arrives L es n s) {v : Examined} (hv : v ∈ es) (hloc : loc L s = some v.before.offset) :
    Tracked L v.before s := by
  rcases h with hin | ⟨u, hu, hl, ht, -⟩
  · exact hin.tracked _
  · have he : v.before.offset = u.after.offset := Option.some.inj (hloc.symm.trans hl)
    rw [hp.before_eq_after (offset_pos L x86_disasm image) hu hv he]
    exact ht

/-- In every run of the patched code whose steps keep the pointers, control reaches a
slot only with `%esp` and `%ebp` in the data or the zero-tag region. -/
theorem slots_entered_inside (h : verify L x86_disasm image = .ok es)
    (hlen : image.length ≤ L.code_size) (hkeep : KeepsInside x86_disasm)
    (hown : ReadsOwnBytes x86_disasm) (hfit : slot L stubs.length ≤ L.code_size)
    (hhost : Cdecl host) (hstart : Inside L s)
    (hrun : PatchedRun L x86_disasm image stubs alu host
      (fun a _ => KeepsPointers L alu es stubs.length a) s s')
    (hslot : AtSlot L stubs.length s') : Inside L s' := by
  obtain ⟨t, hp, -⟩ := verify_pass h
  have harrive : Arrives L es stubs.length s' := by
    clear hslot
    induction hrun with
    | refl => exact Or.inl hstart
    | @tail a b _ hmove ih =>
      obtain ⟨hs, hok⟩ := hmove
      rcases hok with ⟨v, hv, hloc, hout, hsound, hclear⟩ | ⟨hslot, hesp⟩
      · have hexec := step_untouched h hlen hkeep hown hfit ⟨hv, hloc⟩ hout hs
        rcases hsound (ih.tracked hp hv hloc) b hexec with ⟨hl, ht⟩ | hin
        · exact Or.inr ⟨v, hv, hl, ht, hclear⟩
        · exact Or.inl hin
      · obtain ⟨p, -, hcall⟩ := step_slot hfit hs hslot
        refine Or.inl ⟨?_, ?_⟩
        · rw [hhost.pops p a b hcall]
          exact hesp
        · rw [hhost.keeps_ebp p a b hcall]
          exact (ih.inside hslot).2
  exact harrive.inside hslot

end Entries

section Samples

/-- A trusted side with one function, which returns at once. -/
def oneStub : List Word := [0x08048000]

def returnsAtOnce (_ : Word) (s s' : Cpu) : Prop :=
  s' = (s.setReg .esp (s.reg .esp + 4)).jump (s.load .dword (s.reg .esp))

theorem returnsAtOnce_cdecl : Cdecl returnsAtOnce where
  resumes := by rintro _ s s' rfl; rfl
  pops := by rintro _ s s' rfl; simp
  keeps_ebp := by
    have hne : Reg32.ebp ≠ .esp := by decide
    rintro _ s s' rfl
    rw [Cpu.jump_reg, Cpu.setReg_other _ _ hne]

/-- The machine of the default layout outside the slots. -/
def patchedNext (image : Image) (s : Cpu) : Option Cpu :=
  (loc classic s).bind fun o =>
    (disassemble (patchedCode classic oneStub image) o).bind fun i => exec classic (Alu.idle _) i s

/-- The state after `k` instructions. -/
def walk (image : Image) (s : Cpu) (k : Nat) : Cpu := (fun s => (patchedNext image s).getD s)^[k] s

theorem walk_run (image : Image) (s : Cpu) (ok : Cpu → Cpu → Prop) (n : Nat)
    (h : ∀ k < n, ¬ AtSlot classic 1 (walk image s k) ∧
      (patchedNext image (walk image s k)).isSome = true ∧
      ok (walk image s k) (walk image s (k + 1))) :
    PatchedRun classic disassemble image oneStub (Alu.idle _) returnsAtOnce ok s (walk image s n) := by
  induction n with
  | zero => exact .refl
  | succ n ih =>
    obtain ⟨hslot, hsome, hok⟩ := h n (Nat.lt_succ_self n)
    refine (ih fun k hk => h k (Nat.lt_succ_of_lt hk)).tail ⟨?_, hok⟩
    obtain ⟨s', hs'⟩ := Option.isSome_iff_exists.mp hsome
    have hw : walk image s (n + 1) = s' := by
      rw [walk, Function.iterate_succ_apply', ← walk, hs', Option.getD_some]
    obtain ⟨o, ho, hd⟩ := Option.bind_eq_some_iff.mp hs'
    obtain ⟨i, hi, he⟩ := Option.bind_eq_some_iff.mp hd
    rw [hw]
    exact .insn ho (fun k hk hk' => hslot ⟨k, hk, by rw [ho, hk']⟩) hi he

/-- `push $0x10000001` and a jump to the stub. -/
def jumpToStub : Image :=
  [0x68, 1, 0, 0, 0x10, 0xe9, 22, 0, 0, 0] ++ List.replicate 22 0x90 ++ print_stub classic

/-- A call to the stub that ends on a chunk boundary. -/
def callStub : Image :=
  [0x81, 0xe3, 0xff, 0xff, 0xff, 0x20, 0xb8, 0, 0, 0, 0, 0xe8, 16, 0, 0, 0] ++
    List.replicate 16 0x90 ++ print_stub classic

/-- The second chunk ends with `mov $0x30000000,%esp`, and at the slot behind it stands
an `and $DATA_MASK,%esp`. -/
def wildStackAtStub : Image :=
  [0xe9, 11, 0, 0, 0] ++ List.replicate 11 0x90 ++
    [0x81, 0xe3, 0xff, 0xff, 0xff, 0x20, 0xb8, 0, 0, 0, 0, 0xbc, 0, 0, 0, 0x30] ++
    [0x81, 0xe4, 0xff, 0xff, 0xff, 0x20]

theorem slot_entered_outside :
    ¬ ∀ (L : Layout) (x86_disasm : Disasm) (image : Image) (es : List Examined)
      (stubs : List Word) (host : Word → Cpu → Cpu → Prop) (s s' : Cpu),
      verify L x86_disasm image = .ok es → image.length ≤ L.code_size → KeepsInside x86_disasm →
      ReadsOwnBytes x86_disasm → slot L stubs.length ≤ L.code_size → Cdecl host →
      s.eip = BitVec.ofNat 32 L.code_start → Inside L s →
      PatchedRun L x86_disasm image stubs (Alu.idle _) host
        (fun a _ => (∃ v ∈ es, loc L a = some v.before.offset ∧ Untouched L stubs.length v ∧
            CheckedSoundly L (Alu.idle _) v a) ∨
          AtSlot L stubs.length a ∧ a.reg .esp + 4 ∈ L.sandbox) s s' →
      AtSlot L stubs.length s' → Inside L s' := by
  intro h
  have hv : verify classic disassemble wildStackAtStub = .ok (examined wildStackAtStub) := rfl
  have hrun := walk_run wildStackAtStub (entryState classic) (fun a _ =>
    (∃ v ∈ examined wildStackAtStub, loc classic a = some v.before.offset ∧
        Untouched classic 1 v ∧ CheckedSoundly classic (Alu.idle _) v a) ∨
      AtSlot classic 1 a ∧ a.reg .esp + 4 ∈ classic.sandbox) 4 (by decide)
  have hend := h classic disassemble wildStackAtStub _ oneStub returnsAtOnce _ _ hv (by decide)
    disassemble_keepsInside disassemble_readsOwnBytes (by decide) returnsAtOnce_cdecl rfl (by decide)
    hrun (by decide)
  revert hend
  decide

theorem callStub_inside : AtSlot classic 1 (walk callStub (entryState classic) 3) ∧
    Inside classic (walk callStub (entryState classic) 3) := by
  have hv : verify classic disassemble callStub = .ok (examined callStub) := rfl
  have hrun := walk_run callStub (entryState classic) (fun a _ =>
    KeepsPointers classic (Alu.idle _) (examined callStub) 1 a) 3 (by decide)
  have hslot : AtSlot classic 1 (walk callStub (entryState classic) 3) := by decide
  exact ⟨hslot, slots_entered_inside hv (by decide) disassemble_keepsInside
    disassemble_readsOwnBytes (by decide) returnsAtOnce_cdecl (by decide) hrun hslot⟩

end Samples

end Pittsfield.Loader
