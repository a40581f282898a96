import Pittsfield.Loader.Chunks
import Pittsfield.Loader.Containment

/-!
# A verified module and the trusted functions

After `install_stubs` the code in memory is no longer what was verified: every slot holds
a jump out of the sandbox. The machine here fetches that code from its memory, and runs
the function of the trusted side wherever control comes to a slot. The patch is met only
at the slots, so that what holds of a module alone still holds of both together.
-/

namespace Pittsfield.Loader

open Pittsfield.Foundation
open Pittsfield.Region
open Pittsfield.Machine
open InsnType

section Patch

variable {L : Layout} {x86_disasm : Disasm} {image : Image} {es : List Examined} {t : VState}
variable {v u : Examined} {n : Nat}

theorem slot_aligned (L : Layout) (k : Nat) : L.chunk_size ∣ slot L k :=
  Nat.dvd_add (Nat.dvd_mul_left _ _) (L.stub_aligned.mul_left k)

/-- If the code ends within the chunk of its last instruction, no instruction contains
a later chunk start. -/
theorem ends_before_chunk (hp : Pass (Examines L x86_disasm image) {} es t)
    (hkeep : KeepsInside x86_disasm) (hend : EndsInLastChunk L image.length es) (hv : v ∈ es) {m : Nat}
    (hm : L.chunk_size ∣ m) (hlo : v.before.offset < m) : v.after.offset ≤ m := by
  by_contra hhi
  have hlast := no_straddle hp hv hm hlo (Nat.lt_of_not_le hhi)
  have hstep := hp.step_of_mem hv
  obtain ⟨_, _, -, hd, -⟩ := loopBody_ok hstep.2
  have hin := hkeep image _ _ hd
  have hafter := offset_after hstep
  have hchunk := hend v hlast
  obtain ⟨c, rfl⟩ := hm
  -- the chunk start lies behind the chunk of the instruction
  have hnext : v.before.offset / L.chunk_size + 1 ≤ c :=
    Nat.succ_le_of_lt (Nat.div_lt_of_lt_mul hlo)
  have hmul := Nat.mul_le_mul_right L.chunk_size hnext
  rw [Nat.mul_comm c] at hmul
  omega

/-- At a chunk start that is no slot stands an instruction that the patch leaves alone. -/
theorem untouched_of_aligned (hp : Pass (Examines L x86_disasm image) {} es t)
    (hkeep : KeepsInside x86_disasm) (hend : EndsInLastChunk L image.length es) (hv : v ∈ es)
    (hd : L.chunk_size ∣ v.before.offset) (hne : ∀ k < n, v.before.offset ≠ slot L k) :
    Untouched L n v := by
  intro k hk
  rcases Nat.lt_or_gt_of_ne (hne k hk) with hlt | hgt
  · exact Or.inl (ends_before_chunk hp hkeep hend hv (slot_aligned L k) hlt)
  · have hfive := L.jump_fits
    obtain ⟨a, ha⟩ := Nat.dvd_sub hd (slot_aligned L k)
    have hpos : 0 < a := Nat.pos_of_ne_zero fun h0 => by
      rw [h0, Nat.mul_zero] at ha
      omega
    have hle := Nat.le_mul_of_pos_right L.chunk_size hpos
    omega

/-- Behind an instruction that the patch leaves alone stands another one, or a slot. -/
theorem untouched_next (hp : Pass (Examines L x86_disasm image) {} es t)
    (hkeep : KeepsInside x86_disasm) (hend : EndsInLastChunk L image.length es) (hu : u ∈ es) (hv : v ∈ es)
    (hout : Untouched L n u) (he : v.before.offset = u.after.offset)
    (hne : ∀ k < n, v.before.offset ≠ slot L k) : Untouched L n v := by
  have hlt := offset_lt (hp.step_of_mem hu)
  intro k hk
  rcases Nat.lt_or_gt_of_ne (hne k hk) with hbefore | hgt
  · exact Or.inl (ends_before_chunk hp hkeep hend hv (slot_aligned L k) hbefore)
  · rcases hout k hk with h | h <;> omega

end Patch

section System

variable (L : Layout) (x86_disasm : Disasm) (image : Image) (stubs : List Word)
variable (alu : Alu X86Insn) (host : Word → Cpu → Cpu → Prop)

/-- One step of the module and the trusted side together. A function of the trusted side
returns to what it finds on the stack, so that it does not run on a stack in a guard zone. -/
inductive SystemStep : Cpu → Cpu → Prop
  | insn {s s' : Cpu} {o : Nat} {i : X86Insn} :
      loc L s = some o → (∀ k < stubs.length, o ≠ slot L k) →
      x86_disasm (codeBytes L (max image.length (slot L stubs.length)) s.mem) o = some i →
      exec L alu i s = some s' → SystemStep s s'
  | stub {s s' : Cpu} {k : Nat} :
      k < stubs.length → loc L s = some (slot L k) → s.reg .esp ∉ L.guardZone →
      host (jumpTarget s.mem s.eip) s s' → SystemStep s s'

end System

section Contained

variable (g : Settings) (sz : Size) (image : Image) (stubs : List Word) (es : List Examined)
variable (own : Set Word)

/-- The word on top of the stack is the address of a chunk start. -/
def ReturnsToChunk (s : Cpu) : Prop := ChunkStart g sz (s.load .dword (s.reg .esp))

/-- The steps that containment is about. Instructions stand where `verify()` looked, keep
track of the pointers and leave no weakening at a slot; the functions of the trusted side
write in the sandbox and in their `own` memory; and a slot is entered by a call that ends
on a chunk boundary, or with the address of a chunk start on the stack. -/
inductive Orderly : Cpu → Cpu → Prop
  | insn {s s' : Cpu} {v : Examined} : ¬ AtSlot (compute_sizes g sz) stubs.length s →
      Stands VState.offset (loc (compute_sizes g sz)) es s v →
      StackOk (compute_sizes g sz) v.before v.item →
      ClearAtSlot (compute_sizes g sz) stubs.length v →
      (AtSlot (compute_sizes g sz) stubs.length s' →
        v.item.type = insn_call ∧ slotWidth v.item = .dword ∧
          (compute_sizes g sz).chunk_size ∣ v.after.offset ∧
          v.after.offset < (compute_sizes g sz).code_size ∨ ReturnsToChunk g sz s') →
      Orderly s s'
  | stub {s s' : Cpu} : AtSlot (compute_sizes g sz) stubs.length s →
      Set.EqOn s'.mem s.mem ((compute_sizes g sz).sandbox ∪ own)ᶜ →
      (AtSlot (compute_sizes g sz) stubs.length s' → ReturnsToChunk g sz s') → Orderly s s'

/-- Runs all of whose steps are orderly. -/
def OrderlyRun (x86_disasm : Disasm) (alu : Alu X86Insn) (host : Word → Cpu → Cpu → Prop) :
    Cpu → Cpu → Prop :=
  Relation.ReflTransGen fun s s' =>
    SystemStep (compute_sizes g sz) x86_disasm image stubs alu host s s' ∧
      Orderly g sz stubs es own s s'

/-- Both pointers are in the sandbox, up to what a pop or a byte-sized offset leaves behind. -/
def Nearby (s : Cpu) : Prop :=
  s.reg .esp ∈ (Slack.around (compute_sizes g sz)).set ∧
    s.reg .ebp ∈ (Slack.around (compute_sizes g sz)).set

/-- How a run gets to a state: to a chunk start with both pointers known, or by falling
through from an instruction that the patch leaves alone. -/
inductive Arrived (s : Cpu) : Prop
  | entered (h : ChunkStart g sz s.eip) (hin : Nearby g sz s)
  | fallen {u : Examined} (hu : u ∈ es) (hfall : fallsThrough u.item = true)
      (hloc : loc (compute_sizes g sz) s = some u.after.offset)
      (hE : EspInv (Slack.around (compute_sizes g sz)) u.after.weak s)
      (hB : EbpInv (Slack.around (compute_sizes g sz)).set u.after.weak s)
      (hmasked : ∃ r, Run (compute_sizes g sz) es (u :: r) ∧
        ∀ k, MaskedBefore (compute_sizes g sz) k (u :: r) → Masked (compute_sizes g sz) s k)
      (hout : Untouched (compute_sizes g sz) stubs.length u)
      (hclear : ClearAtSlot (compute_sizes g sz) stubs.length u)

/-- The code region holds the verified code with the jumps of `install_stubs`. -/
def Patched (s : Cpu) : Prop :=
  Set.EqOn s.mem (install_stubs (compute_sizes g sz) stubs (loadedCode (compute_sizes g sz) image))
    (span 32 (compute_sizes g sz).code_start (compute_sizes g sz).code_size)

/-- What every orderly step keeps, of a run that starts with the memory `mem`. -/
structure SystemInv (mem : Word → BitVec 8) (s : Cpu) : Prop where
  memory : Set.EqOn s.mem mem
    ((compute_sizes g sz).sandbox ∪ (compute_sizes g sz).guardZone ∪ own)ᶜ
  code : Patched g sz image stubs s
  arrived : Arrived g sz stubs es s
  returns : AtSlot (compute_sizes g sz) stubs.length s → ReturnsToChunk g sz s

/-- What holds all along a run of the module with the trusted side. -/
structure SystemContained (mem : Word → BitVec 8) (s : Cpu) : Prop where
  memory : Set.EqOn s.mem mem
    ((compute_sizes g sz).sandbox ∪ (compute_sizes g sz).guardZone ∪ own)ᶜ
  code : Patched g sz image stubs s
  control : Place g sz image es s.eip
  /-- a slot leads to its function, with a sandbox stack and a sandboxed return address -/
  calls : ∀ k (hk : k < stubs.length), loc (compute_sizes g sz) s = some (slot (compute_sizes g sz) k) →
    jumpTarget s.mem s.eip = stubs[k] ∧ Nearby g sz s ∧ ReturnsToChunk g sz s

variable {g sz image stubs es own} {x86_disasm : Disasm} {alu : Alu X86Insn}
variable {host : Word → Cpu → Cpu → Prop} {mem : Word → BitVec 8} {s s' : Cpu} {t : VState}
variable {u v : Examined}

variable (g sz) in
theorem code_word {o : Nat} (ho : o < (compute_sizes g sz).code_size) :
    BitVec.ofNat 32 ((compute_sizes g sz).code_start + o) ∈
      span 32 (compute_sizes g sz).code_start (compute_sizes g sz).code_size := by
  have hf := (compute_sizes g sz).code_fits
  have hat : (BitVec.ofNat 32 ((compute_sizes g sz).code_start + o)).toNat =
      (compute_sizes g sz).code_start + o := by
    rw [BitVec.toNat_ofNat, Nat.mod_eq_of_lt (by omega)]
  exact ⟨by omega, by omega⟩

/-- What the processor decodes is the patched code. -/
theorem codeBytes_patched (hlen : image.length ≤ (compute_sizes g sz).code_size)
    (hfit : slot (compute_sizes g sz) stubs.length ≤ (compute_sizes g sz).code_size)
    (h : Patched g sz image stubs s) :
    codeBytes (compute_sizes g sz) (max image.length (slot (compute_sizes g sz) stubs.length)) s.mem =
      patchedCode (compute_sizes g sz) stubs image := by
  refine List.map_congr_left fun o ho => h (code_word g sz ?_)
  have hlt := List.mem_range.mp ho
  omega

/-- The jump in a slot leads to the function of the slot. -/
theorem jumpTarget_patched
    (hfit : slot (compute_sizes g sz) stubs.length ≤ (compute_sizes g sz).code_size)
    (h : Patched g sz image stubs s) {k : Nat} (hk : k < stubs.length)
    (hloc : loc (compute_sizes g sz) s = some (slot (compute_sizes g sz) k)) :
    jumpTarget s.mem s.eip = stubs[k] := by
  have hslot : jumpTarget (install_stubs (compute_sizes g sz) stubs
      (loadedCode (compute_sizes g sz) image)) s.eip = stubs[k] := (slot_patched hfit hk hloc).2
  rw [← hslot, jumpTarget, jumpTarget]
  congr 1
  refine Cpu.bytesAt_congr fun j hj => h ?_
  have hroom := slot_le (L := compute_sizes g sz) hk
  have hword : s.eip + 1 + BitVec.ofNat 32 j = BitVec.ofNat 32
      ((compute_sizes g sz).code_start + (slot (compute_sizes g sz) k + (j + 1))) := by
    rw [eip_of_loc hloc, Cpu.add_one_ofNat, ← BitVec.ofNat_add, Nat.add_assoc]
  rw [hword]
  exact code_word g sz (by omega)

/-- What is known where control stands at an examined instruction. -/
theorem Arrived.visit (hp : Pass (Examines (compute_sizes g sz) x86_disasm image) {} es t)
    (hlen : image.length ≤ (compute_sizes g sz).code_size) (hkeep : KeepsInside x86_disasm)
    (hend : EndsInLastChunk (compute_sizes g sz) image.length es) (h : Arrived g sz stubs es s)
    (hv : Stands VState.offset (loc (compute_sizes g sz)) es s v)
    (hout : ¬ AtSlot (compute_sizes g sz) stubs.length s) :
    Traced (compute_sizes g sz) es s v ∧
      EspInv (Slack.around (compute_sizes g sz)) v.before.weak s ∧
      EbpInv (Slack.around (compute_sizes g sz)).set v.before.weak s ∧
      Untouched (compute_sizes g sz) stubs.length v := by
  have hne : ∀ k < stubs.length, v.before.offset ≠ slot (compute_sizes g sz) k :=
    fun k hk he => hout ⟨k, hk, he ▸ hv.2⟩
  cases h with
  | entered hstart hin =>
    have hd := stands_aligned hp hlen hv hstart.aligned
    exact ⟨⟨[], .enter .nil hv.1 hd, fun k hk => hk.elim⟩, .of_mem hin.1, fun _ => hin.2,
      untouched_of_aligned hp hkeep hend hv.1 hd hne⟩
  | fallen hu hfall hloc hE hB hmasked huout hclear =>
    have he : v.before.offset = _ := Option.some.inj (hv.2.symm.trans hloc)
    obtain ⟨r, hrun, hr⟩ := hmasked
    refine ⟨⟨_, .next hrun hv.1 hfall he, hr⟩, ?_, ?_,
      untouched_next hp hkeep hend hu hv.1 huout he hne⟩
    · rw [hp.before_eq_after (offset_pos _ x86_disasm image) hu hv.1 he]
      exact hE
    · rw [hp.before_eq_after (offset_pos _ x86_disasm image) hu hv.1 he]
      exact hB

/-- Control comes to a slot with both pointers known. -/
theorem Arrived.nearby (hp : Pass (Examines (compute_sizes g sz) x86_disasm image) {} es t)
    (h : Arrived g sz stubs es s) (hslot : AtSlot (compute_sizes g sz) stubs.length s) :
    Nearby g sz s := by
  cases h with
  | entered _ hin => exact hin
  | fallen hu _ hloc hE hB _ _ hclear =>
    obtain ⟨k, hk, hk'⟩ := hslot
    have hweak := hclear k hk (Option.some.inj (hloc.symm.trans hk'))
    simp only [Flags.weak, Bool.or_eq_false_iff] at hweak
    exact ⟨hE.mem (weak_examined hp hu).2 hweak.1.1 hweak.1.2, hB hweak.2⟩

/-- An instruction that is no transfer goes on to the next one. -/
theorem falls_of_stays {i : X86Insn} (h : transfers i.type = false) : fallsThrough i = true := by
  unfold fallsThrough
  split
  all_goals first | rfl | (rename_i ht; rw [ht] at h; cases h)

section

variable (h : verify (compute_sizes g sz) x86_disasm image = .ok es)
variable (hlen : image.length ≤ (compute_sizes g sz).code_size) (hkeep : KeepsInside x86_disasm)
variable (hown : ReadsOwnBytes x86_disasm)
variable (hfit : slot (compute_sizes g sz) stubs.length ≤ (compute_sizes g sz).code_size)
variable (hend : EndsInLastChunk (compute_sizes g sz) image.length es)
variable (hright : DecodedRightly (compute_sizes g sz) es)

include h hlen hkeep hown hfit hend in
/-- Outside the slots the machine executes what was examined. -/
theorem system_executes (hinv : SystemInv g sz image stubs es own mem s)
    (hv : Stands VState.offset (loc (compute_sizes g sz)) es s v)
    (hout : ¬ AtSlot (compute_sizes g sz) stubs.length s)
    (hs : SystemStep (compute_sizes g sz) x86_disasm image stubs alu host s s') :
    exec (compute_sizes g sz) alu v.item s = some s' := by
  obtain ⟨t, hp, -⟩ := verify_pass h
  cases hs with
  | insn hloc _ hd he =>
    obtain ⟨-, -, -, huntouched⟩ := hinv.arrived.visit hp hlen hkeep hend hv hout
    obtain rfl := Option.some.inj (hv.2.symm.trans hloc)
    rw [codeBytes_patched hlen hfit hinv.code,
      untouched_decoded h hlen hkeep hown hfit hv.1 huntouched] at hd
    obtain rfl := Option.some.inj hd
    exact he
  | stub hk hloc => exact absurd ⟨_, hk, hloc⟩ hout

/-- A call that ends on a chunk boundary leaves the address of a chunk start on the stack. -/
theorem call_returns (hp : Pass (Examines (compute_sizes g sz) x86_disasm image) {} es t)
    (hv : Stands VState.offset (loc (compute_sizes g sz)) es s v) (ht : v.item.type = insn_call)
    (hw : slotWidth v.item = .dword) (hd : (compute_sizes g sz).chunk_size ∣ v.after.offset)
    (hlt : v.after.offset < (compute_sizes g sz).code_size)
    (hs : exec (compute_sizes g sz) alu v.item s = some s') : ReturnsToChunk g sz s' := by
  have hf := (compute_sizes g sz).code_fits
  have hafter := offset_after (hp.step_of_mem hv.1)
  have hmem := code_word g sz hlt
  rw [ReturnsToChunk, call_pushes ht hw hs, eip_of_loc hv.2, ← BitVec.ofNat_add, Nat.add_assoc,
    ← hafter]
  refine ⟨?_, fun _ => Or.inl hmem⟩
  rw [BitVec.toNat_ofNat, Nat.mod_eq_of_lt (by omega)]
  exact Nat.dvd_add (compute_sizes g sz).code_aligned hd

/-- Where an examined instruction leads. -/
theorem Arrived.insn (hp : Pass (Examines (compute_sizes g sz) x86_disasm image) {} es t)
    (hlen : image.length ≤ (compute_sizes g sz).code_size) (hkeep : KeepsInside x86_disasm)
    (hright : DecodedRightly (compute_sizes g sz) es)
    (hv : Stands VState.offset (loc (compute_sizes g sz)) es s v)
    (hok : StackOk (compute_sizes g sz) v.before v.item)
    (hclear : ClearAtSlot (compute_sizes g sz) stubs.length v)
    (hout : Untouched (compute_sizes g sz) stubs.length v) (htraced : Traced (compute_sizes g sz) es s v)
    (hE : EspInv (Slack.around (compute_sizes g sz)) v.before.weak s)
    (hB : EbpInv (Slack.around (compute_sizes g sz)).set v.before.weak s)
    (hs : exec (compute_sizes g sz) alu v.item s = some s') : Arrived g sz stubs es s' := by
  have hdec := hright.decoded v hv.1
  have hmasked : ∃ r, Run (compute_sizes g sz) es (v :: r) ∧
      ∀ k, MaskedBefore (compute_sizes g sz) k (v :: r) → Masked (compute_sizes g sz) s' k := by
    obtain ⟨r, hrun, hr⟩ := htraced
    refine ⟨r, hrun, fun k hk => ?_⟩
    rcases hk with hmask | ⟨hpopf, hpop, hk⟩
    · exact mask_step hmask hdec (hright.wide v hv.1) hs
    · exact popf_step hpop hpopf hs (hr k hk)
  have hleads := exec_leads hlen hkeep hp hv hdec (hright.returns v hv.1)
    (fun k hn => htraced.masked hp hright hv.1 hn) hs
  rcases pointers_step hp hlen hkeep hv hdec hok hE hB hs with ⟨ht, hloc, h1, h2⟩ | ⟨-, hin⟩
  · exact .fallen hv.1 (falls_of_stays ht) hloc h1 h2 hmasked hout hclear
  · rcases hleads with ⟨hfall, hloc⟩ | hstart
    · exact .fallen hv.1 hfall hloc (.of_mem hin.1) (fun _ => hin.2) hmasked hout hclear
    · exact .entered hstart hin

include h hlen hkeep hown hfit hend hright in
/-- An instruction of the module keeps the invariant. -/
theorem SystemInv.insn (hinv : SystemInv g sz image stubs es own mem s)
    (hout : ¬ AtSlot (compute_sizes g sz) stubs.length s)
    (hv : Stands VState.offset (loc (compute_sizes g sz)) es s v)
    (hok : StackOk (compute_sizes g sz) v.before v.item)
    (hclear : ClearAtSlot (compute_sizes g sz) stubs.length v)
    (hret : AtSlot (compute_sizes g sz) stubs.length s' →
      v.item.type = insn_call ∧ slotWidth v.item = .dword ∧
        (compute_sizes g sz).chunk_size ∣ v.after.offset ∧
        v.after.offset < (compute_sizes g sz).code_size ∨ ReturnsToChunk g sz s')
    (hs : SystemStep (compute_sizes g sz) x86_disasm image stubs alu host s s') :
    SystemInv g sz image stubs es own mem s' := by
  have hexec := system_executes h hlen hkeep hown hfit hend hinv hv hout hs
  obtain ⟨t, hp, -⟩ := verify_pass h
  obtain ⟨htraced, hE, hB, huntouched⟩ := hinv.arrived.visit hp hlen hkeep hend hv hout
  have hchanges : Set.EqOn s'.mem s.mem
      ((compute_sizes g sz).sandbox ∪ (compute_sizes g sz).guardZone)ᶜ := by
    intro x hx
    by_contra hne
    obtain ⟨f, hc, -⟩ := weak_after hp hv.1
    exact hx (changes_confined hc (hright.decoded v hv.1) (hright.no_fpu v hv.1) hok
      (weak_examined hp hv.1).1 hE hB (fun hn => htraced.masked hp hright hv.1 hn) hexec hne)
  refine ⟨?_, ?_, .insn hp hlen hkeep hright hv hok hclear huntouched htraced hE hB hexec, ?_⟩
  · exact fun x hx => (hchanges fun hx' => hx (Or.inl hx')).trans (hinv.memory hx)
  · intro x hx
    obtain ⟨h1, h2⟩ := code_apart hx
    exact (hchanges (not_or.mpr ⟨h1, h2⟩)).trans (hinv.code hx)
  · intro hslot
    rcases hret hslot with ⟨ht, hw, hd, hlt⟩ | hword
    · exact call_returns hp hv ht hw hd hlt hexec
    · exact hword

/-- A function of the trusted side keeps the invariant. -/
theorem SystemInv.stub (hp : Pass (Examines (compute_sizes g sz) x86_disasm image) {} es t)
    (hhost : Cdecl host)
    (hapart : Disjoint own (span 32 (compute_sizes g sz).code_start (compute_sizes g sz).code_size))
    (hinv : SystemInv g sz image stubs es own mem s)
    (hslot : AtSlot (compute_sizes g sz) stubs.length s)
    (hmem : Set.EqOn s'.mem s.mem ((compute_sizes g sz).sandbox ∪ own)ᶜ)
    (hret : AtSlot (compute_sizes g sz) stubs.length s' → ReturnsToChunk g sz s')
    (hs : SystemStep (compute_sizes g sz) x86_disasm image stubs alu host s s') :
    SystemInv g sz image stubs es own mem s' := by
  cases hs with
  | insn hloc hne =>
    obtain ⟨k, hk, hk'⟩ := hslot
    exact absurd (Option.some.inj (hloc.symm.trans hk')) (hne k hk)
  | stub hk hloc hstack hcall =>
    obtain ⟨hesp, hebp⟩ := hinv.arrived.nearby hp hslot
    have hin := ((Slack.around (compute_sizes g sz)).mem_or_guard hesp).resolve_right hstack
    refine ⟨?_, ?_, .entered ?_ ⟨?_, ?_⟩, hret⟩
    · intro x hx
      refine (hmem fun hx' => hx ?_).trans (hinv.memory hx)
      exact hx'.elim (fun h1 => Or.inl (Or.inl h1)) Or.inr
    · intro x hx
      refine (hmem fun hx' => ?_).trans (hinv.code hx)
      rcases hx' with h1 | h1
      · exact (code_apart hx).1 h1
      · exact Set.disjoint_left.mp hapart h1 hx
    · rw [hhost.resumes _ _ _ hcall]
      exact hinv.returns hslot
    · rw [hhost.pops _ _ _ hcall]
      exact (Slack.around (compute_sizes g sz)).pop_mem _ hin 4 (by decide)
    · rw [hhost.keeps_ebp _ _ _ hcall]
      exact hebp

/-- What the invariant says of the state a run has come to. -/
theorem SystemInv.system_contained (hp : Pass (Examines (compute_sizes g sz) x86_disasm image) {} es t)
    (ht : image.length ≤ t.offset) (hlen : image.length ≤ (compute_sizes g sz).code_size)
    (hkeep : KeepsInside x86_disasm)
    (hfit : slot (compute_sizes g sz) stubs.length ≤ (compute_sizes g sz).code_size)
    (hinv : SystemInv g sz image stubs es own mem s) :
    SystemContained g sz image stubs es own mem s := by
  refine ⟨hinv.memory, hinv.code, ?_, fun k hk hloc => ?_⟩
  · cases hinv.arrived with
    | entered hstart => exact .chunk hstart
    | fallen hu _ hloc =>
      have hstep := hp.step_of_mem hu
      obtain ⟨_, _, -, hd, -⟩ := loopBody_ok hstep.2
      have hin := hkeep image _ _ hd
      have hafter := offset_after hstep
      exact place_after hp hkeep ht hu (loc_toNat hloc (by omega))
  · exact ⟨jumpTarget_patched hfit hinv.code hk hloc, hinv.arrived.nearby hp ⟨k, hk, hloc⟩,
      hinv.returns ⟨k, hk, hloc⟩⟩

include h hlen hkeep hown hfit hend hright in
/-- The invariant holds all along an orderly run. -/
theorem system_run (hhost : Cdecl host)
    (hapart : Disjoint own (span 32 (compute_sizes g sz).code_start (compute_sizes g sz).code_size))
    (h0 : SystemInv g sz image stubs es own mem s)
    (hrun : OrderlyRun g sz image stubs es own x86_disasm alu host s s') :
    SystemInv g sz image stubs es own mem s' := by
  induction hrun with
  | refl => exact h0
  | tail _ hstep ih =>
    obtain ⟨hs, horderly⟩ := hstep
    cases horderly with
    | insn hout hv hok hclear hret =>
      exact ih.insn h hlen hkeep hown hfit hend hright hout hv hok hclear hret hs
    | stub hslot hmem hret =>
      obtain ⟨t, hp, -⟩ := verify_pass h
      exact ih.stub hp hhost hapart hslot hmem hret hs

end

end Contained

end Pittsfield.Loader
