import Pittsfield.Loader.Opcodes
import Pittsfield.Loader.Switch

/-!
# Chunk starts and the end of the code

`verify()` looks for a chunk start inside an instruction only when it comes to the
next instruction, so nothing looks inside the last one. Every chunk start up to
the last instruction is an instruction start; the results below say exactly when
that reaches the whole code, and exactly when every direct successor of a verified
instruction is verified too.
-/

namespace Pittsfield.Loader

open Pittsfield.Foundation
open Pittsfield.Region
open Pittsfield.Machine
open InsnType

/-- What the loop keeps true of `next_aligned`. -/
structure Aligned (L : Layout) (st : VState) : Prop where
  multiple : L.chunk_size ∣ st.next_aligned
  close : st.next_aligned ≤ st.offset + L.chunk_size

section

variable {L : Layout} {x86_disasm : Disasm} {image : Image}
variable {st st' : VState} {insn : X86Insn} {es : List Examined}

theorem aligned_initial : Aligned L {} := ⟨Nat.dvd_zero _, Nat.zero_le _⟩

/-- A round sets `next_aligned` to the next chunk start after its offset. -/
theorem examines_next (h : Examines L x86_disasm image st insn st') (ha : Aligned L st) :
    st.offset ≤ st.next_aligned ∧ L.chunk_size ∣ st'.next_aligned ∧
      st.offset < st'.next_aligned ∧ st'.next_aligned ≤ st.offset + L.chunk_size := by
  obtain ⟨n, flags, hn, -, -, -, rfl⟩ := loopBody_ok h.2
  have hpos := L.chunk_pos
  have hclose := ha.close
  unfold nextAligned at hn
  split at hn
  · rename_i he
    cases hn
    exact ⟨he.le, Nat.dvd_add ha.multiple (Nat.dvd_refl _), by simp only [updateState]; omega,
      by simp only [updateState]; omega⟩
  · rename_i hne
    split at hn
    · cases hn
    · cases hn
      exact ⟨by omega, ha.multiple, by simp only [updateState]; omega, hclose⟩

theorem Aligned.step (h : Examines L x86_disasm image st insn st') (ha : Aligned L st) :
    Aligned L st' := by
  obtain ⟨-, hm, -, hc⟩ := examines_next h ha
  have hlt := offset_lt h
  exact ⟨hm, by omega⟩

theorem verify_pass (h : verify L x86_disasm image = .ok es) :
    ∃ t, Pass (Examines L x86_disasm image) {} es t ∧ image.length ≤ t.offset :=
  verifyLoop_pass h

theorem aligned_before {t : VState} (hp : Pass (Examines L x86_disasm image) {} es t)
    {v : Examined} (hv : v ∈ es) : Aligned L v.before :=
  ((hp.invariant aligned_initial fun _ _ _ => Aligned.step).1 v hv).1

/-- An instruction behind which the verifier has gone on contains no chunk start
but its own. -/
theorem no_straddle {t : VState} (hp : Pass (Examines L x86_disasm image) {} es t) {v : Examined}
    (hv : v ∈ es) {m : Nat} (hm : L.chunk_size ∣ m) (hlo : v.before.offset < m)
    (hhi : m < v.after.offset) : es.getLast? = some v := by
  rcases hp.next hv with hl | ⟨w, hw, he⟩
  · exact hl
  · obtain ⟨-, hd, -, hle⟩ := examines_next (hp.step_of_mem hv) (aligned_before hp hv)
    have hnext := (examines_next (hp.step_of_mem hw) (aligned_before hp hw)).1
    rw [he] at hnext
    obtain ⟨a, ha⟩ := hm
    obtain ⟨b, hb⟩ := hd
    have hba : b ≤ a := by
      by_contra hlt
      have h1 : L.chunk_size * (a + 1) ≤ L.chunk_size * b := Nat.mul_le_mul_left _ (by omega)
      rw [Nat.mul_add, Nat.mul_one] at h1
      omega
    have h2 := Nat.mul_le_mul_left L.chunk_size hba
    omega

/-- Every chunk start up to the start of the last instruction is examined. -/
theorem chunk_start_examined {t : VState} (hp : Pass (Examines L x86_disasm image) {} es t)
    {u : Examined} (hu : u ∈ es) {m : Nat} (hm : L.chunk_size ∣ m) (hle : m ≤ u.before.offset) :
    ∃ v ∈ es, v.before.offset = m := by
  have hpos := offset_pos L x86_disasm image
  have hub := Pass.pos_bounds hpos hp hu
  obtain ⟨v, hv, hlo, hhi⟩ := Pass.covers VState.offset hp (Nat.zero_le m) (by omega)
  by_cases he : v.before.offset = m
  · exact ⟨v, hv, he⟩
  · have hl := no_straddle hp hv hm (by omega) hhi
    have hlast := Pass.before_le_last hpos hp hu hl
    omega

/-- The code ends within the chunk in which its last instruction starts. -/
def EndsInLastChunk (L : Layout) (code_len : Nat) (es : List Examined) : Prop :=
  ∀ v, es.getLast? = some v → code_len ≤ (v.before.offset / L.chunk_size + 1) * L.chunk_size

/-- Every chunk start of the code is examined and no instruction contains another
one, exactly when the code ends within the chunk of its last instruction. -/
theorem chunk_starts_iff (h : verify L x86_disasm image = .ok es) :
    ((∀ k, k * L.chunk_size < image.length → ∃ v ∈ es, v.before.offset = k * L.chunk_size) ∧
      ∀ v ∈ es, ∀ k, v.before.offset < k * L.chunk_size → k * L.chunk_size < v.after.offset →
        image.length ≤ k * L.chunk_size) ↔
    EndsInLastChunk L image.length es := by
  obtain ⟨t, hp, ht⟩ := verify_pass h
  have hpos := offset_pos L x86_disasm image
  have hc := L.chunk_pos
  constructor
  · rintro ⟨hstarts, -⟩ v hl
    by_contra hlt
    obtain ⟨w, hw, he⟩ := hstarts (v.before.offset / L.chunk_size + 1) (by omega)
    have hle := Pass.before_le_last hpos hp hw hl
    have hlt' := Nat.lt_div_mul_add hc (a := v.before.offset)
    rw [Nat.add_mul, Nat.one_mul] at he
    omega
  · intro hend
    have hreach : ∀ k, k * L.chunk_size < image.length → ∃ v, es.getLast? = some v ∧
        k * L.chunk_size ≤ v.before.offset := by
      intro k hk
      have hne : es ≠ [] := by
        rintro rfl
        cases hp
        have hlen : image.length ≤ 0 := ht
        omega
      obtain ⟨v, hl⟩ := Option.isSome_iff_exists.mp (List.getLast?_isSome.mpr hne)
      refine ⟨v, hl, ?_⟩
      have hlt := Nat.lt_of_mul_lt_mul_right (Nat.lt_of_lt_of_le hk (hend v hl))
      exact (Nat.le_div_iff_mul_le hc).mp (by omega)
    refine ⟨?_, ?_⟩
    · intro k hk
      obtain ⟨v, hl, hle⟩ := hreach k hk
      exact chunk_start_examined hp (List.mem_of_getLast? hl) (Dvd.intro_left k rfl) hle
    · intro v hv k hlo hhi
      by_contra hlt
      obtain ⟨w, hl, hle⟩ := hreach k (by omega)
      have hlv := no_straddle hp hv (Dvd.intro_left k rfl) hlo hhi
      rw [Option.some.inj (hl.symm.trans hlv)] at hle
      omega

/-- Fifteen one-byte instructions and a two-byte one across the chunk boundary. -/
def straddling : Image := List.replicate 15 0x90 ++ [0x89, 0xc0]

theorem chunk_start_missed :
    ¬ ∀ (L : Layout) (x86_disasm : Disasm) (image : Image) (es : List Examined),
      KeepsInside x86_disasm → verify L x86_disasm image = .ok es →
      ∀ k, k * L.chunk_size < image.length → ∃ v ∈ es, v.before.offset = k * L.chunk_size := by
  intro h
  obtain ⟨v, hv, he⟩ :=
    h classic disassemble straddling _ disassemble_keepsInside rfl 1 (by decide)
  revert v
  decide

/-- With one more byte before it the last instruction starts the second chunk. -/
def notStraddling : Image := List.replicate 16 0x90 ++ [0x89, 0xc0]

theorem chunk_starts_notStraddling :
    verify classic disassemble notStraddling = .ok (examined notStraddling) ∧
    (∀ k, k * classic.chunk_size < notStraddling.length →
      ∃ v ∈ examined notStraddling, v.before.offset = k * classic.chunk_size) ∧
    ∀ v ∈ examined notStraddling, ∀ k, v.before.offset < k * classic.chunk_size →
      k * classic.chunk_size < v.after.offset → notStraddling.length ≤ k * classic.chunk_size := by
  have h : verify classic disassemble notStraddling = .ok (examined notStraddling) := rfl
  refine ⟨h, (chunk_starts_iff h).mpr ?_⟩
  intro v hv
  cases hv
  decide

/-- The instruction goes on to the next one. -/
def fallsThrough (insn : X86Insn) : Bool :=
  match insn.type with
  | insn_jmp | insn_call | insn_return => false
  | _ => true

/-- The target of the relative jump, conditional jump or call `v`. -/
def LiteralTarget (L : Layout) (v : Examined) (target : Nat) : Prop :=
  ∃ a, v.item.args = [a] ∧ (a.type = .op_relative_near ∨ a.type = .op_relative_far) ∧
    target = (relativeTarget L v.item v.before.offset a.data).toNat

/-- An address at which execution can go on directly after `v`. -/
def Successor (L : Layout) (v : Examined) (address : Nat) : Prop :=
  LiteralTarget L v address ∨
    fallsThrough v.item = true ∧ address = L.code_start + v.after.offset

theorem operandFlags_relative {safety unsafety : Flags} {offset : Nat} {a : X86Op}
    (hargs : insn.args = [a]) (ht : a.type = .op_relative_near ∨ a.type = .op_relative_far) :
    operandFlags L safety unsafety insn offset = relativeFlags L insn offset a := by
  rcases ht with ht | ht <;> simp only [operandFlags, unaryFlags, hargs, ht]

/-- Execution stays in verified code: every direct successor is the address of an
examined instruction below `code_len`, exactly when the last instruction neither
falls through nor stands before a literal target. -/
theorem successors_verified_iff (h : verify L x86_disasm image = .ok es) :
    (∀ v ∈ es, ∀ a, Successor L v a →
      ∃ w ∈ es, w.before.offset < image.length ∧ a = L.code_start + w.before.offset) ↔
    ∀ u, es.getLast? = some u → fallsThrough u.item = false ∧
      ∀ v ∈ es, ∀ a, LiteralTarget L v a → a ≤ L.code_start + u.before.offset := by
  obtain ⟨t, hp, ht⟩ := verify_pass h
  have hpos := offset_pos L x86_disasm image
  constructor
  · intro hsucc u hl
    have hu := List.mem_of_getLast? hl
    constructor
    · rw [Bool.eq_false_iff]
      intro hfall
      obtain ⟨w, hw, hlt, he⟩ := hsucc u hu _ (Or.inr ⟨hfall, rfl⟩)
      have hlast := congrArg VState.offset (hp.last_after hl)
      omega
    · intro v hv a ha
      obtain ⟨w, hw, -, rfl⟩ := hsucc v hv a (Or.inl ha)
      exact Nat.add_le_add_left (Pass.before_le_last hpos hp hw hl) _
  · intro hlast v hv a ha
    have hlt : ∀ w ∈ es, w.before.offset < image.length := fun w hw => (hp.step_of_mem hw).1
    obtain ⟨u, hl⟩ := Option.isSome_iff_exists.mp
      (List.getLast?_isSome.mpr (List.ne_nil_of_mem hv))
    obtain ⟨hfall, htargets⟩ := hlast u hl
    rcases ha with ha | ⟨hf, rfl⟩
    · have hle := htargets v hv a ha
      obtain ⟨o, hargs, hty, rfl⟩ := ha
      obtain ⟨n, flags, -, -, -, hc, -⟩ := loopBody_ok (hp.step_of_mem hv).2
      have ho := (checkInsn_ok hc).2.1
      rw [operandFlags_relative hargs hty] at ho
      obtain ⟨⟨hd, hlo, -⟩, -⟩ := relativeFlags_ok ho
      have hd' := (Nat.dvd_sub hd L.code_aligned)
      obtain ⟨w, hw, he⟩ := chunk_start_examined hp (List.mem_of_getLast? hl) hd' (by omega)
      exact ⟨w, hw, hlt w hw, by omega⟩
    · rcases hp.next hv with hl' | ⟨w, hw, he⟩
      · rw [Option.some.inj (hl'.symm.trans hl), hfall] at hf
        cases hf
      · exact ⟨w, hw, hlt w hw, by rw [he]⟩

/-- Two chunks: a jump to the second one, and in it a jump back. -/
def pingPong : Image :=
  [0xe9, 11, 0, 0, 0] ++ List.replicate 11 0x90 ++ [0xe9, 0xeb, 0xff, 0xff, 0xff]

theorem pingPong_successors :
    verify classic disassemble pingPong = .ok (examined pingPong) ∧
    ∀ v ∈ examined pingPong, ∀ a, Successor classic v a →
      ∃ w ∈ examined pingPong, w.before.offset < pingPong.length ∧
        a = classic.code_start + w.before.offset := by
  have htargets : ∀ v ∈ examined pingPong, ∀ o ∈ v.item.args,
      (relativeTarget classic v.item v.before.offset o.data).toNat ≤ classic.code_start + 16 := by
    decide
  have h : verify classic disassemble pingPong = .ok (examined pingPong) := rfl
  refine ⟨h, (successors_verified_iff h).mpr ?_⟩
  intro u hu
  cases hu
  refine ⟨rfl, ?_⟩
  rintro v hv a ⟨o, ho, -, rfl⟩
  exact htargets v hv o (by simp [ho])

theorem runs_off_the_end :
    ¬ ∀ (L : Layout) (x86_disasm : Disasm) (image : Image) (es : List Examined),
      image.length ≤ L.code_size → verify L x86_disasm image = .ok es →
      ∀ v ∈ es, ∀ a, Successor L v a →
        ∃ w ∈ es, w.before.offset < image.length ∧ a = L.code_start + w.before.offset := by
  intro h
  obtain ⟨w, hw, hlt, he⟩ := h classic disassemble [0x90] _ (by decide) rfl _
    List.mem_cons_self _ (Or.inr ⟨rfl, rfl⟩)
  revert w
  decide

end

end Pittsfield.Loader
