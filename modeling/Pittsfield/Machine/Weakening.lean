import Pittsfield.Machine.Cpu

/-!
# The weakenings W1, W2 and W3 of `checks.txt`

Both verifiers keep the same three weakenings in the same way: W1 lets `%ebp`
point anywhere, W2 lets `%esp` point anywhere, W3 lets `%esp` have drifted by the
bumps counted so far. Here they are a state `Weak` with the update `Weak.after`,
together with what the state says about the two registers and the conditions
under which one step of the machine agrees with the update. A `Slack` is the set
in which an unweakened register lies: the sandbox and a little more.
-/

namespace Pittsfield.Machine

open Pittsfield.Foundation
open Pittsfield.Region

structure Weak where
  change_ebp : Bool := false
  change_esp : Bool := false
  bump_esp : Bool := false
  bump_count : Nat := 0
  deriving DecidableEq

/-- What an instruction does to the weakenings: POST of `checks.txt`. -/
structure Post where
  change_ebp : Bool := false
  change_esp : Bool := false
  bump_esp : Bool := false
  use_esp : Bool := false
  ebp_safe : Bool := false

/-- Set the new weakenings, count the bumps, then let `USE_ESP` and the mask of
`%ebp` clear what they kill. -/
def Weak.after (u : Weak) (f : Post) : Weak where
  change_ebp := (u.change_ebp || f.change_ebp) && !f.ebp_safe
  change_esp := (u.change_esp || f.change_esp ||
    decide (250 ≤ if f.bump_esp then u.bump_count + 1 else u.bump_count)) && !f.use_esp
  bump_esp := (u.bump_esp || f.bump_esp) && !f.use_esp
  bump_count := if f.use_esp then 0 else if f.bump_esp then u.bump_count + 1 else u.bump_count

/-- Bumps are counted only while W3 is set, and W2 is set from the 250th on. -/
structure Weak.Ok (u : Weak) : Prop where
  count_zero : u.bump_esp = false → u.bump_count = 0
  count_lt : u.change_esp = false → u.bump_count < 250

theorem Weak.ok_initial : Weak.Ok {} := ⟨fun _ => rfl, fun _ => by decide⟩

theorem Weak.Ok.after {u : Weak} (h : u.Ok) (f : Post) : (u.after f).Ok := by
  obtain ⟨hz, hlt⟩ := h
  constructor
  · intro hb
    simp only [Weak.after] at hb ⊢
    split
    · rfl
    · simp_all
  · intro hc
    simp only [Weak.after] at hc ⊢
    split
    · decide
    · simp_all

/-- A byte-sized sum or difference, with the carry, moves a word by at most 129. -/
theorem bump_near (x b : Word) (c : Bool) :
    (∃ k : Int, k.natAbs ≤ 255 ∧
      x + (b.setWidth 8).signExtend 32 + BitVec.ofNat 32 c.toNat = x + BitVec.ofInt 32 k) ∧
    ∃ k : Int, k.natAbs ≤ 255 ∧
      x - (b.setWidth 8).signExtend 32 - BitVec.ofNat 32 c.toNat = x + BitVec.ofInt 32 k := by
  have h1 := BitVec.le_toInt (b.setWidth 8)
  have h2 : (b.setWidth 8).toInt < 2 ^ 7 := BitVec.toInt_lt
  have hb : (b.setWidth 8).signExtend 32 = BitVec.ofInt 32 (b.setWidth 8).toInt := rfl
  have hc : BitVec.ofNat 32 c.toNat = BitVec.ofInt 32 (c.toNat : Int) :=
    (BitVec.ofInt_natCast _ _).symm
  have hc1 : c.toNat ≤ 1 := Bool.toNat_le c
  refine ⟨⟨(b.setWidth 8).toInt + c.toNat, by omega, ?_⟩,
    ⟨-((b.setWidth 8).toInt + c.toNat), by omega, ?_⟩⟩
  · rw [hb, hc, BitVec.ofInt_add, BitVec.add_assoc]
  · rw [hb, hc, BitVec.ofInt_neg, BitVec.ofInt_add]
    grind

theorem sub_bytes (x : Word) (w : Width) :
    x - BitVec.ofNat 32 w.bytes = x + BitVec.ofInt 32 (-(w.bytes : Int)) ∧
      (-(w.bytes : Int)).natAbs ≤ 255 := by
  have hw := w.bytes_le
  refine ⟨?_, by omega⟩
  rw [BitVec.ofInt_neg, BitVec.ofInt_natCast, BitVec.sub_eq_add_neg]

/-- `and $-16` moves a word down by less than 16. -/
theorem align_near (x : Word) :
    ∃ k : Int, k.natAbs ≤ 255 ∧ x &&& 0xfffffff0 = x + BitVec.ofInt 32 k := by
  have hdisjoint : (x &&& 0xfffffff0) &&& (x &&& 0xf) = 0 := by
    calc (x &&& 0xfffffff0) &&& (x &&& 0xf) = (x &&& x) &&& (0xfffffff0 &&& 0xf) := by ac_rfl
      _ = (x &&& x) &&& 0 := by rw [show (0xfffffff0 &&& 0xf : Word) = 0 by decide]
      _ = 0 := BitVec.and_zero
  have hsplit : (x &&& 0xfffffff0) + (x &&& 0xf) = x := by
    rw [BitVec.add_eq_or_of_and_eq_zero _ _ hdisjoint, ← BitVec.and_or_distrib_left,
      show (0xfffffff0 ||| 0xf : Word) = BitVec.allOnes 32 by decide, BitVec.and_allOnes]
  have hlt : (x &&& 0xf).toNat ≤ 15 := by
    rw [BitVec.toNat_and]
    exact Nat.and_le_right
  refine ⟨-((x &&& 0xf).toNat : Int), by omega, ?_⟩
  rw [BitVec.ofInt_neg, BitVec.ofInt_natCast, BitVec.ofNat_toNat, BitVec.setWidth_eq]
  grind

/-- A set of words that an unweakened register lies in. It holds what one pop
leaves behind, and it stays near the sandbox. -/
structure Slack (L : Layout) where
  set : Set Word
  pop_mem : ∀ b ∈ L.sandbox, ∀ n ≤ 4, b + BitVec.ofNat 32 n ∈ set
  drift : set ⊆ near L.sandbox 132

namespace Slack

variable {L : Layout}

/-- Up to a word past the end of the data or the zero-tag region. -/
def pastEnd (L : Layout) : Slack L where
  set := {x | ∃ b ∈ L.sandbox, ∃ n ≤ 4, x = b + BitVec.ofNat 32 n}
  pop_mem b hb n hn := ⟨b, hb, n, hn, rfl⟩
  drift := by
    rintro x ⟨b, hb, n, hn, rfl⟩
    refine ⟨b, hb, (n : Int), by omega, ?_⟩
    rw [BitVec.ofInt_natCast]

/-- Everything a byte-sized offset and a pop can leave behind. -/
def around (L : Layout) : Slack L where
  set := near L.sandbox 132
  pop_mem b hb n hn := by
    refine ⟨b, hb, (n : Int), by omega, ?_⟩
    rw [BitVec.ofInt_natCast]
  drift := subset_rfl

variable (S : Slack L)

theorem sandbox_subset : L.sandbox ⊆ S.set := by
  intro b hb
  simpa using S.pop_mem b hb 0 (by decide)

theorem near_drift (d : Nat) : near S.set d ⊆ near L.sandbox (132 + d) :=
  (near_subset S.drift d).trans near_near

/-- What a register within the slack addresses lies in the sandbox or a guard zone. -/
theorem mem_or_guard {x : Word} (hx : x ∈ S.set) : x ∈ L.sandbox ∨ x ∈ L.guardZone :=
  L.near_sandbox (by decide) (S.drift hx)

end Slack

/-- What the weakenings say about `%esp`: unless W2 is set, it has drifted from
the slack by no more than 255 for every bump counted. -/
def EspInv {L : Layout} (S : Slack L) (u : Weak) (s : Cpu) : Prop :=
  u.change_esp = false → s.reg .esp ∈ near S.set (255 * u.bump_count)

/-- What the weakenings say about `%ebp`: unless W1 is set, it lies in the set `A`. -/
def EbpInv (A : Set Word) (u : Weak) (s : Cpu) : Prop :=
  u.change_ebp = false → s.reg .ebp ∈ A

/-- The step justifies what it claims about `%esp`: clearing W2 and W3 needs an
unweakened `%esp`, a bump is small, and otherwise `%esp` stays or W2 is set. -/
def EspStep {L : Layout} (S : Slack L) (u : Weak) (f : Post) (s s' : Cpu) : Prop :=
  s'.reg .esp ∈ S.set ∨ f.use_esp = false ∧ (u.change_esp = true ∨ f.change_esp = true ∨
    ∃ k : Int, k.natAbs ≤ (if f.bump_esp then 255 else 0) ∧
      s'.reg .esp = s.reg .esp + BitVec.ofInt 32 k)

/-- The step justifies what it claims about `%ebp`. -/
def EbpStep (A : Set Word) (u : Weak) (f : Post) (s s' : Cpu) : Prop :=
  s'.reg .ebp ∈ A ∨ f.ebp_safe = false ∧
    (u.change_ebp = true ∨ f.change_ebp = true ∨ s'.reg .ebp = s.reg .ebp)

section

variable {L : Layout} {S : Slack L} {A : Set Word} {u : Weak} {f : Post} {s s' : Cpu}

/-- Without W2 and W3 the stack pointer lies in the slack. -/
theorem EspInv.mem (h : EspInv S u s) (hu : u.Ok) (hc : u.change_esp = false)
    (hb : u.bump_esp = false) : s.reg .esp ∈ S.set := by
  have hn := h hc
  rw [hu.count_zero hb] at hn
  obtain ⟨b, hm, k, hk, he⟩ := hn
  have hk0 : k = 0 := by omega
  subst hk0
  rw [he]
  simpa using hm

theorem EspInv.of_mem (h : s.reg .esp ∈ S.set) : EspInv S u s :=
  fun _ => mem_near_self h _

theorem EspStep.of_eq (hu : f.use_esp = false) (h : s'.reg .esp = s.reg .esp) :
    EspStep S u f s s' := by
  refine Or.inr ⟨hu, Or.inr (Or.inr ⟨0, Nat.zero_le _, ?_⟩)⟩
  rw [h]
  simp

theorem EbpStep.of_eq (hs : f.ebp_safe = false) (h : s'.reg .ebp = s.reg .ebp) :
    EbpStep A u f s s' :=
  Or.inr ⟨hs, Or.inr (Or.inr h)⟩

theorem EspInv.after (h : EspInv S u s) (hstep : EspStep S u f s s') :
    EspInv S (u.after f) s' := by
  intro hc
  rcases hstep with hm | ⟨hu, hcu | hch | ⟨k, hk, he⟩⟩
  · exact mem_near_self hm _
  · simp [Weak.after, hu, hcu] at hc
  · simp [Weak.after, hu, hch] at hc
  · have hc' : u.change_esp = false := by
      simp only [Weak.after, hu, Bool.not_false, Bool.and_true, Bool.or_eq_false_iff] at hc
      exact hc.1.1
    have hn := near_add (h hc') k
    rw [← he] at hn
    refine near_mono ?_ hn
    simp only [Weak.after, hu]
    cases hb : f.bump_esp with
    | false => simp_all
    | true =>
      simp_all
      omega

/-- A bump from another base than `%esp`: the register is within one bump of the slack. -/
theorem EspInv.of_bump (hu : f.use_esp = false) (hb : f.bump_esp = true)
    (h : s'.reg .esp ∈ near S.set 255) : EspInv S (u.after f) s' := by
  intro _
  refine near_mono ?_ h
  simp only [Weak.after, hu, hb, if_true, Bool.false_eq_true, if_false]
  omega

theorem EbpInv.after (h : EbpInv A u s) (hstep : EbpStep A u f s s') :
    EbpInv A (u.after f) s' := by
  intro hc
  rcases hstep with hm | ⟨hs, hcu | hch | he⟩
  · exact hm
  · simp [Weak.after, hs, hcu] at hc
  · simp [Weak.after, hs, hch] at hc
  · have hc' : u.change_ebp = false := by
      simp only [Weak.after, hs, Bool.not_false, Bool.and_true, Bool.or_eq_false_iff] at hc
      exact hc.1
    rw [he]
    exact h hc'

/-- While W2 is not set, every byte-sized offset from `%esp` addresses the sandbox
or a guard zone. -/
theorem EspInv.access (h : EspInv S u s) (hu : u.Ok) (hc : u.change_esp = false) {k : Int}
    (hk : k.natAbs ≤ 255) :
    s.reg .esp + BitVec.ofInt 32 k ∈ L.sandbox ∨ s.reg .esp + BitVec.ofInt 32 k ∈ L.guardZone := by
  have hlt := hu.count_lt hc
  refine L.near_sandbox (d := 132 + 255 * u.bump_count + k.natAbs) (by omega) ?_
  exact near_add (S.near_drift _ (h hc)) k

end

end Pittsfield.Machine
