import Pittsfield.Foundation.Displacement

/-!
# The layouts of `sizes.pm`

`compute_sizes` turns a row of the size table into the numbers that `sizes.h`
hands to the loader and that both verifiers compare against. A `Layout` carries
those numbers together with the facts that every row of the table meets, so the
rest of the development never goes back to the three concrete layouts.
-/

namespace Pittsfield.Region

open Pittsfield.Foundation

abbrev Word := BitVec 32

inductive Size
  | classic
  | medium
  | large
  deriving DecidableEq

inductive Style
  | and
  | andor
  | test
  deriving DecidableEq

/-- A row of `%sizes`: the log size and the tag of the code and of the data region. -/
structure Row where
  log_code_size : Nat
  code_tag : Nat
  log_data_size : Nat
  data_tag : Nat

def sizes : Size → Row
  | .classic => ⟨24, 0x10, 24, 0x20⟩
  | .medium => ⟨24, 0x10, 27, 0x4⟩
  | .large => ⟨24, 0x90, 30, 0x1⟩

/-- The globals `$style` and `$log_chunk_size`. The file sets the latter to 4 and
says that 5 may not work everywhere. -/
structure Settings where
  style : Style := .and
  log_chunk_size : Nat := 4
  supported : log_chunk_size = 4 ∨ log_chunk_size = 5 := by decide

structure Layout where
  code_start : Nat
  code_size : Nat
  data_start : Nat
  data_size : Nat
  data_mask : Word
  jump_mask : Word
  log_chunk_size : Nat
  chunk_size : Nat
  stub_size : Nat
  chunk_eq : chunk_size = 2 ^ log_chunk_size
  chunk_log : log_chunk_size < 24
  code_aligned : chunk_size ∣ code_start
  code_sized : chunk_size ∣ code_size
  code_fits : code_start + code_size < 2 ^ 32
  data_fits : data_start + data_size ≤ 2 ^ 32
  jump_fits : 5 ≤ chunk_size
  stub_aligned : chunk_size ∣ stub_size
  stub_pos : 0 < stub_size
  data_mask_lands : ∀ x : Word,
    x &&& data_mask ∈ span 32 data_start data_size ∪ span 32 0 data_size

def Layout.code_end (L : Layout) : Nat := L.code_start + L.code_size

def Layout.data_end (L : Layout) : Nat := L.data_start + L.data_size

theorem data_mask_lands (sz : Size) (x : Word) :
    x &&& BitVec.ofNat 32 ((sizes sz).data_tag <<< (sizes sz).log_data_size |||
        (1 <<< (sizes sz).log_data_size - 1)) ∈
      span 32 ((sizes sz).data_tag <<< (sizes sz).log_data_size) (1 <<< (sizes sz).log_data_size) ∪
        span 32 0 (1 <<< (sizes sz).log_data_size) := by
  cases sz with
  | classic => exact and_tag_mem (j := 5) (k := 24) (by decide) x
  | medium => exact and_tag_mem (j := 2) (k := 27) (by decide) x
  | large => exact and_tag_mem (j := 0) (k := 30) (by decide) x

def compute_sizes (g : Settings) (sz : Size) : Layout where
  code_start := (sizes sz).code_tag <<< (sizes sz).log_code_size
  data_start := (sizes sz).data_tag <<< (sizes sz).log_data_size
  code_size := 1 <<< (sizes sz).log_code_size
  data_size := 1 <<< (sizes sz).log_data_size
  data_mask := BitVec.ofNat 32 ((sizes sz).data_tag <<< (sizes sz).log_data_size |||
    (1 <<< (sizes sz).log_data_size - 1))
  jump_mask := BitVec.ofNat 32 ((sizes sz).code_tag <<< (sizes sz).log_code_size |||
    (1 <<< (sizes sz).log_code_size - 1)) &&& ~~~BitVec.ofNat 32 (1 <<< g.log_chunk_size - 1)
  log_chunk_size := g.log_chunk_size
  chunk_size := 1 <<< g.log_chunk_size
  stub_size := 1 <<< (if g.style = .test then g.log_chunk_size + 1 else g.log_chunk_size)
  chunk_eq := Nat.one_shiftLeft _
  chunk_log := by have := g.supported; omega
  code_aligned := by
    rcases g.supported with h | h <;> rw [h] <;> cases sz <;> decide
  code_sized := by
    rcases g.supported with h | h <;> rw [h] <;> cases sz <;> decide
  code_fits := by cases sz <;> decide
  data_fits := by cases sz <;> decide
  jump_fits := by
    rcases g.supported with h | h <;> rw [h] <;> decide
  stub_aligned := by
    rcases g.supported with h | h <;> rw [h] <;> cases g.style <;> decide
  stub_pos := by
    rw [Nat.one_shiftLeft]
    exact Nat.two_pow_pos _
  data_mask_lands := data_mask_lands sz

/-- The default layout: the first row of the table with the settings of the file. -/
def classic : Layout := compute_sizes {} .classic

namespace Layout

variable (L : Layout)

theorem chunk_pos : 0 < L.chunk_size := by
  rw [L.chunk_eq]
  exact Nat.two_pow_pos _

theorem stub_holds_jump : 5 ≤ L.stub_size :=
  L.jump_fits.trans (Nat.le_of_dvd L.stub_pos L.stub_aligned)

theorem chunk_lt : L.chunk_size < 2 ^ 24 := by
  rw [L.chunk_eq]
  exact Nat.pow_lt_pow_right (by decide) L.chunk_log

/-- Testing the low bits of a word is testing divisibility by the chunk size. -/
theorem chunk_bits (x : Word) :
    x &&& BitVec.ofNat 32 (L.chunk_size - 1) = 0 ↔ L.chunk_size ∣ x.toNat := by
  have hc := L.chunk_lt
  have hm : (BitVec.ofNat 32 (L.chunk_size - 1)).toNat = L.chunk_size - 1 := by
    rw [BitVec.toNat_ofNat, Nat.mod_eq_of_lt (by omega)]
  rw [BitVec.toNat_eq, BitVec.toNat_and, hm, L.chunk_eq, Nat.and_two_pow_sub_one_eq_mod]
  exact (Nat.dvd_iff_mod_eq_zero).symm

/-- The data region and the zero-tag region: where `%esp` and `%ebp` may point. -/
def sandbox : Set Word := span 32 L.data_start L.data_size ∪ span 32 0 L.data_size

/-- The 64 KB just before and just after the data and the zero-tag region. In the
large layout the two regions touch, so the part of a fringe that lies in the
other region is not a guard zone. -/
def guardZone : Set Word :=
  {a | (a ∈ fringe 32 L.data_start L.data_size 65536 ∨ a ∈ fringe 32 0 L.data_size 65536) ∧
    a ∉ L.sandbox}

instance (a : Word) : Decidable (a ∈ L.sandbox) := inferInstanceAs (Decidable (_ ∨ _))

instance (a : Word) : Decidable (a ∈ L.guardZone) := inferInstanceAs (Decidable (_ ∧ _))

theorem mask_mem_sandbox (x : Word) : x &&& L.data_mask ∈ L.sandbox := L.data_mask_lands x

theorem zero_fits : 0 + L.data_size ≤ 2 ^ 32 := by have := L.data_fits; omega

/-- What lies within 64 KB of the sandbox is in the sandbox or in a guard zone. -/
theorem near_sandbox {d : Nat} (hd : d ≤ 65536) {x : Word} (hx : x ∈ near L.sandbox d) :
    x ∈ L.sandbox ∨ x ∈ L.guardZone := by
  by_cases hs : x ∈ L.sandbox
  · exact Or.inl hs
  have hx' := near_mono hd hx
  refine Or.inr ⟨?_, hs⟩
  obtain ⟨b, hb | hb, k, hk, rfl⟩ := hx'
  · rcases near_span L.data_fits ⟨b, hb, k, hk, rfl⟩ with h | h
    · exact absurd (Or.inl h) hs
    · exact Or.inl h
  · rcases near_span L.zero_fits ⟨b, hb, k, hk, rfl⟩ with h | h
    · exact absurd (Or.inr h) hs
    · exact Or.inr h

end Layout

section

variable (g : Settings) (sz : Size)

theorem data_mask_toNat : (compute_sizes g sz).data_mask.toNat =
    (sizes sz).data_tag * 2 ^ (sizes sz).log_data_size + (2 ^ (sizes sz).log_data_size - 1) := by
  show (BitVec.ofNat 32 ((sizes sz).data_tag <<< (sizes sz).log_data_size |||
    (1 <<< (sizes sz).log_data_size - 1))).toNat = _
  cases sz <;> decide

/-- The data mask leaves the low bits of a word alone. -/
theorem data_mask_low (x : Word) : (x &&& (compute_sizes g sz).data_mask).toNat % 2 ^ 24 =
    x.toNat % 2 ^ 24 := by
  have hk : (sizes sz).log_data_size = 24 + ((sizes sz).log_data_size - 24) := by cases sz <;> decide
  rw [BitVec.toNat_and, data_mask_toNat, land_tag, hk, Nat.pow_add, ← Nat.mul_assoc,
    Nat.mul_right_comm, Nat.mul_add_mod_self_right, Nat.mod_mul_right_mod]

/-- The data mask leaves a word of the data or of the zero-tag region as it is. -/
theorem data_mask_keeps {x : Word} (hx : x ∈ (compute_sizes g sz).sandbox) :
    x &&& (compute_sizes g sz).data_mask = x := by
  have hstart : (compute_sizes g sz).data_start =
      (sizes sz).data_tag * 2 ^ (sizes sz).log_data_size := Nat.shiftLeft_eq _ _
  have hsize : (compute_sizes g sz).data_size = 2 ^ (sizes sz).log_data_size := Nat.one_shiftLeft _
  apply BitVec.eq_of_toNat_eq
  rw [BitVec.toNat_and, data_mask_toNat, land_tag]
  have hdiv : x.toNat / 2 ^ (sizes sz).log_data_size &&& (sizes sz).data_tag =
      x.toNat / 2 ^ (sizes sz).log_data_size := by
    rcases hx with hx | hx
    · rw [hstart, hsize, mem_span_tag] at hx
      rw [hx, Nat.and_self]
    · rw [hsize, ← Nat.zero_mul (2 ^ (sizes sz).log_data_size), mem_span_tag] at hx
      rw [hx, Nat.zero_and]
  rw [hdiv, Nat.div_add_mod']

end

/-- The masks of the three layouts, as `sizes.h` prints them. -/
example : classic.data_mask = 0x20ffffff ∧ classic.jump_mask = 0x10fffff0 ∧
    (compute_sizes {} .medium).data_mask = 0x27ffffff ∧
    (compute_sizes {} .large).jump_mask = 0x90fffff0 := by decide

end Pittsfield.Region
