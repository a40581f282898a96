import Mathlib.Order.CompletePartialOrder
import Mathlib.Order.Interval.Set.Disjoint
import Pittsfield.Region.Sizes

/-!
# Where the masks land

A data mask must send every word into the data or the zero-tag region, a jump mask
to the start of a chunk of the code or of its zero-tag region. For the data regions
and the two smaller sizes one tag bit does that. The code tag of the large size,
0x90, has two bits, so a word with only one of them set goes elsewhere.
-/

namespace Pittsfield.Region

open Pittsfield.Foundation

/-- The masked versions of a word lie where the sandbox wants them. -/
structure MasksLand (L : Layout) (x : Word) : Prop where
  data : x &&& L.data_mask ∈ span 32 L.data_start L.data_size ∪ span 32 0 L.data_size
  aligned : L.chunk_size ∣ (x &&& L.jump_mask).toNat
  code : x &&& L.jump_mask ∈ span 32 L.code_start L.code_size ∪ span 32 0 L.code_size

/-- The code region, the data region and the guard zones on both sides of the latter,
as intervals of addresses. -/
def Layout.regions (L : Layout) : List (Set Nat) :=
  [Set.Ico L.code_start L.code_end, Set.Ico (L.data_start - 65536) L.data_start,
    Set.Ico L.data_start L.data_end, Set.Ico L.data_end (L.data_end + 65536)]

/-- The regions are disjoint, and none of them wraps around. -/
structure Separated (L : Layout) : Prop where
  disjoint : L.regions.Pairwise Disjoint
  code_fits : L.code_end ≤ 2 ^ 32
  below_fits : 65536 ≤ L.data_start
  above_fits : L.data_end + 65536 ≤ 2 ^ 32

/-- Code that lies below or above the data region and its guard zones is apart from them. -/
theorem Layout.regions_disjoint {L : Layout}
    (h : L.code_end ≤ L.data_start - 65536 ∨ L.data_end + 65536 ≤ L.code_start) :
    L.regions.Pairwise Disjoint := by
  have hend : L.data_end = L.data_start + L.data_size := rfl
  simp only [regions, List.pairwise_cons, List.mem_cons, List.not_mem_nil, or_false,
    forall_eq_or_imp, forall_eq, Set.Ico_disjoint_Ico, false_implies, implies_true, List.Pairwise.nil,
    and_true]
  omega

section

variable (g : Settings) (sz : Size) (x : Word)

theorem jump_mask_aligned :
    (compute_sizes g sz).chunk_size ∣ (x &&& (compute_sizes g sz).jump_mask).toNat := by
  rw [← Layout.chunk_bits]
  show x &&& (_ &&& ~~~BitVec.ofNat 32 (1 <<< g.log_chunk_size - 1)) &&&
    BitVec.ofNat 32 (1 <<< g.log_chunk_size - 1) = 0
  rw [BitVec.and_assoc, BitVec.and_assoc, BitVec.and_comm (~~~_), BitVec.and_not_self]
  simp

theorem jump_mask_tag :
    (compute_sizes g sz).jump_mask.toNat / 2 ^ 24 = (sizes sz).code_tag := by
  have hlow : ∀ l, l = 4 ∨ l = 5 → (BitVec.ofNat 32 ((sizes sz).code_tag <<< (sizes sz).log_code_size |||
      (1 <<< (sizes sz).log_code_size - 1)) &&& ~~~BitVec.ofNat 32 (1 <<< l - 1)).toNat / 2 ^ 24 =
        (sizes sz).code_tag := by
    rintro l (rfl | rfl) <;> cases sz <;> decide
  exact hlow g.log_chunk_size g.supported

/-- The tag bits of the code region decide where a masked word goes. -/
theorem jump_mask_lands_iff :
    x &&& (compute_sizes g sz).jump_mask ∈ span 32 (compute_sizes g sz).code_start
        (compute_sizes g sz).code_size ∪ span 32 0 (compute_sizes g sz).code_size ↔
      (x.toNat / 2 ^ 24) &&& (sizes sz).code_tag = (sizes sz).code_tag ∨
        (x.toNat / 2 ^ 24) &&& (sizes sz).code_tag = 0 := by
  have hstart : (compute_sizes g sz).code_start = (sizes sz).code_tag * 2 ^ 24 := by
    show (sizes sz).code_tag <<< (sizes sz).log_code_size = _
    cases sz <;> decide
  have hsize : (compute_sizes g sz).code_size = 2 ^ 24 := by
    show 1 <<< (sizes sz).log_code_size = _
    cases sz <;> decide
  rw [hstart, hsize]
  exact and_tag_mem_iff (jump_mask_tag g sz) x

/-- The jump mask leaves the start of a chunk of the code region as it is. -/
theorem jump_mask_keeps {x : Word}
    (hx : x ∈ span 32 (compute_sizes g sz).code_start (compute_sizes g sz).code_size)
    (haligned : (compute_sizes g sz).chunk_size ∣ x.toNat) :
    x &&& (compute_sizes g sz).jump_mask = x := by
  let tag := BitVec.ofNat 32 ((sizes sz).code_tag <<< (sizes sz).log_code_size |||
    (1 <<< (sizes sz).log_code_size - 1))
  have htag : tag.toNat = (sizes sz).code_tag * 2 ^ (sizes sz).log_code_size +
      (2 ^ (sizes sz).log_code_size - 1) := by
    show (BitVec.ofNat 32 _).toNat = _
    cases sz <;> decide
  have hstart : (compute_sizes g sz).code_start =
      (sizes sz).code_tag * 2 ^ (sizes sz).log_code_size := Nat.shiftLeft_eq _ _
  have hsize : (compute_sizes g sz).code_size = 2 ^ (sizes sz).log_code_size := Nat.one_shiftLeft _
  have hregion : x &&& tag = x := by
    apply BitVec.eq_of_toNat_eq
    rw [hstart, hsize, mem_span_tag] at hx
    rw [BitVec.toNat_and, htag, land_tag, hx, Nat.and_self, ← hx, Nat.div_add_mod']
  have hlow : x &&& BitVec.ofNat 32 (1 <<< g.log_chunk_size - 1) = 0 :=
    ((compute_sizes g sz).chunk_bits x).mpr haligned
  show x &&& (tag &&& ~~~BitVec.ofNat 32 (1 <<< g.log_chunk_size - 1)) = x
  rw [← BitVec.and_assoc, hregion]
  ext k hk
  have hbit := congrArg (·[k]) hlow
  simp only [BitVec.getElem_and] at hbit
  rw [BitVec.getElem_and, BitVec.getElem_not]
  cases hx : x[k] with
  | false => rfl
  | true =>
    rw [hx, Bool.true_and] at hbit
    rw [hbit]
    simp

/-- Every number has the tag 0x10 or not; the tag 0x90 it may have in part. -/
theorem tag_bits (n : Nat) :
    (n &&& 0x10 = 0x10 ∨ n &&& 0x10 = 0) ∧
      ((n &&& 0x90 = 0x90 ∨ n &&& 0x90 = 0) ↔ n.testBit 7 = n.testBit 4) := by
  have h4 : n &&& 0x10 = (n.testBit 4).toNat * 2 ^ 4 := Nat.and_two_pow n 4
  have h7 : n &&& 0x80 = (n.testBit 7).toNat * 2 ^ 7 := Nat.and_two_pow n 7
  have h90 : n &&& 0x90 = (n &&& 0x80) ||| (n &&& 0x10) :=
    Nat.and_or_distrib_left n 0x80 0x10
  rw [h90, h7, h4]
  cases n.testBit 4 <;> cases n.testBit 7 <;> decide

theorem separated : Separated (compute_sizes g sz) where
  disjoint := by
    apply Layout.regions_disjoint
    show (sizes sz).code_tag <<< (sizes sz).log_code_size + 1 <<< (sizes sz).log_code_size ≤
        (sizes sz).data_tag <<< (sizes sz).log_data_size - 65536 ∨
      (sizes sz).data_tag <<< (sizes sz).log_data_size + 1 <<< (sizes sz).log_data_size + 65536 ≤
        (sizes sz).code_tag <<< (sizes sz).log_code_size
    cases sz <;> decide
  code_fits := (compute_sizes g sz).code_fits.le
  below_fits := by
    show 65536 ≤ (sizes sz).data_tag <<< (sizes sz).log_data_size
    cases sz <;> decide
  above_fits := by
    show (sizes sz).data_tag <<< (sizes sz).log_data_size + 1 <<< (sizes sz).log_data_size + 65536 ≤ _
    cases sz <;> decide

/-- The masks land, and the regions are apart, exactly if the size is not the large
one or the two bits of its code tag are both set or both clear in the word. -/
theorem masks_land_iff :
    MasksLand (compute_sizes g sz) x ∧ Separated (compute_sizes g sz) ↔
      (sz = .large → x.getLsbD 31 = x.getLsbD 28) := by
  obtain ⟨hone, htwo⟩ := tag_bits (x.toNat / 2 ^ 24)
  rw [Nat.testBit_div_two_pow, Nat.testBit_div_two_pow] at htwo
  have hcode := jump_mask_lands_iff g sz x
  constructor
  · rintro ⟨⟨-, -, hlands⟩, -⟩ rfl
    exact htwo.mp (hcode.mp hlands)
  · intro h
    refine ⟨⟨(compute_sizes g sz).data_mask_lands x, jump_mask_aligned g sz x, hcode.mpr ?_⟩,
      separated g sz⟩
    cases sz with
    | classic => exact hone
    | medium => exact hone
    | large => exact htwo.mpr (h rfl)

/-- Where control may go indirectly: to a chunk start of the code region or of its zero-tag
region. The large size has two tag bits and promises no region. -/
structure ChunkStart (g : Settings) (sz : Size) (a : Word) : Prop where
  aligned : (compute_sizes g sz).chunk_size ∣ a.toNat
  region : sz ≠ .large → a ∈ span 32 (compute_sizes g sz).code_start
    (compute_sizes g sz).code_size ∪ span 32 0 (compute_sizes g sz).code_size

theorem masked_chunkStart : ChunkStart g sz (x &&& (compute_sizes g sz).jump_mask) where
  aligned := jump_mask_aligned g sz x
  region hsz := by
    refine (jump_mask_lands_iff g sz x).mpr ?_
    cases sz with
    | classic => exact (tag_bits _).1
    | medium => exact (tag_bits _).1
    | large => exact absurd rfl hsz

variable {g sz} in
/-- The code region is apart from everything that is written. -/
theorem code_apart {x : Word}
    (hx : x ∈ span 32 (compute_sizes g sz).code_start (compute_sizes g sz).code_size) :
    x ∉ (compute_sizes g sz).sandbox ∧ x ∉ (compute_sizes g sz).guardZone := by
  obtain ⟨hlo, hhi⟩ := hx
  have hone : (1 : Word).toNat = 1 := rfl
  have hout : ∀ lo, lo = (compute_sizes g sz).data_start ∨ lo = 0 →
      x ∉ span 32 lo (compute_sizes g sz).data_size ∧
        x ∉ fringe 32 lo (compute_sizes g sz).data_size 65536 := by
    have hcode : (compute_sizes g sz).code_start = (sizes sz).code_tag <<< (sizes sz).log_code_size :=
      rfl
    have hsize : (compute_sizes g sz).code_size = 1 <<< (sizes sz).log_code_size := rfl
    have hdata : (compute_sizes g sz).data_start = (sizes sz).data_tag <<< (sizes sz).log_data_size :=
      rfl
    have hdsize : (compute_sizes g sz).data_size = 1 <<< (sizes sz).log_data_size := rfl
    rw [hcode] at hlo hhi
    rw [hsize] at hhi
    rw [hdata, hdsize]
    have hlt := x.isLt
    cases sz <;> simp only [sizes] at hlo hhi ⊢ <;> rintro lo (rfl | rfl) <;> constructor
    all_goals first
      | (rintro ⟨h1, h2⟩; omega)
      | (rintro (h | h)
         · rw [BitVec.toNat_sub, BitVec.toNat_ofNat] at h
           omega
         · rw [BitVec.toNat_sub, BitVec.toNat_sub, BitVec.toNat_ofNat, hone] at h
           omega)
  refine ⟨?_, ?_⟩
  · rintro (h | h)
    · exact (hout _ (Or.inl rfl)).1 h
    · exact (hout _ (Or.inr rfl)).1 h
  · rintro ⟨h | h, -⟩
    · exact (hout _ (Or.inl rfl)).2 h
    · exact (hout _ (Or.inr rfl)).2 h

end

/-- In the large layout the jump mask keeps 0x10000000, an address of its data region. -/
theorem large_mask_misses : ¬ ∀ (sz : Size) (x : Word),
    MasksLand (compute_sizes {} sz) x ∧ Separated (compute_sizes {} sz) := by
  intro h
  have hin := (h .large 0x10000000).1.code
  revert hin
  decide

theorem masks_land_large : MasksLand (compute_sizes {} .large) 0xdeadbeef ∧
    Separated (compute_sizes {} .large) :=
  (masks_land_iff {} .large 0xdeadbeef).mpr (by decide)

end Pittsfield.Region
