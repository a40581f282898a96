import Pittsfield.Libc.Blocks

/-!
# The blocks that `morecore` carves out

`morecore` asks for room and cuts it into a row of blocks of one size. The break always
lies on a page, so neither fix-up of the address ever acts.
-/

namespace Pittsfield.Libc

open Pittsfield.Foundation
open Pittsfield.Region
open Pittsfield.Machine
open Pittsfield.Wrappers

theorem shl_one {k : Nat} (hk : k < 32) : (shl 1 k).toNat = 2 ^ k := by
  have hlt : 2 ^ k < 2 ^ 32 := Nat.pow_lt_pow_right (by decide) hk
  rw [shl, Nat.mod_eq_of_lt hk, BitVec.toNat_shiftLeft, show (1 : Word).toNat = 1 from rfl,
    Nat.one_shiftLeft, Nat.mod_eq_of_lt hlt]

/-- The bits that are shifted out are those of the binary logarithm. -/
theorem countShifts_log {n : Nat} {x : Word} (h : x.toNat < 2 ^ (n + 1)) :
    countShifts n x = Nat.log2 x.toNat := by
  induction n generalizing x with
  | zero =>
    rw [countShifts]
    have hx : x.toNat = 0 ∨ x.toNat = 1 := by omega
    rcases hx with hx | hx <;> rw [hx] <;> decide
  | succ n ih =>
    have hhalf : (x >>> 1).toNat = x.toNat / 2 := by
      rw [BitVec.toNat_ushiftRight, Nat.shiftRight_succ, Nat.shiftRight_zero]
    rw [countShifts, Nat.log2_def]
    by_cases hz : x >>> 1 = 0
    · rw [hz, show (0 : Word).toNat = 0 from rfl] at hhalf
      rw [if_pos hz, if_neg (by omega)]
    · have hne : (x >>> 1).toNat ≠ 0 := fun he => hz (BitVec.eq_of_toNat_eq he)
      rw [pow_succ] at h
      rw [if_neg hz, if_pos (by omega), ih (by omega), hhalf]

/-- What `malloc` shifts out to find the bucket, where the header and the rounding leave a word. -/
theorem words_toNat {n : Word} (h : n.toNat + 7 < 2 ^ 32) :
    ((((n + 4 + 3) &&& ~~~3) - 1) >>> 2 : Word).toNat = (n.toNat + 3) / 4 := by
  have hsum : (n + 4 + 3).toNat = n.toNat + 7 := by
    rw [BitVec.add_assoc]
    exact toNat_add_small h
  have hround : ((n + 4 + 3) &&& ~~~3 : Word).toNat = (n.toNat + 7) / 2 ^ 2 * 2 ^ 2 := by
    rw [← hsum]
    exact toNat_and_high 2 _
  rw [BitVec.toNat_ushiftRight, BitVec.toNat_sub_of_le, hround, Nat.shiftRight_eq_div_pow]
  · change ((n.toNat + 7) / 2 ^ 2 * 2 ^ 2 - 1) / 2 ^ 2 = _
    omega
  · rw [BitVec.le_def, hround]
    change 1 ≤ _
    omega

theorem bucketFor_log (n : Word) :
    bucketFor n = Nat.log2 ((((n + 4 + 3) &&& ~~~3) - 1) >>> 2 : Word).toNat ∧
      ((((n + 4 + 3) &&& ~~~3) - 1) >>> 2 : Word).toNat < 2 ^ 30 := by
  have hlt : ((((n + 4 + 3) &&& ~~~3) - 1) >>> 2 : Word).toNat < 2 ^ 30 := by
    rw [BitVec.toNat_ushiftRight, Nat.shiftRight_eq_div_pow]
    have h := (((n + 4 + 3) &&& ~~~3) - 1 : Word).isLt
    omega
  refine ⟨?_, hlt⟩
  rw [bucketFor]
  exact countShifts_log (hlt.trans (by decide))

/-- The bucket of a request has room for it and its header. -/
theorem bucketFor_spec {n : Word} (h : n.toNat ≤ 2 ^ 30 - 4) :
    bucketFor n ≤ 27 ∧ 4 + n.toNat ≤ 2 ^ (bucketFor n + 3) := by
  have hb : bucketFor n = Nat.log2 ((n.toNat + 3) / 4) := by
    rw [(bucketFor_log n).1, words_toNat (by omega)]
  rw [hb]
  constructor
  · by_cases hz : (n.toNat + 3) / 4 = 0
    · rw [hz]
      decide
    · exact Nat.le_of_lt_succ ((Nat.log2_lt hz).mpr (by omega))
  · have hlt := Nat.lt_log2_self (n := (n.toNat + 3) / 4)
    rw [show Nat.log2 ((n.toNat + 3) / 4) + 3 = Nat.log2 ((n.toNat + 3) / 4) + 1 + 2 by omega,
      pow_add]
    omega

theorem low_bits_zero (k : Nat) {x : Word} (h : 2 ^ k ∣ x.toNat) :
    x &&& BitVec.ofNat 32 (2 ^ k - 1) = 0 := by
  apply BitVec.eq_of_toNat_eq
  rw [BitVec.toNat_and, BitVec.toNat_ofNat]
  by_cases hk : k < 32
  · have hlt : 2 ^ k < 2 ^ 32 := Nat.pow_lt_pow_right (by decide) hk
    rw [Nat.mod_eq_of_lt (by omega), Nat.and_two_pow_sub_one_eq_mod]
    exact Nat.mod_eq_zero_of_dvd h
  · have hx : x.toNat = 0 := by
      refine Nat.eq_zero_of_dvd_of_lt h (x.isLt.trans_le ?_)
      exact Nat.pow_le_pow_right (by decide) (Nat.le_of_not_lt hk)
    rw [hx, Nat.zero_and]
    rfl

section Sbrk

variable {L : Layout} {h : Heap}

theorem sbrk_accepts {incr : Nat} (hlo : L.data_start < h.data_break.toNat)
    (hfit : h.data_break.toNat + incr < 2 ^ 32) (hhi : h.data_break.toNat + incr < L.data_end) :
    h.sbrk L (BitVec.ofNat 32 incr) =
      (h.data_break, { h with data_break := h.data_break + BitVec.ofNat 32 incr }) := by
  have hn : (h.data_break + BitVec.ofNat 32 incr).toNat = h.data_break.toNat + incr :=
    toNat_add_small hfit
  have hacc := wrap_sbrk_accepts (L := L) (by rw [hn]; omega) (by rw [hn]; exact hhi)
  simp only [Heap.sbrk, hacc]

theorem sbrk_refuses {incr : Nat} (hfit : h.data_break.toNat + incr < 2 ^ 32)
    (hhi : L.data_end ≤ h.data_break.toNat + incr) :
    h.sbrk L (BitVec.ofNat 32 incr) = (-1, h) := by
  have hn : (h.data_break + BitVec.ofNat 32 incr).toNat = h.data_break.toNat + incr :=
    toNat_add_small hfit
  have href := wrap_sbrk_refuses (L := L) (by rw [hn]; exact hhi)
  simp only [Heap.sbrk, href]

end Sbrk

namespace Inv

variable {L : Layout} {start : Nat} {C : Set Cell} {fl : Nat → List Word} {h : Heap}
  {live : List Block}

section Grow

variable (inv : Inv L start C fl h live) (hfit : L.data_end + 8192 + 2 ^ 30 < 2 ^ 32)

include inv hfit

/-- The break is on a page, so the fix-up of `morecore` moves nothing. -/
theorem page_kept : (if (h.sbrk L 0).1 &&& 0x3ff ≠ 0 then
    (h.sbrk L (1024 - ((h.sbrk L 0).1 &&& 0x3ff))).2 else h) = h := by
  have hb := inv.break_below
  by_cases hroom : h.data_break.toNat < L.data_end
  · have hs : h.sbrk L (BitVec.ofNat 32 0) = _ :=
      sbrk_accepts inv.break_above.2 (by omega) (by omega)
    have hpage : h.data_break &&& 0x3ff = 0 := low_bits_zero 10 inv.break_aligned
    rw [show (0 : Word) = BitVec.ofNat 32 0 from rfl, hs]
    exact if_neg (not_not.mpr hpage)
  · have hs : h.sbrk L (BitVec.ofNat 32 0) = _ := sbrk_refuses (by omega) (by omega)
    rw [show (0 : Word) = BitVec.ofNat 32 0 from rfl, hs]
    -- the break is refused again: one byte more is beyond the end, too
    have hone : (1024 - ((-1 : Word) &&& 0x3ff)) = BitVec.ofNat 32 1 := by decide
    show (if (-1 : Word) &&& 0x3ff ≠ 0 then (h.sbrk L (1024 - ((-1 : Word) &&& 0x3ff))).2 else h) = h
    rw [if_pos (show (-1 : Word) &&& 0x3ff ≠ 0 by decide), hone,
      sbrk_refuses (by omega) (by omega)]

/-- `morecore` gets no room, or it gets `n + 1` blocks in a row from the break on. -/
theorem morecore_cases {b : Nat} (hb : b ≤ 27) :
    morecore L b h = h ∨ ∃ n, (shl 1 (b + 3)).toNat * (n + 1) % 1024 = 0 ∧
      h.data_break.toNat + (shl 1 (b + 3)).toNat * (n + 1) < L.data_end ∧
      morecore L b h = {
        nextf := Function.update h.nextf b h.data_break
        mem := linkBlocks (shl 1 (b + 3)) n h.data_break h.mem
        data_break := h.data_break + BitVec.ofNat 32 ((shl 1 (b + 3)).toNat * (n + 1)) } := by
  by_cases hempty : h.nextf b = 0
  swap
  · exact Or.inl (if_pos hempty)
  have hend := inv.break_below
  obtain ⟨rnu, hrnu, hle, hmin, hmax⟩ : ∃ rnu, (if b ≤ 8 then 11 else b + 3) = rnu ∧
      b + 3 ≤ rnu ∧ 11 ≤ rnu ∧ rnu ≤ 30 := by
    by_cases h8 : b ≤ 8
    · exact ⟨11, if_pos h8, by omega, by omega, by omega⟩
    · exact ⟨b + 3, if_neg h8, by omega, by omega, by omega⟩
  have hpow : 2 ^ rnu ≤ 2 ^ 30 := Nat.pow_le_pow_right (by decide) hmax
  have hpos := Nat.two_pow_pos (rnu - (b + 3))
  have hwhole : (shl 1 (b + 3)).toNat * 2 ^ (rnu - (b + 3)) = 2 ^ rnu := by
    rw [shl_one (by omega), ← pow_add, Nat.add_sub_cancel' hle]
  have hincr : shl 1 rnu = BitVec.ofNat 32 (2 ^ rnu) := by
    rw [← shl_one (by omega), BitVec.ofNat_toNat, BitVec.setWidth_eq]
  unfold morecore
  rw [if_neg (not_not.mpr hempty)]
  simp only [hrnu, inv.page_kept hfit, if_neg (show ¬ rnu < b by omega)]
  by_cases hroom : h.data_break.toNat + 2 ^ rnu < L.data_end
  · refine Or.inr ⟨2 ^ (rnu - (b + 3)) - 1, ?_, ?_, ?_⟩
    · rw [Nat.sub_add_cancel hpos, hwhole]
      exact Nat.mod_eq_zero_of_dvd (pow_dvd_pow 2 (show 10 ≤ rnu by omega))
    · rwa [Nat.sub_add_cancel hpos, hwhole]
    · have h8 : h.data_break &&& 7 = 0 :=
        low_bits_zero 3 ((show 2 ^ 3 ∣ 1024 by decide).trans inv.break_aligned)
      have hne : h.data_break ≠ -1 := by
        intro he
        rw [he] at h8
        exact absurd h8 (by decide)
      rw [hincr, sbrk_accepts inv.break_above.2 (by omega) hroom]
      simp only [if_neg hne, if_neg (not_not.mpr h8), Nat.one_shiftLeft,
        Nat.sub_add_cancel hpos, hwhole]
  · refine Or.inl ?_
    rw [hincr, sbrk_refuses (by omega) (by omega)]
    exact if_pos rfl

end Grow

section Carve

variable {b n : Nat} {siz : Word} (hsiz : siz.toNat = 2 ^ (b + 3))
  (hroom : h.data_break.toNat + siz.toNat * (n + 1) < 2 ^ 32)

include hsiz hroom

theorem row_fits : 4 ≤ siz.toNat ∧ h.data_break.toNat + siz.toNat * n + 4 ≤ 2 ^ 32 := by
  have hs : 8 ≤ 2 ^ (b + 3) := Cell.size_ge ⟨0, b⟩
  rw [Nat.mul_succ] at hroom
  omega

variable (inv : Inv L start C fl h live)

include inv

/-- A row of blocks behind the break overlaps nothing. -/
theorem carve (hb : b ≤ 27) :
    Carved start (h.data_break.toNat + siz.toNat * (n + 1))
      (C ∪ {c | c.bucket = b ∧ c.hdr ∈ blocksFrom siz n h.data_break}) := by
  have hrow : ∀ c ∈ {c : Cell | c.bucket = b ∧ c.hdr ∈ blocksFrom siz n h.data_break},
      c.size = siz.toNat ∧ ∃ k ≤ n, c.hdr.toNat = h.data_break.toNat + siz.toNat * k := by
    rintro c ⟨hcb, hc⟩
    refine ⟨?_, mem_blocksFrom (row_fits hsiz hroom).2 hc⟩
    rw [Cell.size, hcb, hsiz]
  have hstep : ∀ {k k' : Nat}, k < k' → siz.toNat * k + siz.toNat ≤ siz.toNat * k' := fun hk =>
    Nat.mul_succ _ _ ▸ Nat.mul_le_mul_left _ (Nat.succ_le_of_lt hk)
  refine ⟨?_, ?_, ?_, ?_, ?_⟩
  · rintro c (hc | hc) d (hd | hd) hne
    · exact inv.carved.apart c hc d hd hne
    · obtain ⟨-, k, -, hk⟩ := hrow d hd
      have hbelow := inv.carved.below c hc
      exact Or.inl (by omega)
    · obtain ⟨-, k, -, hk⟩ := hrow c hc
      have hbelow := inv.carved.below d hd
      exact Or.inr (by omega)
    · obtain ⟨hsc, k, -, hk⟩ := hrow c hc
      obtain ⟨hsd, k', -, hk'⟩ := hrow d hd
      rw [Cell.Apart, hsc, hsd, hk, hk']
      rcases Nat.lt_trichotomy k k' with hlt | rfl | hlt
      · have := hstep hlt
        exact Or.inl (by omega)
      · refine absurd (Cell.ext ?_ (hc.1.trans hd.1.symm)) hne
        exact BitVec.eq_of_toNat_eq (hk.trans hk'.symm)
      · have := hstep hlt
        exact Or.inr (by omega)
  · rintro c (hc | hc)
    · exact inv.carved.aligned c hc
    · obtain ⟨-, k, -, hk⟩ := hrow c hc
      rw [hk]
      refine Nat.dvd_add ((show 8 ∣ 1024 by decide).trans inv.break_aligned) ?_
      rw [hsiz]
      exact Dvd.dvd.mul_right (pow_dvd_pow 2 (show 3 ≤ b + 3 by omega)) k
  · rintro c (hc | hc)
    · exact inv.carved.above c hc
    · obtain ⟨-, k, -, hk⟩ := hrow c hc
      have hab := inv.break_above.1
      omega
  · rintro c (hc | hc)
    · have hbelow := inv.carved.below c hc
      omega
    · obtain ⟨hs, k, hkn, hk⟩ := hrow c hc
      have := hstep (Nat.lt_succ_of_le hkn)
      rw [Nat.succ_eq_add_one] at this
      omega
  · rintro c (hc | hc)
    · exact inv.carved.bucket_le c hc
    · rw [hc.1]
      exact hb

/-- The row goes on its list, which was empty. -/
theorem grow (hb : b ≤ 27) (hpage : siz.toNat * (n + 1) % 1024 = 0)
    (hend : h.data_break.toNat + siz.toNat * (n + 1) < L.data_end) :
    ∃ D, Inv L start D (Function.update fl b (blocksFrom siz n h.data_break)) {
      nextf := Function.update h.nextf b h.data_break
      mem := linkBlocks siz n h.data_break h.mem
      data_break := h.data_break + BitVec.ofNat 32 (siz.toNat * (n + 1)) } live := by
  obtain ⟨hsiz4, hrow⟩ := row_fits hsiz hroom
  have hbrk : (h.data_break + BitVec.ofNat 32 (siz.toNat * (n + 1))).toNat =
      h.data_break.toNat + siz.toNat * (n + 1) := toNat_add_small hroom
  have hsame : SameOutside _ _ h.mem _ := linkBlocks_same hsiz4 hrow
  have hle : siz.toNat * n ≤ siz.toNat * (n + 1) := Nat.mul_le_mul_left _ (Nat.le_succ n)
  -- what was carved before lies below the row
  have hold : ∀ a i, ⟨a, i⟩ ∈ C → a.toNat + 8 ≤ h.data_break.toNat := by
    intro a i hc
    have hbelow := inv.carved.below _ hc
    have hs := Cell.size_ge ⟨a, i⟩
    change a.toNat + _ ≤ _ at hbelow
    omega
  have hpos : h.data_break ≠ 0 := by
    intro he
    have hab := inv.break_above.1
    have hsp := inv.start_pos.2
    rw [he, show (0 : Word).toNat = 0 from rfl] at hab
    omega
  refine ⟨C ∪ {c | c.bucket = b ∧ c.hdr ∈ blocksFrom siz n h.data_break},
    { carved := ?_, start_pos := inv.start_pos, in_region := ?_, break_above := ?_, break_below := ?_,
      break_aligned := ?_, zero := ?_, lists := ?_, free_mem := ?_, live_mem := ?_,
      live_nodup := inv.live_nodup, live_header := ?_, live_room := inv.live_room,
      live_not_free := ?_ }⟩
  · rw [hbrk]
    exact carve hsiz hroom inv hb
  · rintro c (hc | hc)
    · exact inv.in_region c hc
    · obtain ⟨k, hk, he⟩ := mem_blocksFrom hrow hc.2
      have hk' : siz.toNat * k ≤ siz.toNat * n := Nat.mul_le_mul_left _ hk
      rw [Nat.mul_succ] at hend
      omega
  · have hab := inv.break_above
    rw [hbrk]
    omega
  · rw [hbrk]
    omega
  · rw [hbrk]
    exact Nat.dvd_add inv.break_aligned (Nat.dvd_of_mod_eq_zero hpage)
  · intro a ha
    rw [hbrk] at ha
    exact (hsame a (Or.inr (by omega))).trans (inv.zero a (by omega))
  · intro j
    show Chain _ 0 (Function.update h.nextf b _ j) _
    by_cases hj : j = b
    · rw [hj, Function.update_self, Function.update_self]
      exact linkBlocks_chain hsiz4 hrow hpos fun a ha => inv.zero a (by omega)
    · rw [Function.update_of_ne hj, Function.update_of_ne hj]
      refine (inv.lists j).congr fun a ha => hsame.ov_next_eq ?_ ?_
      · have hf := inv.hdr_fits (inv.free_mem j a ha)
        omega
      · have hf := hold a j (inv.free_mem j a ha)
        omega
  · intro j a ha
    by_cases hj : j = b
    · rw [hj, Function.update_self] at ha
      exact Or.inr ⟨hj, ha⟩
    · rw [Function.update_of_ne hj] at ha
      exact Or.inl (inv.free_mem j a ha)
  · exact fun d hd => Or.inl (inv.live_mem d hd)
  · intro d hd
    have hf := hold _ _ (inv.live_mem d hd)
    have hlow := hsame d.hdr (Or.inl (by omega))
    have hfit : d.hdr.toNat + 4 ≤ 2 ^ 32 := by omega
    have hidx := hsame.header hfit (Or.inl (by omega)) (show 1 < 4 by decide)
    have hhdr := inv.live_header d hd
    exact ⟨hlow.trans hhdr.1, hidx.trans hhdr.2⟩
  · intro d hd j hmem
    by_cases hj : j = b
    · rw [hj, Function.update_self] at hmem
      obtain ⟨k, -, hk⟩ := mem_blocksFrom hrow hmem
      have hf := hold _ _ (inv.live_mem d hd)
      omega
    · rw [Function.update_of_ne hj] at hmem
      exact inv.live_not_free d hd j hmem

end Carve

end Inv

end Pittsfield.Libc
