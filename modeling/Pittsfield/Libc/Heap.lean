import Pittsfield.Libc.Requests

/-!
# The heap over sequences of calls

What `malloc`, `free` and `realloc` do to the invariant, and from that what every sequence
of calls keeps.
-/

namespace Pittsfield.Libc

open Pittsfield.Foundation
open Pittsfield.Region
open Pittsfield.Machine
open Pittsfield.Wrappers

theorem release_hdr {live : List Block} {p : Word} {b : Block} (hb : b ∈ release p live) :
    b.hdr ≠ p - 4 := by
  have h := (List.mem_filter.mp hb).2
  exact of_decide_eq_true h

theorem release_eq {live : List Block} {p : Word} (h : ∀ b ∈ live, b.hdr ≠ p - 4) :
    release p live = live := List.filter_eq_self.mpr fun b hb => decide_eq_true (h b hb)

namespace Inv

variable {L : Layout} {start : Nat} {C : Set Cell} {fl : Nat → List Word} {h : Heap}
  {live : List Block}

/-- The index in the header of a block in use. -/
theorem live_index (inv : Inv L start C fl h live) {b : Block} (hb : b ∈ live) :
    (h.mem (b.hdr + 1)).toNat = b.bucket := by
  have hle : b.bucket ≤ 27 := inv.carved.bucket_le _ (inv.live_mem b hb)
  rw [(inv.live_header b hb).2, BitVec.toNat_ofNat, Nat.mod_eq_of_lt (by omega)]

/-- No block is on two lists. -/
theorem one_list (inv : Inv L start C fl h live) {a : Word} {i j : Nat} (hi : a ∈ fl i)
    (hj : a ∈ fl j) : i = j :=
  congrArg Cell.bucket (inv.carved.eq_of_hdr (inv.free_mem i a hi) (inv.free_mem j a hj) rfl)

/-- The link of a free block is not taken for the header of a block in use. -/
theorem link_not_magic (inv : Inv L start C fl h live) {a : Word} {i : Nat} (ha : a ∈ fl i) :
    h.mem a ≠ MAGIC := by
  rw [← ov_next_low h.mem a]
  apply aligned_not_magic
  rcases (inv.lists i).next_mem ha with he | hmem
  · rw [he]
    exact Nat.dvd_zero 8
  · exact inv.carved.aligned _ (inv.free_mem i _ hmem)

/-- Freeing a free block changes nothing. -/
theorem free_again (inv : Inv L start C fl h live) {a : Word} {i : Nat} (ha : a ∈ fl i) :
    free (a + 4) h = h := by
  unfold free
  rw [if_neg (inv.user_ne (inv.free_mem i a ha)), BitVec.add_sub_cancel,
    if_pos (inv.link_not_magic ha)]

/-- `malloc` never complains about a link. -/
theorem not_corrupt (inv : Inv L start C fl h live) {a : Word} {i : Nat} (ha : a ∈ fl i) :
    corrupt L h a = false := by
  rcases (inv.lists i).next_mem ha with he | hmem
  · rw [corrupt, he]
    rfl
  · have hc := inv.free_mem i _ hmem
    have habove : start ≤ (ov_next h.mem a).toNat := inv.carved.above _ hc
    have hbelow : (ov_next h.mem a).toNat < L.data_end := inv.in_region _ hc
    have hstart := inv.start_pos.1
    rw [corrupt, decide_eq_false (Nat.not_lt.mpr (hstart.trans habove)),
      decide_eq_false (Nat.not_le.mpr hbelow), Bool.or_self, Bool.and_false]

theorem free_null : free 0 h = h := if_pos rfl

/-- No block is larger than a quarter of the address space. -/
theorem empty_list (inv : Inv L start C fl h live) {i : Nat} (hi : 27 < i) : h.nextf i = 0 := by
  by_contra hne
  obtain ⟨rest, hfl, -⟩ := (inv.lists i).exists_cons hne
  have hle : i ≤ 27 := inv.carved.bucket_le _ (inv.free_mem i (h.nextf i) (hfl ▸ List.mem_cons_self))
  omega

theorem moderate_cases (inv : Inv L start C fl h live) {n : Word} (hn : Moderate L h n) :
    n.toNat ≤ 2 ^ 30 - 4 ∨ Full L h n := by
  rcases hn with hn | hfull
  · by_cases hsmall : n.toNat ≤ 2 ^ 30 - 4
    · exact Or.inl hsmall
    · have hb := bucketFor_half (by omega) hn
      refine Or.inr ⟨?_, Or.inl hb⟩
      rw [hb]
      exact inv.empty_list (by decide)
  · exact Or.inr hfull

theorem takeBlock_keeps (inv : Inv L start C fl h live) {i req : Nat} (hne : h.nextf i ≠ 0)
    (hroom : 4 + req ≤ 2 ^ (i + 3)) :
    ∃ fl' p, (takeBlock i h).1 = p + 4 ∧
      Inv L start C fl' (takeBlock i h).2 (⟨p, i, req⟩ :: live) := by
  obtain ⟨rest, hfl, -⟩ := (inv.lists i).exists_cons hne
  have hmem : h.nextf i ∈ fl i := by
    rw [hfl]
    exact List.mem_cons_self
  have hc := inv.free_mem i _ hmem
  have hnd := (inv.lists i).nodup
  rw [hfl] at hnd
  have hfree : ∀ j, h.nextf i ∉ Function.update fl i rest j := by
    intro j hj
    by_cases hji : j = i
    · rw [hji, Function.update_self] at hj
      exact (List.nodup_cons.mp hnd).1 hj
    · rw [Function.update_of_ne hji] at hj
      exact hji (inv.one_list hj hmem)
  have hlive : ∀ b ∈ live, b.hdr ≠ h.nextf i := fun b hb he =>
    inv.live_not_free b hb i (he ▸ hmem)
  have hfits := inv.hdr_fits hc
  have hsize : 8 ≤ 2 ^ (i + 3) := Cell.size_ge ⟨0, i⟩
  have hone : (h.nextf i + 1).toNat = (h.nextf i).toNat + 1 :=
    toNat_add_small (show (h.nextf i).toNat + 1 < 2 ^ 32 by omega)
  have hdiff : h.nextf i ≠ h.nextf i + 1 := fun he => by
    rw [← he] at hone
    omega
  have hm : SameOutside (h.nextf i).toNat ((h.nextf i).toNat + 2 ^ (i + 3)) h.mem
      (Function.update (Function.update h.mem (h.nextf i) MAGIC) (h.nextf i + 1)
        (BitVec.ofNat 8 i)) :=
    (update_same _ (Nat.le_refl _) (by omega)).trans (update_same _ (by omega) (by omega))
  refine ⟨_, h.nextf i, rfl,
    (((inv.unlink hfl).write_idle hc hm hfree hlive).hold hc hfree hlive hroom ⟨?_, ?_⟩)⟩
  · show Function.update (Function.update h.mem _ _) _ _ (h.nextf i) = MAGIC
    rw [Function.update_of_ne hdiff, Function.update_self]
  · exact Function.update_self ..

/-- `free` accepts a block in use and puts it in front of its list. -/
theorem free_eq (inv : Inv L start C fl h live) {b : Block} (hb : b ∈ live) :
    free (b.hdr + 4) h = { h with
      nextf := Function.update h.nextf b.bucket b.hdr
      mem := setNext h.mem b.hdr (h.nextf b.bucket) } := by
  unfold free
  rw [if_neg (inv.user_ne (inv.live_mem b hb)), BitVec.add_sub_cancel,
    if_neg (not_not.mpr (inv.live_header b hb).1), inv.live_index hb]

theorem free_keeps (inv : Inv L start C fl h live) {b : Block} (hb : b ∈ live) :
    ∃ fl', Inv L start C fl' (free (b.hdr + 4) h) (release (b.hdr + 4) live) := by
  have hc := inv.live_mem b hb
  have hfits := inv.hdr_fits hc
  have hsize : 8 ≤ 2 ^ (b.bucket + 3) := Cell.size_ge b.cell
  have hlive : ∀ d ∈ release (b.hdr + 4) live, d.hdr ≠ b.hdr := by
    intro d hd
    have hne := release_hdr hd
    rwa [BitVec.add_sub_cancel] at hne
  have hm : SameOutside b.hdr.toNat (b.hdr.toNat + 2 ^ (b.bucket + 3)) h.mem
      (setNext h.mem b.hdr (h.nextf b.bucket)) :=
    (setNext_same _ (by omega)).mono (Nat.le_refl _) (by omega)
  rw [inv.free_eq hb]
  exact ⟨_, ((inv.drop (b.hdr + 4)).write_idle hc hm (inv.live_not_free b hb) hlive).link hc
    ov_next_setNext hlive⟩

/-- What a call that returned a block leaves: the block is new and is in use. -/
theorem grant_eq {i : Nat} {p n : Word} (inv : Inv L start C fl h (⟨p, i, n.toNat⟩ :: live)) :
    grant h (p + 4) n live = ⟨p, i, n.toNat⟩ :: live := by
  have hc : ⟨p, i⟩ ∈ C := inv.live_mem _ List.mem_cons_self
  have hidx : (h.mem (p + 1)).toNat = i := inv.live_index List.mem_cons_self
  rw [grant, if_neg (inv.user_ne hc), BitVec.add_sub_cancel, hidx]

/-- The copy of `realloc` goes into the new block, behind its header. -/
theorem copy_keeps (inv : Inv L start C fl h live) {b : Block} (hb : b ∈ live) (src : Word) {k : Nat}
    (hk : 4 + k ≤ 2 ^ (b.bucket + 3)) :
    Inv L start C fl { h with mem := memcpy h.mem (b.hdr + 4) src k } live := by
  have hc := inv.live_mem b hb
  have hbelow : b.hdr.toNat + 2 ^ (b.bucket + 3) ≤ _ := inv.carved.below _ hc
  have hlt := h.data_break.isLt
  have h4 : (b.hdr + 4).toNat = b.hdr.toNat + 4 :=
    toNat_add_small (show b.hdr.toNat + 4 < 2 ^ 32 by omega)
  have hm : SameOutside (b.hdr + 4).toNat ((b.hdr + 4).toNat + k) h.mem
      (memcpy h.mem (b.hdr + 4) src k) := memcpy_same h.mem (by omega)
  rw [h4] at hm
  exact inv.write_user hb (hm.mono (Nat.le_refl _) (by omega))

section Calls

variable (inv : Inv L start C fl h live) (hfit : L.data_end + 8192 + 2 ^ 30 < 2 ^ 32)
  (hhalf : L.data_end + 8192 ≤ L.data_start + 2 ^ 31) {n : Word} (hn : Moderate L h n)

include inv hfit

theorem morecore_keeps {b : Nat} (hb : b ≤ 27) :
    ∃ D fl', Inv L start D fl' (morecore L b h) live := by
  rcases inv.morecore_cases hfit hb with he | ⟨k, hpage, hroom, he⟩
  · rw [he]
    exact ⟨C, fl, inv⟩
  · rw [he]
    obtain ⟨D, hD⟩ := grow (shl_one (by omega)) (by omega) inv hb hpage hroom
    exact ⟨D, _, hD⟩

include hhalf hn

/-- `malloc` fails and hands out nothing, or it hands out a block that was not in use. -/
theorem malloc_keeps : ∃ D fl',
    ((malloc L n h).1 = 0 ∧ Inv L start D fl' (malloc L n h).2 live) ∨
      ∃ p, (malloc L n h).1 = p + 4 ∧
        Inv L start D fl' (malloc L n h).2 (⟨p, bucketFor n, n.toNat⟩ :: live) := by
  rcases inv.moderate_cases hn with hsmall | hfull
  swap
  · rw [inv.malloc_full hfit hhalf hfull]
    exact ⟨C, fl, Or.inl ⟨rfl, inv⟩⟩
  obtain ⟨hb, hroom⟩ := bucketFor_spec hsmall
  obtain ⟨D, fl', hD⟩ : ∃ D fl', Inv L start D fl'
      (if h.nextf (bucketFor n) = 0 then morecore L (bucketFor n) h else h) live := by
    by_cases he : h.nextf (bucketFor n) = 0
    · rw [if_pos he]
      exact inv.morecore_keeps hfit hb
    · rw [if_neg he]
      exact ⟨C, fl, inv⟩
  unfold malloc
  by_cases hne : (if h.nextf (bucketFor n) = 0 then morecore L (bucketFor n) h else h).nextf
      (bucketFor n) = 0
  · simp only [if_pos hne]
    exact ⟨D, fl', Or.inl ⟨trivial, hD⟩⟩
  · simp only [if_neg hne]
    obtain ⟨fl'', p, hp, hD'⟩ := hD.takeBlock_keeps hne hroom
    exact ⟨D, fl'', Or.inr ⟨p, hp, hD'⟩⟩

/-- The block of the request replaces none, or the block at `p`. -/
theorem malloc_grant : ∃ D fl', Inv L start D fl' (malloc L n h).2
    (grant (malloc L n h).2 (malloc L n h).1 n live) := by
  obtain ⟨D, fl', ⟨hz, hD⟩ | ⟨p, hp, hD⟩⟩ := inv.malloc_keeps hfit hhalf hn
  · refine ⟨D, fl', ?_⟩
    rwa [grant, if_pos hz]
  · refine ⟨D, fl', ?_⟩
    rwa [hp, hD.grant_eq]

/-- `realloc` returns the same block, fails, or moves the data to a new block. -/
theorem realloc_cases {b : Block} (hb : b ∈ live) :
    (realloc L (b.hdr + 4) n h = (b.hdr + 4, h) ∧ 4 + n.toNat ≤ 2 ^ (b.bucket + 3)) ∨
    (∃ D fl', Inv L start D fl' (malloc L n h).2 live ∧
      realloc L (b.hdr + 4) n h = (0, (malloc L n h).2)) ∨
    ∃ D fl' p, Inv L start D fl' (malloc L n h).2 (⟨p, bucketFor n, n.toNat⟩ :: live) ∧
      realloc L (b.hdr + 4) n h = (p + 4, free (b.hdr + 4) { (malloc L n h).2 with
        mem := memcpy (malloc L n h).2.mem (p + 4) (b.hdr + 4)
          (min n.toNat (2 ^ (b.bucket + 3) - 4)) }) := by
  have hc := inv.live_mem b hb
  have hle : b.bucket ≤ 27 := inv.carved.bucket_le _ hc
  have hsize : 8 ≤ 2 ^ (b.bucket + 3) := Cell.size_ge b.cell
  have honb : (shl 1 (b.bucket + 3) - 4 : Word).toNat = 2 ^ (b.bucket + 3) - 4 := by
    have hone := shl_one (k := b.bucket + 3) (by omega)
    rw [BitVec.toNat_sub_of_le, hone]
    · rfl
    · rw [BitVec.le_def, hone]
      exact (show 4 ≤ 8 by decide).trans hsize
  generalize hg : shl 1 (b.bucket + 3) - 4 = onb at honb
  unfold realloc
  rw [if_neg (inv.user_ne hc), BitVec.add_sub_cancel, inv.live_index hb]
  simp only [hg]
  by_cases hsame : n ≤ onb ∧ n > (onb >>> 1) - 4
  · rw [if_pos hsame]
    have hno := BitVec.le_def.mp hsame.1
    exact Or.inl ⟨rfl, by omega⟩
  rw [if_neg hsame]
  obtain ⟨D, fl', ⟨hz, hD⟩ | ⟨p, hp, hD⟩⟩ := inv.malloc_keeps hfit hhalf hn
  · rw [if_pos hz]
    exact Or.inr (Or.inl ⟨D, fl', hD, rfl⟩)
  have hpne : p + 4 ≠ 0 := hD.user_ne (hD.live_mem _ List.mem_cons_self)
  have hmoved : b.hdr + 4 ≠ p + 4 := by
    intro he
    refine (List.nodup_cons.mp hD.live_nodup).1 ?_
    show p ∈ live.map Block.hdr
    rw [← (BitVec.add_left_inj 4).mp he]
    exact List.mem_map_of_mem hb
  have hlen : (if n < onb then n else onb).toNat = min n.toNat (2 ^ (b.bucket + 3) - 4) := by
    rw [← honb]
    by_cases hno : n < onb
    · rw [if_pos hno, Nat.min_eq_left (Nat.le_of_lt (BitVec.lt_def.mp hno))]
    · rw [if_neg hno, Nat.min_eq_right (Nat.le_of_not_lt (BitVec.lt_def.not.mp hno))]
  rw [hp, if_neg hpne, if_pos hmoved, hlen]
  exact Or.inr (Or.inr ⟨D, fl', p, hD, rfl⟩)

/-- Behind each of them the heap is sound. -/
theorem realloc_keeps {b : Block} (hb : b ∈ live) : ∃ D fl',
    Inv L start D fl' (realloc L (b.hdr + 4) n h).2
      (if (realloc L (b.hdr + 4) n h).1 = 0 then live
        else grant (realloc L (b.hdr + 4) n h).2 (realloc L (b.hdr + 4) n h).1 n
          (release (b.hdr + 4) live)) := by
  have hc := inv.live_mem b hb
  rcases inv.realloc_cases hfit hhalf hn hb with ⟨he, hroom⟩ | ⟨D, fl', hD, he⟩ | ⟨D, fl', p, hD, he⟩
  · rw [he]
    have hlive : ∀ d ∈ release (b.hdr + 4) live, d.hdr ≠ b.hdr := by
      intro d hd
      have hne := release_hdr hd
      rwa [BitVec.add_sub_cancel] at hne
    have hkept := (inv.drop (b.hdr + 4)).hold hc (inv.live_not_free b hb) hlive hroom
      (inv.live_header b hb)
    rw [if_neg (inv.user_ne hc), hkept.grant_eq]
    exact ⟨C, fl, hkept⟩
  · rw [he, if_pos rfl]
    exact ⟨D, fl', hD⟩
  · rw [he]
    have hnew : (⟨p, bucketFor n, n.toNat⟩ : Block) ∈ _ :: live := List.mem_cons_self
    have hpne : p + 4 ≠ 0 := hD.user_ne (hD.live_mem _ hnew)
    have hroom : 4 + n.toNat ≤ 2 ^ (bucketFor n + 3) := hD.live_room _ hnew
    obtain ⟨fl'', hfreed⟩ := (hD.copy_keeps hnew (b.hdr + 4)
      (k := min n.toNat (2 ^ (b.bucket + 3) - 4)) (by dsimp only; omega)).free_keeps
      (List.mem_cons_of_mem _ hb)
    have hother : p ≠ b.hdr + 4 - 4 := by
      rw [BitVec.add_sub_cancel]
      intro he
      refine (List.nodup_cons.mp hD.live_nodup).1 ?_
      show p ∈ live.map Block.hdr
      rw [he]
      exact List.mem_map_of_mem hb
    have hrel : release (b.hdr + 4) (⟨p, bucketFor n, n.toNat⟩ :: live) =
        ⟨p, bucketFor n, n.toNat⟩ :: release (b.hdr + 4) live :=
      List.filter_cons_of_pos (decide_eq_true hother)
    rw [hrel] at hfreed
    rw [if_neg hpne, hfreed.grant_eq]
    exact ⟨D, fl'', hfreed⟩

end Calls

theorem release_null (inv : Inv L start C fl h live) : release 0 live = live := by
  refine release_eq fun b hb he => ?_
  have hfits := inv.hdr_fits (inv.live_mem b hb)
  rw [he, show (0 - 4 : Word).toNat = 2 ^ 32 - 4 from rfl] at hfits
  omega

/-- A call that a client may make keeps the invariant. -/
theorem call_keeps {s : Session} (inv : Inv L start C fl s.heap s.live)
    (hfit : L.data_end + 8192 + 2 ^ 30 < 2 ^ 32) (hhalf : L.data_end + 8192 ≤ L.data_start + 2 ^ 31)
    {c : Call} (hc : Legal s c) (hn : ModerateCall L s c) :
    ∃ D fl', Inv L start D fl' (s.call L c).heap (s.call L c).live := by
  cases c with
  | malloc n => exact inv.malloc_grant hfit hhalf hn
  | realloc p n =>
    rcases hc with rfl | ⟨b, hb, rfl⟩
    · obtain ⟨D, fl', hD⟩ := inv.malloc_grant hfit hhalf hn
      refine ⟨D, fl', ?_⟩
      show Inv L start D fl' (malloc L n s.heap).2
        (if (malloc L n s.heap).1 = 0 then s.live else _)
      by_cases hz : (malloc L n s.heap).1 = 0
      · rw [grant, if_pos hz] at hD
        rwa [if_pos hz]
      · rw [if_neg hz, inv.release_null]
        exact hD
    · exact inv.realloc_keeps hfit hhalf hn hb
  | free p =>
    rcases hc with rfl | ⟨b, hb, rfl⟩ | ⟨i, -, as, has, a, ha, rfl⟩
    · refine ⟨C, fl, ?_⟩
      show Inv L start C fl (free 0 s.heap) (release 0 s.live)
      rwa [free_null, inv.release_null]
    · exact ⟨C, inv.free_keeps hb⟩
    · rw [has.unique (inv.lists i)] at ha
      refine ⟨C, fl, ?_⟩
      show Inv L start C fl (free (a + 4) s.heap) (release (a + 4) s.live)
      rw [inv.free_again ha, release_eq]
      · exact inv
      · intro b hb he
        rw [BitVec.add_sub_cancel] at he
        exact inv.live_not_free b hb i (he ▸ ha)
  | store a v =>
    obtain ⟨b, hb, hlo, hhi⟩ := hc
    exact ⟨C, fl, inv.write_user hb (update_same v hlo hhi)⟩

/-- The invariant says what a client relies on. -/
theorem integrity {s : Session} (inv : Inv L start C fl s.heap s.live) : Integrity start s where
  live_disjoint := by
    have hne : s.live.Pairwise fun b c => b.hdr ≠ c.hdr := List.pairwise_map.mp inv.live_nodup
    refine hne.imp_of_mem fun {b c} hb hc hbc => ?_
    refine (inv.carved.apart _ (inv.live_mem b hb) _ (inv.live_mem c hc) ?_).disjoint
    exact fun he => hbc (congrArg Cell.hdr he)
  live_above b hb := inv.carved.above _ (inv.live_mem b hb)
  live_below b hb := inv.carved.below _ (inv.live_mem b hb)
  live_room := inv.live_room
  lists := by
    refine ⟨fl, fun i _ => ⟨inv.lists i, (inv.lists i).nodup⟩, fun i _ a ha => ⟨?_, ?_, ?_, ?_⟩,
      fun i _ j _ hne a hi hj => hne (inv.one_list hi hj), fun i _ a ha => inv.free_again ha⟩
    · exact inv.carved.above _ (inv.free_mem i a ha)
    · exact inv.carved.below _ (inv.free_mem i a ha)
    · intro b hb
      refine (inv.carved.apart _ (inv.free_mem i a ha) _ (inv.live_mem b hb) ?_).disjoint
      intro he
      rw [show a = b.hdr from congrArg Cell.hdr he] at ha
      exact inv.live_not_free b hb i ha
    · intro j _ b hb
      by_cases he : (⟨a, i⟩ : Cell) = ⟨b, j⟩
      · exact Or.inl ⟨congrArg Cell.hdr he, congrArg Cell.bucket he⟩
      · exact Or.inr
          (inv.carved.apart _ (inv.free_mem i a ha) _ (inv.free_mem j b hb) he).disjoint

end Inv

section Run

variable {L : Layout} {data_size : Nat} {s : Session}

/-- Nothing is carved out of a fresh heap. -/
theorem Fresh.inv (h : Fresh L data_size s) (hsize : data_size ≤ L.data_size)
    (hfit : L.data_end + 8192 < 2 ^ 32) :
    Inv L (initial_break L data_size).toNat ∅ (fun _ => []) s.heap s.live := by
  obtain ⟨hpage, habove, hbelow⟩ := initial_break_bounds hsize hfit
  exact {
    carved := by constructor <;> exact fun c hc => absurd hc (Set.notMem_empty c)
    start_pos := by omega
    in_region := fun c hc => absurd hc (Set.notMem_empty c)
    break_above := by
      rw [h.break_eq]
      omega
    break_below := by rwa [h.break_eq]
    break_aligned := by
      rw [h.break_eq]
      exact (show 1024 ∣ 4096 by decide).trans hpage
    zero := by
      rw [h.break_eq]
      exact h.zero
    lists := h.nextf
    free_mem := fun _ _ ha => absurd ha List.not_mem_nil
    live_mem := by simp [h.live]
    live_nodup := by simp [h.live]
    live_header := by simp [h.live]
    live_room := by simp [h.live]
    live_not_free := fun _ _ _ => List.not_mem_nil }

/-- What one call keeps, every sequence of calls keeps. -/
theorem run_keeps (hfit : L.data_end + 8192 + 2 ^ 30 < 2 ^ 32)
    (hhalf : L.data_end + 8192 ≤ L.data_start + 2 ^ 31) {start : Nat} {C : Set Cell}
    {fl : Nat → List Word} {cs : List Call} (inv : Inv L start C fl s.heap s.live)
    (hlegal : Every L Legal s cs) (hmoderate : Every L (ModerateCall L) s cs) :
    ∃ D fl', Inv L start D fl' (s.run L cs).heap (s.run L cs).live := by
  induction cs generalizing s C fl with
  | nil => exact ⟨C, fl, inv⟩
  | cons c cs ih =>
    obtain ⟨D, fl', hD⟩ := inv.call_keeps hfit hhalf hlegal.1 hmoderate.1
    exact ih hD hlegal.2 hmoderate.2

theorem Every.take {P : Session → Call → Prop} {cs : List Call} (h : Every L P s cs) (k : Nat) :
    Every L P s (cs.take k) := by
  induction cs generalizing s k with
  | nil =>
    rw [List.take_nil]
    exact trivial
  | cons c cs ih =>
    cases k with
    | zero => exact trivial
    | succ k => exact ⟨h.1, ih h.2 k⟩

/-- What is allowed is legal and of a moderate size. -/
theorem Allowed.split {c : Call} (h : Allowed s c) : Legal s c ∧ ModerateCall L s c := by
  cases c with
  | malloc n =>
    have hn : n.toNat ≤ 2 ^ 30 - 4 := h
    exact ⟨trivial, Or.inl (by omega)⟩
  | realloc p n =>
    have hn : n.toNat ≤ 2 ^ 30 - 4 := h.2
    exact ⟨h.1, Or.inl (by omega)⟩
  | free p => exact ⟨h, trivial⟩
  | store a v => exact ⟨h, trivial⟩

theorem AllAllowed.split {cs : List Call} (h : AllAllowed L s cs) :
    Every L Legal s cs ∧ Every L (ModerateCall L) s cs := by
  induction cs generalizing s with
  | nil => exact ⟨trivial, trivial⟩
  | cons c cs ih =>
    obtain ⟨hlegal, hmoderate⟩ := h.1.split (L := L)
    exact ⟨⟨hlegal, (ih h.2).1⟩, hmoderate, (ih h.2).2⟩

end Run

theorem data_end_fits (g : Settings) (sz : Size) :
    (compute_sizes g sz).data_end + 8192 + 2 ^ 30 < 2 ^ 32 := by
  show (sizes sz).data_tag <<< (sizes sz).log_data_size + 1 <<< (sizes sz).log_data_size +
    8192 + 2 ^ 30 < 2 ^ 32
  cases sz <;> decide

theorem data_below_half (g : Settings) (sz : Size) :
    (compute_sizes g sz).data_end + 8192 ≤ (compute_sizes g sz).data_start + 2 ^ 31 := by
  show (sizes sz).data_tag <<< (sizes sz).log_data_size + 1 <<< (sizes sz).log_data_size + 8192 ≤
    (sizes sz).data_tag <<< (sizes sz).log_data_size + 2 ^ 31
  cases sz <;> decide

/-- Whatever the clients call, the heap is sound behind each of their calls. -/
theorem heap_integrity (g : Settings) (sz : Size) {data_size : Nat} {s : Session} {cs : List Call}
    (hsize : data_size ≤ (compute_sizes g sz).data_size)
    (hfresh : Fresh (compute_sizes g sz) data_size s)
    (hall : AllAllowed (compute_sizes g sz) s cs) (k : Nat) :
    Integrity (initial_break (compute_sizes g sz) data_size).toNat
      (s.run (compute_sizes g sz) (cs.take k)) := by
  have hfit := data_end_fits g sz
  obtain ⟨hlegal, hmoderate⟩ := hall.split
  obtain ⟨D, fl, hD⟩ := run_keeps hfit (data_below_half g sz) (hfresh.inv hsize (by omega))
    (hlegal.take k) (hmoderate.take k)
  exact hD.integrity

/-- Two blocks from a fresh heap, with a `free` of the null pointer between. -/
theorem heap_integrity_two_blocks :
    Integrity (initial_break (compute_sizes {} .classic) 100).toNat
      (Session.run (compute_sizes {} .classic)
        ⟨⟨fun _ => 0, fun _ => 0, initial_break (compute_sizes {} .classic) 100⟩, []⟩
        ([.malloc 100, .free 0, .malloc 5000].take 3)) := by
  refine heap_integrity {} .classic (by decide) ⟨rfl, fun _ => rfl, rfl, fun _ _ => rfl⟩ ?_ 3
  exact ⟨show 100 ≤ 2 ^ 30 - 4 by decide, Or.inl rfl, show 5000 ≤ 2 ^ 30 - 4 by decide, trivial⟩

end Pittsfield.Libc
