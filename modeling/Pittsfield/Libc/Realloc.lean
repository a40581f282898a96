import Pittsfield.Libc.Allocations

/-!
# `realloc` keeps the data

`malloc` writes into blocks that are not in use, the copy into the new block, and `free`
into the header of the old one.
-/

namespace Pittsfield.Libc

open Pittsfield.Foundation
open Pittsfield.Region
open Pittsfield.Machine
open Pittsfield.Wrappers

/-- The bytes of the block behind its header are the same. -/
def Block.Same (b : Block) (mem mem' : Mem) : Prop :=
  ∀ k, 4 ≤ k → k < 2 ^ (b.bucket + 3) → mem' (b.hdr + BitVec.ofNat 32 k) = mem (b.hdr + BitVec.ofNat 32 k)

/-- What a client expects of `realloc` for its block `b`. -/
structure KeepsData (L : Layout) (t : Session) (b : Block) (n : Word) : Prop where
  data : (realloc L (b.hdr + 4) n t.heap).1 ≠ 0 → ∀ k < min b.req n.toNat,
    (realloc L (b.hdr + 4) n t.heap).2.mem ((realloc L (b.hdr + 4) n t.heap).1 + BitVec.ofNat 32 k) =
      t.heap.mem (b.hdr + 4 + BitVec.ofNat 32 k)
  room : (realloc L (b.hdr + 4) n t.heap).1 ≠ 0 → Room (realloc L (b.hdr + 4) n t.heap).2
    (release (b.hdr + 4) t.live) (realloc L (b.hdr + 4) n t.heap).1 n.toNat
  -- a block that was moved is free
  moved : (realloc L (b.hdr + 4) n t.heap).1 ≠ 0 → (realloc L (b.hdr + 4) n t.heap).1 ≠ b.hdr + 4 →
    (realloc L (b.hdr + 4) n t.heap).2.nextf b.bucket = b.hdr ∧
      ∀ c ∈ (t.call L (.realloc (b.hdr + 4) n)).live, c.hdr ≠ b.hdr
  failed : (realloc L (b.hdr + 4) n t.heap).1 = 0 →
    b ∈ (t.call L (.realloc (b.hdr + 4) n)).live ∧
      b.Same t.heap.mem (realloc L (b.hdr + 4) n t.heap).2.mem
  others : ∀ c ∈ t.live, c ≠ b → c ∈ (t.call L (.realloc (b.hdr + 4) n)).live ∧
    c.Same t.heap.mem (realloc L (b.hdr + 4) n t.heap).2.mem

section Memory

variable {mem mem' mem'' : Mem} {lo hi : Nat} {b : Block}

theorem Block.Same.trans (h : b.Same mem mem') (h' : b.Same mem' mem'') : b.Same mem mem'' :=
  fun k hk hlt => (h' k hk hlt).trans (h k hk hlt)

/-- A block elsewhere keeps its bytes. -/
theorem SameOutside.block (h : SameOutside lo hi mem mem')
    (hfit : b.hdr.toNat + 2 ^ (b.bucket + 3) ≤ 2 ^ 32)
    (hout : b.hdr.toNat + 2 ^ (b.bucket + 3) ≤ lo ∨ hi ≤ b.hdr.toNat) : b.Same mem mem' := by
  intro k _ hk
  apply h
  rw [toNat_add_small (by omega)]
  omega

/-- The copy of bytes that do not overlap their place. -/
theorem memcpy_value {dest src : Word} {n k : Nat} (hk : k < n) (hd : dest.toNat + n ≤ 2 ^ 32)
    (hs : src.toNat + n ≤ 2 ^ 32) (hapart : dest.toNat + n ≤ src.toNat ∨ src.toNat + n ≤ dest.toNat) :
    memcpy mem dest src n (dest + BitVec.ofNat 32 k) = mem (src + BitVec.ofNat 32 k) := by
  induction n with
  | zero => exact absurd hk (Nat.not_lt_zero k)
  | succ n ih =>
    rw [memcpy]
    by_cases he : k = n
    · subst he
      rw [Function.update_self]
      refine memcpy_same mem (by omega) _ ?_
      rw [toNat_add_small (by omega)]
      omega
    · rw [Function.update_of_ne, ih (by omega) (by omega) (by omega) (by omega)]
      intro heq
      have hnat := congrArg BitVec.toNat heq
      rw [toNat_add_small (by omega), toNat_add_small (by omega)] at hnat
      omega

end Memory

namespace Inv

variable {L : Layout} {start : Nat} {C : Set Cell} {fl : Nat → List Word} {h : Heap}
  {live : List Block}

theorem live_fits (inv : Inv L start C fl h live) {b : Block} (hb : b ∈ live) :
    b.hdr.toNat + 2 ^ (b.bucket + 3) ≤ h.data_break.toNat :=
  inv.carved.below _ (inv.live_mem b hb)

/-- Two blocks in use keep their distance. -/
theorem live_apart (inv : Inv L start C fl h live) {b c : Block} (hb : b ∈ live) (hc : c ∈ live)
    (hne : c.hdr ≠ b.hdr) : c.hdr.toNat + 2 ^ (c.bucket + 3) ≤ b.hdr.toNat ∨
      b.hdr.toNat + 2 ^ (b.bucket + 3) ≤ c.hdr.toNat :=
  inv.carved.apart _ (inv.live_mem c hc) _ (inv.live_mem b hb) fun he => hne (congrArg Cell.hdr he)

/-- The blocks in use differ in their headers. -/
theorem live_hdr (inv : Inv L start C fl h live) {b c : Block} (hb : b ∈ live) (hc : c ∈ live)
    (hne : c ≠ b) : c.hdr ≠ b.hdr := fun he =>
  hne (List.inj_on_of_nodup_map inv.live_nodup hc hb he)

theorem takeBlock_same (inv : Inv L start C fl h live) {i : Nat} (hne : h.nextf i ≠ 0) {b : Block}
    (hb : b ∈ live) : b.Same h.mem (takeBlock i h).2.mem := by
  obtain ⟨rest, hfl, -⟩ := (inv.lists i).exists_cons hne
  have hmem : h.nextf i ∈ fl i := hfl ▸ List.mem_cons_self
  have hc := inv.free_mem i _ hmem
  have hfits := inv.hdr_fits hc
  have hbelow := inv.live_fits hb
  have hlt := h.data_break.isLt
  have hone : (h.nextf i + 1).toNat = (h.nextf i).toNat + 1 :=
    toNat_add_small (show (h.nextf i).toNat + 1 < 2 ^ 32 by omega)
  have hm : SameOutside (h.nextf i).toNat ((h.nextf i).toNat + 8) h.mem (takeBlock i h).2.mem :=
    (update_same _ (Nat.le_refl _) (by omega)).trans (update_same _ (by omega) (by omega))
  refine hm.block (by omega) ?_
  have hother : h.nextf i ≠ b.hdr := by
    intro he
    rw [he] at hmem
    exact inv.live_not_free b hb i hmem
  exact (inv.other_apart hc (inv.live_mem b hb) hother).symm

/-- The data moves from the block `b` to a new one, and `b` is freed. -/
theorem moved {p : Word} {i n len : Nat} (inv : Inv L start C fl h (⟨p, i, n⟩ :: live)) {b : Block}
    (hb : b ∈ live) (hfrom : 4 + len ≤ 2 ^ (b.bucket + 3)) (hto : 4 + len ≤ 2 ^ (i + 3)) :
    let h' := free (b.hdr + 4) { h with mem := memcpy h.mem (p + 4) (b.hdr + 4) len }
    h'.nextf b.bucket = b.hdr ∧
      (∀ k < len, h'.mem (p + 4 + BitVec.ofNat 32 k) = h.mem (b.hdr + 4 + BitVec.ofNat 32 k)) ∧
      ∀ c ∈ live, c ≠ b → c.Same h.mem h'.mem := by
  intro h'
  have hnew : (⟨p, i, n⟩ : Block) ∈ (⟨p, i, n⟩ :: live : List Block) := List.mem_cons_self
  have hb' : b ∈ (⟨p, i, n⟩ :: live : List Block) := List.mem_cons_of_mem _ hb
  have hcopied := inv.copy_keeps hnew (b.hdr + 4) hto
  have heq : h' = _ := hcopied.free_eq hb'
  have hdiff : ∀ c ∈ live, p ≠ c.hdr := by
    intro c hc he
    refine (List.nodup_cons.mp inv.live_nodup).1 ?_
    show p ∈ live.map Block.hdr
    rw [he]
    exact List.mem_map_of_mem hc
  have hlt := h.data_break.isLt
  have hpend : p.toNat + 2 ^ (i + 3) ≤ _ := inv.live_fits hnew
  have hbend := inv.live_fits hb'
  have hsize : 8 ≤ 2 ^ (b.bucket + 3) := Cell.size_ge b.cell
  have hp4 : (p + 4).toNat = p.toNat + 4 := toNat_add_small (show p.toNat + 4 < 2 ^ 32 by omega)
  have hb4 : (b.hdr + 4).toNat = b.hdr.toNat + 4 :=
    toNat_add_small (show b.hdr.toNat + 4 < 2 ^ 32 by omega)
  have hpb : p.toNat + 2 ^ (i + 3) ≤ b.hdr.toNat ∨ b.hdr.toNat + 2 ^ (b.bucket + 3) ≤ p.toNat :=
    inv.live_apart hb' hnew (hdiff b hb)
  have hcopy : SameOutside (p + 4).toNat ((p + 4).toNat + len) h.mem
      (memcpy h.mem (p + 4) (b.hdr + 4) len) := memcpy_same h.mem (by omega)
  have hlink : SameOutside b.hdr.toNat (b.hdr.toNat + 4)
      (memcpy h.mem (p + 4) (b.hdr + 4) len) h'.mem := by
    rw [heq]
    exact setNext_same _ (by omega)
  refine ⟨?_, ?_, ?_⟩
  · rw [heq]
    exact Function.update_self ..
  · intro k hk
    have hk4 : (p + 4 + BitVec.ofNat 32 k).toNat = p.toNat + 4 + k := by
      rw [toNat_add_small (by omega), hp4]
    rw [hlink _ (by omega)]
    exact memcpy_value hk (by omega) (by omega) (by omega)
  · intro c hc hne
    have hc' : c ∈ (⟨p, i, n⟩ :: live : List Block) := List.mem_cons_of_mem _ hc
    have hcend := inv.live_fits hc'
    have hcb := inv.live_apart hb' hc' (inv.live_hdr hb' hc' hne)
    have hcp : p.toNat + 2 ^ (i + 3) ≤ c.hdr.toNat ∨ c.hdr.toNat + 2 ^ (c.bucket + 3) ≤ p.toNat :=
      inv.live_apart hc' hnew (hdiff c hc)
    exact (hcopy.block (by omega) (by omega)).trans (hlink.block (by omega) (by omega))

section Calls

variable (inv : Inv L start C fl h live) (hfit : L.data_end + 8192 + 2 ^ 30 < 2 ^ 32)

include inv hfit

theorem morecore_same {i : Nat} (hi : i ≤ 27) {b : Block} (hb : b ∈ live) :
    b.Same h.mem (morecore L i h).mem := by
  rcases inv.morecore_cases hfit hi with he | ⟨k, -, hroom, he⟩
  · rw [he]
    exact fun _ _ _ => rfl
  · rw [he]
    have hend := inv.break_below
    have hbelow := inv.live_fits hb
    obtain ⟨hsiz, hrow⟩ := row_fits (h := h) (shl_one (by omega : i + 3 < 32)) (n := k) (by omega)
    exact (linkBlocks_same hsiz hrow).block (by omega) (Or.inl hbelow)

variable (hhalf : L.data_end + 8192 ≤ L.data_start + 2 ^ 31) {n : Word} (hn : Moderate L h n)

include hhalf hn

/-- `malloc` leaves the blocks in use alone. -/
theorem malloc_same {b : Block} (hb : b ∈ live) : b.Same h.mem (malloc L n h).2.mem := by
  rcases inv.moderate_cases hn with hsmall | hfull
  swap
  · rw [inv.malloc_full hfit hhalf hfull]
    exact fun _ _ _ => rfl
  obtain ⟨hi, -⟩ := bucketFor_spec hsmall
  obtain ⟨D, fl', hD, hsame⟩ : ∃ D fl', Inv L start D fl'
      (if h.nextf (bucketFor n) = 0 then morecore L (bucketFor n) h else h) live ∧
      b.Same h.mem (if h.nextf (bucketFor n) = 0 then morecore L (bucketFor n) h else h).mem := by
    by_cases he : h.nextf (bucketFor n) = 0
    · rw [if_pos he]
      obtain ⟨D, fl', hD⟩ := inv.morecore_keeps hfit hi
      exact ⟨D, fl', hD, inv.morecore_same hfit hi hb⟩
    · rw [if_neg he]
      exact ⟨C, fl, inv, fun _ _ _ => rfl⟩
  unfold malloc
  by_cases hne : (if h.nextf (bucketFor n) = 0 then morecore L (bucketFor n) h else h).nextf
      (bucketFor n) = 0
  · simp only [if_pos hne]
    exact hsame
  · simp only [if_neg hne]
    exact hsame.trans (hD.takeBlock_same hne hb)

/-- What `realloc` does to the bytes of the blocks in use. -/
theorem realloc_bytes {b : Block} (hb : b ∈ live) :
    let r := realloc L (b.hdr + 4) n h
    (r.1 ≠ 0 → ∀ k < min b.req n.toNat,
      r.2.mem (r.1 + BitVec.ofNat 32 k) = h.mem (b.hdr + 4 + BitVec.ofNat 32 k)) ∧
    (r.1 ≠ 0 → r.1 ≠ b.hdr + 4 → r.2.nextf b.bucket = b.hdr) ∧
    ∀ c ∈ live, r.1 = 0 ∨ c ≠ b → c.Same h.mem r.2.mem := by
  intro r
  have hmalloc := fun c (hc : c ∈ live) => inv.malloc_same hfit hhalf hn hc
  have hreq := inv.live_room b hb
  have hsize : 8 ≤ 2 ^ (b.bucket + 3) := Cell.size_ge b.cell
  rcases inv.realloc_cases hfit hhalf hn hb with ⟨he, -⟩ | ⟨D, fl', hD, he⟩ | ⟨D, fl', p, hD, he⟩
  · rw [show r = _ from he]
    exact ⟨fun _ _ _ => rfl, fun _ hne => absurd rfl hne, fun _ _ _ _ _ _ => rfl⟩
  · rw [show r = _ from he]
    exact ⟨fun hne => absurd rfl hne, fun hne => absurd rfl hne, fun c hc _ => hmalloc c hc⟩
  · have hroom : 4 + n.toNat ≤ 2 ^ (bucketFor n + 3) := hD.live_room _ List.mem_cons_self
    have hpne : p + 4 ≠ 0 := hD.user_ne (hD.live_mem _ List.mem_cons_self)
    obtain ⟨hnext, hdata, hothers⟩ :=
      hD.moved hb (show 4 + min n.toNat (2 ^ (b.bucket + 3) - 4) ≤ _ by omega) (by omega)
    rw [show r = _ from he]
    refine ⟨fun _ k hk => ?_, fun _ _ => hnext, fun c hc hkept => ?_⟩
    · refine (hdata k (by omega)).trans ?_
      have hsame := hmalloc b hb (4 + k) (Nat.le_add_right 4 k) (by omega)
      rwa [BitVec.ofNat_add, ← BitVec.add_assoc] at hsame
    · exact (hmalloc c hc).trans (hothers c hc (hkept.resolve_left hpne))

end Calls

/-- `realloc` keeps the data of its block and of all others. -/
theorem keepsData {s : Session} (inv : Inv L start C fl s.heap s.live)
    (hfit : L.data_end + 8192 + 2 ^ 30 < 2 ^ 32) (hhalf : L.data_end + 8192 ≤ L.data_start + 2 ^ 31)
    {n : Word} (hn : Moderate L s.heap n) {b : Block} (hb : b ∈ s.live) : KeepsData L s b n := by
  obtain ⟨hdata, hnext, hsame⟩ := inv.realloc_bytes hfit hhalf hn hb
  have hkept : ∀ c ∈ s.live, (realloc L (b.hdr + 4) n s.heap).1 = 0 ∨ c ≠ b →
      c ∈ (s.call L (.realloc (b.hdr + 4) n)).live := by
    intro c hc hkept
    show c ∈ if (realloc L (b.hdr + 4) n s.heap).1 = 0 then s.live else grant _ _ _ _
    by_cases hz : (realloc L (b.hdr + 4) n s.heap).1 = 0
    · rw [if_pos hz]
      exact hc
    · rw [if_neg hz, grant, if_neg hz]
      apply List.mem_cons_of_mem
      refine List.mem_filter.mpr ⟨hc, decide_eq_true ?_⟩
      rw [BitVec.add_sub_cancel]
      exact inv.live_hdr hb hc (hkept.resolve_left hz)
  refine ⟨hdata, fun hq => ?_, fun hq hmoved => ⟨hnext hq hmoved, ?_⟩, fun hz => ?_, fun c hc hne => ?_⟩
  · obtain ⟨D, fl', hD⟩ := inv.realloc_keeps hfit hhalf hn hb
    rw [if_neg hq, grant, if_neg hq] at hD
    have hroom := hD.room
    rwa [BitVec.sub_add_cancel] at hroom
  · show ∀ c ∈ if (realloc L (b.hdr + 4) n s.heap).1 = 0 then s.live else grant _ _ _ _, c.hdr ≠ b.hdr
    rw [if_neg hq, grant, if_neg hq]
    refine List.forall_mem_cons.mpr ⟨?_, ?_⟩
    · intro he
      exact hmoved ((BitVec.sub_add_cancel _ 4).symm.trans (congrArg (· + 4) he))
    · intro c hc
      have hne := release_hdr hc
      rwa [BitVec.add_sub_cancel] at hne
  · exact ⟨hkept b hb (Or.inl hz), hsame b hb (Or.inl hz)⟩
  · exact ⟨hkept c hc (Or.inr hne), hsame c hc (Or.inr hne)⟩

end Inv

/-- In every state that a run of legal calls with moderate sizes reaches, `realloc` keeps the data. -/
theorem realloc_keeps_data (g : Settings) (sz : Size) {data_size : Nat} {s : Session}
    {cs : List Call} (hsize : data_size ≤ (compute_sizes g sz).data_size)
    (hfresh : Fresh (compute_sizes g sz) data_size s)
    (hlegal : Every (compute_sizes g sz) Legal s cs)
    (hmoderate : Every (compute_sizes g sz) (ModerateCall (compute_sizes g sz)) s cs)
    {b : Block} (hb : b ∈ (s.run (compute_sizes g sz) cs).live) {n : Word} (hn : n.toNat ≤ 2 ^ 30 - 4) :
    KeepsData (compute_sizes g sz) (s.run (compute_sizes g sz) cs) b n := by
  have hfit := data_end_fits g sz
  have hhalf := data_below_half g sz
  obtain ⟨D, fl, hD⟩ := run_keeps hfit hhalf (hfresh.inv hsize (by omega)) hlegal hmoderate
  exact hD.keepsData hfit hhalf (Or.inl (by omega)) hb

theorem realloc_keeps_data_one_block :
    let L := compute_sizes {} .classic
    KeepsData L (Session.run L ⟨freshHeap L, []⟩ [.malloc 100]) ⟨0x20002000, 4, 100⟩ 200 := by
  intro L
  have hlegal : Every L Legal ⟨freshHeap L, []⟩ [.malloc 100] := ⟨trivial, trivial⟩
  have hmoderate : Every L (ModerateCall L) ⟨freshHeap L, []⟩ [.malloc 100] :=
    ⟨Or.inl (by decide), trivial⟩
  exact realloc_keeps_data {} .classic (by decide : 100 ≤ _) ⟨rfl, fun _ => rfl, rfl, fun _ _ => rfl⟩
    hlegal hmoderate (by decide +kernel) (by decide)

/-- The blocks behind a block of two gigabytes lie in it: a block of 100 bytes that is moved
and freed changes what the large one holds. -/
theorem large_block_overwritten :
    let t := Session.run (compute_sizes {} .classic) ⟨freshHeap (compute_sizes {} .classic), []⟩
      [.malloc 0x80000000, .malloc 100]
    Every (compute_sizes {} .classic) Legal ⟨freshHeap (compute_sizes {} .classic), []⟩
        [.malloc 0x80000000, .malloc 100] ∧
      ⟨0x20002400, 4, 100⟩ ∈ t.live ∧
      ¬ KeepsData (compute_sizes {} .classic) t ⟨0x20002400, 4, 100⟩ 200 := by
  intro t
  refine ⟨⟨trivial, trivial, trivial⟩, by decide +kernel, fun hkeeps => ?_⟩
  have hlarge : (⟨0x20002000, 29, 2 ^ 31⟩ : Block) ∈ t.live := by decide +kernel
  have hsame := (hkeeps.others _ hlarge (by decide)).2 1024 (by decide) (by decide)
  revert hsame
  decide +kernel

end Pittsfield.Libc
