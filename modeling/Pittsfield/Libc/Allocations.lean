import Pittsfield.Libc.Heap

/-!
# How large the blocks are

A request for more than half of the address space gets a block that is too small: it
leaves the word when the header is added, or it gets the block of one byte. `calloc`
multiplies in a word.
-/

namespace Pittsfield.Libc

open Pittsfield.Foundation
open Pittsfield.Region
open Pittsfield.Machine
open Pittsfield.Wrappers

/-- `memset` of `libc.h`, a loop over the bytes from the first one on. -/
def memset (mem : Mem) (loc : Word) (c : Int) : Nat → Mem
  | 0 => mem
  | n + 1 => Function.update (memset mem loc c n) (loc + BitVec.ofNat 32 n) (BitVec.ofInt 8 c)

def calloc (L : Layout) (nmemb size : Word) (h : Heap) : Word × Heap :=
  let len := nmemb * size
  let buf := (malloc L len h).1
  let h := (malloc L len h).2
  if buf = 0 then (0, h) else (buf, { h with mem := memset h.mem buf 0 len.toNat })

/-- The block at `p` has room for `len` bytes, lies below the break and overlaps no other. -/
def Room (h : Heap) (live : List Block) (p : Word) (len : Nat) : Prop :=
  let b : Block := ⟨p - 4, (h.mem (p - 4 + 1)).toNat, len⟩
  4 + len ≤ 2 ^ (b.bucket + 3) ∧ b.hdr.toNat + 2 ^ (b.bucket + 3) ≤ h.data_break.toNat ∧
    ∀ c ∈ live, Disjoint b.bytes c.bytes

theorem memset_same (mem : Mem) {loc : Word} {n : Nat} (c : Int) (hfit : loc.toNat + n ≤ 2 ^ 32) :
    SameOutside loc.toNat (loc.toNat + n) mem (memset mem loc c n) := by
  induction n with
  | zero => exact fun _ _ => rfl
  | succ n ih =>
    apply ((ih (by omega)).mono (Nat.le_refl _) (by omega)).trans
    have hn : (loc + BitVec.ofNat 32 n).toNat = loc.toNat + n := toNat_add_small (by omega)
    exact update_same _ (by omega) (by omega)

theorem memset_value (mem : Mem) {loc : Word} {n k : Nat} (c : Int) (hk : k < n) (hn : n ≤ 2 ^ 32) :
    memset mem loc c n (loc + BitVec.ofNat 32 k) = BitVec.ofInt 8 c := by
  induction n with
  | zero => exact absurd hk (Nat.not_lt_zero k)
  | succ n ih =>
    rw [memset]
    by_cases he : k = n
    · rw [he, Function.update_self]
    · rw [Function.update_of_ne, ih (by omega) (by omega)]
      intro heq
      have hnat := congrArg BitVec.toNat ((BitVec.add_right_inj loc).mp heq)
      rw [BitVec.toNat_ofNat, BitVec.toNat_ofNat, Nat.mod_eq_of_lt (by omega),
        Nat.mod_eq_of_lt (by omega)] at hnat
      exact he hnat

/-- What lies below the break has at most half of the address space. -/
theorem Room.small {h : Heap} {live : List Block} {p : Word} {len : Nat} (hr : Room h live p len) :
    len ≤ 2 ^ 31 - 4 := by
  obtain ⟨hlen, hbelow, -⟩ := hr
  generalize (h.mem (p - 4 + 1)).toNat = i at hlen hbelow
  have hlt := h.data_break.isLt
  have hi : i + 3 < 32 := by
    by_contra hge
    have hpow : 2 ^ 32 ≤ 2 ^ (i + 3) := Nat.pow_le_pow_right (by decide) (Nat.le_of_not_lt hge)
    dsimp only at hbelow
    omega
  have hpow : 2 ^ (i + 3) ≤ 2 ^ 31 := Nat.pow_le_pow_right (by decide) (Nat.le_of_lt_succ hi)
  dsimp only at hlen
  omega

namespace Inv

variable {L : Layout} {start : Nat} {C : Set Cell} {fl : Nat → List Word} {h : Heap}
  {live : List Block}

/-- A block in use that is the first of the list has its room. -/
theorem room {p : Word} {i len : Nat} (inv : Inv L start C fl h (⟨p, i, len⟩ :: live)) :
    Room h live (p + 4) len := by
  have hmem : (⟨p, i, len⟩ : Block) ∈ (⟨p, i, len⟩ :: live : List Block) := List.mem_cons_self
  have hidx : (h.mem (p + 1)).toNat = i := inv.live_index hmem
  rw [Room, BitVec.add_sub_cancel, hidx]
  refine ⟨inv.live_room _ hmem, inv.carved.below _ (inv.live_mem _ hmem), ?_⟩
  intro c hc
  refine (inv.carved.apart _ (inv.live_mem _ hmem) _ (inv.live_mem _ (List.mem_cons_of_mem _ hc)) ?_).disjoint
  intro he
  refine (List.nodup_cons.mp inv.live_nodup).1 ?_
  show p ∈ live.map Block.hdr
  rw [show p = c.hdr from congrArg Cell.hdr he]
  exact List.mem_map_of_mem hc

variable (inv : Inv L start C fl h live) (hfit : L.data_end + 8192 + 2 ^ 30 < 2 ^ 32)
  (hhalf : L.data_end + 8192 ≤ L.data_start + 2 ^ 31) {n nmemb size : Word}

include inv hfit

/-- What is not refused is served. -/
theorem malloc_served (hfull : ¬ Full L h n) : (malloc L n h).1 ≠ 0 := by
  have hb := bucketFor_le n
  rw [malloc]
  by_cases hempty : h.nextf (bucketFor n) = 0
  · have hroom : h.data_break.toNat +
        2 ^ ((if bucketFor n ≤ 8 then 11 else bucketFor n + 3) % 32) < L.data_end :=
      Nat.lt_of_not_le fun hle => hfull ⟨hempty, Or.inr hle⟩
    have hnext := inv.morecore_served hfit hb hempty hroom
    have habove := inv.break_above
    have hbelow := inv.break_below
    have hpos := inv.start_pos.2
    have hbreak : h.data_break ≠ 0 := by
      intro he
      rw [he, show (0 : Word).toNat = 0 from rfl] at habove
      omega
    simp only [hempty, if_true, hnext, if_neg hbreak, takeBlock]
    intro he
    have hnat := toNat_add_small (a := h.data_break) (k := 4) (by omega)
    rw [show h.data_break + BitVec.ofNat 32 4 = 0 from he] at hnat
    rw [show (0 : Word).toNat = 0 from rfl] at hnat
    omega
  · simp only [if_neg hempty]
    have hsize : 4 + 0 ≤ 2 ^ (bucketFor n + 3) := by
      have hs : 8 ≤ 2 ^ (bucketFor n + 3) := Cell.size_ge ⟨0, bucketFor n⟩
      omega
    obtain ⟨fl', p, hp, hD⟩ := inv.takeBlock_keeps hempty hsize
    rw [hp]
    exact hD.user_ne (hD.live_mem _ List.mem_cons_self)

include hhalf

/-- `malloc` gives room for what was asked for exactly if that was moderate. -/
theorem malloc_room_iff : ((malloc L n h).1 = 0 ∨ Room (malloc L n h).2 live (malloc L n h).1 n.toNat) ↔
    Moderate L h n := by
  constructor
  · rintro (hz | hr)
    · exact Or.inr (by_contra fun hfull => inv.malloc_served hfit hfull hz)
    · exact Or.inl hr.small
  · intro hn
    obtain ⟨D, fl', ⟨hz, -⟩ | ⟨p, hp, hD⟩⟩ := inv.malloc_keeps hfit hhalf hn
    · exact Or.inl hz
    · rw [hp]
      exact Or.inr hD.room

/-- `calloc` does so exactly if the product of its arguments was moderate. -/
theorem calloc_room_iff : ((calloc L nmemb size h).1 = 0 ∨
      Room (calloc L nmemb size h).2 live (calloc L nmemb size h).1 (nmemb.toNat * size.toNat) ∧
        ∀ k < nmemb.toNat * size.toNat,
          (calloc L nmemb size h).2.mem ((calloc L nmemb size h).1 + BitVec.ofNat 32 k) = 0) ↔
    nmemb.toNat * size.toNat ≤ 2 ^ 31 - 4 ∨ Full L h (nmemb * size) := by
  constructor
  · rintro (hz | ⟨hr, -⟩)
    · refine Or.inr (by_contra fun hfull => ?_)
      have hne := inv.malloc_served hfit hfull
      rw [calloc, if_neg hne] at hz
      exact hne hz
    · exact Or.inl hr.small
  · rintro (hsmall | hfull)
    swap
    · rw [calloc, inv.malloc_full hfit hhalf hfull]
      exact Or.inl rfl
    have hlen : (nmemb * size).toNat = nmemb.toNat * size.toNat := by
      rw [BitVec.toNat_mul, Nat.mod_eq_of_lt (by omega)]
    have hn : Moderate L h (nmemb * size) := Or.inl (by omega)
    obtain ⟨D, fl', ⟨hz, -⟩ | ⟨p, hp, hD⟩⟩ := inv.malloc_keeps hfit hhalf hn
    · rw [calloc, if_pos hz]
      exact Or.inl rfl
    have hmem : (⟨p, bucketFor (nmemb * size), (nmemb * size).toNat⟩ : Block) ∈ _ :: live :=
      List.mem_cons_self
    have hroom : 4 + (nmemb * size).toNat ≤ 2 ^ (bucketFor (nmemb * size) + 3) := hD.live_room _ hmem
    have hbelow : p.toNat + 2 ^ (bucketFor (nmemb * size) + 3) ≤ _ :=
      hD.carved.below _ (hD.live_mem _ hmem)
    have hlt := (malloc L (nmemb * size) h).2.data_break.isLt
    have h4 : (p + 4).toNat = p.toNat + 4 := toNat_add_small (show p.toNat + 4 < 2 ^ 32 by omega)
    have hsame : SameOutside (p + 4).toNat ((p + 4).toNat + (nmemb * size).toNat)
        (malloc L (nmemb * size) h).2.mem _ := memset_same _ 0 (by omega)
    have hend : (p + 4).toNat + (nmemb * size).toNat ≤
        p.toNat + 2 ^ (bucketFor (nmemb * size) + 3) := by omega
    have hzero := hD.write_user hmem (hsame.mono h4.ge hend)
    rw [calloc, hp, if_neg (hD.user_ne (hD.live_mem _ hmem)), ← hlen]
    exact Or.inr ⟨hzero.room, fun k hk => memset_value _ 0 hk (by omega)⟩

end Inv

/-- The heap before the first call of a module with 100 bytes of data. -/
def freshHeap (L : Layout) : Heap := ⟨fun _ => 0, fun _ => 0, initial_break L 100⟩

/-- After every run of legal calls whose sizes were moderate: `malloc` and `calloc` return a
null pointer or a block of the size asked for exactly if that size is moderate, too. -/
theorem allocations_room_iff (g : Settings) (sz : Size) {data_size : Nat} {s : Session}
    {cs : List Call} (hsize : data_size ≤ (compute_sizes g sz).data_size)
    (hfresh : Fresh (compute_sizes g sz) data_size s)
    (hlegal : Every (compute_sizes g sz) Legal s cs)
    (hmoderate : Every (compute_sizes g sz) (ModerateCall (compute_sizes g sz)) s cs)
    (nbytes nmemb size : Word) :
    let L := compute_sizes g sz
    let t := s.run L cs
    let m := malloc L nbytes t.heap
    let c := calloc L nmemb size t.heap
    (m.1 = 0 ∨ Room m.2 t.live m.1 nbytes.toNat ↔ Moderate L t.heap nbytes) ∧
      (c.1 = 0 ∨ Room c.2 t.live c.1 (nmemb.toNat * size.toNat) ∧
          (∀ k < nmemb.toNat * size.toNat, c.2.mem (c.1 + BitVec.ofNat 32 k) = 0) ↔
        nmemb.toNat * size.toNat ≤ 2 ^ 31 - 4 ∨ Full L t.heap (nmemb * size)) := by
  intro L t m c
  have hfit := data_end_fits g sz
  have hhalf := data_below_half g sz
  obtain ⟨D, fl, hD⟩ := run_keeps hfit hhalf (hfresh.inv hsize (by omega)) hlegal hmoderate
  exact ⟨hD.malloc_room_iff hfit hhalf, hD.calloc_room_iff hfit hhalf⟩

theorem allocations_room_iff_one_block :
    let L := compute_sizes {} .classic
    let t := Session.run L ⟨freshHeap L, []⟩ [.malloc 100]
    (malloc L 0x80000000 t.heap).1 ≠ 0 ∧
      ¬ Room (malloc L 0x80000000 t.heap).2 t.live (malloc L 0x80000000 t.heap).1 0x80000000 := by
  intro L t
  have hiff := (allocations_room_iff {} .classic (s := ⟨freshHeap L, []⟩) (by decide : 100 ≤ _) ⟨rfl, fun _ => rfl, rfl,
    fun _ _ => rfl⟩ (show Every _ _ _ [.malloc 100] from ⟨trivial, trivial⟩)
    ⟨Or.inl (by decide), trivial⟩ 0x80000000 0 0).1
  have hserved : ¬ Moderate L t.heap 0x80000000 := by
    rintro (hlarge | ⟨-, hfull⟩)
    · exact absurd hlarge (by decide)
    · exact absurd hfull (by decide +kernel)
  exact ⟨fun hz => hserved (hiff.mp (Or.inl hz)), fun hr => hserved (hiff.mp (Or.inr hr))⟩

/-- Two gigabytes are served with a block whose header is the only thing below the break, and
`calloc` of 2^32 bytes with 8 bytes. -/
theorem half_of_the_space_served :
    let L := compute_sizes {} .classic
    let m := malloc L 0x80000000 (freshHeap L)
    let c := calloc L 0x10000 0x10000 (freshHeap L)
    ¬ (m.1 = 0 ∨ Room m.2 [] m.1 (2 ^ 31)) ∧ ¬ (c.1 = 0 ∨ Room c.2 [] c.1 (2 ^ 16 * 2 ^ 16)) := by
  intro L m c
  constructor
  · rintro (hz | hr)
    · exact absurd hz (by decide +kernel)
    · exact absurd hr.small (by decide)
  · rintro (hz | hr)
    · exact absurd hz (by decide +kernel)
    · exact absurd hr.small (by decide)

end Pittsfield.Libc
