import Pittsfield.Libc.Malloc

/-!
# The blocks of the heap

Every block that was ever carved out of the heap stays where it is. The invariant says
that the carved blocks do not overlap and that each of them is in use, on the list of its
size, or idle in between. Each change of the allocator is one lemma.
-/

namespace Pittsfield.Libc

open Pittsfield.Foundation
open Pittsfield.Region
open Pittsfield.Machine
open Pittsfield.Wrappers

/-- A block of the heap, in use or free. -/
@[ext] structure Cell where
  hdr : Word
  bucket : Nat

namespace Cell

def size (c : Cell) : Nat := 2 ^ (c.bucket + 3)

/-- The two blocks do not overlap. -/
def Apart (c d : Cell) : Prop :=
  c.hdr.toNat + c.size ≤ d.hdr.toNat ∨ d.hdr.toNat + d.size ≤ c.hdr.toNat

theorem size_ge (c : Cell) : 8 ≤ c.size := by
  have h : 2 ^ 3 ≤ 2 ^ (c.bucket + 3) := Nat.pow_le_pow_right (by decide) (Nat.le_add_left _ _)
  exact h

theorem Apart.disjoint {c d : Cell} (h : c.Apart d) :
    Disjoint (Set.Ico c.hdr.toNat (c.hdr.toNat + c.size))
      (Set.Ico d.hdr.toNat (d.hdr.toNat + d.size)) := by
  rw [Set.Ico_disjoint_Ico]
  unfold Apart at h
  omega

end Cell

def Block.cell (b : Block) : Cell := ⟨b.hdr, b.bucket⟩

/-- Only the bytes from `lo` to `hi` differ. -/
def SameOutside (lo hi : Nat) (mem mem' : Mem) : Prop :=
  ∀ a : Word, a.toNat < lo ∨ hi ≤ a.toNat → mem' a = mem a

section Memory

variable {lo hi : Nat} {mem mem' mem'' : Mem} {a b v : Word}

theorem toNat_add_small {k : Nat} (h : a.toNat + k < 2 ^ 32) :
    (a + BitVec.ofNat 32 k).toNat = a.toNat + k := by
  rw [BitVec.toNat_add, BitVec.toNat_ofNat, Nat.mod_eq_of_lt (by omega : k < 2 ^ 32),
    Nat.mod_eq_of_lt h]

namespace SameOutside

theorem trans (h : SameOutside lo hi mem mem') (h' : SameOutside lo hi mem' mem'') :
    SameOutside lo hi mem mem'' := by
  intro x hx
  rw [h' x hx, h x hx]

theorem mono {lo' hi' : Nat} (h : SameOutside lo hi mem mem') (hlo : lo' ≤ lo) (hhi : hi ≤ hi') :
    SameOutside lo' hi' mem mem' := fun x hx => h x (by omega)

/-- The header of a block elsewhere is the same. -/
theorem header (h : SameOutside lo hi mem mem') (hfit : a.toNat + 4 ≤ 2 ^ 32)
    (hout : a.toNat + 4 ≤ lo ∨ hi ≤ a.toNat) {k : Nat} (hk : k < 4) :
    mem' (a + BitVec.ofNat 32 k) = mem (a + BitVec.ofNat 32 k) := by
  apply h
  rw [toNat_add_small (by omega)]
  omega

theorem ov_next_eq (h : SameOutside lo hi mem mem') (hfit : a.toNat + 4 ≤ 2 ^ 32)
    (hout : a.toNat + 4 ≤ lo ∨ hi ≤ a.toNat) : ov_next mem' a = ov_next mem a :=
  Cpu.bytesAt_congr fun _ hk => h.header hfit hout hk

end SameOutside

theorem update_same (v : BitVec 8) (hlo : lo ≤ a.toNat) (hhi : a.toNat < hi) :
    SameOutside lo hi mem (Function.update mem a v) := by
  intro x hx
  refine Function.update_of_ne ?_ _ _
  intro he
  rw [he] at hx
  omega

theorem setNext_same (v : Word) (hfit : a.toNat + 4 ≤ 2 ^ 32) :
    SameOutside a.toNat (a.toNat + 4) mem (setNext mem a v) := by
  intro x hx
  refine Cpu.putBytes_other fun k hk he => ?_
  rw [he, toNat_add_small (by omega)] at hx
  omega

theorem ov_next_setNext : ov_next (setNext mem a v) a = v := Cpu.bytesAt_putBytes mem a v

theorem ov_next_zero (h : ∀ k < 4, mem (a + BitVec.ofNat 32 k) = 0) : ov_next mem a = 0 := by
  have hz : ov_next mem a = ov_next (fun _ => 0) a := Cpu.bytesAt_congr h
  rw [hz]
  simp [ov_next, Cpu.bytesAt]

/-- The first byte of a link. -/
theorem ov_next_low (mem : Mem) (a : Word) : (ov_next mem a).setWidth 8 = mem a := by
  unfold ov_next Cpu.bytesAt
  apply BitVec.eq_of_getLsbD_eq
  intro i hi
  rw [BitVec.getLsbD_setWidth, BitVec.getLsbD_or, BitVec.getLsbD_setWidth,
    BitVec.getLsbD_shiftLeft]
  simp [hi, show i < 32 by omega]

/-- The first byte of an aligned address is not the byte of a block in use. -/
theorem aligned_not_magic (h : 8 ∣ a.toNat) : a.setWidth 8 ≠ MAGIC := by
  intro he
  have hn : a.toNat % 2 ^ 8 = 255 := by
    rw [← BitVec.toNat_setWidth, he]
    rfl
  omega

theorem memcpy_same (mem : Mem) {dest src : Word} {n : Nat} (hfit : dest.toNat + n ≤ 2 ^ 32) :
    SameOutside dest.toNat (dest.toNat + n) mem (memcpy mem dest src n) := by
  induction n with
  | zero => exact fun _ _ => rfl
  | succ n ih =>
    apply ((ih (by omega)).mono (Nat.le_refl _) (by omega)).trans
    have hn : (dest + BitVec.ofNat 32 n).toNat = dest.toNat + n := toNat_add_small (by omega)
    exact update_same _ (by omega) (by omega)

end Memory

section Link

variable {siz op : Word} {mem : Mem} {n : Nat}

/-- The blocks that the loop of `morecore` links, `n` of them behind the first one. -/
def blocksFrom (siz : Word) : Nat → Word → List Word
  | 0, op => [op]
  | n + 1, op => op :: blocksFrom siz n (op + siz)

theorem toNat_step (hfit : op.toNat + siz.toNat * (n + 1) + 4 ≤ 2 ^ 32) :
    (op + siz).toNat = op.toNat + siz.toNat := by
  rw [Nat.mul_succ] at hfit
  rw [BitVec.toNat_add, Nat.mod_eq_of_lt (by omega)]

theorem mem_blocksFrom {a : Word} (hfit : op.toNat + siz.toNat * n + 4 ≤ 2 ^ 32)
    (ha : a ∈ blocksFrom siz n op) : ∃ k ≤ n, a.toNat = op.toNat + siz.toNat * k := by
  induction n generalizing op with
  | zero => exact ⟨0, Nat.le_refl _, by rw [List.mem_singleton.mp ha, Nat.mul_zero, Nat.add_zero]⟩
  | succ n ih =>
    rcases List.mem_cons.mp ha with rfl | ha
    · exact ⟨0, Nat.zero_le _, by rw [Nat.mul_zero, Nat.add_zero]⟩
    · have hstep := toNat_step hfit
      rw [Nat.mul_succ] at hfit
      obtain ⟨k, hk, he⟩ := ih (by omega) ha
      refine ⟨k + 1, Nat.succ_le_succ hk, ?_⟩
      rw [he, hstep, Nat.mul_succ]
      omega

/-- The loop writes into the blocks that it links, the last one excepted. -/
theorem linkBlocks_same (hsiz : 4 ≤ siz.toNat) (hfit : op.toNat + siz.toNat * n + 4 ≤ 2 ^ 32) :
    SameOutside op.toNat (op.toNat + siz.toNat * n) mem (linkBlocks siz n op mem) := by
  induction n generalizing op mem with
  | zero => exact fun _ _ => rfl
  | succ n ih =>
    have hstep := toNat_step hfit
    rw [Nat.mul_succ] at hfit ⊢
    have hfirst : SameOutside op.toNat (op.toNat + 4) mem (setNext mem op (op + siz)) :=
      setNext_same _ (by omega)
    exact (hfirst.mono (Nat.le_refl _) (by omega)).trans
      ((ih (by omega)).mono (by omega) (by omega))

/-- In fresh memory the loop builds the list of its blocks: the link that it leaves out is
a null pointer already. -/
theorem linkBlocks_chain (hsiz : 4 ≤ siz.toNat) (hfit : op.toNat + siz.toNat * n + 4 ≤ 2 ^ 32)
    (hop : op ≠ 0) (hzero : ∀ a : Word, op.toNat + siz.toNat * n ≤ a.toNat → mem a = 0) :
    Chain (ov_next (linkBlocks siz n op mem)) 0 op (blocksFrom siz n op) := by
  induction n generalizing op mem with
  | zero =>
    refine ⟨rfl, hop, ov_next_zero fun k hk => hzero _ ?_⟩
    rw [toNat_add_small (by omega)]
    omega
  | succ n ih =>
    have hstep := toNat_step hfit
    rw [Nat.mul_succ] at hfit hzero
    have hfirst : SameOutside op.toNat (op.toNat + 4) mem (setNext mem op (op + siz)) :=
      setNext_same _ (by omega)
    have hpos : op + siz ≠ 0 := by
      intro he
      rw [he, show (0 : Word).toNat = 0 from rfl] at hstep
      omega
    have hrest : Chain (ov_next (linkBlocks siz n (op + siz) (setNext mem op (op + siz)))) 0
        (op + siz) (blocksFrom siz n (op + siz)) := by
      refine ih (by omega) hpos fun a ha => ?_
      rw [hfirst a (by omega)]
      exact hzero a (by omega)
    refine ⟨rfl, hop, ?_⟩
    have hnext : ov_next (linkBlocks siz (n + 1) op mem) op = op + siz := by
      rw [linkBlocks, (linkBlocks_same hsiz (by omega)).ov_next_eq (by omega) (by omega),
        ov_next_setNext]
    rw [hnext]
    exact hrest

end Link

/-- The blocks carved out of the heap between `start` and the break. -/
structure Carved (start brk : Nat) (C : Set Cell) : Prop where
  apart : ∀ c ∈ C, ∀ d ∈ C, c ≠ d → c.Apart d
  aligned : ∀ c ∈ C, 8 ∣ c.hdr.toNat
  above : ∀ c ∈ C, start ≤ c.hdr.toNat
  below : ∀ c ∈ C, c.hdr.toNat + c.size ≤ brk
  bucket_le : ∀ c ∈ C, c.bucket ≤ 27

/-- A carved block is found by its header. -/
theorem Carved.eq_of_hdr {start brk : Nat} {C : Set Cell} (h : Carved start brk C) {c d : Cell}
    (hc : c ∈ C) (hd : d ∈ C) (he : c.hdr = d.hdr) : c = d := by
  by_contra hne
  have happ := h.apart c hc d hd hne
  have hsc := c.size_ge
  have hsd := d.size_ge
  rw [Cell.Apart, he] at happ
  omega

/-- The invariant of the heap: `C` are the blocks carved so far, `fl` the free lists. -/
structure Inv (L : Layout) (start : Nat) (C : Set Cell) (fl : Nat → List Word) (h : Heap)
    (live : List Block) : Prop where
  carved : Carved start h.data_break.toNat C
  start_pos : L.data_start ≤ start ∧ 0 < start
  in_region : ∀ c ∈ C, c.hdr.toNat < L.data_end
  break_above : start ≤ h.data_break.toNat ∧ L.data_start < h.data_break.toNat
  break_below : h.data_break.toNat ≤ L.data_end + 8192
  break_aligned : 1024 ∣ h.data_break.toNat
  zero : ∀ a : Word, h.data_break.toNat ≤ a.toNat → h.mem a = 0
  lists : ∀ i, FreeList h i (fl i)
  free_mem : ∀ i, ∀ a ∈ fl i, ⟨a, i⟩ ∈ C
  live_mem : ∀ b ∈ live, b.cell ∈ C
  live_nodup : (live.map Block.hdr).Nodup
  live_header : ∀ b ∈ live, h.mem b.hdr = MAGIC ∧ h.mem (b.hdr + 1) = BitVec.ofNat 8 b.bucket
  live_room : ∀ b ∈ live, 4 + b.req ≤ 2 ^ (b.bucket + 3)
  live_not_free : ∀ b ∈ live, ∀ i, b.hdr ∉ fl i

namespace Inv

variable {L : Layout} {start : Nat} {C : Set Cell} {fl : Nat → List Word} {h : Heap}
  {live : List Block}

section Headers

variable {a : Word} {i : Nat} (inv : Inv L start C fl h live) (hc : ⟨a, i⟩ ∈ C)

include inv hc

theorem hdr_fits : a.toNat + 8 < 2 ^ 32 := by
  have hb := inv.carved.below _ hc
  have hs := Cell.size_ge ⟨a, i⟩
  have hlt := h.data_break.isLt
  change a.toNat + _ ≤ _ at hb
  omega

theorem hdr_ne : a ≠ 0 := by
  intro he
  have ha := inv.carved.above _ hc
  have hpos := inv.start_pos.2
  rw [show (Cell.mk a i).hdr.toNat = 0 by rw [he]; rfl] at ha
  omega

theorem user_ne : a + 4 ≠ 0 := by
  have hf := inv.hdr_fits hc
  have ht : (a + 4).toNat = a.toNat + 4 := toNat_add_small (show a.toNat + 4 < 2 ^ 32 by omega)
  intro he
  rw [he, show (0 : Word).toNat = 0 from rfl] at ht
  omega

/-- Another carved block keeps its distance. -/
theorem other_apart {c : Cell} (hc' : c ∈ C) (hne : a ≠ c.hdr) :
    a.toNat + 8 ≤ c.hdr.toNat ∨ c.hdr.toNat + c.size ≤ a.toNat := by
  have happ := inv.carved.apart _ hc c hc' fun he => hne (by rw [← he])
  have hs := Cell.size_ge ⟨a, i⟩
  change a.toNat + _ ≤ _ ∨ _ ≤ a.toNat at happ
  omega

end Headers

/-- Other bytes, the same links and headers. -/
theorem rewrite (inv : Inv L start C fl h live) {mem : Mem}
    (hfree : ∀ i, ∀ a ∈ fl i, ov_next mem a = ov_next h.mem a)
    (hlive : ∀ b ∈ live, mem b.hdr = h.mem b.hdr ∧ mem (b.hdr + 1) = h.mem (b.hdr + 1))
    (hzero : ∀ a : Word, h.data_break.toNat ≤ a.toNat → mem a = h.mem a) :
    Inv L start C fl { h with mem := mem } live := by
  refine { inv with zero := ?_, lists := ?_, live_header := ?_ }
  · exact fun a ha => (hzero a ha).trans (inv.zero a ha)
  · exact fun i => (inv.lists i).congr (hfree i)
  · intro b hb
    show mem b.hdr = MAGIC ∧ mem (b.hdr + 1) = BitVec.ofNat 8 b.bucket
    rw [(hlive b hb).1, (hlive b hb).2]
    exact inv.live_header b hb

/-- New bytes from `lo` to `hi`, where no link and no header lies. -/
theorem write (inv : Inv L start C fl h live) {mem : Mem} {lo hi : Nat}
    (hm : SameOutside lo hi h.mem mem) (hhi : hi ≤ h.data_break.toNat)
    (hfree : ∀ i, ∀ a ∈ fl i, a.toNat + 4 ≤ lo ∨ hi ≤ a.toNat)
    (hlive : ∀ b ∈ live, b.hdr.toNat + 4 ≤ lo ∨ hi ≤ b.hdr.toNat) :
    Inv L start C fl { h with mem := mem } live := by
  apply inv.rewrite
  · intro i a ha
    have hf := inv.hdr_fits (inv.free_mem i a ha)
    exact hm.ov_next_eq (by omega) (hfree i a ha)
  · intro b hb
    have hf := inv.hdr_fits (inv.live_mem b hb)
    have hfit : b.hdr.toNat + 4 ≤ 2 ^ 32 := by omega
    refine ⟨?_, hm.header hfit (hlive b hb) (show 1 < 4 by decide)⟩
    have h0 := hm.header hfit (hlive b hb) (show 0 < 4 by decide)
    rwa [BitVec.add_zero] at h0
  · exact fun a ha => hm a (Or.inr (hhi.trans ha))

/-- A block that is neither free nor in use may be written. -/
theorem write_idle (inv : Inv L start C fl h live) {c : Cell} (hc : c ∈ C) {mem : Mem}
    (hm : SameOutside c.hdr.toNat (c.hdr.toNat + c.size) h.mem mem)
    (hfree : ∀ i, c.hdr ∉ fl i) (hlive : ∀ b ∈ live, b.hdr ≠ c.hdr) :
    Inv L start C fl { h with mem := mem } live := by
  refine inv.write hm (inv.carved.below c hc) (fun i a ha => ?_) fun b hb => ?_
  · have happ := inv.other_apart (inv.free_mem i a ha) hc fun he => hfree i (he ▸ ha)
    omega
  · have happ := inv.other_apart (inv.live_mem b hb) hc (hlive b hb)
    omega

/-- A client may write behind the header of its block. -/
theorem write_user (inv : Inv L start C fl h live) {b : Block} (hb : b ∈ live) {mem : Mem}
    (hm : SameOutside (b.hdr.toNat + 4) (b.hdr.toNat + 2 ^ (b.bucket + 3)) h.mem mem) :
    Inv L start C fl { h with mem := mem } live := by
  have hc := inv.live_mem b hb
  have hother : ∀ a i, ⟨a, i⟩ ∈ C → a.toNat + 4 ≤ b.hdr.toNat + 4 ∨
      b.hdr.toNat + 2 ^ (b.bucket + 3) ≤ a.toNat := by
    intro a i ha
    by_cases he : a = b.hdr
    · rw [he]
      exact Or.inl (Nat.le_refl _)
    have happ : a.toNat + 8 ≤ b.hdr.toNat ∨ b.hdr.toNat + 2 ^ (b.bucket + 3) ≤ a.toNat :=
      inv.other_apart ha hc he
    omega
  refine inv.write hm (inv.carved.below _ hc) (fun i a ha => ?_) fun d hd => ?_
  · exact hother _ _ (inv.free_mem i a ha)
  · exact hother _ _ (inv.live_mem d hd)

/-- The first block of a list is taken off it. -/
theorem unlink (inv : Inv L start C fl h live) {i : Nat} {p : Word} {rest : List Word}
    (hfl : fl i = p :: rest) :
    Inv L start C (Function.update fl i rest)
      { h with nextf := Function.update h.nextf i (ov_next h.mem p) } live := by
  have hsub : ∀ j, ∀ a ∈ Function.update fl i rest j, a ∈ fl j := by
    intro j a ha
    by_cases hj : j = i
    · rw [hj, Function.update_self] at ha
      rw [hj, hfl]
      exact List.mem_cons_of_mem _ ha
    · rwa [Function.update_of_ne hj] at ha
  refine { inv with lists := ?_, free_mem := ?_, live_not_free := ?_ }
  · intro j
    show Chain _ 0 (Function.update h.nextf i _ j) _
    by_cases hj : j = i
    · have hl := inv.lists i
      rw [FreeList, hfl] at hl
      rw [hj, Function.update_self, Function.update_self]
      exact hl.2.2
    · rw [Function.update_of_ne hj, Function.update_of_ne hj]
      exact inv.lists j
  · exact fun j a ha => inv.free_mem j a (hsub j a ha)
  · exact fun b hb j hj => inv.live_not_free b hb j (hsub j _ hj)

/-- A block whose link is the first one of its list becomes the first one. -/
theorem link (inv : Inv L start C fl h live) {i : Nat} {p : Word} (hc : ⟨p, i⟩ ∈ C)
    (hnext : ov_next h.mem p = h.nextf i) (hlive : ∀ b ∈ live, b.hdr ≠ p) :
    Inv L start C (Function.update fl i (p :: fl i))
      { h with nextf := Function.update h.nextf i p } live := by
  refine { inv with lists := ?_, free_mem := ?_, live_not_free := ?_ }
  · intro j
    show Chain _ 0 (Function.update h.nextf i p j) _
    by_cases hj : j = i
    · rw [hj, Function.update_self, Function.update_self]
      refine ⟨rfl, inv.hdr_ne hc, ?_⟩
      rw [hnext]
      exact inv.lists i
    · rw [Function.update_of_ne hj, Function.update_of_ne hj]
      exact inv.lists j
  · intro j a ha
    by_cases hj : j = i
    · rw [hj, Function.update_self] at ha
      rcases List.mem_cons.mp ha with rfl | ha
      · rwa [hj]
      · rw [hj]
        exact inv.free_mem i a ha
    · rw [Function.update_of_ne hj] at ha
      exact inv.free_mem j a ha
  · intro b hb j hmem
    by_cases hj : j = i
    · rw [hj, Function.update_self] at hmem
      rcases List.mem_cons.mp hmem with he | hmem
      · exact hlive b hb he
      · exact inv.live_not_free b hb i hmem
    · rw [Function.update_of_ne hj] at hmem
      exact inv.live_not_free b hb j hmem

/-- A block with its header written is handed out. -/
theorem hold (inv : Inv L start C fl h live) {i req : Nat} {p : Word} (hc : ⟨p, i⟩ ∈ C)
    (hfree : ∀ j, p ∉ fl j) (hlive : ∀ b ∈ live, b.hdr ≠ p) (hroom : 4 + req ≤ 2 ^ (i + 3))
    (hhdr : h.mem p = MAGIC ∧ h.mem (p + 1) = BitVec.ofNat 8 i) :
    Inv L start C fl h (⟨p, i, req⟩ :: live) := by
  refine { inv with live_mem := ?_, live_nodup := ?_, live_header := ?_, live_room := ?_,
                    live_not_free := ?_ }
  · exact List.forall_mem_cons.mpr ⟨hc, inv.live_mem⟩
  · rw [List.map_cons, List.nodup_cons]
    refine ⟨fun hmem => ?_, inv.live_nodup⟩
    obtain ⟨b, hb, he⟩ := List.mem_map.mp hmem
    exact hlive b hb he
  · exact List.forall_mem_cons.mpr ⟨hhdr, inv.live_header⟩
  · exact List.forall_mem_cons.mpr ⟨hroom, inv.live_room⟩
  · exact List.forall_mem_cons.mpr ⟨hfree, inv.live_not_free⟩

/-- A block is given up. -/
theorem drop (inv : Inv L start C fl h live) (p : Word) :
    Inv L start C fl h (release p live) := by
  have hsub : ∀ b ∈ release p live, b ∈ live := fun b hb => List.mem_of_mem_filter hb
  exact { inv with
    live_mem := fun b hb => inv.live_mem b (hsub b hb)
    live_nodup := inv.live_nodup.sublist (List.filter_sublist.map _)
    live_header := fun b hb => inv.live_header b (hsub b hb)
    live_room := fun b hb => inv.live_room b (hsub b hb)
    live_not_free := fun b hb => inv.live_not_free b (hsub b hb) }

end Inv

end Pittsfield.Libc
