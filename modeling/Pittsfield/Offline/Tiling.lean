import Mathlib.Data.List.Chain
import Pittsfield.Offline.Verify

/-!
# What the loop passes over

The loop compares an address with the next chunk start only, and it passes over every row
that its pattern does not match. So each chunk start up to the last instruction is the
start of an instruction, whatever the listing; the results below say exactly when the
instructions fill the listing.
-/

namespace Pittsfield.Offline

open Pittsfield.Region

/-- The instructions that the loop examines, with their addresses. -/
def instructions : List Row → List (Nat × Insn)
  | [] => []
  | .other _ _ :: rows => instructions rows
  | .insn addr i :: rows => (addr, i) :: instructions rows

/-- The rows from `addr` on leave no gap: a row that shows bytes shows an instruction, and
it starts where the one before it ended. -/
def Gapless : Nat → List Row → Prop
  | _, [] => True
  | addr, .other _ n :: rows => n = 0 ∧ Gapless addr rows
  | addr, .insn a i :: rows => a = addr ∧ Gapless (addr + i.size) rows

/-- The last instruction ends in the chunk in which it starts. -/
def LastInChunk (L : Layout) (rows : List Row) : Prop :=
  ∀ l, (instructions rows).getLast? = some l →
    l.1 + l.2.size ≤ (l.1 / L.chunk_size + 1) * L.chunk_size

/-- No byte is skipped: the instructions tile the listing from the start of the code on. -/
structure Tiles (L : Layout) (rows : List Row) : Prop where
  all_shown : ∀ addr n, .other addr n ∈ rows → n = 0
  first : ∀ l, (instructions rows).head? = some l → l.1 = L.code_start
  adjacent : (instructions rows).IsChain fun l m => m.1 = l.1 + l.2.size
  chunk_starts : ∀ l, (instructions rows).getLast? = some l → ∀ m, L.code_start ≤ m →
    m < l.1 + l.2.size → L.chunk_size ∣ m → ∃ i, (m, i) ∈ instructions rows
  last : LastInChunk L rows

section

variable {L : Layout} {rows : List Row}

/-- Every chunk start from the one that the loop waits for up to the start of an
instruction is the start of an instruction. -/
theorem chunk_start_shown {st t : VState} (h : verifyRows L st rows = .ok ([], t))
    (hd : L.chunk_size ∣ st.next_aligned) {l : Nat × Insn} (hl : l ∈ instructions rows) {m : Nat}
    (hm : L.chunk_size ∣ m) (hlo : st.next_aligned ≤ m) (hhi : m ≤ l.1) :
    ∃ i, (m, i) ∈ instructions rows := by
  induction rows generalizing st with
  | nil => cases hl
  | cons row rows ih =>
    cases row with
    | other a n => exact ih h hd hl hlo
    | insn a i =>
      obtain ⟨st', hrow, hrows⟩ := verifyRows_insn h
      obtain ⟨flags, -, -, -, hle, hst'⟩ := checkRow_ok hrow
      by_cases he : a = st.next_aligned
      · by_cases hma : m = a
        · exact ⟨i, hma ▸ List.mem_cons_self⟩
        have hnext : st'.next_aligned = st.next_aligned + L.chunk_size := by
          rw [hst', if_pos he]
        -- the next chunk start is a whole chunk away
        have hfar : st.next_aligned + L.chunk_size ≤ m := by
          obtain ⟨k, rfl⟩ := hm
          obtain ⟨k', hk'⟩ := hd
          rw [hk', ← Nat.mul_succ]
          apply Nat.mul_le_mul_left
          have hlt : L.chunk_size * k' < L.chunk_size * k := by omega
          exact Nat.succ_le_of_lt (Nat.lt_of_mul_lt_mul_left hlt)
        have hl' : l ∈ instructions rows := by
          rcases List.mem_cons.mp hl with rfl | hl'
          · exact absurd (Nat.le_antisymm hhi (he ▸ hlo)) hma
          · exact hl'
        obtain ⟨j, hj⟩ := ih hrows (hnext ▸ Nat.dvd_add hd (Nat.dvd_refl _)) hl'
          (hnext ▸ hfar)
        exact ⟨j, List.mem_cons_of_mem _ hj⟩
      · have hnext : st'.next_aligned = st.next_aligned := by rw [hst', if_neg he]
        have hl' : l ∈ instructions rows := by
          rcases List.mem_cons.mp hl with rfl | hl'
          · exact absurd (Nat.le_antisymm hle (hlo.trans hhi)) he
          · exact hl'
        obtain ⟨j, hj⟩ := ih hrows (hnext ▸ hd) hl' (hnext ▸ hlo)
        exact ⟨j, List.mem_cons_of_mem _ hj⟩

theorem gapless_iff {addr : Nat} : Gapless addr rows ↔
    (∀ a n, .other a n ∈ rows → n = 0) ∧ (∀ l, (instructions rows).head? = some l → l.1 = addr) ∧
      (instructions rows).IsChain fun l m => m.1 = l.1 + l.2.size := by
  induction rows generalizing addr with
  | nil => simp [Gapless, instructions]
  | cons row rows ih =>
    cases row with
    | other a n =>
      rw [Gapless, ih, instructions]
      constructor
      · rintro ⟨rfl, hs, hrest⟩
        refine ⟨fun b m hm => ?_, hrest⟩
        rcases List.mem_cons.mp hm with he | hm
        · cases he
          rfl
        · exact hs b m hm
      · rintro ⟨hs, hrest⟩
        exact ⟨hs a n List.mem_cons_self, fun b m hm => hs b m (List.mem_cons_of_mem _ hm), hrest⟩
    | insn a i =>
      rw [Gapless, ih, instructions, List.isChain_cons]
      constructor
      · rintro ⟨rfl, hs, hhead, hchain⟩
        refine ⟨fun b m hm => ?_, fun l hl => ?_, fun l hl => hhead l hl, hchain⟩
        · rcases List.mem_cons.mp hm with he | hm
          · cases he
          · exact hs b m hm
        · cases hl
          rfl
      · rintro ⟨hs, hhead, hnext, hchain⟩
        obtain rfl : a = addr := hhead (a, i) rfl
        exact ⟨rfl, fun b m hm => hs b m (List.mem_cons_of_mem _ hm), fun l hl => hnext l hl, hchain⟩

end

/-- A one-byte instruction, four bytes that objdump shows as data, and another one. -/
def withDots : List Row :=
  [.insn 0x10000000 ⟨"nop", [], 1⟩, .other 0x10000001 4, .insn 0x10000005 ⟨"nop", [], 1⟩]

end Pittsfield.Offline
