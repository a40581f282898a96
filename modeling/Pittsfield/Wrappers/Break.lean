import Pittsfield.Region.Sizes

/-!
# The break of the data region

`main` puts the break behind the data of the module, and `wrap_sbrk` moves it.
-/

namespace Pittsfield.Wrappers

open Pittsfield.Foundation
open Pittsfield.Region

/-- `data_break` as `main` computes it for `data_size` bytes of data. -/
def initial_break (L : Layout) (data_size : Nat) : Word :=
  (BitVec.ofNat 32 (L.data_start + data_size) + 2 * 4096) &&& ~~~4095

/-- The sections that `main` adds up. -/
inductive DataSection
  | data (sh_size : Word)
  | bss (sh_size : Word)

/-- `data_size` after the loop over the sections, none if an assertion fails. The variable is an
`int`, but `DATA_SIZE` is unsigned, so that the comparison is. -/
def addSections (L : Layout) : Word → List DataSection → Option Word
  | size, [] => some size
  | size, .data sh_size :: rest =>
    if sh_size.toNat ≤ L.data_size then addSections L (size + sh_size) rest else none
  | size, .bss sh_size :: rest => addSections L (size + sh_size) rest

/-- The break that `main` sets for a module, none if an assertion fails. -/
def main_break (L : Layout) (sections : List DataSection) : Option Word := do
  let size ← addSections L 0 sections
  if size.toNat ≤ L.data_size then return initial_break L size.toNat else none

/-- The value returned, and the break behind the call. -/
def wrap_sbrk (L : Layout) (data_break incr : Word) : Word × Word :=
  let new_brk := data_break + incr
  if L.data_start < new_brk.toNat ∧ new_brk.toNat < L.data_end then (data_break, new_brk)
  else (-1, data_break)

section

variable {L : Layout} {data_break incr : Word}

theorem wrap_sbrk_accepts (hlo : L.data_start < (data_break + incr).toNat)
    (hhi : (data_break + incr).toNat < L.data_end) :
    wrap_sbrk L data_break incr = (data_break, data_break + incr) := if_pos ⟨hlo, hhi⟩

theorem wrap_sbrk_refuses (h : L.data_end ≤ (data_break + incr).toNat) :
    wrap_sbrk L data_break incr = (-1, data_break) := if_neg fun h' => Nat.not_lt.mpr h h'.2

/-- Where the break starts: at a page above the start of the data region, at most two
pages above its end. -/
theorem initial_break_bounds {data_size : Nat} (hsize : data_size ≤ L.data_size)
    (hfit : L.data_end + 8192 < 2 ^ 32) :
    4096 ∣ (initial_break L data_size).toNat ∧ L.data_start + 4096 < (initial_break L data_size).toNat ∧
      (initial_break L data_size).toNat ≤ L.data_end + 8192 := by
  have hend : L.data_end = L.data_start + L.data_size := rfl
  have hsum : (BitVec.ofNat 32 (L.data_start + data_size) + 2 * 4096 : Word).toNat =
      L.data_start + data_size + 8192 := by
    have hpages : (2 * 4096 : Word) = BitVec.ofNat 32 8192 := by decide
    rw [hpages, ← BitVec.ofNat_add, BitVec.toNat_ofNat, Nat.mod_eq_of_lt (by omega)]
  have hround : (initial_break L data_size).toNat =
      (L.data_start + data_size + 8192) / 2 ^ 12 * 2 ^ 12 := by
    rw [← hsum]
    exact toNat_and_high 12 _
  rw [hround]
  refine ⟨⟨_, Nat.mul_comm _ _⟩, ?_, ?_⟩ <;> omega

end

section Runs

variable {g : Settings} {sz : Size} {L : Layout} {old incr : Word}

/-- `data_break` after the calls with these increments. -/
def breakAfter (L : Layout) (data_break : Word) (incrs : List Word) : Word :=
  incrs.foldl (fun data_break incr => (wrap_sbrk L data_break incr).2) data_break

/-- Where the break can be: in the data region, or where `main` puts it. -/
structure BreakInv (L : Layout) (data_break : Word) : Prop where
  above : L.data_start < data_break.toNat
  below : data_break.toNat ≤ L.data_end + 8192

/-- What a call does that moves the break. -/
structure Granted (L : Layout) (old incr : Word) (r : Word × Word) : Prop where
  previous : r.1 = old
  not_refused : r.1 ≠ -1
  moved : r.2 = old + incr
  above : L.data_start < r.2.toNat
  below : r.2.toNat < L.data_end
  /-- the bytes from the old break on -/
  range : 0 ≤ incr.toInt → L.data_start < old.toNat ∧ old.toNat + incr.toNat = r.2.toNat

/-- What a call does that does not move the break. -/
structure Refused (L : Layout) (old incr : Word) (r : Word × Word) : Prop where
  result : r = (-1, old)
  outside : ¬ (L.data_start < (old + incr).toNat ∧ (old + incr).toNat < L.data_end)

theorem data_region_low (g : Settings) (sz : Size) :
    8192 ≤ (compute_sizes g sz).data_start ∧ (compute_sizes g sz).data_end ≤ 2 ^ 31 := by
  show 8192 ≤ (sizes sz).data_tag <<< (sizes sz).log_data_size ∧
    (sizes sz).data_tag <<< (sizes sz).log_data_size + 1 <<< (sizes sz).log_data_size ≤ 2 ^ 31
  cases sz <;> decide

theorem main_break_inv {sections : List DataSection} {b : Word}
    (h : main_break (compute_sizes g sz) sections = some b) : BreakInv (compute_sizes g sz) b := by
  obtain ⟨size, _, hsize⟩ := Option.bind_eq_some_iff.mp h
  by_cases hle : size.toNat ≤ (compute_sizes g sz).data_size
  · rw [if_pos hle] at hsize
    have hhigh := (data_region_low g sz).2
    obtain ⟨_, habove, hbelow⟩ := initial_break_bounds hle (by omega)
    rw [← Option.some.inj hsize]
    exact ⟨by omega, hbelow⟩
  · rw [if_neg hle] at hsize
    cases hsize

/-- A call is refused, or it grants what it is asked for. -/
theorem wrap_sbrk_cases (h : BreakInv (compute_sizes g sz) old) (incr : Word) :
    Refused (compute_sizes g sz) old incr (wrap_sbrk (compute_sizes g sz) old incr) ∨
      Granted (compute_sizes g sz) old incr (wrap_sbrk (compute_sizes g sz) old incr) := by
  obtain ⟨hlow, hhigh⟩ := data_region_low g sz
  obtain ⟨habove, hbelow⟩ := h
  rw [wrap_sbrk]
  by_cases hin : (compute_sizes g sz).data_start < (old + incr).toNat ∧
      (old + incr).toNat < (compute_sizes g sz).data_end
  · rw [if_pos hin]
    have hold : old ≠ -1 := by
      intro heq
      have hmax : (-1 : Word).toNat = 2 ^ 32 - 1 := by decide
      rw [heq, hmax] at hbelow
      omega
    refine Or.inr ⟨rfl, hold, rfl, hin.1, hin.2, fun hincr => ⟨habove, ?_⟩⟩
    -- a sum that wraps lies below the data region
    have hadd := BitVec.toNat_add old incr
    have hsmall : incr.toNat < 2 ^ 31 := by
      rw [BitVec.toInt_eq_toNat_cond] at hincr
      have hlt := incr.isLt
      split at hincr <;> omega
    show old.toNat + incr.toNat = (old + incr).toNat
    omega
  · rw [if_neg hin]
    exact Or.inl ⟨rfl, hin⟩

theorem wrap_sbrk_inv (h : BreakInv (compute_sizes g sz) old) (incr : Word) :
    BreakInv (compute_sizes g sz) (wrap_sbrk (compute_sizes g sz) old incr).2 := by
  rcases wrap_sbrk_cases h incr with href | hgranted
  · rw [href.result]
    exact h
  · have hbelow := hgranted.below
    exact ⟨hgranted.above, by omega⟩

theorem breakAfter_inv (h : BreakInv (compute_sizes g sz) old) (incrs : List Word) :
    BreakInv (compute_sizes g sz) (breakAfter (compute_sizes g sz) old incrs) := by
  induction incrs generalizing old with
  | nil => exact h
  | cons incr incrs ih => exact ih (wrap_sbrk_inv h incr)

/-- From the break of any module, after any calls: the next call is refused and leaves the break,
or it grants a range in the data region. -/
theorem break_stays {sections : List DataSection} {b : Word}
    (h : main_break (compute_sizes g sz) sections = some b) (incrs : List Word) (incr : Word) :
    Refused (compute_sizes g sz) (breakAfter (compute_sizes g sz) b incrs) incr
        (wrap_sbrk (compute_sizes g sz) (breakAfter (compute_sizes g sz) b incrs) incr) ∨
      Granted (compute_sizes g sz) (breakAfter (compute_sizes g sz) b incrs) incr
        (wrap_sbrk (compute_sizes g sz) (breakAfter (compute_sizes g sz) b incrs) incr) :=
  wrap_sbrk_cases (breakAfter_inv (main_break_inv h) incrs) incr

/-- A module with 100 bytes of data, after a request for a page. -/
theorem break_stays_after_a_page :
    Refused (compute_sizes {} .classic) (breakAfter (compute_sizes {} .classic) 0x20002000 [4096]) 4096
        (wrap_sbrk (compute_sizes {} .classic)
          (breakAfter (compute_sizes {} .classic) 0x20002000 [4096]) 4096) ∨
      Granted (compute_sizes {} .classic) (breakAfter (compute_sizes {} .classic) 0x20002000 [4096]) 4096
        (wrap_sbrk (compute_sizes {} .classic)
          (breakAfter (compute_sizes {} .classic) 0x20002000 [4096]) 4096) :=
  @break_stays {} .classic [.data 60, .bss 40] _ (by decide +kernel) [4096] 4096

end Runs

end Pittsfield.Wrappers
