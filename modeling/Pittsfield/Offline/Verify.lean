import Pittsfield.Offline.CheckInsn

/-!
# The main loop of `verify.pl`

The loop over the rows of the listing. A listing that shows its instructions
contiguously from `code_start` on is a pass: the address behind the last row stands
next to the state of the loop, so that the rules of `Foundation.Pass` apply.
-/

namespace Pittsfield.Offline

open Pittsfield.Foundation
open Pittsfield.Region
open Pittsfield.Machine
open Flag

structure VState where
  next_aligned : Nat
  safety : Flags := ∅
  unsafety : Flags := ∅
  bump_count : Nat := 0
  deriving DecidableEq

/-- The complaints that the loop prints, with what it prints in them. -/
inductive Report
  /-- `Use of unsafe %%ebp at 0x%08x` -/
  | unsafeEbp (addr : Nat)
  /-- `Use of unsafe %%esp at 0x%08x` -/
  | unsafeEsp (addr : Nat)
  /-- `Unsafe %s %s at 0x%08x ($safety)` -/
  | unsafeInsn (op args : String) (addr : Nat) (safety : Flags)
  /-- `Unsafe %%ebp escapes by jump at 0x%08x` -/
  | ebpEscapes (addr : Nat)
  /-- `Unsafe %%esp escapes by jump at 0x%08x` -/
  | espEscapes (addr : Nat)

section

variable (L : Layout)

/-- The safety bits that the instruction at the address starts with: none where a
chunk starts. -/
def VState.safetyAt (st : VState) (addr : Nat) : Flags :=
  if addr = st.next_aligned then ∅ else st.safety

/-- `=~ /%esp./` -/
def usesEsp (text : String) : Bool :=
  text.toList.tails.any fun cs => "%esp".toList.isPrefixOf cs && 4 < cs.length

/-- The instructions that may name an unsafe `%ebp`. -/
def masksEbp (i : Insn) : Bool :=
  (i.op = "and" && i.args = [.imm (hexText L.data_mask), .reg (.r32 .ebp)]) ||
    (i.op = "or" && i.args = [.imm (hexText (BitVec.ofNat 32 L.data_start)), .reg (.r32 .ebp)])

/-- The complaints before `check_insn`. -/
def useReports (unsafety : Flags) (addr : Nat) (i : Insn) : List Report :=
  (if CHANGE_EBP ∈ unsafety ∧ found ["%ebp"] (argsText i.args) ∧ ¬ masksEbp L i then
      [.unsafeEbp addr] else []) ++
    if CHANGE_ESP ∈ unsafety ∧
        (usesEsp (argsText i.args) ∨ found ["push", "pop", "call", "ret"] i.op) then
      [.unsafeEsp addr] else []

/-- The complaints about the flags of the instruction. -/
def flagReports (safety unsafety flags : Flags) (addr : Nat) (i : Insn) : List Report :=
  (if IJUMP ∈ flags ∨ IWRITE ∈ flags then [.unsafeInsn i.op (argsText i.args) addr safety] else []) ++
    (if JUMP ∈ flags ∧ CHANGE_EBP ∈ unsafety then [.ebpEscapes addr] else []) ++
    if JUMP ∈ flags ∧ (CHANGE_ESP ∈ unsafety ∨ BUMP_ESP ∈ unsafety) then [.espEscapes addr] else []

def strengthenings : Flags :=
  {EBX_DATA_SAFE, EBX_CODE_SAFE, STACK_TOP_SAFE, EBX_DATA_XSAFE, EBX_CODE_XSAFE, STACK_TOP_XSAFE,
    EBP_DATA_SAFE, ESP_DATA_SAFE}

def weakenings : Flags := {CHANGE_EBP, CHANGE_ESP, BUMP_ESP}

/-- The update of the state behind the complaints. -/
def updateState (st : VState) (safety : Flags) (op : String) (flags : Flags) : VState :=
  let safety := if op = "popf" then safety ∩ {EBX_DATA_SAFE, EBX_CODE_SAFE} else ∅
  let unsafety := st.unsafety ∪ flags ∩ weakenings
  let bump_count := if BUMP_ESP ∈ flags then st.bump_count + 1 else st.bump_count
  let unsafety := if 250 ≤ bump_count then unsafety ∪ {CHANGE_ESP} else unsafety
  let unsafety := if USE_ESP ∈ flags then unsafety \ {CHANGE_ESP, BUMP_ESP} else unsafety
  let bump_count := if USE_ESP ∈ flags then 0 else bump_count
  let unsafety := if ebp_safety ∈ flags then unsafety \ {CHANGE_EBP} else unsafety
  { next_aligned := st.next_aligned
    safety := safety ∪ flags ∩ strengthenings
    unsafety := unsafety
    bump_count := bump_count }

/-- The body of the loop for a row that shows an instruction. -/
def checkRow (st : VState) (addr : Nat) (i : Insn) : Except String (List Report × VState) :=
  if i.op ∉ knownOpcodes then .error ("Unknown opcode " ++ i.op)
  else
    let safety := st.safetyAt addr
    match check_insn L i.op i.args safety st.unsafety with
    | .error e => .error e
    | .ok flags =>
      let reports := useReports L st.unsafety addr i ++ flagReports safety st.unsafety flags addr i
      let st' := updateState st safety i.op flags
      if st.next_aligned < addr then .error "Missing instruction"
      else if addr = st.next_aligned then
        .ok (reports, { st' with next_aligned := st.next_aligned + L.chunk_size })
      else .ok (reports, st')

/-- `while (<>)` -/
def verifyRows : VState → List Row → Except String (List Report × VState)
  | st, [] => .ok ([], st)
  | st, .other _ _ :: rows => verifyRows st rows
  | st, .insn addr i :: rows =>
    match checkRow L st addr i with
    | .error e => .error e
    | .ok (reports, st') =>
      match verifyRows st' rows with
      | .error e => .error e
      | .ok (reports', t) => .ok (reports ++ reports', t)

def initialState : VState := { next_aligned := L.code_start }

/-- The program prints `Checks finished` and nothing else. -/
def ChecksFinished (rows : List Row) : Prop :=
  ∃ t, verifyRows L (initialState L) rows = .ok ([], t)

/-- The rows show instructions and nothing else, one behind the other from the
address on, and the last one ends within 32 bits. -/
def Contiguous : Nat → List Row → Prop
  | addr, [] => addr < 2 ^ 32
  | _, .other _ _ :: _ => False
  | addr, .insn a i :: rows => a = addr ∧ 0 < i.size ∧ Contiguous (addr + i.size) rows

/-- The state of the loop and the address behind the last row. -/
structure At where
  addr : Nat
  state : VState
  deriving DecidableEq

/-- One row as a step: the loop finds nothing to complain about. -/
def Examines (s : At) (i : Insn) (s' : At) : Prop :=
  checkRow L s.state s.addr i = .ok ([], s'.state) ∧ 0 < i.size ∧ s'.addr = s.addr + i.size

abbrev Examined := Visit At Insn

def start : At := ⟨L.code_start, initialState L⟩

/-- The visits of a contiguous listing: every instruction with the states around it. -/
def visits : At → List Row → List Examined
  | _, [] => []
  | s, .other _ _ :: rows => visits s rows
  | s, .insn addr i :: rows =>
    match checkRow L s.state addr i with
    | .error _ => []
    | .ok (_, st') => ⟨s, i, ⟨addr + i.size, st'⟩⟩ :: visits ⟨addr + i.size, st'⟩ rows

/-- The instructions of the listing, with the states of the loop around them. -/
def examined (rows : List Row) : List Examined := visits L (start L) rows

end

section

variable {L : Layout} {st st' : VState} {s s' : At} {i : Insn} {rows : List Row} {addr : Nat}

/-- What a row without a complaint tells. -/
theorem checkRow_ok (h : checkRow L st addr i = .ok ([], st')) :
    ∃ flags, check_insn L i.op i.args (st.safetyAt addr) st.unsafety = .ok flags ∧
      useReports L st.unsafety addr i = [] ∧
      flagReports (st.safetyAt addr) st.unsafety flags addr i = [] ∧ addr ≤ st.next_aligned ∧
      st' = { updateState st (st.safetyAt addr) i.op flags with
        next_aligned := if addr = st.next_aligned then st.next_aligned + L.chunk_size
          else st.next_aligned } := by
  unfold checkRow at h
  split at h
  · cases h
  simp only at h
  split at h
  · cases h
  rename_i flags hflags
  refine ⟨flags, hflags, ?_⟩
  split at h
  · cases h
  rename_i hle
  split at h
  · rename_i he
    obtain ⟨hr, rfl⟩ := Prod.mk.inj (Except.ok.inj h)
    obtain ⟨h1, h2⟩ := List.append_eq_nil_iff.mp hr
    exact ⟨h1, h2, Nat.not_lt.mp hle, by rw [if_pos he]⟩
  · rename_i hne
    obtain ⟨hr, rfl⟩ := Prod.mk.inj (Except.ok.inj h)
    obtain ⟨h1, h2⟩ := List.append_eq_nil_iff.mp hr
    exact ⟨h1, h2, Nat.not_lt.mp hle, by rw [if_neg hne]; rfl⟩

/-- The loop goes on behind a row without a complaint. -/
theorem verifyRows_insn {t : VState} (h : verifyRows L st (.insn addr i :: rows) = .ok ([], t)) :
    ∃ st', checkRow L st addr i = .ok ([], st') ∧ verifyRows L st' rows = .ok ([], t) := by
  unfold verifyRows at h
  split at h
  · cases h
  rename_i reports st' hrow
  split at h
  · cases h
  rename_i reports' t' hrows
  obtain ⟨hr, rfl⟩ := Prod.mk.inj (Except.ok.inj h)
  obtain ⟨rfl, rfl⟩ := List.append_eq_nil_iff.mp hr
  exact ⟨st', hrow, hrows⟩

/-- A contiguous listing without complaints is a pass over its visits. -/
theorem visits_pass {t : VState} (hc : Contiguous s.addr rows)
    (h : verifyRows L s.state rows = .ok ([], t)) :
    ∃ e, Pass (Examines L) s (visits L s rows) e ∧ e.addr < 2 ^ 32 := by
  induction rows generalizing s with
  | nil => exact ⟨s, .done s, hc⟩
  | cons row rows ih =>
    cases row with
    | other a n => cases hc
    | insn a i =>
      obtain ⟨rfl, hsize, hrest⟩ := hc
      obtain ⟨st', hrow, hrows⟩ := verifyRows_insn h
      obtain ⟨e, hp, he⟩ := ih (s := ⟨s.addr + i.size, st'⟩) hrest hrows
      refine ⟨e, ?_, he⟩
      simp only [visits, hrow]
      exact .visit ⟨hrow, hsize, rfl⟩ hp

theorem examined_pass (hc : Contiguous L.code_start rows) (h : ChecksFinished L rows) :
    ∃ e, Pass (Examines L) (start L) (examined L rows) e ∧ e.addr < 2 ^ 32 := by
  obtain ⟨t, h⟩ := h
  exact visits_pass (s := start L) hc h

/-- The address as the position of a pass. -/
theorem addr_pos (L : Layout) (s : At) (i : Insn) (s' : At) : Examines L s i s' → s.addr < s'.addr := by
  rintro ⟨-, hsize, he⟩
  omega

end

end Pittsfield.Offline
