import Mathlib.Data.Finset.Insert
import Mathlib.Data.Finset.Erase
import Mathlib.Logic.Function.Basic
import Pittsfield.Region.Sizes

/-!
# The stream wrappers of `loader.c`

Sandboxed code names a stream of the host by an index into `files`. The wrappers read
the table, which lies at some address of the loader's memory, at the index they are
given. The trace records what they hand to the host C library; the streams open after
a trace are those of which it has seen the opening and not the closing.
-/

namespace Pittsfield.Wrappers

open Pittsfield.Region

/-- The functions of the C library that take a stream. -/
inductive StreamFn
  | fclose
  | ferror
  | fflush
  | fileno
  | feof
  | fgetc
  | vfprintf
  | vfscanf
  | fread
  | fwrite
  | rewind
  | ungetc
  | fseek
  | ftell
  | fgets
  | fputc
  | fputs
  | clearerr
  | setbuf
  deriving DecidableEq

/-- What the host C library sees. -/
inductive HostCall
  /-- An open that succeeded, with the stream. -/
  | opened (p : Word)
  /-- An open that failed. -/
  | refused
  /-- A stream read at `files[fi]` is handed to a function, with the other arguments. -/
  | passed (fi : Word) (f : StreamFn) (p : Word) (args : List Word)

/-- The trace, newest call first. -/
abbrev Trace := List HostCall

/-- The streams that are open after the trace. -/
def openStreams (standard : Finset Word) : Trace → Finset Word
  | [] => standard
  | .opened p :: h => insert p (openStreams standard h)
  | .refused :: h => openStreams standard h
  | .passed _ f p _ :: h =>
    if f = .fclose then (openStreams standard h).erase p else openStreams standard h

/-- The host C library. An open gives NULL or a stream that is not open yet. -/
structure Host where
  stdin : Word
  stdout : Word
  stderr : Word
  fopen : Trace → (path mode : Word) → Word
  fdopen : Trace → (fd mode : Word) → Word
  respond : Trace → Word
  standard_distinct : stdin ≠ stdout ∧ stdin ≠ stderr ∧ stdout ≠ stderr
  standard_not_null : stdin ≠ 0 ∧ stdout ≠ 0 ∧ stderr ≠ 0
  fopen_fresh : ∀ h path mode, fopen h path mode = 0 ∨
    fopen h path mode ∉ openStreams {stdin, stdout, stderr} h
  fdopen_fresh : ∀ h fd mode, fdopen h fd mode = 0 ∨
    fdopen h fd mode ∉ openStreams {stdin, stdout, stderr} h

/-- The streams that are open after the trace, the standard ones included. -/
def Host.streams (host : Host) : Trace → Finset Word :=
  openStreams {host.stdin, host.stdout, host.stderr}

/-- The loader's memory and the trace. -/
structure Loader where
  mem : Word → Word
  trace : Trace

/-- A wrapper returns a value and the state behind it, or aborts. -/
abbrev Wrapper := Loader → Option (Word × Loader)

section

variable (host : Host) (files : Word)

/-- `files[fi]` -/
def Loader.slot (m : Loader) (fi : Word) : Word := m.mem (files + 4 * fi)

/-- `files[fi] = p` -/
def Loader.setSlot (m : Loader) (fi p : Word) : Loader :=
  { m with mem := Function.update m.mem (files + 4 * fi) p }

def Loader.call (m : Loader) (c : HostCall) : Loader := { m with trace := c :: m.trace }

/-- The loop of the two opens: the first entry of the table that is free. -/
def firstFree (m : Loader) : Option Nat :=
  (List.range 16).find? fun i => m.slot files (BitVec.ofNat 32 i) = 0

/-- What `fopen` and `fdopen` do with the stream that the host opens. -/
def openStream (result : Word) : Wrapper := fun m =>
  match firstFree files m with
  | none => none
  | some i =>
    let m' := (m.call (if result = 0 then .refused else .opened result)).setSlot files
      (BitVec.ofNat 32 i) result
    some (if result = 0 then -1 else BitVec.ofNat 32 i, m')

/-- A wrapper that hands the stream to a function of the host. -/
def passStream (f : StreamFn) (fi : Word) (args : List Word) : Wrapper := fun m =>
  let m' := m.call (.passed fi f (m.slot files fi) args)
  some (host.respond m'.trace, m')

def wrap_outside_fopen (path mode : Word) : Wrapper := fun m =>
  openStream files (host.fopen m.trace path mode) m

def wrap_outside_fdopen (fd mode : Word) : Wrapper := fun m =>
  openStream files (host.fdopen m.trace fd mode) m

def wrap_outside_fclose (fi : Word) : Wrapper := fun m =>
  (passStream host files .fclose fi [] m).map fun (ret, m') => (ret, m'.setSlot files fi 0)

def wrap_outside_ferror (fi : Word) : Wrapper := passStream host files .ferror fi []
def wrap_outside_fflush (fi : Word) : Wrapper := passStream host files .fflush fi []
def wrap_outside_fileno (fi : Word) : Wrapper := passStream host files .fileno fi []
def wrap_outside_feof (fi : Word) : Wrapper := passStream host files .feof fi []
def wrap_outside_fgetc (fi : Word) : Wrapper := passStream host files .fgetc fi []
def wrap_outside_vfprintf (fi fmt ap : Word) : Wrapper :=
  passStream host files .vfprintf fi [fmt, ap]
def wrap_outside_vfscanf (fi fmt ap : Word) : Wrapper := passStream host files .vfscanf fi [fmt, ap]
def wrap_outside_fread (ptr size num fi : Word) : Wrapper :=
  passStream host files .fread fi [ptr, size, num]
def wrap_outside_fwrite (ptr size num fi : Word) : Wrapper :=
  passStream host files .fwrite fi [ptr, size, num]
def wrap_outside_rewind (fi : Word) : Wrapper := passStream host files .rewind fi []
def wrap_outside_ungetc (c fi : Word) : Wrapper := passStream host files .ungetc fi [c]
def wrap_outside_fseek (fi offset whence : Word) : Wrapper :=
  passStream host files .fseek fi [offset, whence]
def wrap_outside_ftell (fi : Word) : Wrapper := passStream host files .ftell fi []
def wrap_outside_fgets (buf size fi : Word) : Wrapper := passStream host files .fgets fi [buf, size]
def wrap_outside_fputc (c fi : Word) : Wrapper := passStream host files .fputc fi [c]
def wrap_outside_fputs (str fi : Word) : Wrapper := passStream host files .fputs fi [str]
def wrap_outside_clearerr (fi : Word) : Wrapper := passStream host files .clearerr fi []
def wrap_outside_setbuf (fi buf : Word) : Wrapper := passStream host files .setbuf fi [buf]

end

/-- A call that sandboxed code makes. -/
inductive Call
  | fopen (path mode : Word)
  | fdopen (fd mode : Word)
  | fclose (fi : Word)
  | ferror (fi : Word)
  | fflush (fi : Word)
  | fileno (fi : Word)
  | feof (fi : Word)
  | fgetc (fi : Word)
  | vfprintf (fi fmt ap : Word)
  | vfscanf (fi fmt ap : Word)
  | fread (ptr size num fi : Word)
  | fwrite (ptr size num fi : Word)
  | rewind (fi : Word)
  | ungetc (c fi : Word)
  | fseek (fi offset whence : Word)
  | ftell (fi : Word)
  | fgets (buf size fi : Word)
  | fputc (c fi : Word)
  | fputs (str fi : Word)
  | clearerr (fi : Word)
  | setbuf (fi buf : Word)

/-- The wrapper that the call reaches. -/
def Call.wrapper (host : Host) (files : Word) : Call → Wrapper
  | .fopen path mode => wrap_outside_fopen host files path mode
  | .fdopen fd mode => wrap_outside_fdopen host files fd mode
  | .fclose fi => wrap_outside_fclose host files fi
  | .ferror fi => wrap_outside_ferror host files fi
  | .fflush fi => wrap_outside_fflush host files fi
  | .fileno fi => wrap_outside_fileno host files fi
  | .feof fi => wrap_outside_feof host files fi
  | .fgetc fi => wrap_outside_fgetc host files fi
  | .vfprintf fi fmt ap => wrap_outside_vfprintf host files fi fmt ap
  | .vfscanf fi fmt ap => wrap_outside_vfscanf host files fi fmt ap
  | .fread ptr size num fi => wrap_outside_fread host files ptr size num fi
  | .fwrite ptr size num fi => wrap_outside_fwrite host files ptr size num fi
  | .rewind fi => wrap_outside_rewind host files fi
  | .ungetc c fi => wrap_outside_ungetc host files c fi
  | .fseek fi offset whence => wrap_outside_fseek host files fi offset whence
  | .ftell fi => wrap_outside_ftell host files fi
  | .fgets buf size fi => wrap_outside_fgets host files buf size fi
  | .fputc c fi => wrap_outside_fputc host files c fi
  | .fputs str fi => wrap_outside_fputs host files str fi
  | .clearerr fi => wrap_outside_clearerr host files fi
  | .setbuf fi buf => wrap_outside_setbuf host files fi buf

/-- The stream number among the arguments. -/
def Call.fi : Call → Option Word
  | .fopen _ _ | .fdopen _ _ => none
  | .fclose fi | .ferror fi | .fflush fi | .fileno fi | .feof fi | .fgetc fi | .vfprintf fi _ _
  | .vfscanf fi _ _ | .fread _ _ _ fi | .fwrite _ _ _ fi | .rewind fi | .ungetc _ fi | .fseek fi _ _
  | .ftell fi | .fgets _ _ fi | .fputc _ fi | .fputs _ fi | .clearerr fi | .setbuf fi _ => some fi

section

variable (host : Host) (files : Word)

/-- `init_wrappers` has filled the first three entries; the others are NULL. -/
structure Initialized (m : Loader) : Prop where
  stdin : m.slot files 0 = host.stdin
  stdout : m.slot files 1 = host.stdout
  stderr : m.slot files 2 = host.stderr
  free : ∀ i, 3 ≤ i → i < 16 → m.slot files (BitVec.ofNat 32 i) = 0
  trace : m.trace = []

/-- The state behind a sequence of calls; an abort ends it. -/
def runCalls : Loader → List Call → Loader
  | m, [] => m
  | m, c :: cs =>
    match c.wrapper host files m with
    | none => m
    | some (_, m') => runCalls m' cs

/-- Every stream of the trace was read inside the table and is open when it is passed. -/
def Checked : Trace → Prop
  | [] => True
  | .passed fi _ p _ :: h => (fi.toNat < 16 ∧ p ∈ host.streams h) ∧ Checked h
  | .opened _ :: h | .refused :: h => Checked h

/-- The stream number is one of the table's, and the entry holds a stream. -/
def Names (m : Loader) (c : Call) : Prop :=
  ∀ fi, c.fi = some fi → fi.toNat < 16 ∧ m.slot files fi ≠ 0

/-- Every call of the sequence that takes a stream number is given one whose entry
holds a stream at that point. -/
def AllName : Loader → List Call → Prop
  | _, [] => True
  | m, c :: cs =>
    Names files m c ∧
      match c.wrapper host files m with
      | none => True
      | some (_, m') => AllName m' cs

/-- The entries of the table that are not NULL hold open streams, each a different one. -/
structure TableOk (m : Loader) : Prop where
  held : ∀ i, i < 16 → m.slot files (BitVec.ofNat 32 i) ≠ 0 →
    m.slot files (BitVec.ofNat 32 i) ∈ host.streams m.trace
  distinct : ∀ i j, i < 16 → j < 16 → m.slot files (BitVec.ofNat 32 i) ≠ 0 →
    m.slot files (BitVec.ofNat 32 i) = m.slot files (BitVec.ofNat 32 j) → i = j
  not_null : 0 ∉ host.streams m.trace

end

section

variable {host : Host} {files : Word} {m m' : Loader} {c : Call} {r : Word}

@[simp] theorem call_slot (m : Loader) (c : HostCall) (fi : Word) :
    (m.call c).slot files fi = m.slot files fi := rfl
@[simp] theorem call_trace (m : Loader) (c : HostCall) : (m.call c).trace = c :: m.trace := rfl
@[simp] theorem setSlot_trace (m : Loader) (fi p : Word) :
    (m.setSlot files fi p).trace = m.trace := rfl

@[simp] theorem setSlot_same (m : Loader) (fi p : Word) :
    (m.setSlot files fi p).slot files fi = p := by
  simp [Loader.setSlot, Loader.slot]

/-- The entries of the table lie at different addresses. -/
theorem setSlot_other {i j : Nat} (hi : i < 16) (hj : j < 16) (hne : i ≠ j) (m : Loader) (p : Word) :
    (m.setSlot files (BitVec.ofNat 32 i) p).slot files (BitVec.ofNat 32 j) =
      m.slot files (BitVec.ofNat 32 j) := by
  have haddr : files + 4 * BitVec.ofNat 32 j ≠ files + 4 * BitVec.ofNat 32 i := by
    intro he
    apply hne
    bv_omega
  exact Function.update_of_ne haddr _ _

/-- A stream number of the table, as a word and as a number. -/
theorem ofNat_toNat (fi : Word) : BitVec.ofNat 32 fi.toNat = fi := by simp

theorem firstFree_some {i : Nat} (h : firstFree files m = some i) :
    i < 16 ∧ m.slot files (BitVec.ofNat 32 i) = 0 := by
  have hp := List.find?_some h
  exact ⟨List.mem_range.mp (List.mem_of_find?_eq_some h), by simpa using hp⟩

/-- What a call does: an open fills a free entry with NULL or with a new stream, every
other call hands on what it finds at its stream number, and `fclose` clears the entry. -/
inductive Effect (host : Host) (files : Word) (m : Loader) (c : Call) : Loader → Prop
  | failed (i : Nat) (hfi : c.fi = none) (hi : i < 16) (hfree : m.slot files (BitVec.ofNat 32 i) = 0) :
      Effect host files m c ((m.call .refused).setSlot files (BitVec.ofNat 32 i) 0)
  | opened (i : Nat) (p : Word) (hfi : c.fi = none) (hi : i < 16) (hp : p ≠ 0)
      (hnew : p ∉ host.streams m.trace) (hfree : m.slot files (BitVec.ofNat 32 i) = 0) :
      Effect host files m c ((m.call (.opened p)).setSlot files (BitVec.ofNat 32 i) p)
  | used (fi : Word) (f : StreamFn) (args : List Word) (hfi : c.fi = some fi) (hf : f ≠ .fclose) :
      Effect host files m c (m.call (.passed fi f (m.slot files fi) args))
  | closed (fi : Word) (hfi : c.fi = some fi) :
      Effect host files m c
        ((m.call (.passed fi .fclose (m.slot files fi) [])).setSlot files fi 0)

theorem openStream_effect {p : Word} (hfi : c.fi = none) (hp : p = 0 ∨ p ∉ host.streams m.trace)
    (h : openStream files p m = some (r, m')) : Effect host files m c m' := by
  unfold openStream at h
  split at h
  · cases h
  rename_i i hfirst
  obtain ⟨hi, hfree⟩ := firstFree_some hfirst
  obtain ⟨-, rfl⟩ := Prod.mk.inj (Option.some.inj h)
  by_cases h0 : p = 0
  · subst h0
    exact .failed i hfi hi hfree
  · rw [if_neg h0]
    exact .opened i p hfi hi h0 (hp.resolve_left h0) hfree

theorem passStream_effect {fi : Word} {f : StreamFn} {args : List Word} (hfi : c.fi = some fi)
    (hf : f ≠ .fclose) (h : passStream host files f fi args m = some (r, m')) :
    Effect host files m c m' := by
  obtain ⟨-, rfl⟩ := Prod.mk.inj (Option.some.inj h)
  exact .used fi f args hfi hf

theorem wrapper_effect (h : c.wrapper host files m = some (r, m')) : Effect host files m c m' := by
  cases c with
  | fopen path mode => exact openStream_effect rfl (host.fopen_fresh _ _ _) h
  | fdopen fd mode => exact openStream_effect rfl (host.fdopen_fresh _ _ _) h
  | fclose fi =>
    obtain ⟨-, rfl⟩ := Prod.mk.inj (Option.some.inj h)
    exact .closed fi rfl
  | _ => exact passStream_effect rfl (by decide) h

/-- A call adds to the trace what it may add exactly if its stream number names an entry
that holds a stream. -/
theorem effect_checked (h : Effect host files m c m') (ht : TableOk host files m) :
    Checked host m'.trace ↔ Names files m c ∧ Checked host m.trace := by
  have hpass : ∀ fi, c.fi = some fi →
      (fi.toNat < 16 ∧ m.slot files fi ∈ host.streams m.trace ↔ Names files m c) := by
    intro fi hfi
    constructor
    · rintro ⟨hlt, hin⟩ fi' hfi'
      rw [hfi] at hfi'
      obtain rfl := Option.some.inj hfi'
      exact ⟨hlt, fun h0 => ht.not_null (h0 ▸ hin)⟩
    · intro hn
      obtain ⟨hlt, hne⟩ := hn fi hfi
      have hin := ht.held fi.toNat hlt
      rw [ofNat_toNat] at hin
      exact ⟨hlt, hin hne⟩
  have hopen : c.fi = none → Names files m c := by
    intro hfi fi hfi'
    rw [hfi] at hfi'
    cases hfi'
  cases h with
  | failed i hfi | opened i p hfi => simp [Checked, hopen hfi]
  | used fi f args hfi hf => simp [Checked, hpass fi hfi]
  | closed fi hfi => simp [Checked, hpass fi hfi]

theorem streams_opened (p : Word) (h : Trace) :
    host.streams (.opened p :: h) = insert p (host.streams h) := rfl

theorem streams_passed {fi p : Word} {f : StreamFn} {args : List Word} (hf : f ≠ .fclose) (h : Trace) :
    host.streams (.passed fi f p args :: h) = host.streams h := by
  simp [Host.streams, openStreams, hf]

theorem streams_closed (fi p : Word) (args : List Word) (h : Trace) :
    host.streams (.passed fi .fclose p args :: h) = (host.streams h).erase p := by
  simp [Host.streams, openStreams]

/-- Setting one entry keeps the table in order if the streams behind the others stay
open and the new one is among none of them. -/
theorem TableOk.set (ht : TableOk host files m) (h' : Trace) {i : Nat} {p : Word} (hi : i < 16)
    (hothers : ∀ j, j < 16 → j ≠ i → m.slot files (BitVec.ofNat 32 j) ≠ 0 →
      m.slot files (BitVec.ofNat 32 j) ∈ host.streams h')
    (hp : p ≠ 0 → p ∈ host.streams h' ∧ ∀ j, j < 16 → j ≠ i → m.slot files (BitVec.ofNat 32 j) ≠ p)
    (h0 : 0 ∉ host.streams h') :
    TableOk host files ((Loader.mk m.mem h').setSlot files (BitVec.ofNat 32 i) p) := by
  have hslot : ∀ j, j < 16 → j ≠ i →
      ((Loader.mk m.mem h').setSlot files (BitVec.ofNat 32 i) p).slot files (BitVec.ofNat 32 j) =
        m.slot files (BitVec.ofNat 32 j) :=
    fun j hj hne => setSlot_other hi hj (Ne.symm hne) _ p
  refine ⟨?_, ?_, h0⟩
  · intro j hj hne
    by_cases he : j = i
    · subst he
      rw [setSlot_same] at hne ⊢
      exact (hp hne).1
    · rw [hslot j hj he] at hne ⊢
      exact hothers j hj he hne
  · intro j k hj hk hne heq
    by_cases hji : j = i <;> by_cases hki : k = i
    · rw [hji, hki]
    · subst hji
      rw [setSlot_same] at hne heq
      rw [hslot k hk hki] at heq
      exact absurd heq.symm ((hp hne).2 k hk hki)
    · subst hki
      rw [setSlot_same] at heq
      rw [heq] at hne
      rw [hslot j hj hji] at heq
      exact absurd heq ((hp hne).2 j hj hji)
    · rw [hslot j hj hji] at hne heq
      rw [hslot k hk hki] at heq
      exact ht.distinct j k hj hk hne heq

/-- A call whose stream number names an entry that holds a stream keeps the table in order. -/
theorem effect_tableOk (h : Effect host files m c m') (ht : TableOk host files m)
    (hn : Names files m c) : TableOk host files m' := by
  cases h with
  | failed i hfi hi hfree =>
    apply ht.set (.refused :: m.trace) hi
    · exact fun j hj _ hne => ht.held j hj hne
    · exact fun h0 => absurd rfl h0
    · exact ht.not_null
  | opened i p hfi hi hp hnew hfree =>
    apply ht.set (.opened p :: m.trace) hi
    · intro j hj _ hne
      rw [streams_opened]
      exact Finset.mem_insert_of_mem (ht.held j hj hne)
    · refine fun _ => ⟨?_, ?_⟩
      · rw [streams_opened]
        exact Finset.mem_insert_self _ _
      · rintro j hj - rfl
        exact hnew (ht.held j hj hp)
    · rw [streams_opened, Finset.mem_insert]
      rintro (h0 | h0)
      · exact hp h0.symm
      · exact ht.not_null h0
  | used fi f args hfi hf =>
    refine ⟨?_, ht.distinct, ?_⟩
    · intro j hj hne
      rw [call_trace, streams_passed hf]
      exact ht.held j hj hne
    · rw [call_trace, streams_passed hf]
      exact ht.not_null
  | closed fi hfi =>
    obtain ⟨hlt, hne⟩ := hn fi hfi
    rw [← ofNat_toNat fi] at hne ⊢
    apply ht.set (.passed _ .fclose (m.slot files (BitVec.ofNat 32 fi.toNat)) [] :: m.trace) hlt
    · intro j hj hj' hne'
      rw [streams_closed]
      -- the entry that is closed held a stream of its own
      refine Finset.mem_erase.mpr ⟨?_, ht.held j hj hne'⟩
      exact fun he => hj' (ht.distinct j fi.toNat hj hlt hne' he)
    · exact fun h0 => absurd rfl h0
    · rw [streams_closed]
      exact fun h0 => ht.not_null (Finset.mem_of_mem_erase h0)

/-- Nothing that is in the trace is taken back. -/
theorem checked_of_run {cs : List Call} (h : Checked host (runCalls host files m cs).trace) :
    Checked host m.trace := by
  induction cs generalizing m with
  | nil => exact h
  | cons c cs ih =>
    unfold runCalls at h
    split at h
    · exact h
    · rename_i r m' hw
      have hm' := ih h
      cases wrapper_effect hw with
      | failed | opened => exact hm'
      | used | closed => exact hm'.2

theorem checked_run_iff {cs : List Call} (ht : TableOk host files m) :
    Checked host (runCalls host files m cs).trace ↔
      AllName host files m cs ∧ Checked host m.trace := by
  induction cs generalizing m with
  | nil => simp [runCalls, AllName]
  | cons c cs ih =>
    unfold runCalls AllName
    cases hw : c.wrapper host files m with
    | none =>
      -- only an open aborts, and it takes no stream number
      have hn : Names files m c := by
        intro fi hfi
        cases c with
        | fopen | fdopen => cases hfi
        | _ => cases hw
      simp [hn]
    | some out =>
      obtain ⟨r, m'⟩ := out
      have heff := wrapper_effect hw
      have hstep := effect_checked heff ht
      by_cases hn : Names files m c
      · rw [ih (effect_tableOk heff ht hn), hstep]
        simp [hn]
      · constructor
        · intro h
          exact absurd (hstep.mp (checked_of_run h)).1 hn
        · rintro ⟨⟨h, -⟩, -⟩
          exact absurd h hn

theorem Initialized.tableOk (h : Initialized host files m) : TableOk host files m := by
  obtain ⟨h1, h2, h3⟩ := host.standard_distinct
  obtain ⟨n1, n2, n3⟩ := host.standard_not_null
  have hs : host.streams m.trace = {host.stdin, host.stdout, host.stderr} := by rw [h.trace]; rfl
  have hlow : ∀ i, i < 16 → m.slot files (BitVec.ofNat 32 i) ≠ 0 →
      i = 0 ∧ m.slot files (BitVec.ofNat 32 i) = host.stdin ∨
        i = 1 ∧ m.slot files (BitVec.ofNat 32 i) = host.stdout ∨
        i = 2 ∧ m.slot files (BitVec.ofNat 32 i) = host.stderr := by
    intro i hi hne
    by_cases h3 : 3 ≤ i
    · exact absurd (h.free i h3 hi) hne
    · rcases (by omega : i = 0 ∨ i = 1 ∨ i = 2) with rfl | rfl | rfl
      · exact Or.inl ⟨rfl, h.stdin⟩
      · exact Or.inr (Or.inl ⟨rfl, h.stdout⟩)
      · exact Or.inr (Or.inr ⟨rfl, h.stderr⟩)
  refine ⟨?_, ?_, ?_⟩
  · intro i hi hne
    rw [hs]
    rcases hlow i hi hne with ⟨-, he⟩ | ⟨-, he⟩ | ⟨-, he⟩ <;> simp [he]
  · intro i j hi hj hne heq
    rcases hlow i hi hne with ⟨rfl, hi'⟩ | ⟨rfl, hi'⟩ | ⟨rfl, hi'⟩ <;>
      rcases hlow j hj (heq ▸ hne) with ⟨rfl, hj'⟩ | ⟨rfl, hj'⟩ | ⟨rfl, hj'⟩ <;>
      simp_all
  · rw [hs]
    simp only [Finset.mem_insert, Finset.mem_singleton]
    rintro (h0 | h0 | h0)
    · exact n1 h0.symm
    · exact n2 h0.symm
    · exact n3 h0.symm

end

/-- A host with its standard streams at 1, 2 and 3 that opens nothing. -/
def closedHost : Host where
  stdin := 1
  stdout := 2
  stderr := 3
  fopen _ _ _ := 0
  fdopen _ _ _ := 0
  respond _ := 0
  standard_distinct := by decide
  standard_not_null := by decide
  fopen_fresh _ _ _ := Or.inl rfl
  fdopen_fresh _ _ _ := Or.inl rfl

/-- The memory behind `init_wrappers`, with the table at address 0. -/
def initialLoader : Loader where
  mem a := if a = 0 then 1 else if a = 4 then 2 else if a = 8 then 3 else 0
  trace := []

theorem initialLoader_ok : Initialized closedHost 0 initialLoader where
  stdin := by decide
  stdout := by decide
  stderr := by decide
  free := by
    have hall : ∀ i < 16, 3 ≤ i → initialLoader.slot 0 (BitVec.ofNat 32 i) = 0 := by decide
    exact fun i h3 hi => hall i hi h3
  trace := rfl

end Pittsfield.Wrappers
