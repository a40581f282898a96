import Pittsfield.StringOps.Expand

/-!
# The loops against the hardware

The loops keep `%eax` below `%esp` where they use it, and compare with the operands the
other way round. One round of a loop does what one round of the instruction does, but
for the flags of an unequal comparison; the induction over the rounds carries the
relation `Follows`.
-/

namespace Pittsfield.StringOps

open Pittsfield.Region
open Pittsfield.Machine
open StateTransition

/-- The instruction keeps `%eax` on the stack during the loop. -/
def StringOp.saves : StringOp → Bool
  | .stosl => false
  | _ => true

/-- The loop uses `%eax` for itself. -/
def StringOp.spoils : StringOp → Bool
  | .movsl | .cmpsb => true
  | _ => false

/-- The instructions of a round, without the jumps. -/
def StringOp.body : StringOp → List Insn
  | .movsl =>
    [.loadl .esi .eax, .storel .eax .edi, .leal 4 .esi .esi, .leal 4 .edi .edi, .leal (-1) .ecx .ecx]
  | .stosl => [.storel .eax .edi, .leal 4 .edi .edi, .leal (-1) .ecx .ecx]
  | .cmpsb =>
    [.loadb .esi .al, .cmpb .al .edi, .leal 1 .esi .esi, .leal 1 .edi .edi, .leal (-1) .ecx .ecx]
  | .scasb => [.cmpb .al .edi, .leal 1 .edi .edi, .leal (-1) .ecx .ecx]

/-- The jump at the end of the loop. -/
def StringOp.jumpBack (head : String) : StringOp → Insn
  | .movsl | .stosl => .jmp head
  | .cmpsb => .jz head
  | .scasb => .jnz head

/-- The lines of the four loops, for any two labels. -/
def StringOp.lines (op : StringOp) (head tail : String) : List Line :=
  (if op.saves then [.insn (.pushl .eax)] else []) ++ [.label head, .insn (.jecxz tail)] ++
    (op.body ++ [op.jumpBack head]).map .insn ++ [.label tail] ++
    if op.saves then [.insn (.popl .eax)] else []

def StringOp.headPc (op : StringOp) : Nat := if op.saves then 1 else 0

def StringOp.tailPc (op : StringOp) : Nat := op.headPc + 2 + op.body.length + 1

theorem expand_eq (op : StringOp) (n : Nat) :
    expand op.prefixText op.text n = .ok (op.lines (loopLabel n) (loopLabel (n + 1))) := by
  cases op <;> rfl

theorem loopLabel_ne (n : Nat) : loopLabel n ≠ loopLabel (n + 1) := by
  intro h
  have hr : Nat.repr n = Nat.repr (n + 1) := (String.append_right_inj _).mp h
  have hd : Nat.toDigits 10 n = Nat.toDigits 10 (n + 1) := by
    rw [← Nat.toList_repr, ← Nat.toList_repr, hr]
  have hn := congrArg (Nat.ofDigitChars 10 · 0) hd
  simp only [Nat.ofDigitChars_ten_toDigits] at hn
  omega

section Steps

variable {prog : List Line} {pc : Nat} {t : Cpu} {i : Insn} {l : String}

theorem step_label (h : prog[pc]? = some (.label l)) : step prog ⟨pc, t⟩ = some ⟨pc + 1, t⟩ := by
  simp [step, h]

theorem step_next (h : prog[pc]? = some (.insn i)) (hj : i.jumpsTo t = none) :
    step prog ⟨pc, t⟩ = some ⟨pc + 1, i.effect t⟩ := by
  simp [step, h, hj]

theorem step_jump {k : Nat} (h : prog[pc]? = some (.insn i)) (hj : i.jumpsTo t = some l)
    (hk : labelIndex l prog = some k) : step prog ⟨pc, t⟩ = some ⟨k, i.effect t⟩ := by
  simp [step, h, hj, hk]

theorem step_end (h : prog.length ≤ pc) : step prog ⟨pc, t⟩ = none := by
  simp [step, List.getElem?_eq_none h]

/-- Instructions in a row that do not jump. -/
theorem reaches_row {is : List Insn} {rest : List Line}
    (h : prog.drop pc = is.map .insn ++ rest) (hj : ∀ i ∈ is, ∀ t, i.jumpsTo t = none) :
    Reaches (step prog) ⟨pc, t⟩ ⟨pc + is.length, is.foldl (fun t i => i.effect t) t⟩ := by
  induction is generalizing pc t with
  | nil => exact .refl
  | cons i is ih =>
    have hget : prog[pc]? = some (.insn i) := by
      have h0 := congrArg (·[0]?) h
      simpa [List.getElem?_drop] using h0
    have hdrop : prog.drop (pc + 1) = is.map .insn ++ rest := by
      rw [← List.drop_drop, h]
      rfl
    have hrest := ih (t := i.effect t) hdrop fun j hm => hj j (List.mem_cons_of_mem _ hm)
    rw [Nat.add_assoc, Nat.add_comm 1] at hrest
    exact .head (step_next hget (hj i List.mem_cons_self t)) hrest

end Steps

section Loop

variable {head tail : String} {op : StringOp} {t : Cpu}

/-- What a round of the loop does. -/
def StringOp.loopRound (op : StringOp) (t : Cpu) : Cpu := op.body.foldl (fun t i => i.effect t) t

theorem lines_head (op : StringOp) : (op.lines head tail)[op.headPc]? = some (.label head) := by
  cases op <;> rfl

theorem lines_jecxz (op : StringOp) :
    (op.lines head tail)[op.headPc + 1]? = some (.insn (.jecxz tail)) := by
  cases op <;> rfl

theorem lines_body (op : StringOp) : ∃ rest,
    (op.lines head tail).drop (op.headPc + 2) = op.body.map .insn ++ rest := by
  cases op <;> exact ⟨_, rfl⟩

theorem lines_jumpBack (op : StringOp) :
    (op.lines head tail)[op.headPc + 2 + op.body.length]? = some (.insn (op.jumpBack head)) := by
  cases op <;> rfl

theorem labelIndex_head (op : StringOp) :
    labelIndex head (op.lines head tail) = some op.headPc := by
  cases op <;> simp [StringOp.lines, StringOp.saves, StringOp.headPc, labelIndex]

theorem labelIndex_tail (op : StringOp) (hne : head ≠ tail) :
    labelIndex tail (op.lines head tail) = some op.tailPc := by
  cases op <;>
    simp [StringOp.lines, StringOp.saves, StringOp.headPc, StringOp.tailPc, StringOp.body,
      StringOp.jumpBack, labelIndex, hne]

theorem body_jumpsTo : ∀ i ∈ op.body, ∀ t, i.jumpsTo t = none := by
  intro i hi t
  cases op <;> simp only [StringOp.body, List.mem_cons, List.not_mem_nil, or_false] at hi <;>
    rcases hi with rfl | rfl | rfl | rfl | rfl <;> rfl

theorem jumpBack_jumpsTo :
    (op.jumpBack head).jumpsTo t = if op.again t then some head else none := by
  cases op with
  | movsl | stosl | cmpsb => rfl
  | scasb =>
    show (if (status t.eflags).zf = true then none else some head) =
      if (!(status t.eflags).zf) = true then some head else none
    by_cases hz : (status t.eflags).zf = true
    · simp [hz]
    · simp [hz]

theorem jumpBack_effect : (op.jumpBack head).effect t = t := by
  cases op <;> rfl

/-- The loop is left at its head if `%ecx` is zero. -/
theorem reaches_tail (hne : head ≠ tail) (h : t.reg .ecx = 0) :
    Reaches (step (op.lines head tail)) ⟨op.headPc, t⟩ ⟨op.tailPc, t⟩ := by
  have hj : (Insn.jecxz tail).jumpsTo t = some tail := if_pos h
  exact .head (step_label (lines_head op))
    (.head (step_jump (lines_jecxz op) hj (labelIndex_tail op hne)) .refl)

/-- One round, from the head back to it or to the tail. -/
theorem reaches_round (h : t.reg .ecx ≠ 0) :
    Reaches (step (op.lines head tail)) ⟨op.headPc, t⟩
      ⟨if op.again (op.loopRound t) then op.headPc else op.tailPc, op.loopRound t⟩ := by
  have hj : (Insn.jecxz tail).jumpsTo t = none := if_neg h
  obtain ⟨rest, hbody⟩ : ∃ rest, (op.lines head tail).drop (op.headPc + 2) =
      op.body.map .insn ++ rest := lines_body op
  refine .head (step_label (lines_head op)) (.head (step_next (lines_jecxz op) hj) ?_)
  refine .trans (reaches_row hbody body_jumpsTo) ?_
  by_cases hz : op.again (op.loopRound t) = true
  · rw [if_pos hz]
    refine .head (step_jump (l := head) (lines_jumpBack op) ?_ (labelIndex_head op)) ?_
    · rw [jumpBack_jumpsTo]
      exact if_pos hz
    · rw [jumpBack_effect]
      exact .refl
  · rw [if_neg hz]
    refine .head (step_next (lines_jumpBack op) ?_) ?_
    · rw [jumpBack_jumpsTo]
      exact if_neg hz
    · rw [jumpBack_effect]
      exact .refl

end Loop

section Rounds

variable {op : StringOp} {bytes : List Word} {s t : Cpu}

/-- A store of the same value at the same place keeps two memories equal where they are. -/
theorem putBytes_congr {mem mem' : Word → BitVec 8} {a v x : Word} {n : Nat} (h : mem' x = mem x) :
    Cpu.putBytes mem' a v n x = Cpu.putBytes mem a v n x := by
  induction n generalizing a v with
  | zero => exact h
  | succ n ih =>
    unfold Cpu.putBytes
    by_cases hx : x = a
    · rw [hx, Function.update_self, Function.update_self]
    · rw [Function.update_of_ne hx, Function.update_of_ne hx, ih]

/-- What the machine at the head of the loop (`t`) has in common with the instruction
between two rounds (`s`): all but the flags. -/
structure Follows (op : StringOp) (bytes : List Word) (s t : Cpu) : Prop where
  reg : ∀ r, r ≠ .esp → (r = .eax → op.spoils = false) → t.reg r = s.reg r
  esp : t.reg .esp = if op.saves then s.reg .esp - 4 else s.reg .esp
  mem : ∀ a, a ∉ bytes → t.mem a = s.mem a
  slot : ∀ k < 4, s.reg .esp - 4 + BitVec.ofNat 32 k ∈ bytes
  saved : op.saves = true → t.load .dword (s.reg .esp - 4) = s.reg .eax

theorem Follows.load (hf : Follows op bytes s t) {a : Word}
    (ha : ∀ k < 4, a + BitVec.ofNat 32 k ∉ bytes) : t.load .dword a = s.load .dword a :=
  Cpu.bytesAt_congr fun k hk => hf.mem _ (ha k hk)

/-- A store outside the bytes keeps what is saved there. -/
theorem Follows.store (hf : Follows op bytes s t) {a v : Word}
    (ha : ∀ k < 4, a + BitVec.ofNat 32 k ∉ bytes) :
    Follows op bytes (s.store .dword a v) (t.store .dword a v) where
  reg := hf.reg
  esp := hf.esp
  mem x hx := putBytes_congr (hf.mem x hx)
  slot := hf.slot
  saved h := by
    show Cpu.bytesAt _ _ 4 = _
    refine (Cpu.bytesAt_congr fun k hk => ?_).trans (hf.saved h)
    apply Cpu.putBytes_other
    intro j hj he
    exact ha j hj (he ▸ hf.slot k hk)

/-- Changing the same register in the same way. -/
theorem Follows.setReg (hf : Follows op bytes s t) {r : Reg32} {v : Word} (hesp : r ≠ .esp)
    (heax : r ≠ .eax) : Follows op bytes (s.setReg r v) (t.setReg r v) where
  reg q hq h := by
    by_cases he : q = r
    · subst he
      rw [Cpu.setReg_same, Cpu.setReg_same]
    · rw [Cpu.setReg_other _ _ he, Cpu.setReg_other _ _ he]
      exact hf.reg q hq h
  esp := by
    rw [Cpu.setReg_other _ _ hesp.symm, Cpu.setReg_other _ _ hesp.symm]
    exact hf.esp
  mem := hf.mem
  slot := by
    rw [Cpu.setReg_other _ _ hesp.symm]
    exact hf.slot
  saved h := by
    rw [Cpu.setReg_other _ _ hesp.symm, Cpu.setReg_other _ _ heax.symm, Cpu.load_setReg]
    exact hf.saved h

/-- The loop may change `%eax` where it has kept it. -/
theorem Follows.spoil (hf : Follows op bytes s t) (h : op.spoils = true) (v : Word) :
    Follows op bytes s (t.setReg .eax v) where
  reg q hq hs := by
    by_cases he : q = .eax
    · rw [h] at hs
      cases hs he
    · rw [Cpu.setReg_other _ _ he]
      exact hf.reg q hq hs
  esp := by
    rw [Cpu.setReg_other _ _ (by decide)]
    exact hf.esp
  mem := hf.mem
  slot := hf.slot
  saved := hf.saved

theorem Follows.setFlags (hf : Follows op bytes s t) (v w : Word) :
    Follows op bytes (s.setFlags v) (t.setFlags w) :=
  ⟨hf.reg, hf.esp, hf.mem, hf.slot, hf.saved⟩

/-- `leal -1(%ecx), %ecx` -/
theorem add_neg_one (x : Word) : x + BitVec.ofInt 32 (-1) = x - 1 := by
  rw [BitVec.sub_eq_add_neg]
  rfl

/-- A step of a pointer or of the counter. -/
theorem Follows.lea (hf : Follows op bytes s t) {r : Reg32} (d : Int) (hesp : r ≠ .esp)
    (heax : r ≠ .eax) : Follows op bytes (s.setReg r (s.reg r + BitVec.ofInt 32 d))
      ((Insn.leal d r r).effect t) := by
  have hr : t.reg r = s.reg r := hf.reg r hesp fun h => absurd h heax
  rw [Insn.effect, hr]
  exact hf.setReg hesp heax

theorem Follows.reg_eq (hf : Follows op bytes s t) {r : Reg32} (hesp : r ≠ .esp)
    (heax : r = .eax → op.spoils = false) : t.reg r = s.reg r := hf.reg r hesp heax

/-- The low byte that `movb` has loaded. -/
theorem readReg_loaded (t : Cpu) (v : Word) :
    ((t.writeReg v (.r8 .al)).readReg (.r8 .al)).setWidth 8 = v.setWidth 8 := by
  show ((((t.reg .eax &&& 0xffffff00) ||| (v &&& 0xff)).setWidth 8).setWidth 32).setWidth 8 = _
  have h0 : (0xffffff00 : Word).setWidth 8 = 0#8 := by decide
  have h1 : (0xff : Word).setWidth 8 = BitVec.allOnes 8 := by decide
  rw [BitVec.setWidth_or, BitVec.setWidth_and, BitVec.setWidth_and, h0, h1, BitVec.and_zero,
    BitVec.zero_or, BitVec.and_allOnes]
  simp

theorem load_byte (s : Cpu) (a : Word) : (s.load .byte a).setWidth 8 = s.mem a := by
  show ((s.mem a).setWidth 32 ||| (0 : Word) <<< 8).setWidth 8 = s.mem a
  simp

/-- The operands of `n` bytes at `a` avoid the bytes if all of them are listed. -/
theorem avoids_range {ops : List Word} {a : Word} {n : Nat} (hops : ∀ x ∈ ops, x ∉ bytes)
    (h : ∀ x ∈ (List.range n).map (a + BitVec.ofNat 32 ·), x ∈ ops) :
    ∀ k < n, a + BitVec.ofNat 32 k ∉ bytes := fun _ hk =>
  hops _ (h _ (List.mem_map_of_mem (List.mem_range.mpr hk)))

/-- One round of the loop and one of the instruction, but for the flags. -/
theorem Follows.round (hf : Follows op bytes s t) (hops : ∀ a ∈ op.operands s, a ∉ bytes) :
    Follows op bytes (op.round s) (op.loopRound t) := by
  have hesi : t.reg .esi = s.reg .esi := hf.reg .esi (by decide) nofun
  have hedi : t.reg .edi = s.reg .edi := hf.reg .edi (by decide) nofun
  cases op with
  | movsl =>
    have hsrc := avoids_range hops fun x => List.mem_append_left _
    have hdst := avoids_range hops fun x => List.mem_append_right _
    have hstore : Follows .movsl bytes (s.store .dword (s.reg .edi) (s.load .dword (s.reg .esi)))
        ((Insn.storel .eax .edi).effect ((Insn.loadl .esi .eax).effect t)) := by
      show Follows _ _ _ ((t.setReg .eax (t.load .dword (t.reg .esi))).store .dword (t.reg .edi)
        (t.load .dword (t.reg .esi)))
      rw [hesi, hedi, hf.load hsrc]
      exact (hf.spoil rfl _).store hdst
    have h := ((hstore.lea (r := .esi) 4 (by decide) (by decide)).lea (r := .edi) 4 (by decide)
      (by decide)).lea (r := .ecx) (-1) (by decide) (by decide)
    rw [add_neg_one] at h
    exact h
  | stosl =>
    have heax : t.reg .eax = s.reg .eax := hf.reg .eax (by decide) fun _ => rfl
    have hdst := avoids_range hops fun x => id
    have hstore : Follows .stosl bytes (s.store .dword (s.reg .edi) (s.reg .eax))
        ((Insn.storel .eax .edi).effect t) := by
      show Follows _ _ _ (t.store .dword (t.reg .edi) (t.reg .eax))
      rw [hedi, heax]
      exact hf.store hdst
    have h := (hstore.lea (r := .edi) 4 (by decide) (by decide)).lea (r := .ecx) (-1) (by decide)
      (by decide)
    rw [add_neg_one] at h
    exact h
  | cmpsb =>
    have hcmp : Follows .cmpsb bytes
        (s.setFlags (subFlags (s.mem (s.reg .esi)) (s.mem (s.reg .edi)) s.eflags))
        ((Insn.cmpb .al .edi).effect ((Insn.loadb .esi .al).effect t)) :=
      (hf.spoil rfl _).setFlags _ _
    have h := ((hcmp.lea (r := .esi) 1 (by decide) (by decide)).lea (r := .edi) 1 (by decide)
      (by decide)).lea (r := .ecx) (-1) (by decide) (by decide)
    rw [add_neg_one] at h
    exact h
  | scasb =>
    have hcmp : Follows .scasb bytes
        (s.setFlags (subFlags (al s) (s.mem (s.reg .edi)) s.eflags))
        ((Insn.cmpb .al .edi).effect t) := hf.setFlags _ _
    have h := (hcmp.lea (r := .edi) 1 (by decide) (by decide)).lea (r := .ecx) (-1) (by decide)
      (by decide)
    rw [add_neg_one] at h
    exact h

/-- The bytes that a round compares are equal; nothing is asked of the other two. -/
def StringOp.Equal (op : StringOp) (s : Cpu) : Prop :=
  match op with
  | .movsl | .stosl => True
  | .cmpsb => s.mem (s.reg .esi) = s.mem (s.reg .edi)
  | .scasb => al s = s.mem (s.reg .edi)

/-- The instruction compares. -/
def StringOp.compares : StringOp → Bool
  | .movsl | .stosl => false
  | .cmpsb | .scasb => true

/-- The flags of the loop behind a round are those of a comparison the other way round. -/
theorem round_status (hf : Follows op bytes s t) (hops : ∀ a ∈ op.operands s, a ∉ bytes)
    (hc : op.compares = true) :
    (status (op.loopRound t).eflags).zf = (status (op.round s).eflags).zf ∧
      (status (op.loopRound t).eflags = status (op.round s).eflags ↔ op.Equal s) := by
  have hesi : t.reg .esi = s.reg .esi := hf.reg .esi (by decide) nofun
  have hedi : t.reg .edi = s.reg .edi := hf.reg .edi (by decide) nofun
  cases op with
  | movsl | stosl => cases hc
  | cmpsb =>
    have hsrc : t.mem (s.reg .esi) = s.mem (s.reg .esi) := hf.mem _ (hops _ (by simp [StringOp.operands]))
    have hdst : t.mem (s.reg .edi) = s.mem (s.reg .edi) := hf.mem _ (hops _ (by simp [StringOp.operands]))
    have hflags : (StringOp.loopRound .cmpsb t).eflags =
        subFlags (s.mem (s.reg .edi)) (s.mem (s.reg .esi)) t.eflags := by
      show subFlags (t.mem (t.reg .edi)) (((t.writeReg (t.load .byte (t.reg .esi)) (.r8 .al)).readReg
        (.r8 .al)).setWidth 8) t.eflags = _
      rw [readReg_loaded, load_byte, hesi, hedi, hsrc, hdst]
    rw [hflags]
    exact ⟨zf_subFlags_swap _ _ _ _, status_subFlags_swap.trans eq_comm⟩
  | scasb =>
    have heax : t.reg .eax = s.reg .eax := hf.reg .eax (by decide) fun _ => rfl
    have hdst : t.mem (s.reg .edi) = s.mem (s.reg .edi) := hf.mem _ (hops _ (by simp [StringOp.operands]))
    have hflags : (StringOp.loopRound .scasb t).eflags =
        subFlags (s.mem (s.reg .edi)) (al s) t.eflags := by
      show subFlags (t.mem (t.reg .edi)) ((((t.reg .eax).setWidth 8).setWidth 32).setWidth 8)
        t.eflags = _
      rw [heax, hedi, hdst]
      simp [al]
    rw [hflags]
    exact ⟨zf_subFlags_swap _ _ _ _, status_subFlags_swap.trans eq_comm⟩

theorem round_ecx (op : StringOp) (s : Cpu) : (op.round s).reg .ecx = s.reg .ecx - 1 := by
  cases op <;> exact Cpu.setReg_same _ _ _

/-- Whether another round follows is decided by the zero flag, on which both agree. -/
theorem again_eq (hf : Follows op bytes s t) (hops : ∀ a ∈ op.operands s, a ∉ bytes) :
    op.again (op.loopRound t) = op.again (op.round s) := by
  cases op with
  | movsl | stosl => rfl
  | cmpsb => exact (round_status hf hops rfl).1
  | scasb => exact congrArg (!·) (round_status hf hops rfl).1

/-- The condition on the bytes, one round at a time. -/
theorem settled_succ (n : Nat) (hc : op.compares = true) :
    op.Settled (n + 1) s ↔
      if op.again (op.round s) ∧ n ≠ 0 then op.Settled n (op.round s) else op.Equal s := by
  have hshift : ∀ (a : Word) (k : Nat), a + 1 + BitVec.ofNat 32 k = a + BitVec.ofNat 32 (k + 1) :=
    Cpu.add_one_ofNat
  cases op with
  | movsl | stosl => cases hc
  | cmpsb =>
    have hagain : StringOp.again .cmpsb (StringOp.round .cmpsb s) = true ↔
        s.mem (s.reg .esi) = s.mem (s.reg .edi) := by
      show (status (subFlags _ _ _)).zf = true ↔ _
      rw [zf_subFlags, decide_eq_true_iff]
    have hsucc : StringOp.Settled .cmpsb (n + 1) s ↔ s.mem (s.reg .esi) = s.mem (s.reg .edi) ∧
        StringOp.Settled .cmpsb n (StringOp.round .cmpsb s) := by
      constructor
      · intro h
        refine ⟨by simpa using h 0 (Nat.succ_pos n), fun i hi => ?_⟩
        show s.mem (s.reg .esi + 1 + _) = s.mem (s.reg .edi + 1 + _)
        rw [hshift, hshift]
        exact h (i + 1) (Nat.succ_lt_succ hi)
      · rintro ⟨h0, h⟩ i hi
        cases i with
        | zero => simpa using h0
        | succ i =>
          have hi' := h i (Nat.lt_of_succ_lt_succ hi)
          change s.mem (s.reg .esi + 1 + _) = s.mem (s.reg .edi + 1 + _) at hi'
          rwa [hshift, hshift] at hi'
    rw [hsucc]
    split
    · rename_i h
      simp [hagain.mp h.1]
    · rename_i h
      by_cases hE : s.mem (s.reg .esi) = s.mem (s.reg .edi)
      · have hn : n = 0 := by
          by_contra hn
          exact h ⟨hagain.mpr hE, hn⟩
        subst hn
        simp [StringOp.Settled, StringOp.Equal]
      · simp [hE, StringOp.Equal]
  | scasb =>
    have hagain : StringOp.again .scasb (StringOp.round .scasb s) = true ↔
        ¬ al s = s.mem (s.reg .edi) := by
      show (!(status (subFlags _ _ _)).zf) = true ↔ _
      rw [zf_subFlags]
      simp
    have hsucc : StringOp.Settled .scasb (n + 1) s ↔ al s = s.mem (s.reg .edi) ∨
        n ≠ 0 ∧ StringOp.Settled .scasb n (StringOp.round .scasb s) := by
      constructor
      · rintro (h | ⟨i, hi, h⟩)
        · cases h
        cases i with
        | zero => exact Or.inl (by simpa using h.symm)
        | succ i =>
          refine Or.inr ⟨by omega, Or.inr ⟨i, by omega, ?_⟩⟩
          show s.mem (s.reg .edi + 1 + _) = al s
          rwa [hshift]
      · rintro (h | ⟨hn, h | ⟨i, hi, h⟩⟩)
        · exact Or.inr ⟨0, Nat.succ_pos n, by simpa using h.symm⟩
        · exact absurd h hn
        · change s.mem (s.reg .edi + 1 + _) = al s at h
          rw [hshift] at h
          exact Or.inr ⟨i + 1, by omega, h⟩
    rw [hsucc]
    split
    · rename_i h
      simp [hagain.mp h.1, h.2]
    · rename_i h
      by_cases hE : al s = s.mem (s.reg .edi)
      · simp [hE, StringOp.Equal]
      · have hn : n = 0 := by
          by_contra hn
          exact h ⟨hagain.mpr hE, hn⟩
        simp [hE, hn, StringOp.Equal]

/-- All rounds of the loop and of the instruction. -/
theorem loop_run {head tail : String} (hne : head ≠ tail) (n : Nat) (hf : Follows op bytes s t)
    (hn : (s.reg .ecx).toNat = n) (ha : op.Avoids bytes n s) :
    ∃ t', Reaches (step (op.lines head tail)) ⟨op.headPc, t⟩ ⟨op.tailPc, t'⟩ ∧
      Follows op bytes (op.repeated n s) t' ∧
      (status t'.eflags = status (op.repeated n s).eflags ↔
        if op.compares = true ∧ n ≠ 0 then op.Settled n s else status t.eflags = status s.eflags) := by
  induction n generalizing s t with
  | zero =>
    have hecx : t.reg .ecx = 0 := by
      rw [hf.reg .ecx (by decide) nofun]
      exact BitVec.eq_of_toNat_eq hn
    exact ⟨t, reaches_tail hne hecx, hf, by simp [StringOp.repeated]⟩
  | succ n ih =>
    obtain ⟨hops, hrest⟩ := ha
    have hecx : t.reg .ecx ≠ 0 := by
      rw [hf.reg .ecx (by decide) nofun]
      intro h0
      rw [h0] at hn
      cases hn
    have hround : Reaches (step (op.lines head tail)) ⟨op.headPc, t⟩ _ := reaches_round hecx
    have hf' := hf.round hops
    rw [again_eq hf hops] at hround
    have hn' : ((op.round s).reg .ecx).toNat = n := by
      rw [round_ecx]
      bv_omega
    by_cases hz : op.again (op.round s) = true
    · rw [if_pos hz] at hround
      obtain ⟨t', hreach, hf'', hst⟩ := ih hf' hn' (hrest hz)
      refine ⟨t', hround.trans hreach, ?_, ?_⟩
      · rw [StringOp.repeated, if_pos hz]
        exact hf''
      · rw [StringOp.repeated, if_pos hz, hst]
        by_cases hc : op.compares = true
        · have hs := (round_status hf hops hc).2
          by_cases h0 : n = 0
          · simp [hc, hz, h0, hs, settled_succ]
          · simp [hc, hz, h0, settled_succ]
        · rw [if_neg fun h => hc h.1, if_neg fun h => hc h.1]
          cases op with
          | movsl | stosl => rfl
          | cmpsb | scasb => exact absurd rfl hc
    · rw [if_neg hz] at hround
      refine ⟨op.loopRound t, hround, ?_, ?_⟩
      · rw [StringOp.repeated, if_neg hz]
        exact hf'
      · have hc : op.compares = true := by
          cases op with
          | movsl | stosl => exact absurd rfl hz
          | cmpsb | scasb => rfl
        rw [StringOp.repeated, if_neg hz, if_pos ⟨hc, Nat.succ_ne_zero n⟩, settled_succ n hc,
          if_neg fun h => hz h.1]
        exact (round_status hf hops hc).2

/-- Up to the head of the loop. -/
theorem reaches_head (head tail : String) (op : StringOp) (s : Cpu) :
    ∃ t, Reaches (step (op.lines head tail)) ⟨0, s⟩ ⟨op.headPc, t⟩ ∧ Follows op (belowEsp s) s t ∧
      t.eflags = s.eflags := by
  have hslot : ∀ k < 4, s.reg .esp - 4 + BitVec.ofNat 32 k ∈ belowEsp s := fun k hk =>
    List.mem_map_of_mem (List.mem_range.mpr hk)
  by_cases hs : op.saves = true
  · have hline : (op.lines head tail)[0]? = some (.insn (.pushl .eax)) := by
      simp [StringOp.lines, hs]
    have hpc : op.headPc = 1 := if_pos hs
    refine ⟨(Insn.pushl .eax).effect s, ?_, ?_, rfl⟩
    · rw [hpc]
      exact .head (step_next hline rfl) .refl
    · refine ⟨fun r hr _ => Cpu.setReg_other _ _ hr, ?_, ?_, hslot, ?_⟩
      · rw [if_pos hs]
        exact Cpu.setReg_same _ _ _
      · intro a ha
        apply Cpu.putBytes_other
        intro k hk he
        exact ha (he ▸ hslot k hk)
      · intro _
        show ((s.store .dword _ _).setReg .esp _).load .dword _ = _
        rw [Cpu.load_setReg, Cpu.load_store]
  · have hpc : op.headPc = 0 := if_neg hs
    refine ⟨s, by rw [hpc]; exact .refl, ?_, rfl⟩
    exact ⟨fun _ _ _ => rfl, by rw [if_neg hs], fun _ _ => rfl, hslot, fun h => absurd h hs⟩

/-- From the tail of the loop to the end. -/
theorem reaches_end (head tail : String) (hf : Follows op bytes s t) :
    ∃ t', Reaches (step (op.lines head tail)) ⟨op.tailPc, t⟩ ⟨(op.lines head tail).length, t'⟩ ∧
      t'.reg = s.reg ∧ (∀ a, a ∉ bytes → t'.mem a = s.mem a) ∧ t'.eflags = t.eflags := by
  have htail : (op.lines head tail)[op.tailPc]? = some (.label tail) := by
    cases op <;> rfl
  by_cases hs : op.saves = true
  · have hline : (op.lines head tail)[op.tailPc + 1]? = some (.insn (.popl .eax)) := by
      cases op with
      | stosl => cases hs
      | movsl | cmpsb | scasb => rfl
    have hlen : (op.lines head tail).length = op.tailPc + 1 + 1 := by
      cases op with
      | stosl => cases hs
      | movsl | cmpsb | scasb => rfl
    have hesp := hf.esp
    rw [if_pos hs] at hesp
    refine ⟨(Insn.popl .eax).effect t, ?_, ?_, hf.mem, rfl⟩
    · rw [hlen]
      exact .head (step_label htail) (.head (step_next hline rfl) .refl)
    · funext r
      by_cases ha : r = .eax
      · subst ha
        show ((t.setReg .esp _).setReg .eax (t.load .dword (t.reg .esp))).reg .eax = _
        rw [Cpu.setReg_same, hesp, hf.saved hs]
      · show ((t.setReg .esp (t.reg .esp + 4)).setReg .eax _).reg r = _
        rw [Cpu.setReg_other _ _ ha]
        by_cases he : r = .esp
        · subst he
          rw [Cpu.setReg_same, hesp, BitVec.sub_add_cancel]
        · rw [Cpu.setReg_other _ _ he]
          exact hf.reg r he fun h => absurd h ha
  · have hspoils : op.spoils = false := by
      cases op with
      | stosl | scasb => rfl
      | movsl | cmpsb => exact absurd rfl hs
    have hlen : (op.lines head tail).length = op.tailPc + 1 := by
      cases op with
      | stosl => rfl
      | movsl | cmpsb | scasb => exact absurd rfl hs
    have hesp := hf.esp
    rw [if_neg hs] at hesp
    refine ⟨t, ?_, ?_, hf.mem, rfl⟩
    · rw [hlen]
      exact .head (step_label htail) .refl
    · funext r
      by_cases he : r = .esp
      · subst he
        exact hesp
      · exact hf.reg r he fun _ => hspoils

theorem settled_zero : op.Settled 0 s := by
  cases op with
  | movsl | stosl => trivial
  | cmpsb => exact fun i hi => absurd hi (Nat.not_lt_zero i)
  | scasb => exact Or.inl rfl

/-- The lines run to their end and leave what the instruction leaves, but that the flags
are the same exactly if the bytes compared last are equal. -/
theorem lines_run (n : Nat) (ha : op.Avoids (belowEsp s) (s.reg .ecx).toNat s) :
    ∃ t, ⟨(op.lines (loopLabel n) (loopLabel (n + 1))).length, t⟩ ∈
        eval (step (op.lines (loopLabel n) (loopLabel (n + 1)))) ⟨0, s⟩ ∧
      t.reg = (op.run s).reg ∧ (∀ a, a ∉ belowEsp s → t.mem a = (op.run s).mem a) ∧
      (status t.eflags = status (op.run s).eflags ↔ op.Settled (s.reg .ecx).toNat s) := by
  obtain ⟨t, hstart, hf, hflags⟩ := reaches_head (loopLabel n) (loopLabel (n + 1)) op s
  obtain ⟨t', hloop, hf', hst⟩ := loop_run (loopLabel_ne n) _ hf rfl ha
  obtain ⟨t'', hend, hreg, hmem, hflags'⟩ := reaches_end (loopLabel n) (loopLabel (n + 1)) hf'
  refine ⟨t'', mem_eval.mpr ⟨(hstart.trans hloop).trans hend, step_end (Nat.le_refl _)⟩, hreg, hmem, ?_⟩
  rw [hflags', StringOp.run, hst]
  split
  · rfl
  · rename_i hc
    have hsettled : op.Settled (s.reg .ecx).toNat s := by
      by_cases h0 : (s.reg .ecx).toNat = 0
      · rw [h0]
        exact settled_zero
      · cases op with
        | movsl | stosl => trivial
        | cmpsb | scasb => exact absurd ⟨rfl, h0⟩ hc
    simp [hflags, hsettled]

end Rounds

/-- A loop that keeps the flags was not left by an unequal comparison. -/
theorem settled_of_keeps {op : StringOp} {n : Nat} {s : Cpu}
    (ha : op.Avoids (belowEsp s) (s.reg .ecx).toNat s) (h : Keeps op n s) :
    op.Settled (s.reg .ecx).toNat s := by
  obtain ⟨t, heval, -, -, hst⟩ := lines_run n ha
  obtain ⟨prog, hprog, t', heval', hsame⟩ := h
  rw [expand_eq] at hprog
  obtain rfl := Except.ok.inj hprog
  have he := congrArg At.cpu (Part.mem_unique heval heval')
  subst he
  exact hst.mp hsame.status

/-- The loop printed for a string instruction leaves what the instruction leaves exactly
if `repz cmpsb` runs into no difference and `repnz scasb` finds its byte. -/
theorem keeps_iff (op : StringOp) (n : Nat) (s : Cpu)
    (ha : op.Avoids (belowEsp s) (s.reg .ecx).toNat s) :
    Keeps op n s ↔ op.Settled (s.reg .ecx).toNat s := by
  refine ⟨settled_of_keeps ha, fun h => ?_⟩
  obtain ⟨t, heval, hreg, hmem, hst⟩ := lines_run n ha
  exact ⟨_, expand_eq op n, t, heval, ⟨hreg, hmem, hst.mpr h⟩⟩

/-- A byte to compare, and the two pointers at it. -/
def oneByte (al byte : BitVec 8) : Cpu where
  eip := 0
  reg r := if r = .eax then al.setWidth 32 else if r = .ecx then 1 else if r = .esp then 0x20fffff8 else
    0x20000000
  eflags := 0
  mem a := if a = 0x20000000 then byte else 0

theorem oneByte_avoids (a b : BitVec 8) :
    ((oneByte a b).reg .ecx).toNat = 1 ∧
      StringOp.scasb.Avoids (belowEsp (oneByte a b)) ((oneByte a b).reg .ecx).toNat (oneByte a b) := by
  have hecx : ((oneByte a b).reg .ecx).toNat = 1 := rfl
  refine ⟨hecx, ?_⟩
  rw [hecx]
  refine ⟨?_, fun _ => trivial⟩
  intro x hx
  obtain rfl : x = 0x20000000 := List.mem_singleton.mp hx
  show (0x20000000 : Word) ∉ (List.range 4).map ((0x20fffff8 : Word) - 4 + BitVec.ofNat 32 ·)
  decide

/-- `repnz scasb` looking for 1 where there is 2: the instruction leaves CF set. -/
theorem scasb_flags_differ : ¬ ∀ (op : StringOp) (n : Nat) (s : Cpu),
    op.Avoids (belowEsp s) (s.reg .ecx).toNat s → Keeps op n s := by
  intro h
  obtain ⟨hecx, ha⟩ := oneByte_avoids 1 2
  have hs := settled_of_keeps ha (h .scasb 1 _ ha)
  rw [hecx] at hs
  rcases hs with hs | ⟨i, hi, hs⟩
  · exact absurd hs (by decide)
  · obtain rfl : i = 0 := by omega
    revert hs
    decide

theorem scasb_finds : Keeps .scasb 1 (oneByte 2 2) :=
  (keeps_iff .scasb 1 (oneByte 2 2) (oneByte_avoids 2 2).2).mpr
    (Or.inr ⟨0, by decide, by decide⟩)

end Pittsfield.StringOps
