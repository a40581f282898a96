import Pittsfield.Rewrite.Formats

/-!
# Lengths by families of opcodes

The encodings of the opcodes that the patterns of `insn_len` name, and from them the
lengths of their lines for the operands that the patterns admit.
-/

namespace Pittsfield.Rewrite

open Pittsfield.Machine
open Pittsfield.Offline

section Opcodes

variable {op : String} {f : Form} {forms : List Form}

/-- Opcodes with the forms of their family. -/
def families : List (Words × List Form) :=
  [(cat arith8 ["l"], group1 .dword), (cat arith8 ["b"], group1 .byte), (cat shift ["l"], shiftForms .dword),
    (["movsbl", "movzbl"], extendForms .byte .dword), (["movswl", "movzwl"], extendForms .word .dword),
    (["incl", "decl", "popl"], incForms .dword), (["pushl"], pushForms .dword), (["movl"], movForms .dword),
    (["movb"], movForms .byte), (["testl"], testForms .dword), (["testb"], testForms .byte),
    (["leal"], leaForms .dword), (["ret"], [⟨1, []⟩, ⟨1, [.imm .word]⟩]),
    (["leave", "cltd", "nop", "sahf", "cwtl", "popf", "pushf"], [⟨1, []⟩]), (["imull"], imulForms .dword),
    (["idivl", "mull", "divl", "negl", "notl"], group3 .dword),
    (["jmp"], [⟨1, [.rel8]⟩, ⟨1, [.rel32]⟩, ⟨1, [.star]⟩]), (["call"], [⟨1, [.rel32]⟩, ⟨1, [.star]⟩])]

/-- Nothing else in the table has these opcodes. -/
theorem formsOf_families : ∀ e ∈ families, ∀ op ∈ e.1, formsOf op = e.2 := by decide +kernel

theorem formsOf_arith8 (h : op ∈ cat arith8 ["l"]) : formsOf op = group1 .dword :=
  formsOf_families (cat arith8 ["l"], group1 .dword) (by simp [families]) op h

theorem formsOf_arith8_byte (h : op ∈ cat arith8 ["b"]) : formsOf op = group1 .byte :=
  formsOf_families (cat arith8 ["b"], group1 .byte) (by simp [families]) op h

theorem formsOf_shift (h : op ∈ cat shift ["l"]) : formsOf op = shiftForms .dword :=
  formsOf_families (cat shift ["l"], shiftForms .dword) (by simp [families]) op h

theorem formsOf_extend_byte (h : op ∈ ["movsbl", "movzbl"]) : formsOf op = extendForms .byte .dword :=
  formsOf_families (["movsbl", "movzbl"], extendForms .byte .dword) (by simp [families]) op h

theorem formsOf_extending (h : op ∈ extending) : ∃ w, formsOf op = extendForms w .dword := by
  have hwords : ∀ op ∈ extending, op ∈ ["movsbl", "movzbl"] ∨ op ∈ ["movswl", "movzwl"] := by decide
  rcases hwords op h with h | h
  · exact ⟨.byte, formsOf_extend_byte h⟩
  · exact ⟨.word, formsOf_families (["movswl", "movzwl"], extendForms .word .dword) (by simp [families]) op h⟩

theorem formsOf_inc (h : op ∈ ["incl", "decl", "popl"]) : formsOf op = incForms .dword :=
  formsOf_families (["incl", "decl", "popl"], incForms .dword) (by simp [families]) op h

theorem formsOf_single {word : String} (h : ([word], forms) ∈ families) : formsOf word = forms :=
  formsOf_families ([word], forms) h word List.mem_cons_self

theorem formsOf_pushl : formsOf "pushl" = pushForms .dword := formsOf_single (by simp [families])

theorem formsOf_movl : formsOf "movl" = movForms .dword := formsOf_single (by simp [families])

theorem formsOf_movb : formsOf "movb" = movForms .byte := formsOf_single (by simp [families])

theorem formsOf_testl : formsOf "testl" = testForms .dword := formsOf_single (by simp [families])

theorem formsOf_testb : formsOf "testb" = testForms .byte := formsOf_single (by simp [families])

theorem formsOf_leal : formsOf "leal" = leaForms .dword := formsOf_single (by simp [families])

theorem formsOf_ret : formsOf "ret" = [⟨1, []⟩, ⟨1, [.imm .word]⟩] := formsOf_single (by simp [families])

/-- The forms with which opcodes load a register from memory. -/
def loads : List (List Form) := [group1 .dword, movForms .dword, testForms .dword, leaForms .dword]

theorem cat_append (xs ys zs : Words) : cat (xs ++ ys) zs = cat xs zs ++ cat ys zs := List.flatMap_append

theorem loads_arithMov (h : op ∈ cat arithMov ["l"]) : formsOf op ∈ loads := by
  have hwords : cat ["mov", "test"] ["l"] = ["movl", "testl"] := by decide
  rw [arithMov, cat_append, List.mem_append, hwords] at h
  rcases h with h | h
  · simp [loads, formsOf_arith8 h]
  · rcases List.mem_pair.mp h with rfl | rfl
    · simp [loads, formsOf_movl]
    · simp [loads, formsOf_testl]

theorem loads_mov_lea (h : op ∈ cat (arith8 ++ ["mov", "lea"]) ["l"]) : formsOf op ∈ loads := by
  have hwords : cat ["mov", "lea"] ["l"] = ["movl", "leal"] := by decide
  rw [cat_append, List.mem_append, hwords] at h
  rcases h with h | h
  · simp [loads, formsOf_arith8 h]
  · rcases List.mem_pair.mp h with rfl | rfl
    · simp [loads, formsOf_movl]
    · simp [loads, formsOf_leal]

theorem stores_mov (h : op ∈ cat (arith8 ++ ["mov"]) ["l"]) :
    formsOf op ∈ [group1 .dword, movForms .dword] := by
  have hwords : cat ["mov"] ["l"] = ["movl"] := by decide
  rw [cat_append, List.mem_append, hwords] at h
  rcases h with h | h
  · simp [formsOf_arith8 h]
  · rw [List.mem_singleton.mp h]
    simp [formsOf_movl]

theorem bytes_arithMov (h : op ∈ cat arithMov ["b"]) :
    formsOf op ∈ [group1 .byte, testForms .byte, movForms .byte] := by
  have hwords : cat ["mov", "test"] ["b"] = ["movb", "testb"] := by decide
  rw [arithMov, cat_append, List.mem_append, hwords] at h
  rcases h with h | h
  · simp [formsOf_arith8_byte h]
  · rcases List.mem_pair.mp h with rfl | rfl
    · simp [formsOf_movb]
    · simp [formsOf_testb]

theorem formsOf_imull : formsOf "imull" = imulForms .dword := formsOf_single (by simp [families])

theorem formsOf_jmp : formsOf "jmp" = [⟨1, [.rel8]⟩, ⟨1, [.rel32]⟩, ⟨1, [.star]⟩] :=
  formsOf_single (by simp [families])

theorem formsOf_call : formsOf "call" = [⟨1, [.rel32]⟩, ⟨1, [.star]⟩] := formsOf_single (by simp [families])

theorem formsOf_bare (h : op ∈ ["leave", "cltd", "nop", "sahf", "cwtl", "popf", "pushf"]) :
    formsOf op = [⟨1, []⟩] := formsOf_families (_, [⟨1, []⟩]) (by simp [families]) op h

theorem mem_formsOf_group3 (h : op ∈ cat (cat (opt ["i"]) ["mul", "div"] ++ ["neg", "not"]) ["l"]) :
    ⟨1, [.rm .dword]⟩ ∈ formsOf op := by
  have hwords : cat (cat (opt ["i"]) ["mul", "div"] ++ ["neg", "not"]) ["l"] =
      "imull" :: ["idivl", "mull", "divl", "negl", "notl"] := by decide
  rw [hwords, List.mem_cons] at h
  rcases h with rfl | h
  · rw [formsOf_imull]
    exact List.mem_cons_self
  · rw [formsOf_families (_, group3 .dword) (by simp [families]) op h]
    exact List.mem_cons_self

theorem toList_cat {word : String} {ys : Words} (h : op ∈ cat [word] ys) : ∃ rest, op.toList = word.toList ++ rest := by
  obtain ⟨x, hx, hop⟩ := List.mem_flatMap.mp h
  obtain ⟨y, -, rfl⟩ := List.mem_map.mp hop
  rw [List.mem_singleton.mp hx]
  exact ⟨y.toList, String.toList_append⟩

/-- The entries for `set` and for the conditional jumps are the first of the table. -/
theorem integerForms_first : ∃ rest, integerForms = (cat ["set"] cond, [⟨2, [.rm .byte]⟩]) ::
    (cat ["j"] cond, [⟨1, [.rel8]⟩, ⟨2, [.rel32]⟩]) :: rest := ⟨_, rfl⟩

theorem formsOf_set (h : op ∈ cat ["set"] cond) : formsOf op = [⟨2, [.rm .byte]⟩] := by
  obtain ⟨rest, hrest⟩ := integerForms_first
  obtain ⟨cs, hop⟩ := toList_cat h
  have hinteger : ¬ floating op = true := by
    rw [floating, hop]
    exact Bool.false_ne_true
  rw [formsOf, if_neg hinteger, hrest, List.find?_cons_of_pos (by simp [h])]
  rfl

theorem formsOf_jcc (h : op ∈ cat ["j"] cond) : formsOf op = [⟨1, [.rel8]⟩, ⟨2, [.rel32]⟩] := by
  obtain ⟨rest, hrest⟩ := integerForms_first
  obtain ⟨cs, hop⟩ := toList_cat h
  have hinteger : ¬ floating op = true := by
    rw [floating, hop]
    exact Bool.false_ne_true
  have hset : op ∉ cat ["set"] cond := by
    intro hset
    obtain ⟨ds, hother⟩ := toList_cat hset
    cases hop.symm.trans hother
  rw [formsOf, if_neg hinteger, hrest, List.find?_cons_of_neg (by simp [hset]), List.find?_cons_of_pos (by simp [h])]
  rfl

theorem mem_formsOf_fld1 : ⟨2, []⟩ ∈ formsOf "fld1" := by
  rw [mem_floating (by decide)]
  refine ⟨_, List.mem_of_getElem? (i := 3) rfl, ?_, List.mem_singleton_self _⟩
  exact List.mem_append_left _ (List.mem_append_left _ (List.mem_append_left _ (by decide)))

theorem mem_formsOf_fstp : ⟨2, [.st]⟩ ∈ formsOf "fstp" := by
  rw [mem_floating (by decide)]
  refine ⟨_, List.mem_of_getElem? (i := 2) rfl, ?_, List.mem_cons_self⟩
  refine List.mem_append_left _ (List.mem_append_left _ (List.mem_append_left _ (List.mem_append_right _ ?_)))
  decide

/-- A floating-point operation on memory, or one of at most three bytes on registers. -/
theorem mem_formsOf_floating (h : floating op = true) (hf : f ∈ formsOf op) :
    f = ⟨if op ∈ waiting then 2 else 1, [.mem]⟩ ∨ f.opcode ≤ 3 ∧ ∀ s ∈ f.slots, s = .st ∨ s = .acc .word := by
  have hkinds : ∀ e ∈ floatingForms, ∀ f ∈ e.2, f = ⟨1, [.mem]⟩ ∨ f = ⟨2, [.mem]⟩ ∨
      f.opcode ≤ 3 ∧ ∀ s ∈ f.slots, s = .st ∨ s = .acc .word := by decide +kernel
  have hwaiting : ∀ e ∈ floatingForms, ⟨2, [.mem]⟩ ∈ e.2 → e.1 = waiting := by decide +kernel
  have hothers : ∀ op ∈ waiting, ∀ e ∈ floatingForms, op ∈ e.1 → ⟨1, [.mem]⟩ ∉ e.2 := by decide +kernel
  obtain ⟨e, he, hop, hmem⟩ := (mem_floating h).mp hf
  rcases hkinds e he f hmem with rfl | rfl | hregisters
  · have hnot : op ∉ waiting := fun hwait => hothers op hwait e he hop hmem
    rw [if_neg hnot]
    exact Or.inl rfl
  · rw [hwaiting e he hmem] at hop
    rw [if_pos hop]
    exact Or.inl rfl
  · exact Or.inr hregisters

end Opcodes

section Lengths

variable {near : Operand → Bool} {op : String} {forms : List Form} {args : List Operand} {d : Option Const}
  {b x : Option Reg32} {sc : Option Scale} {r q : Reg32} {v : Const} {a : Nat}

attribute [local simp] prefixed Form.bytes slotsBytes Slot.bytes given Width.bytes isCl
attribute [local simp] Operand.ofWidth Operand.memoryBytes Operand.immediateIs Operand.immed Operand.accumulator
  Operand.isConst

theorem shortest_of_forms (h : formsOf op = forms) :
    shortest near ⟨op, args⟩ = (forms.filterMap (·.bytes near args)).min? := by
  rw [shortest, h]

/-- From memory to a register. -/
theorem shortest_load (h : formsOf op ∈ loads) (ha : addressBytes d b x = some a) :
    shortest near ⟨op, [.mem d b x sc, .reg (.r32 r)]⟩ = some (1 + a) := by
  simp only [loads, List.mem_cons, List.not_mem_nil, or_false] at h
  rcases h with h | h | h | h
  · simp [shortest_of_forms h, group1, ha]
  · simp [shortest_of_forms h, movForms, ha]
  · simp [shortest_of_forms h, testForms, ha]
  · simp [shortest_of_forms h, leaForms, ha]

/-- From a register to memory. -/
theorem shortest_store (h : formsOf op ∈ [group1 .dword, movForms .dword]) (ha : addressBytes d b x = some a) :
    shortest near ⟨op, [.reg (.r32 r), .mem d b x sc]⟩ = some (1 + a) := by
  simp only [List.mem_cons, List.not_mem_nil, or_false] at h
  rcases h with h | h
  · simp [shortest_of_forms h, group1, ha]
  · simp [shortest_of_forms h, movForms, ha]

/-- `mov` of a register to memory, whose width is that of the opcode. -/
theorem shortest_mov_store {reg : Reg} {m : Nat} (h : op ∈ ["movb", "movl"]) (ha : addressBytes d b x = some a)
    (hm : shortest near ⟨op, [.reg reg, .mem d b x sc]⟩ = some m) : m = 1 + a := by
  rcases List.mem_pair.mp h with rfl | rfl
  · rw [shortest_of_forms formsOf_movb] at hm
    cases reg with
    | r8 r =>
      simp [movForms, ha] at hm
      exact hm.symm
    | _ => simp [movForms] at hm
  · rw [shortest_of_forms formsOf_movl] at hm
    cases reg with
    | r32 r =>
      simp [movForms, ha] at hm
      exact hm.symm
    | _ => simp [movForms] at hm

/-- `leal` of any operand to a register. -/
theorem shortest_lea {target : Operand} :
    shortest near ⟨"leal", [target, .reg (.r32 r)]⟩ = target.memoryBytes.map (1 + ·) := by
  cases ha : target.memoryBytes <;>
    simp [shortest_of_forms formsOf_leal, leaForms, ha, -Operand.memoryBytes]

/-- `movl` of anything but an operand in memory to a register. -/
theorem shortest_movl_le {target : Operand} {m : Nat} (htarget : target.inMemory = false)
    (hm : shortest near ⟨"movl", [target, .reg (.r32 r)]⟩ = some m) :
    m ≤ 6 ∧ (target.plain = true ∨ target.isConst = true) := by
  have hle : ∀ f ∈ movForms .dword, ∀ k, f.bytes near [target, .reg (.r32 r)] = some k → m ≤ k := by
    intro f hf k hk
    refine shortest_le ?_ hk hm
    rw [formsOf_movl]
    exact hf
  cases target with
  | reg q =>
    refine ⟨?_, Or.inl rfl⟩
    cases q with
    | r32 q => exact Nat.le_trans (hle ⟨1, [.r .dword, .rm .dword]⟩ (by decide) 2 rfl) (by decide)
    | _ => simp [shortest_of_forms formsOf_movl, movForms] at hm
  | imm value =>
    exact ⟨Nat.le_trans (hle ⟨1, [.imm .dword, .r .dword]⟩ (by decide) 5 rfl) (by decide), Or.inl rfl⟩
  | const value => exact ⟨hle ⟨1, [.rm .dword, .r .dword]⟩ (by decide) 6 rfl, Or.inr rfl⟩
  | mem => cases htarget
  | star target => simp [shortest_of_forms formsOf_movl, movForms] at hm
  | other text => simp [shortest_of_forms formsOf_movl, movForms] at hm

/-- From memory to a longer register. -/
theorem shortest_extend {w : Width} (h : formsOf op = extendForms w .dword) (ha : addressBytes d b x = some a) :
    shortest near ⟨op, [.mem d b x sc, .reg (.r32 r)]⟩ = some (2 + a) := by
  simp [shortest_of_forms h, extendForms, ha]

theorem shortest_unary (h : formsOf op ∈ [incForms .dword, pushForms .dword]) (ha : addressBytes d b x = some a) :
    shortest near ⟨op, [.mem d b x sc]⟩ = some (1 + a) := by
  simp only [List.mem_cons, List.not_mem_nil, or_false] at h
  rcases h with h | h
  · simp [shortest_of_forms h, incForms, ha]
  · simp [shortest_of_forms h, pushForms, incForms, ha]

/-- An immediate byte to memory. -/
theorem shortest_byte (h : formsOf op ∈ [group1 .byte, testForms .byte, movForms .byte])
    (ha : addressBytes d b x = some a) : shortest near ⟨op, [.imm v, .mem d b x sc]⟩ = some (2 + a) := by
  have hsum : 1 + (1 + a) = 2 + a := by omega
  simp only [List.mem_cons, List.not_mem_nil, or_false] at h
  rcases h with h | h | h
  · cases hv : short .byte v with
    | false => simp [shortest_of_forms h, group1, ha, hv, hsum]
    | true => simp [shortest_of_forms h, group1, ha, hv, hsum]
  · simp [shortest_of_forms h, testForms, ha, hsum]
  · simp [shortest_of_forms h, movForms, ha, hsum]

/-- An immediate to memory. -/
theorem shortest_group1 (h : formsOf op = group1 .dword) (ha : addressBytes d b x = some a) :
    shortest near ⟨op, [.imm v, .mem d b x sc]⟩ = some (if short .dword v then 2 + a else 5 + a) := by
  cases hv : short .dword v with
  | false =>
    simp [shortest_of_forms h, group1, ha, hv]
    omega
  | true =>
    simp [shortest_of_forms h, group1, ha, hv]
    omega

theorem shortest_mov (h : formsOf op = movForms .dword) (ha : addressBytes d b x = some a) :
    shortest near ⟨op, [.imm v, .mem d b x sc]⟩ = some (5 + a) := by
  simp [shortest_of_forms h, movForms, ha]
  omega

/-- An immediate to a register. -/
theorem shortest_group1_reg (h : formsOf op = group1 .dword) :
    shortest near ⟨op, [.imm v, .reg (.r32 r)]⟩ =
      some (if short .dword v then 3 else if r = .eax then 5 else 6) := by
  cases hv : short .dword v with
  | false =>
    by_cases hr : r = .eax
    · simp [shortest_of_forms h, group1, hv, hr]
    · simp [shortest_of_forms h, group1, hv, hr]
  | true =>
    by_cases hr : r = .eax
    · simp [shortest_of_forms h, group1, hv, hr]
    · simp [shortest_of_forms h, group1, hv, hr]

theorem shortest_shift (h : formsOf op = shiftForms .dword) (ha : addressBytes d b x = some a) :
    shortest near ⟨op, [.imm v, .mem d b x sc]⟩ = some (if absolute v = some 1 then 1 + a else 2 + a) := by
  have hsum : 1 + (1 + a) = 2 + a := by omega
  by_cases hv : absolute v = some 1
  · simp [shortest_of_forms h, shiftForms, ha, hv]
  · simp [shortest_of_forms h, shiftForms, ha, hv, hsum]

theorem shortest_floating {m : Nat} (h : floating op = true) (ha : addressBytes d b x = some a)
    (hm : shortest near ⟨op, [.mem d b x sc]⟩ = some m) : m = (if op ∈ waiting then 2 else 1) + a := by
  obtain ⟨f, hf, hbytes⟩ := shortest_mem hm
  rcases mem_formsOf_floating h hf with rfl | ⟨-, hslots⟩
  · simp [ha] at hbytes
    exact hbytes.symm
  · obtain ⟨n, hn, -⟩ := Option.map_eq_some_iff.mp hbytes
    have hnone : ∀ s ∈ f.slots, s.addresses = false := by
      intro s hs
      rcases hslots s hs with rfl | rfl <;> rfl
    have hplain := (slotsBytes_fixed hnone hn).2 _ List.mem_cons_self
    cases hplain

/-- A floating-point operation on registers. -/
theorem shortest_floating_le {m : Nat} (h : floating op = true) (hargs : ∀ o ∈ args, o.plain = true)
    (hm : shortest near ⟨op, args⟩ = some m) : m ≤ 3 := by
  obtain ⟨f, hf, hbytes⟩ := shortest_mem hm
  obtain ⟨n, hn, rfl⟩ := Option.map_eq_some_iff.mp hbytes
  rcases mem_formsOf_floating h hf with rfl | ⟨hopcode, hslots⟩
  · -- the operand of this form is in memory
    cases args with
    | nil => cases hn
    | cons o args =>
      obtain ⟨k, _, hk, -, -⟩ := slotsBytes_cons.mp hn
      have hplain := hargs o List.mem_cons_self
      cases o with
      | reg r => cases hk
      | imm value => cases hk
      | _ => cases hplain
  · have hnone : ∀ s ∈ f.slots, s.addresses = false ∧ s.fixed = 0 := by
      intro s hs
      rcases hslots s hs with rfl | rfl <;> exact ⟨rfl, rfl⟩
    have hzero : ∀ n ∈ f.slots.map Slot.fixed, n = 0 := by
      intro n hn
      obtain ⟨s, hs, rfl⟩ := List.mem_map.mp hn
      exact (hnone s hs).2
    rw [(slotsBytes_fixed (fun s hs => (hnone s hs).1) hn).1, List.sum_eq_zero_iff_forall_eq_nat.mpr hzero]
    exact hopcode

end Lengths

end Pittsfield.Rewrite
