import Mathlib.Data.List.Forall2
import Pittsfield.Rewrite.Guesses
import Pittsfield.Rewrite.Packing

/-!
# The guesses of `rewrite.pl` and the true lengths

The patterns of `insn_len` that need no condition, and from all patterns the inputs for which
the guess is not below the true length. The same for the lines that `maybe_rewrite` adds.
-/

namespace Pittsfield.Rewrite

open Pittsfield.Region
open Pittsfield.Machine
open Pittsfield.Offline

section Sufficient

variable {near : Operand → Bool} {ops : String → Bool} {p q : Operand → Bool} {n : Nat}

theorem sufficient_one (h : ∀ op a m, ops op = true → p a = true → shortest near ⟨op, [a]⟩ = some m → m ≤ n) :
    Exact near ⟨ops, operands1 p, n⟩ always :=
  exact_one fun op a m hop ha hm => iff_of_true (h op a m hop ha hm) rfl

theorem sufficient_two (h : ∀ op a b m, ops op = true → p a = true → q b = true →
    shortest near ⟨op, [a, b]⟩ = some m → m ≤ n) : Exact near ⟨ops, operands2 p q, n⟩ always :=
  exact_two fun op a b m hop ha hb hm => iff_of_true (h op a b m hop ha hb hm) rfl

/-- One form of the opcodes is enough. -/
theorem sufficient_one_of_form {f : Form} (hops : ∀ op, ops op = true → f ∈ formsOf op)
    (hp : ∀ a, p a = true → ∃ k ≤ n, f.bytes near [a] = some k) : Exact near ⟨ops, operands1 p, n⟩ always := by
  refine sufficient_one fun op a m hop ha hm => ?_
  obtain ⟨k, hk, hbytes⟩ := hp a ha
  exact Nat.le_trans (shortest_le (hops op hop) hbytes hm) hk

theorem sufficient_two_of_form {f : Form} (hops : ∀ op, ops op = true → f ∈ formsOf op)
    (hp : ∀ a b, p a = true → q b = true → ∃ k ≤ n, f.bytes near [a, b] = some k) :
    Exact near ⟨ops, operands2 p q, n⟩ always := by
  refine sufficient_two fun op a b m hop ha hb hm => ?_
  obtain ⟨k, hk, hbytes⟩ := hp a b ha hb
  exact Nat.le_trans (shortest_le (hops op hop) hbytes hm) hk

theorem mem_formsOf_bare {op : String} (h : op ∈ ["leave", "cltd", "nop", "sahf", "cwtl", "popf", "pushf"]) :
    ⟨1, []⟩ ∈ formsOf op := by
  rw [formsOf_bare h]
  exact List.mem_cons_self

theorem mem_formsOf_rel32 {op : String} (h : op ∈ ["jmp", "call"]) : ⟨1, [.rel32]⟩ ∈ formsOf op := by
  rcases List.mem_pair.mp h with rfl | rfl
  · rw [formsOf_jmp]
    decide
  · rw [formsOf_call]
    decide

theorem mem_formsOf_star {op : String} (h : op ∈ ["jmp", "call"]) : ⟨1, [.star]⟩ ∈ formsOf op := by
  rcases List.mem_pair.mp h with rfl | rfl
  · rw [formsOf_jmp]
    decide
  · rw [formsOf_call]
    decide

theorem sufficient_inc : Exact near ⟨withSize ["inc", "dec", "pop", "push"] "l", operands1 Operand.ereg, 1⟩ always := by
  have hwords : ∀ op ∈ cat ["inc", "dec", "pop", "push"] ["l"],
      op ∈ ["incl", "decl", "popl"] ∨ op = "pushl" := by decide
  refine sufficient_one_of_form (f := ⟨1, [.r .dword]⟩) (fun op hop => ?_) fun a ha => ?_
  · rcases hwords op (of_oneOf hop) with h | rfl
    · rw [formsOf_inc h]
      decide
    · rw [formsOf_pushl]
      decide
  · obtain ⟨r, rfl⟩ := ereg_eq ha
    exact ⟨1, by decide, rfl⟩

theorem sufficient_bare :
    Exact near ⟨oneOf ["leave", "ret", "cltd", "nop", "sahf", "cwtl"], operands0, 1⟩ always := by
  refine exact_always fun op args m hop hargs hm => ?_
  obtain rfl := operands0_eq hargs
  have hwords : ∀ op ∈ ["leave", "ret", "cltd", "nop", "sahf", "cwtl"],
      op ∈ ["leave", "cltd", "nop", "sahf", "cwtl", "popf", "pushf"] ∨ op = "ret" := by decide
  rcases hwords op (of_oneOf hop) with h | rfl
  · exact shortest_le (mem_formsOf_bare h) rfl hm
  · refine shortest_le (f := ⟨1, []⟩) ?_ rfl hm
    rw [formsOf_ret]
    decide

theorem sufficient_fld1 : Exact near ⟨oneOf ["fld1"], operands0, 2⟩ always := by
  refine exact_always fun op args m hop hargs hm => ?_
  obtain rfl := operands0_eq hargs
  obtain rfl := List.mem_singleton.mp (of_oneOf hop)
  exact shortest_le mem_formsOf_fld1 rfl hm

theorem sufficient_floating_bare :
    Exact near ⟨oneOf (cat ["f"] ["abs", "chs", "compp", "coms", "cos", "ldz", "ld1", "sin", "sqrt"]), operands0, 3⟩
      always := by
  have hfloating : ∀ op ∈ cat ["f"] ["abs", "chs", "compp", "coms", "cos", "ldz", "ld1", "sin", "sqrt"],
      floating op = true := by decide
  refine exact_always fun op args m hop hargs hm => ?_
  obtain rfl := operands0_eq hargs
  exact shortest_floating_le (hfloating op (of_oneOf hop)) (List.forall_mem_nil _) hm

/-- A form between registers that the operations and `mov` and `test` share. -/
theorem mem_formsOf_registers {op : String} (h : op ∈ cat arithMov ["l"]) :
    ⟨1, [.r .dword, .rm .dword]⟩ ∈ formsOf op := by
  have hwords : cat ["mov", "test"] ["l"] = ["movl", "testl"] := by decide
  rw [arithMov, cat_append, List.mem_append, hwords] at h
  rcases h with h | h
  · rw [formsOf_arith8 h]
    decide
  · rcases List.mem_pair.mp h with rfl | rfl
    · rw [formsOf_movl]
      decide
    · rw [formsOf_testl]
      decide

theorem sufficient_registers (hops : ∀ op, ops op = true → op ∈ cat arithMov ["l"]) :
    Exact near ⟨ops, operands2 Operand.ereg Operand.ereg, 2⟩ always := by
  refine sufficient_two_of_form (fun op hop => mem_formsOf_registers (hops op hop)) fun a b ha hb => ?_
  obtain ⟨r, rfl⟩ := ereg_eq ha
  obtain ⟨q, rfl⟩ := ereg_eq hb
  exact ⟨2, by decide, rfl⟩

theorem sufficient_store_plain :
    Exact near ⟨oneOf ["movb", "movl"], operands2 (fun a => a.breg || a.ereg) atEreg, 3⟩ always := by
  refine sufficient_two fun op a b m hop ha hb hm => ?_
  obtain ⟨d, base, rfl, hd, -⟩ := based_eq hb
  obtain rfl := noOffset_eq hd
  obtain ⟨k, hk⟩ := address_of_shortest hm (List.mem_cons_of_mem _ List.mem_cons_self)
  have hle : k ≤ 2 := by
    rw [base_none hk]
    split <;> decide
  have hreg : ∃ r, a = .reg r := by
    rcases Bool.or_eq_true_iff.mp ha with ha | ha
    · obtain ⟨r, rfl⟩ := breg_eq ha
      exact ⟨.r8 r, rfl⟩
    · obtain ⟨r, rfl⟩ := ereg_eq ha
      exact ⟨.r32 r, rfl⟩
  obtain ⟨r, rfl⟩ := hreg
  rw [shortest_mov_store (of_oneOf hop) hk hm]
  omega

theorem sufficient_shift :
    Exact near ⟨withSize shift "l", fun args => operands1 Operand.ereg args || operands2 isCl Operand.ereg args, 2⟩
      always := by
  refine exact_always fun op args m hop hargs hm => ?_
  have hforms := formsOf_shift (of_oneOf hop)
  rcases Bool.or_eq_true_iff.mp hargs with hargs | hargs
  · obtain ⟨a, rfl, ha⟩ := operands1_eq hargs
    obtain ⟨r, rfl⟩ := ereg_eq ha
    refine shortest_le (f := ⟨1, [.rm .dword]⟩) ?_ rfl hm
    rw [hforms]
    decide
  · obtain ⟨a, b, rfl, ha, hb⟩ := operands2_eq hargs
    obtain ⟨r, rfl⟩ := ereg_eq hb
    refine shortest_le (f := ⟨1, [.cl, .rm .dword]⟩) ?_ ?_ hm
    · rw [hforms]
      decide
    · simp [Form.bytes, slotsBytes, Slot.bytes, given, Operand.ofWidth, ha]

theorem sufficient_group3 :
    Exact near ⟨withSize (cat (opt ["i"]) ["mul", "div"] ++ ["neg", "not"]) "l", operands1 Operand.ereg, 3⟩
      always := by
  refine sufficient_one_of_form (fun op hop => mem_formsOf_group3 (of_oneOf hop)) fun a ha => ?_
  obtain ⟨r, rfl⟩ := ereg_eq ha
  exact ⟨2, by decide, rfl⟩

/-- A byte or a register to a register of a byte. -/
theorem sufficient_byte_register :
    Exact near ⟨withSize (arith8 ++ ["test"]) "b", operands2 (fun a => a.imbSign || a.breg) Operand.breg, 3⟩
      always := by
  have hforms : ∀ op ∈ cat (arith8 ++ ["test"]) ["b"],
      ⟨1, [.imm .byte, .rm .byte]⟩ ∈ formsOf op ∧ ⟨1, [.r .byte, .rm .byte]⟩ ∈ formsOf op := by
    intro op hop
    have hwords : cat ["test"] ["b"] = ["testb"] := by decide
    rw [cat_append, List.mem_append, hwords] at hop
    rcases hop with h | h
    · rw [formsOf_arith8_byte h]
      decide
    · rw [List.mem_singleton.mp h, formsOf_testb]
      decide
  refine sufficient_two fun op a b m hop ha hb hm => ?_
  obtain ⟨q, rfl⟩ := breg_eq hb
  rcases Bool.or_eq_true_iff.mp ha with ha | ha
  · obtain ⟨v, rfl⟩ := imbSign_eq ha
    exact shortest_le (hforms op (of_oneOf hop)).1 rfl hm
  · obtain ⟨r, rfl⟩ := breg_eq ha
    exact Nat.le_trans (shortest_le (hforms op (of_oneOf hop)).2 rfl hm) (by decide)

theorem sufficient_fstp : Exact near ⟨oneOf ["fstp"], operands1 Operand.freg, 2⟩ always := by
  refine sufficient_one_of_form (f := ⟨2, [.st]⟩) (fun op hop => ?_) fun a ha => ?_
  · rw [List.mem_singleton.mp (of_oneOf hop)]
    exact mem_formsOf_fstp
  · obtain ⟨k, rfl⟩ := freg_eq ha
    exact ⟨2, by decide, rfl⟩

theorem sufficient_floating_register : Exact near ⟨floating, operands1 Operand.freg, 3⟩ always := by
  refine sufficient_one fun op a m hop ha hm => ?_
  obtain ⟨k, rfl⟩ := freg_eq ha
  exact shortest_floating_le hop (by simp [Operand.plain]) hm

theorem sufficient_floating_registers : Exact near ⟨floating, operands2 Operand.freg Operand.freg, 3⟩ always := by
  refine sufficient_two fun op a b m hop ha hb hm => ?_
  obtain ⟨k, rfl⟩ := freg_eq ha
  obtain ⟨l, rfl⟩ := freg_eq hb
  exact shortest_floating_le hop (by simp [Operand.plain]) hm

theorem sufficient_extend_register :
    Exact near ⟨oneOf ["movsbl", "movzbl"], operands2 Operand.breg Operand.ereg, 3⟩ always := by
  refine sufficient_two_of_form (f := ⟨2, [.rm .byte, .r .dword]⟩) (fun op hop => ?_) fun a b ha hb => ?_
  · rw [formsOf_extend_byte (of_oneOf hop)]
    decide
  · obtain ⟨r, rfl⟩ := breg_eq ha
    obtain ⟨q, rfl⟩ := ereg_eq hb
    exact ⟨3, by decide, rfl⟩

theorem sufficient_imul : Exact near ⟨oneOf ["imull"], operands2 Operand.ereg Operand.ereg, 3⟩ always := by
  refine sufficient_two_of_form (f := ⟨2, [.rm .dword, .r .dword]⟩) (fun op hop => ?_) fun a b ha hb => ?_
  · rw [List.mem_singleton.mp (of_oneOf hop)]
    rw [formsOf_imull]
    decide
  · obtain ⟨r, rfl⟩ := ereg_eq ha
    obtain ⟨q, rfl⟩ := ereg_eq hb
    exact ⟨3, by decide, rfl⟩

theorem sufficient_fnstsw : Exact near ⟨oneOf ["fnstsw"], operands1 (· = .reg (.r16 .eax)), 3⟩ always := by
  refine sufficient_one fun op a m hop ha hm => ?_
  obtain rfl := of_decide_eq_true ha
  obtain rfl := List.mem_singleton.mp (of_oneOf hop)
  exact shortest_floating_le (by decide) (by simp [Operand.plain]) hm

theorem sufficient_set : Exact near ⟨oneOf (cat ["set"] cond), operands1 Operand.breg, 3⟩ always := by
  refine sufficient_one_of_form (f := ⟨2, [.rm .byte]⟩) (fun op hop => ?_) fun a ha => ?_
  · rw [formsOf_set (of_oneOf hop)]
    exact List.mem_cons_self
  · obtain ⟨r, rfl⟩ := breg_eq ha
    exact ⟨3, by decide, rfl⟩

theorem sufficient_extend_indexed :
    Exact near ⟨oneOf extending, operands2 (Operand.indexed noOffset) Operand.ereg, 5⟩ always := by
  refine sufficient_two fun op a b m hop ha hb hm => ?_
  obtain ⟨d, base, x, sc, rfl, hd⟩ := indexed_eq ha
  obtain ⟨r, rfl⟩ := ereg_eq hb
  obtain rfl := noOffset_eq hd
  obtain ⟨k, hk⟩ := address_of_shortest hm List.mem_cons_self
  obtain ⟨w, hw⟩ := formsOf_extending (of_oneOf hop)
  rw [shortest_extend hw hk] at hm
  obtain rfl := Option.some.inj hm
  rw [index_none hk]
  split <;> decide

theorem isLabel_eq {o : Operand} (h : isLabel o = true) : ∃ value, o = .const value := by
  cases o with
  | const value => exact ⟨value, rfl⟩
  | _ => cases h

theorem isWord_eq {o : Operand} (h : isWord o = true) : ∃ value, o = .const value := by
  cases o with
  | const value => exact ⟨value, rfl⟩
  | _ => cases h

theorem isEax_eq {o : Operand} (h : o.isEax = true) : o = .reg (.r32 .eax) := by
  rcases o with (r | r | r | n) | _ | _ | _ | _ | _
  case reg.r32 => cases r <;> first | rfl | cases h
  all_goals cases h

theorem sufficient_jmp : Exact near ⟨oneOf ["jmp"], operands1 isLabel, 5⟩ always := by
  refine sufficient_one_of_form (f := ⟨1, [.rel32]⟩) (fun op hop => ?_) fun a ha => ?_
  · rw [List.mem_singleton.mp (of_oneOf hop)]
    exact mem_formsOf_rel32 List.mem_cons_self
  · obtain ⟨value, rfl⟩ := isLabel_eq ha
    exact ⟨5, by decide, rfl⟩

theorem sufficient_call : Exact near ⟨oneOf ["call"], operands1 isWord, 5⟩ always := by
  refine sufficient_one_of_form (f := ⟨1, [.rel32]⟩) (fun op hop => ?_) fun a ha => ?_
  · rw [List.mem_singleton.mp (of_oneOf hop)]
    exact mem_formsOf_rel32 (List.mem_cons_of_mem _ List.mem_cons_self)
  · obtain ⟨value, rfl⟩ := isWord_eq ha
    exact ⟨5, by decide, rfl⟩

theorem sufficient_jcc : Exact near ⟨oneOf (cat ["j"] cond), operands1 isLabel, 6⟩ always := by
  refine sufficient_one_of_form (f := ⟨2, [.rel32]⟩) (fun op hop => ?_) fun a ha => ?_
  · rw [formsOf_jcc (of_oneOf hop)]
    decide
  · obtain ⟨value, rfl⟩ := isLabel_eq ha
    exact ⟨6, by decide, rfl⟩

theorem sufficient_immediate_register :
    Exact near ⟨withSize (arith8 ++ ["mov"]) "l", operands2 Operand.immed Operand.ereg, 6⟩ always := by
  have hwords : cat ["mov"] ["l"] = ["movl"] := by decide
  refine sufficient_two fun op a b m hop ha hb hm => ?_
  obtain ⟨v, rfl⟩ := immed_eq ha
  obtain ⟨r, rfl⟩ := ereg_eq hb
  have hop := of_oneOf hop
  rw [cat_append, List.mem_append, hwords] at hop
  rcases hop with h | h
  · refine shortest_le (f := ⟨1, [.imm .dword, .rm .dword]⟩) ?_ rfl hm
    rw [formsOf_arith8 h]
    decide
  · refine Nat.le_trans (shortest_le (f := ⟨1, [.imm .dword, .r .dword]⟩) ?_ rfl hm) (by decide)
    rw [List.mem_singleton.mp h, formsOf_movl]
    decide

/-- One form of `movl` is enough. -/
theorem sufficient_movl {f : Form} (hf : f ∈ movForms .dword)
    (hp : ∀ a b, p a = true → q b = true → ∃ k ≤ n, f.bytes near [a, b] = some k) :
    Exact near ⟨oneOf ["movl"], operands2 p q, n⟩ always := by
  refine sufficient_two_of_form (fun op hop => ?_) hp
  rw [List.mem_singleton.mp (of_oneOf hop), formsOf_movl]
  exact hf

theorem sufficient_const_eax :
    Exact near ⟨oneOf ["movl"], operands2 Operand.isConst Operand.isEax, 5⟩ always := by
  refine sufficient_movl (f := ⟨1, [.moffs, .acc .dword]⟩) (by decide) fun a b ha hb => ?_
  obtain ⟨value, rfl⟩ := isConst_eq ha
  obtain rfl := isEax_eq hb
  exact ⟨5, by decide, rfl⟩

theorem sufficient_eax_const :
    Exact near ⟨oneOf ["movl"], operands2 Operand.isEax Operand.isConst, 5⟩ always := by
  refine sufficient_movl (f := ⟨1, [.acc .dword, .moffs]⟩) (by decide) fun a b ha hb => ?_
  obtain rfl := isEax_eq ha
  obtain ⟨value, rfl⟩ := isConst_eq hb
  exact ⟨5, by decide, rfl⟩

theorem sufficient_const_register :
    Exact near ⟨oneOf ["movl"], operands2 Operand.isConst Operand.ereg, 6⟩ always := by
  refine sufficient_movl (f := ⟨1, [.rm .dword, .r .dword]⟩) (by decide) fun a b ha hb => ?_
  obtain ⟨value, rfl⟩ := isConst_eq ha
  obtain ⟨r, rfl⟩ := ereg_eq hb
  exact ⟨6, by decide, rfl⟩

/-- A base other than `%esp` leaves a byte for the opcode. -/
theorem sufficient_store_far : Exact near ⟨oneOf ["movl"], operands2 Operand.ereg eOff, 6⟩ always := by
  refine sufficient_two fun op a b m hop ha hb hm => ?_
  obtain ⟨r, rfl⟩ := ereg_eq ha
  obtain ⟨d, base, rfl, -, hbase⟩ := based_eq hb
  obtain ⟨k, hk⟩ := address_of_shortest hm (List.mem_cons_of_mem _ List.mem_cons_self)
  obtain rfl := List.mem_singleton.mp (of_oneOf hop)
  rw [shortest_store (by simp [formsOf_movl]) hk] at hm
  obtain rfl := Option.some.inj hm
  have hmax := base_le_max hk
  rw [if_neg (noEsp_ne hbase)] at hmax
  omega

theorem loads_movl {op : String} (h : oneOf ["movl"] op = true) : formsOf op ∈ loads := by
  rw [List.mem_singleton.mp (of_oneOf h), formsOf_movl]
  simp [loads]

theorem loads_leal {op : String} (h : oneOf ["leal"] op = true) : formsOf op ∈ loads := by
  rw [List.mem_singleton.mp (of_oneOf h), formsOf_leal]
  simp [loads]

theorem sufficient_load_far : Exact near ⟨oneOf ["movl"], operands2 eOff Operand.ereg, 6⟩ always := by
  refine exact_load_based (fun op => loads_movl) fun op d b r a hd hb ha => iff_of_true ?_ rfl
  have hmax := base_le_max ha
  rw [if_neg (noEsp_ne hb)] at hmax
  omega

/-- Seven bytes are enough for every address. -/
theorem sufficient_scaled {base : Bool} (hops : ∀ op, ops op = true → formsOf op ∈ loads) :
    Exact near ⟨ops, operands2 (Operand.scaled base) Operand.ereg, 7⟩ always := by
  refine sufficient_two fun op a b m hop ha hb hm => ?_
  obtain ⟨d, base, x, sc, rfl⟩ := scaled_eq ha
  obtain ⟨r, rfl⟩ := ereg_eq hb
  obtain ⟨k, hk⟩ := address_of_shortest hm List.mem_cons_self
  rw [shortest_load (hops op hop) hk] at hm
  obtain rfl := Option.some.inj hm
  have hmax := (addressBytes_bounds hk).2
  omega

theorem sufficient_push_argument :
    Exact near ⟨oneOf ["movl"], operands2 Operand.immed (Operand.based noOffset isEsp), 7⟩ always := by
  refine sufficient_two fun op a b m hop ha hb hm => ?_
  obtain ⟨v, rfl⟩ := immed_eq ha
  obtain ⟨d, base, rfl, hd, hbase⟩ := based_eq hb
  obtain rfl := noOffset_eq hd
  obtain rfl := isEsp_eq hbase
  obtain rfl := List.mem_singleton.mp (of_oneOf hop)
  obtain ⟨k, hk⟩ := address_of_shortest hm (List.mem_cons_of_mem _ List.mem_cons_self)
  rw [shortest_mov formsOf_movl hk] at hm
  obtain rfl := Option.some.inj hm
  rw [base_none hk]
  decide

theorem sufficient_eleven : Exact near ⟨fun _ => true, immediateAndOffset, 11⟩ always := by
  refine exact_always fun op args m hop hargs hm => ?_
  obtain ⟨f, hf, hbytes⟩ := shortest_mem hm
  exact (bytes_le (formsOf_regular hf) hbytes).1

theorem sufficient_direct :
    Exact near ⟨oneOf (cat arithMov ["w", "l"]), operands2 Operand.immed Operand.isConst, 10⟩ always := by
  refine sufficient_two fun op a b m hop ha hb hm => ?_
  obtain ⟨v, rfl⟩ := immed_eq ha
  obtain ⟨value, rfl⟩ := isConst_eq hb
  obtain ⟨f, hf, hbytes⟩ := shortest_mem hm
  exact (bytes_le (formsOf_regular hf) hbytes).2 (by simp [Operand.sib])

end Sufficient

section Guesses

variable {near : Operand → Bool} {i : Insn} {m : Nat}

/-- Every pattern has its condition. -/
theorem conditions_exact : List.Forall₂ (Exact near) rules conditions :=
  .cons sufficient_inc <| .cons sufficient_bare <| .cons sufficient_fld1 <| .cons sufficient_floating_bare <|
  .cons (sufficient_registers fun op hop => by rw [List.mem_singleton.mp (of_oneOf hop)]; decide) <|
  .cons sufficient_store_plain <| .cons sufficient_shift <| .cons sufficient_group3 <|
  .cons (sufficient_registers fun op => of_oneOf) <| .cons exact_load_plain <| .cons exact_load_esp <|
  .cons sufficient_byte_register <| .cons sufficient_fstp <| .cons exact_byte_plain <|
  .cons sufficient_floating_register <| .cons exact_floating_plain <| .cons sufficient_floating_registers <|
  .cons (exact_load_indexed_plain fun op => loads_movl) <| .cons exact_extend_plain <|
  .cons sufficient_extend_register <| .cons sufficient_imul <| .cons sufficient_fnstsw <| .cons sufficient_set <|
  .cons exact_arith_near <| .cons exact_shift_near <| .cons exact_movb_near <| .cons exact_store <|
  .cons exact_store <| .cons exact_arith_register <| .cons exact_load_near <| .cons exact_load_near_esp <|
  .cons (exact_load_indexed_plain fun op => loads_leal) <| .cons exact_unary_near <| .cons exact_floating_near <|
  .cons exact_floating_indexed_plain <| .cons exact_floating_indexed_near <| .cons exact_lea_indexed <|
  .cons exact_extend_indexed <| .cons sufficient_extend_indexed <| .cons exact_extend_near <|
  .cons sufficient_jmp <| .cons sufficient_immediate_register <| .cons sufficient_const_eax <|
  .cons sufficient_eax_const <| .cons sufficient_call <| .cons sufficient_jcc <| .cons sufficient_store_far <|
  .cons sufficient_load_far <| .cons sufficient_const_register <| .cons exact_movl_near <|
  .cons exact_arith_far <| .cons (sufficient_scaled fun op => loads_leal) <| .cons sufficient_push_argument <|
  .cons (sufficient_scaled fun op => loads_movl) <| .cons exact_immediate_near <| .cons exact_immediate_esp <|
  .cons exact_movl_esp <| .cons sufficient_eleven <| .cons sufficient_direct .nil

theorem default_exact (h : shortest near i = some m) : m ≤ 8 ↔ defaultCondition near i.op i.args = true := by
  constructor
  · intro hle
    obtain ⟨f, hf, hbytes⟩ := shortest_mem h
    refine List.any_eq_true.mpr ⟨f, hf, Bool.and_eq_true_iff.mpr ⟨?_, ?_⟩⟩
    · rw [hbytes]
      rfl
    · exact (bytes_le_eight (formsOf_regular hf) hbytes).mp hle
  · intro hdefault
    obtain ⟨f, hf, hfits⟩ := List.any_eq_true.mp hdefault
    obtain ⟨hsome, hroomy⟩ := Bool.and_eq_true_iff.mp hfits
    obtain ⟨k, hk⟩ := Option.isSome_iff_exists.mp hsome
    exact Nat.le_trans (shortest_le hf hk h) ((bytes_le_eight (formsOf_regular hf) hk).mpr hroomy)

/-- The first pattern that matches decides about the guess and about the condition. -/
theorem find_exact {rs : List Rule} {cs : List Condition} {default : Condition} {n : Nat}
    (hexact : List.Forall₂ (Exact near) rs cs) (h : shortest near i = some m)
    (hdefault : m ≤ n ↔ default i.op i.args = true) :
    m ≤ ((rs.find? (·.pattern i)).map Rule.len).getD n ↔
      (((rs.zip cs).find? (·.1.pattern i)).map Prod.snd).getD default i.op i.args = true := by
  induction hexact with
  | nil => exact hdefault
  | @cons r c rs cs hr _ ih =>
    cases hpattern : r.pattern i with
    | false =>
      rw [List.zip_cons_cons, List.find?_cons_of_neg (by simp [hpattern]), List.find?_cons_of_neg (by simp [hpattern])]
      exact ih
    | true =>
      obtain ⟨hop, hargs⟩ := Bool.and_eq_true_iff.mp hpattern
      rw [List.zip_cons_cons, List.find?_cons_of_pos (by simp [hpattern]), List.find?_cons_of_pos (by simp [hpattern])]
      exact hr i.op i.args m hop hargs h

theorem insn_len_exact (h : shortest near i = some m) : m ≤ insn_len i ↔ fits near i = true :=
  find_exact conditions_exact h (default_exact h)

end Guesses

section Printed

variable {near : Operand → Bool} {L : Layout} {i j : Insn} {target : Operand} {m n : Nat}

/-- The lines that `maybe_rewrite` adds, with the lengths that it counts for them. -/
inductive Prints (L : Layout) : Insn → Nat → Prop
  | leaTwo (target : Operand) : Prints L (leaEbx target) 7
  | storeTwo (op : String) {source : Operand} : source.source = true → Prints L ⟨op, [source, atEbx]⟩ 6
  | leaOne (target : Operand) : Prints L (leaEbx target) 6
  | storeOne {op : String} : unaryStore op = true → Prints L ⟨op, [atEbx]⟩ 3
  | ret (args : List Operand) : Prints L ⟨"ret", args⟩ (if args = [] then 1 else 3)
  | popReturn : Prints L ⟨"popl", [.reg (.r32 .ebx)]⟩ 1
  | addReturn (value : Const) : Prints L ⟨"addl", [.imm value, .reg (.r32 .esp)]⟩ 3
  | callName (name : Const) : Prints L ⟨"call", [.const name]⟩ 5
  | movCall (target : Operand) : Prints L (movEbx target) 6
  | call : Prints L callEbx 2
  | movJmp (target : Operand) : Prints L (movEbx target) 7
  | jmp : Prints L ⟨"jmp", [.star (.reg (.r32 .ebx))]⟩ 2
  | maskData (r : Reg32) : Prints L (andData L r) 6
  | maskTop : Prints L (andJump L (.mem none (some .esp) none none)) 7
  | maskJump : Prints L (andJump L (.reg (.r32 .ebx))) 6
  | maskReturn : Prints L (andJump L (.reg (.r32 .ebx))) 7
  | pushf : Prints L pushf 1
  | popf : Prints L popf 1

/-- An address with a SIB byte and a displacement of four bytes. -/
def Operand.longest (o : Operand) : Bool := o.farOffset && o.sib

/-- The condition for the lines that are added: six bytes are not enough for the longest addresses, and three
bytes for `addl` are not enough for a long immediate. -/
def fitsPrinted (n : Nat) (j : Insn) : Bool :=
  if n = 6 then !j.args.any Operand.longest else j.op ≠ "addl" || shortImmediate j.op j.args

/-- `leal` and `movl` from an address to `%ebx`. -/
theorem load_ebx {a : Nat} (ha : target.memoryBytes = some a) : 1 + a ≤ 7 ∧ (1 + a ≤ 6 ↔ target.longest = false) := by
  obtain ⟨-, hsix, hnear, hfar⟩ := memoryBytes_extent ha
  refine ⟨by omega, ?_⟩
  rw [Operand.longest]
  cases hoffset : target.farOffset with
  | false =>
    have hle := hnear hoffset
    exact iff_of_true (by omega) (Bool.false_and _)
  | true =>
    rw [Bool.true_and, ← (hfar hoffset).2]
    omega

theorem leaEbx_exact (h : shortest near (leaEbx target) = some m) :
    m ≤ 7 ∧ (m ≤ 6 ↔ target.longest = false) := by
  rw [leaEbx, shortest_lea] at h
  obtain ⟨a, ha, rfl⟩ := Option.map_eq_some_iff.mp h
  exact load_ebx ha

theorem movEbx_exact (h : shortest near (movEbx target) = some m) :
    m ≤ 7 ∧ (m ≤ 6 ↔ target.longest = false) := by
  cases hmemory : target.inMemory with
  | true =>
    cases target with
    | mem d b x sc =>
      obtain ⟨a, ha⟩ := address_of_shortest h List.mem_cons_self
      rw [movEbx, shortest_load (by simp [loads, formsOf_movl]) ha] at h
      obtain rfl := Option.some.inj h
      exact load_ebx ha
    | _ => cases hmemory
  | false =>
    obtain ⟨hle, hshape⟩ := shortest_movl_le hmemory h
    have hshort : target.longest = false := by
      rw [Operand.longest]
      rcases hshape with hplain | hconst
      · rw [farOffset_plain hplain, Bool.false_and]
      · obtain ⟨value, rfl⟩ := isConst_eq hconst
        rfl
    exact ⟨by omega, iff_of_true hle hshort⟩

/-- An address in `%ebx` takes one byte. -/
theorem atEbx_bytes {s : Slot} {o : Operand} {a : Nat} (ho : o = atEbx ∨ o.plain = true) (hs : s.addresses = true)
    (h : s.bytes near o = some a) : a = 1 := by
  rcases ho with rfl | hplain
  · cases s with
    | rm w => exact (Option.some.inj h).symm
    | mem => exact (Option.some.inj h).symm
    | moffs | rel8 | rel32 | star => cases h
    | _ => cases hs
  · cases o with
    | reg r =>
      cases s with
      | rm w =>
        rw [Slot.bytes] at h
        split at h
        · exact (Option.some.inj h).symm
        · cases h
      | mem | moffs | rel8 | rel32 | star => cases h
      | _ => cases hs
    | imm value =>
      cases s with
      | rm w => cases h
      | mem | moffs | rel8 | rel32 | star => cases h
      | _ => cases hs
    | _ => cases hplain

/-- A store of two operands through `%ebx`. -/
theorem storeTwo_le {op : String} {source : Operand} (hsource : source.source = true)
    (h : shortest near ⟨op, [source, atEbx]⟩ = some m) : m ≤ 6 := by
  obtain ⟨f, hf, hbytes⟩ := shortest_mem h
  have hregular := formsOf_regular hf
  have hplain : source.plain = true := by
    cases source with
    | reg r => rfl
    | imm value => rfl
    | _ => cases hsource
  rcases bytes_split hregular hbytes with ⟨rfl, -⟩ | ⟨s, hs, o, ho, a, haddr, ha, rfl, -⟩
  · exact hregular.fixed_le
  · have hone : a = 1 := by
      refine atEbx_bytes ?_ haddr ha
      rcases List.mem_pair.mp ho with rfl | rfl
      · exact Or.inr hplain
      · exact Or.inl rfl
    have hfixed := hregular.address_le s hs haddr
    omega

/-- A store of one operand through `%ebx`. -/
theorem storeOne_le {op : String} (h : shortest near ⟨op, [atEbx]⟩ = some m) : m ≤ 3 := by
  obtain ⟨f, hf, hbytes⟩ := shortest_mem h
  have hregular := formsOf_regular hf
  have hlength : f.slots.length = 1 := by
    obtain ⟨n, hn, -⟩ := Option.map_eq_some_iff.mp hbytes
    rcases hslots : f.slots with _ | ⟨s, _ | ⟨t, slots⟩⟩
    · rw [hslots] at hn
      cases hn
    · rfl
    · rw [hslots] at hn
      obtain ⟨_, _, _, hrest, -⟩ := slotsBytes_cons.mp hn
      cases hrest
  rcases bytes_split hregular hbytes with ⟨-, hplain⟩ | ⟨s, hs, o, ho, a, haddr, ha, rfl, -⟩
  · cases hplain atEbx List.mem_cons_self
  · have hone := atEbx_bytes (Or.inl (List.mem_singleton.mp ho)) haddr ha
    have hfixed := hregular.single_le s hs hlength haddr
    omega

theorem ret_le {args : List Operand} (h : shortest near ⟨"ret", args⟩ = some m) :
    m ≤ if args = [] then 1 else 3 := by
  obtain ⟨f, hf, hbytes⟩ := shortest_mem h
  have hforms : f ∈ [⟨1, []⟩, ⟨1, [.imm .word]⟩] := by
    rw [← formsOf_ret]
    exact hf
  obtain ⟨n, hn, rfl⟩ := Option.map_eq_some_iff.mp hbytes
  rcases List.mem_pair.mp hforms with rfl | rfl
  · cases args with
    | nil =>
      obtain rfl := Option.some.inj hn
      decide
    | cons o args => cases hn
  · have hfixed := (slotsBytes_fixed (by decide) hn).1
    cases args with
    | nil => cases hn
    | cons o args =>
      rw [hfixed, if_neg (List.cons_ne_nil o args)]
      decide

/-- A mask of a register takes six bytes at most, and that of `(%esp)` seven. -/
theorem andMask_le {w : Word} {r : Reg32} (h : shortest near (andMask w (.reg (.r32 r))) = some m) : m ≤ 6 := by
  rw [andMask, shortest_group1_reg (formsOf_arith8 (by decide))] at h
  obtain rfl := Option.some.inj h
  split
  · decide
  · split <;> decide

theorem andMask_top_le {w : Word} (h : shortest near (andMask w (.mem none (some .esp) none none)) = some m) :
    m ≤ 7 := by
  obtain ⟨a, ha⟩ := address_of_shortest h (List.mem_cons_of_mem _ List.mem_cons_self)
  rw [andMask, shortest_group1 (formsOf_arith8 (by decide)) ha] at h
  obtain rfl := Option.some.inj h
  rw [base_none ha]
  split <;> decide

theorem addEsp_exact {value : Const}
    (h : shortest near ⟨"addl", [.imm value, .reg (.r32 .esp)]⟩ = some m) : m ≤ 3 ↔ short .dword value = true := by
  rw [shortest_group1_reg (formsOf_arith8 (by decide))] at h
  obtain rfl := Option.some.inj h
  cases short .dword value <;> decide

/-- A line that `maybe_rewrite` adds. -/
theorem prints_exact (hp : Prints L j n) (h : shortest near j = some m) : m ≤ n ↔ fitsPrinted n j = true := by
  -- a length other than six is enough for everything but an `addl` of an immediate
  have hother : ∀ {k}, m ≤ k → k ≠ 6 → j.op ≠ "addl" → (m ≤ k ↔ fitsPrinted k j = true) := by
    intro k hle hk hop
    refine iff_of_true hle ?_
    rw [fitsPrinted, if_neg hk, decide_eq_true hop, Bool.true_or]
  have hsix : (m ≤ 6 ↔ j.args.any Operand.longest = false) → (m ≤ 6 ↔ fitsPrinted 6 j = true) := by
    intro hiff
    rw [hiff, fitsPrinted, if_pos rfl, Bool.not_eq_true']
  have hlea : "leal" ≠ "addl" := by decide
  have hmov : "movl" ≠ "addl" := by decide
  have hand : "andl" ≠ "addl" := by decide
  have hret : "ret" ≠ "addl" := by decide
  have hcall : "call" ≠ "addl" := by decide
  cases hp with
  | leaTwo target => exact hother (leaEbx_exact h).1 (by decide) hlea
  | leaOne target =>
    refine hsix ?_
    rw [(leaEbx_exact h).2]
    simp [leaEbx, Operand.longest, Operand.farOffset]
  | movCall target =>
    refine hsix ?_
    rw [(movEbx_exact h).2]
    simp [movEbx, Operand.longest, Operand.farOffset]
  | movJmp target => exact hother (movEbx_exact h).1 (by decide) hmov
  | storeTwo op hsource =>
    refine hsix (iff_of_true (storeTwo_le hsource h) ?_)
    rename_i source
    have hfar : source.longest = false := by
      cases source with
      | reg r => rfl
      | imm value => rfl
      | _ => cases hsource
    rw [List.any_cons, hfar, Bool.false_or]
    rfl
  | storeOne hop =>
    refine iff_of_true (storeOne_le h) ?_
    rw [fitsPrinted, if_neg (by decide), Bool.or_eq_true]
    exact Or.inr rfl
  | ret args => exact hother (ret_le h) (by split <;> decide) hret
  | popReturn =>
    have hform : ⟨1, [.r .dword]⟩ ∈ formsOf "popl" := by
      rw [formsOf_inc (by decide)]
      decide
    exact hother (shortest_le hform rfl h) (by decide) (by decide)
  | addReturn value =>
    rw [addEsp_exact h]
    simp [fitsPrinted, shortImmediate, Operand.shortIfImmediate]
  | callName name =>
    exact hother (shortest_le (mem_formsOf_rel32 (List.mem_cons_of_mem _ List.mem_cons_self)) rfl h) (by decide)
      hcall
  | call =>
    exact hother (shortest_le (mem_formsOf_star (List.mem_cons_of_mem _ List.mem_cons_self)) rfl h) (by decide)
      hcall
  | jmp => exact hother (shortest_le (mem_formsOf_star List.mem_cons_self) rfl h) (by decide) (by decide)
  | maskData r => exact hsix (iff_of_true (andMask_le h) rfl)
  | maskTop => exact hother (andMask_top_le h) (by decide) hand
  | maskJump => exact hsix (iff_of_true (andMask_le h) rfl)
  | maskReturn => exact hother (Nat.le_trans (andMask_le h) (by decide)) (by decide) hand
  | pushf => exact hother (shortest_le (mem_formsOf_bare (by decide)) rfl h) (by decide) (by decide)
  | popf => exact hother (shortest_le (mem_formsOf_bare (by decide)) rfl h) (by decide) (by decide)

/-- The operand of a return is an immediate. -/
theorem ret_operand {args : List Operand} (hargs : args ≠ []) (h : shortest near ⟨"ret", args⟩ = some m) :
    ∃ value, args = [.imm value] := by
  obtain ⟨f, hf, hbytes⟩ := shortest_mem h
  have hforms : f ∈ [⟨1, []⟩, ⟨1, [.imm .word]⟩] := by
    rw [← formsOf_ret]
    exact hf
  obtain ⟨k, hk, -⟩ := Option.map_eq_some_iff.mp hbytes
  rcases List.mem_pair.mp hforms with rfl | rfl
  · cases args with
    | nil => exact absurd rfl hargs
    | cons o args => cases hk
  · cases args with
    | nil => exact absurd rfl hargs
    | cons o args =>
      obtain ⟨a, b, ha, hb, -⟩ := slotsBytes_cons.mp hk
      obtain ⟨value, rfl⟩ := immed_eq (given_eq_some.mp ha).1
      cases args with
      | nil => exact ⟨value, rfl⟩
      | cons p args => cases hb

/-- Every guess is one of `insn_len` for the line itself, or belongs to a line that is added. -/
theorem Passes.prints {threadsafe_return : Bool} (hp : Passes threadsafe_return i j n)
    (hi : shortest near i = some m) : j = i ∧ n = insn_len i ∨ Prints L j n := by
  cases hp with
  | line => exact Or.inl ⟨rfl, rfl⟩
  | leaTwo => exact Or.inr (.leaTwo _)
  | storeTwo hstore =>
    rw [Bool.and_eq_true, Bool.and_eq_true] at hstore
    exact Or.inr (.storeTwo _ hstore.1.1)
  | leaOne => exact Or.inr (.leaOne _)
  | storeOne hstore => exact Or.inr (.storeOne (Bool.and_eq_true_iff.mp hstore).2)
  | ret => exact Or.inr (.ret _)
  | add _ hargs =>
    obtain ⟨value, rfl⟩ := ret_operand hargs hi
    exact Or.inr (.addReturn value)
  | call => exact Or.inr (.movCall _)
  | jmp => exact Or.inr (.movJmp _)

end Printed

section Results

/-- `movl (%ebp), %eax` -/
def loadEbp : Insn := ⟨"movl", [.mem none (some .ebp) none none, .reg (.r32 .eax)]⟩

/-- `movl (%eax), %eax` -/
def loadEax : Insn := ⟨"movl", [.mem none (some .eax) none none, .reg (.r32 .eax)]⟩

end Results

end Pittsfield.Rewrite
