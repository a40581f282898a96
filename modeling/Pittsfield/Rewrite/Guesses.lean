import Pittsfield.Rewrite.Families

/-!
# Patterns that need a condition

For every pattern of `insn_len` the condition under which its number is not below the length
of the shortest encoding. The patterns of this module overlook that `%ebp` has no encoding
without a displacement, that `%esp` takes a SIB byte, that a number of two hexadecimal
digits may need four bytes, or the byte of `fwait`.
-/

namespace Pittsfield.Rewrite

open Pittsfield.Region
open Pittsfield.Machine
open Pittsfield.Offline

namespace Operand

/-- The operand is not in memory, or its offset and its base are as asked for. -/
def memoryIs (p : Option Const → Option Reg32 → Bool) : Operand → Bool
  | .mem offset base _ _ => p offset base
  | _ => true

/-- The operand is no immediate, or takes one byte. -/
def shortIfImmediate : Operand → Bool
  | .imm value => short .dword value
  | _ => true

end Operand

section Conditions

/-- What the true length of a line that a pattern matches depends on: the opcode and the operands. -/
abbrev Condition := String → List Operand → Bool

def always : Condition := fun _ _ => true

/-- The base register is none of these. -/
def baseNot (bs : List Reg32) : Condition :=
  fun _ args => args.all (Operand.memoryIs fun _ base => base.all fun b => b ∉ bs)

/-- The displacement takes a byte at most. -/
def narrowOffset : Condition := fun _ args => args.all (Operand.memoryIs fun offset _ => narrow offset)

/-- The displacement is zero, or the base is not `%esp`. -/
def zeroOrNotEsp : Condition :=
  fun _ args => args.all (Operand.memoryIs fun offset base => vanishes offset || base ≠ some .esp)

/-- The displacement is zero. -/
def zeroOffset : Condition := fun _ args => args.all (Operand.memoryIs fun offset _ => vanishes offset)

/-- The immediate takes a byte. -/
def shortImmediate : Condition := fun _ args => args.all Operand.shortIfImmediate

/-- The opcode is one of these. -/
def opIn (words : Words) : Condition := fun op _ => op ∈ words

def both (c d : Condition) : Condition := fun op args => c op args && d op args

def either (c d : Condition) : Condition := fun op args => c op args || d op args

def unlessWaiting (c : Condition) : Condition := fun op args => op ∉ waiting || c op args

/-- The conditions for the patterns, in their order. -/
def conditions : List Condition :=
  List.replicate 9 always ++
  -- `($arith8|mov|test)l ($ereg_no_esp), $ereg` and the three behind it
  [baseNot [.ebp], always, always, always] ++
  -- `($arith8|mov|test)b $imb_sign, ($ereg)` up to `f\w+ $freg, $freg`
  [baseNot [.ebp, .esp], always, unlessWaiting (baseNot [.ebp, .esp]), always] ++
  -- `movl ($ereg,$ereg(,[1248])?), $ereg` and `mov[sz]bl ($ereg), $ereg`
  [baseNot [.ebp], baseNot [.ebp, .esp]] ++ List.replicate 4 always ++
  -- the patterns with `$eb_off` and `$b_sign(%esp)`
  [both narrowOffset (either (opIn (cat arith8 ["b"])) shortImmediate), narrowOffset, narrowOffset,
    narrowOffset, narrowOffset, either (opIn (cat shift ["l"])) shortImmediate, narrowOffset, narrowOffset] ++
  -- `leal ($ereg,$ereg(,[1248])?), $ereg` and `(inc|dec|push)l $eb_off`
  [baseNot [.ebp], narrowOffset] ++
  -- the floating-point operations with `$b_sign($ereg)` and with an index
  [both narrowOffset (unlessWaiting zeroOrNotEsp), unlessWaiting (baseNot [.ebp]),
    both narrowOffset (unlessWaiting (both (baseNot [.ebp]) zeroOffset))] ++
  -- `leal` and `mov` from an address with an index, and from `$eb_off`
  [narrowOffset, narrowOffset, always, narrowOffset] ++ List.replicate 9 always ++
  -- an immediate and `$eb_off` or `$e_off`
  [narrowOffset, either shortImmediate narrowOffset, always, always, always] ++
  -- an immediate and `$eb_off` or `$b_sign(%esp)`
  [either narrowOffset (both (fun op _ => op ≠ "movl") shortImmediate),
    either narrowOffset (both (fun op _ => op ≠ "movl") shortImmediate), narrowOffset, always, always]

variable (near : Operand → Bool)

/-- Eight bytes are enough for a form: the opcode and the immediate have two bytes, or three next to an
address without a SIB byte, or there is no displacement of four bytes. -/
def Form.roomy (args : List Operand) (f : Form) : Bool :=
  f.fixed ≤ 2 || !args.any Operand.farOffset || f.fixed ≤ 3 && !args.any Operand.sib

/-- The condition where no pattern matches. -/
def defaultCondition : Condition :=
  fun op args => (formsOf op).any fun f => (f.bytes near args).isSome && f.roomy args

/-- The condition of the pattern that decides about the instruction. -/
def fits (i : Insn) : Bool :=
  (((rules.zip conditions).find? (·.1.pattern i)).map Prod.snd).getD (defaultCondition near) i.op i.args

end Conditions

section Default

variable {near : Operand → Bool} {op : String} {args : List Operand} {f : Form} {o : Operand} {k m : Nat}

/-- Only the address decides about a predicate that no other operand meets. -/
theorem any_address {p : Operand → Bool} (hplain : ∀ q, q.plain = true → p q = false) (ho : o ∈ args)
    (hargs : ∀ q ∈ args, q = o ∨ q.plain = true) : args.any p = p o := by
  cases hp : p o with
  | true => exact List.any_eq_true.mpr ⟨o, ho, hp⟩
  | false =>
    refine List.any_eq_false.mpr fun q hq => ?_
    rcases hargs q hq with rfl | hq
    · exact Bool.eq_false_iff.mp hp
    · exact Bool.eq_false_iff.mp (hplain q hq)

/-- A form has eleven bytes at most, of which one is a SIB byte. -/
theorem bytes_le (hf : f.Regular) (h : f.bytes near args = some k) :
    k ≤ 11 ∧ ((∀ o ∈ args, o.sib = false) → k ≤ 10) := by
  have hfixed := hf.fixed_le
  rcases bytes_split hf h with ⟨rfl, -⟩ | ⟨s, hs, o, ho, a, haddr, ha, rfl, -⟩
  · exact ⟨by omega, fun _ => by omega⟩
  have haddress := hf.address_le s hs haddr
  cases hdirect : s.direct with
  | true =>
    have hle := direct_le_four hdirect ha
    exact ⟨by omega, fun _ => by omega⟩
  | false =>
    obtain ⟨-, hsix, hnear, hfar⟩ := slot_extent haddr hdirect ha
    refine ⟨by omega, fun hsib => ?_⟩
    cases hoffset : o.farOffset with
    | false =>
      have hle := hnear hoffset
      omega
    | true =>
      have hle := (hfar hoffset).2.mpr (hsib o ho)
      omega

/-- The default is right for the forms that leave room. -/
theorem bytes_le_eight (hf : f.Regular) (h : f.bytes near args = some k) : k ≤ 8 ↔ f.roomy args = true := by
  have hfixed := hf.fixed_le
  rcases bytes_split hf h with ⟨rfl, hplain⟩ | ⟨s, hs, o, ho, a, haddr, ha, rfl, hargs⟩
  · have hfar : args.any Operand.farOffset = false :=
      List.any_eq_false.mpr fun q hq => Bool.eq_false_iff.mp (farOffset_plain (hplain q hq))
    have hroomy : f.roomy args = true := by
      simp [Form.roomy, hfar]
    exact ⟨fun _ => hroomy, fun _ => by omega⟩
  have haddress := hf.address_le s hs haddr
  cases hdirect : s.direct with
  | true =>
    have hle := direct_le_four hdirect ha
    have htwo := hf.direct_le s hs hdirect
    have hroomy : f.roomy args = true := by
      simp [Form.roomy, htwo]
    exact ⟨fun _ => hroomy, fun _ => by omega⟩
  | false =>
    obtain ⟨-, hsix, hnear, hfar⟩ := slot_extent haddr hdirect ha
    rw [Form.roomy, any_address (fun q => farOffset_plain) ho hargs, any_address (fun q => sib_plain) ho hargs]
    cases hoffset : o.farOffset with
    | false =>
      have hle := hnear hoffset
      exact ⟨fun _ => by simp, fun _ => by omega⟩
    | true =>
      obtain ⟨hge, hsib⟩ := hfar hoffset
      cases hbyte : o.sib with
      | false =>
        have hle := hsib.mpr hbyte
        simp
        omega
      | true =>
        have hlt : ¬ a ≤ 5 := fun hle => Bool.false_ne_true ((hsib.mp hle).symm.trans hbyte)
        simp
        omega

end Default

section Shapes

variable {p q : Operand → Bool} {args : List Operand} {o : Operand} {words : Words} {op : String}

theorem of_oneOf (h : oneOf words op = true) : op ∈ words := of_decide_eq_true h

theorem operands0_eq (h : operands0 args = true) : args = [] := of_decide_eq_true h

theorem operands1_eq (h : operands1 p args = true) : ∃ a, args = [a] ∧ p a = true := by
  rcases args with _ | ⟨a, _ | ⟨b, args⟩⟩
  · cases h
  · exact ⟨a, rfl, h⟩
  · cases h

theorem operands2_eq (h : operands2 p q args = true) : ∃ a b, args = [a, b] ∧ p a = true ∧ q b = true := by
  rcases args with _ | ⟨a, _ | ⟨b, _ | ⟨c, args⟩⟩⟩
  · cases h
  · cases h
  · obtain ⟨ha, hb⟩ := Bool.and_eq_true_iff.mp h
    exact ⟨a, b, rfl, ha, hb⟩
  · cases h

theorem ereg_eq (h : o.ereg = true) : ∃ r, o = .reg (.r32 r) := by
  rcases o with (r | r | r | n) | _ | _ | _ | _ | _
  · exact ⟨r, rfl⟩
  all_goals cases h

theorem breg_eq (h : o.breg = true) : ∃ r, o = .reg (.r8 r) := by
  rcases o with (r | r | r | n) | _ | _ | _ | _ | _
  · cases h
  · cases h
  · exact ⟨r, rfl⟩
  all_goals cases h

theorem freg_eq (h : o.freg = true) : ∃ n, o = .reg (.other n) := by
  rcases o with (r | r | r | n) | _ | _ | _ | _ | _
  · cases h
  · cases h
  · cases h
  · exact ⟨n, rfl⟩
  all_goals cases h

theorem immed_eq (h : o.immed = true) : ∃ value, o = .imm value := by
  cases o with
  | imm value => exact ⟨value, rfl⟩
  | _ => cases h

theorem imbSign_eq (h : o.imbSign = true) : ∃ value, o = .imm value := by
  cases o with
  | imm value => exact ⟨value, rfl⟩
  | _ => cases h

theorem isConst_eq (h : o.isConst = true) : ∃ value, o = .const value := by
  cases o with
  | const value => exact ⟨value, rfl⟩
  | _ => cases h

theorem based_eq {offset : Option Const → Bool} {base : Reg32 → Bool} (h : o.based offset base = true) :
    ∃ d b, o = .mem d (some b) none none ∧ offset d = true ∧ base b = true := by
  rcases o with _ | _ | ⟨d, _ | b, _ | x, _ | sc⟩ | _ | _ | _
  case mem.some.none.none =>
    obtain ⟨hd, hb⟩ := Bool.and_eq_true_iff.mp h
    exact ⟨d, b, rfl, hd, hb⟩
  all_goals cases h

theorem indexed_eq {offset : Option Const → Bool} (h : o.indexed offset = true) :
    ∃ d b x sc, o = .mem d (some b) (some x) sc ∧ offset d = true := by
  rcases o with _ | _ | ⟨d, _ | b, _ | x, sc⟩ | _ | _ | _
  case mem.some.some => exact ⟨d, b, x, sc, rfl, h⟩
  all_goals cases h

theorem scaled_eq {base : Bool} (h : o.scaled base = true) : ∃ d b x sc, o = .mem d b x sc := by
  cases o with
  | mem d b x sc => exact ⟨d, b, x, sc, rfl⟩
  | _ => cases h

theorem noOffset_eq {d : Option Const} (h : noOffset d = true) : d = none := of_decide_eq_true h

theorem noEsp_ne {b : Reg32} (h : noEsp b = true) : b ≠ .esp := of_decide_eq_true h

theorem isEsp_eq {b : Reg32} (h : isEsp b = true) : b = .esp := of_decide_eq_true h

end Shapes

section Addresses

variable {d : Option Const} {b x : Reg32} {a n : Nat}

theorem base_none (h : addressBytes none (some b) none = some a) : a = if b = .ebp ∨ b = .esp then 2 else 1 := by
  rw [addressBytes_base, displacementBytes_none] at h
  obtain rfl := Option.some.inj h
  cases b <;> rfl

theorem index_ne (h : addressBytes d (some b) (some x) = some a) : x ≠ .esp := by
  rintro rfl
  rw [addressBytes_esp] at h
  cases h

theorem index_none (h : addressBytes none (some b) (some x) = some a) : a = if b = .ebp then 3 else 2 := by
  rw [addressBytes_index (index_ne h), displacementBytes_none] at h
  obtain rfl := Option.some.inj h
  cases b <;> rfl

/-- Between these bounds it is the displacement that decides. -/
theorem base_le (h : addressBytes d (some b) none = some a) (hlow : (if b = .esp then 3 else 2) ≤ n)
    (hhigh : n ≤ 4) : a ≤ n ↔ narrow d = true := by
  rw [addressBytes_base] at h
  obtain rfl := Option.some.inj h
  have hlow' : (if b = .esp then 2 else 1) + 1 ≤ n := by
    split at hlow
    · rwa [if_pos ‹_›]
    · rwa [if_neg ‹_›]
  have hone : 1 ≤ if b = .esp then 2 else 1 := by split <;> decide
  rcases displacementBytes_cases d b with ⟨hnarrow, hbytes⟩ | ⟨hnarrow, hbytes⟩
  · exact iff_of_true (by omega) hnarrow
  · exact iff_of_false (by omega) (Bool.eq_false_iff.mp hnarrow)

theorem index_le (h : addressBytes d (some b) (some x) = some a) (hlow : 3 ≤ n) (hhigh : n ≤ 5) :
    a ≤ n ↔ narrow d = true := by
  rw [addressBytes_index (index_ne h)] at h
  obtain rfl := Option.some.inj h
  rcases displacementBytes_cases d b with ⟨hnarrow, hbytes⟩ | ⟨hnarrow, hbytes⟩
  · exact iff_of_true (by omega) hnarrow
  · exact iff_of_false (by omega) (Bool.eq_false_iff.mp hnarrow)

/-- The displacement is left out. -/
theorem index_le_two (h : addressBytes d (some b) (some x) = some a) :
    a ≤ 2 ↔ vanishes d = true ∧ b ≠ .ebp := by
  rw [addressBytes_index (index_ne h)] at h
  obtain rfl := Option.some.inj h
  rw [← displacementBytes_eq_zero]
  omega

theorem esp_le_two (h : addressBytes d (some .esp) none = some a) : a ≤ 2 ↔ vanishes d = true := by
  rw [addressBytes_base] at h
  obtain rfl := Option.some.inj h
  have hzero : displacementBytes d .esp = 0 ↔ vanishes d = true ∧ Reg32.esp ≠ .ebp := displacementBytes_eq_zero
  rw [if_pos rfl]
  constructor
  · intro hle
    exact (hzero.mp (by omega)).1
  · intro hvanishes
    rw [hzero.mpr ⟨hvanishes, by decide⟩]

theorem base_le_max (h : addressBytes d (some b) none = some a) : a ≤ if b = .esp then 6 else 5 := by
  rw [addressBytes_base] at h
  obtain rfl := Option.some.inj h
  have hcases := displacementBytes_cases d b
  split <;> omega

end Addresses

section Patterns

variable {near : Operand → Bool} {ops : String → Bool} {p q : Operand → Bool} {n : Nat} {c : Condition}

/-- The length of a pattern reaches the true lengths of the lines that it matches exactly under the condition. -/
def Exact (near : Operand → Bool) (r : Rule) (c : Condition) : Prop :=
  ∀ op args m, r.ops op = true → r.args args = true → shortest near ⟨op, args⟩ = some m →
    (m ≤ r.len ↔ c op args = true)

theorem exact_always {r : Rule} (h : ∀ op args m, r.ops op = true → r.args args = true →
    shortest near ⟨op, args⟩ = some m → m ≤ r.len) : Exact near r always := by
  intro op args m hop hargs hm
  exact iff_of_true (h op args m hop hargs hm) rfl

theorem exact_one (h : ∀ op a m, ops op = true → p a = true → shortest near ⟨op, [a]⟩ = some m →
    (m ≤ n ↔ c op [a] = true)) : Exact near ⟨ops, operands1 p, n⟩ c := by
  intro op args m hop hargs hm
  obtain ⟨a, rfl, ha⟩ := operands1_eq hargs
  exact h op a m hop ha hm

theorem exact_two (h : ∀ op a b m, ops op = true → p a = true → q b = true →
    shortest near ⟨op, [a, b]⟩ = some m → (m ≤ n ↔ c op [a, b] = true)) :
    Exact near ⟨ops, operands2 p q, n⟩ c := by
  intro op args m hop hargs hm
  obtain ⟨a, b, rfl, ha, hb⟩ := operands2_eq hargs
  exact h op a b m hop ha hb hm

/-- From memory at a base register to a register. -/
theorem exact_load_based {offset : Option Const → Bool} {base : Reg32 → Bool}
    (hops : ∀ op, ops op = true → formsOf op ∈ loads)
    (h : ∀ op d b r a, offset d = true → base b = true → addressBytes d (some b) none = some a →
      (1 + a ≤ n ↔ c op [.mem d (some b) none none, .reg (.r32 r)] = true)) :
    Exact near ⟨ops, operands2 (Operand.based offset base) Operand.ereg, n⟩ c := by
  refine exact_two fun op source target m hop hsource htarget hm => ?_
  obtain ⟨d, b, rfl, hd, hb⟩ := based_eq hsource
  obtain ⟨r, rfl⟩ := ereg_eq htarget
  obtain ⟨a, ha⟩ := address_of_shortest hm List.mem_cons_self
  rw [shortest_load (hops op hop) ha] at hm
  obtain rfl := Option.some.inj hm
  exact h op d b r a hd hb ha

/-- From memory at a base register and an index to a register. -/
theorem exact_load_indexed {offset : Option Const → Bool} (hops : ∀ op, ops op = true → formsOf op ∈ loads)
    (h : ∀ op d b x sc r a, offset d = true → addressBytes d (some b) (some x) = some a →
      (1 + a ≤ n ↔ c op [.mem d (some b) (some x) sc, .reg (.r32 r)] = true)) :
    Exact near ⟨ops, operands2 (Operand.indexed offset) Operand.ereg, n⟩ c := by
  refine exact_two fun op source target m hop hsource htarget hm => ?_
  obtain ⟨d, b, x, sc, rfl, hd⟩ := indexed_eq hsource
  obtain ⟨r, rfl⟩ := ereg_eq htarget
  obtain ⟨a, ha⟩ := address_of_shortest hm List.mem_cons_self
  rw [shortest_load (hops op hop) ha] at hm
  obtain rfl := Option.some.inj hm
  exact h op d b x sc r a hd ha

attribute [local simp] baseNot narrowOffset zeroOrNotEsp zeroOffset shortImmediate opIn both either unlessWaiting
attribute [local simp] Operand.memoryIs Operand.shortIfImmediate

/-- `%ebp` needs a displacement. -/
theorem exact_load_plain :
    Exact near ⟨withSize arithMov "l", operands2 (Operand.based noOffset noEsp) Operand.ereg, 2⟩
      (baseNot [.ebp]) := by
  refine exact_load_based (fun op hop => loads_arithMov (of_oneOf hop)) ?_
  intro op d b r a hd hb ha
  obtain rfl := noOffset_eq hd
  obtain rfl := base_none ha
  have hesp := noEsp_ne hb
  by_cases hebp : b = .ebp <;> simp [hebp, hesp]

theorem exact_load_esp :
    Exact near ⟨withSize arithMov "l", operands2 (Operand.based noOffset isEsp) Operand.ereg, 3⟩ always := by
  refine exact_load_based (fun op hop => loads_arithMov (of_oneOf hop)) ?_
  intro op d b r a hd hb ha
  obtain rfl := noOffset_eq hd
  obtain rfl := base_none ha
  obtain rfl := isEsp_eq hb
  exact iff_of_true (by decide) rfl

theorem exact_load_indexed_plain (hops : ∀ op, ops op = true → formsOf op ∈ loads) :
    Exact near ⟨ops, operands2 (Operand.indexed noOffset) Operand.ereg, 3⟩ (baseNot [.ebp]) := by
  refine exact_load_indexed hops ?_
  intro op d b x sc r a hd ha
  obtain rfl := noOffset_eq hd
  obtain rfl := index_none ha
  by_cases hebp : b = .ebp <;> simp [hebp]

theorem exact_load_near :
    Exact near ⟨withSize (arith8 ++ ["mov", "lea"]) "l", operands2 ebOff Operand.ereg, 3⟩ narrowOffset := by
  refine exact_load_based (fun op hop => loads_mov_lea (of_oneOf hop)) ?_
  intro op d b r a hd hb ha
  have hle := base_le ha (n := 2) (by rw [if_neg (noEsp_ne hb)]) (by decide)
  simp [← hle]
  omega

theorem exact_load_near_esp :
    Exact near ⟨withSize (arith8 ++ ["mov", "lea"]) "l", operands2 bEsp Operand.ereg, 4⟩ narrowOffset := by
  refine exact_load_based (fun op hop => loads_mov_lea (of_oneOf hop)) ?_
  intro op d b r a hd hb ha
  have hle := base_le ha (n := 3) (by rw [if_pos (isEsp_eq hb)]) (by decide)
  simp [← hle]
  omega

theorem exact_lea_indexed :
    Exact near ⟨oneOf ["leal"], operands2 (Operand.indexed bSign) Operand.ereg, 4⟩ narrowOffset := by
  refine exact_load_indexed (fun op hop => ?_) ?_
  · rw [List.mem_singleton.mp (of_oneOf hop)]
    simp [loads, formsOf_leal]
  intro op d b x sc r a hd ha
  have hle := index_le ha (n := 3) (by decide) (by decide)
  simp [← hle]
  omega

/-- From memory to a register, also to a longer one. -/
theorem load_or_extend {op : String} {d : Option Const} {b x : Option Reg32} {sc : Option Scale} {r : Reg32}
    {a m : Nat} (h : op ∈ "movl" :: extending ++ ["leal"]) (ha : addressBytes d b x = some a)
    (hm : shortest near ⟨op, [.mem d b x sc, .reg (.r32 r)]⟩ = some m) : m = 1 + a ∨ m = 2 + a := by
  rw [List.cons_append, List.mem_cons, List.mem_append] at h
  rcases h with rfl | h | h
  · rw [shortest_load (by simp [loads, formsOf_movl]) ha] at hm
    exact Or.inl (Option.some.inj hm).symm
  · obtain ⟨w, hw⟩ := formsOf_extending h
    rw [shortest_extend hw ha] at hm
    exact Or.inr (Option.some.inj hm).symm
  · rw [List.mem_singleton.mp h, shortest_load (by simp [loads, formsOf_leal]) ha] at hm
    exact Or.inl (Option.some.inj hm).symm

theorem exact_extend_indexed :
    Exact near ⟨oneOf ("movl" :: extending), operands2 (Operand.indexed bSign) Operand.ereg, 5⟩ narrowOffset := by
  refine exact_two fun op source target m hop hsource htarget hm => ?_
  obtain ⟨d, b, x, sc, rfl, hd⟩ := indexed_eq hsource
  obtain ⟨r, rfl⟩ := ereg_eq htarget
  obtain ⟨a, ha⟩ := address_of_shortest hm List.mem_cons_self
  have hthree := index_le ha (n := 3) (by decide) (by decide)
  have hfour := index_le ha (n := 4) (by decide) (by decide)
  rcases load_or_extend (List.mem_append_left _ (of_oneOf hop)) ha hm with rfl | rfl
  · simp [← hfour]
    omega
  · simp [← hthree]
    omega

theorem exact_extend_near :
    Exact near ⟨oneOf ("movl" :: extending ++ ["leal"]), operands2 ebOff Operand.ereg, 4⟩ narrowOffset := by
  refine exact_two fun op source target m hop hsource htarget hm => ?_
  obtain ⟨d, b, rfl, hd, hb⟩ := based_eq hsource
  obtain ⟨r, rfl⟩ := ereg_eq htarget
  obtain ⟨a, ha⟩ := address_of_shortest hm List.mem_cons_self
  have htwo := base_le ha (n := 2) (by rw [if_neg (noEsp_ne hb)]) (by decide)
  have hthree := base_le ha (n := 3) (by rw [if_neg (noEsp_ne hb)]; decide) (by decide)
  rcases load_or_extend (of_oneOf hop) ha hm with rfl | rfl
  · simp [← hthree]
    omega
  · simp [← htwo]
    omega

theorem exact_extend_plain :
    Exact near ⟨oneOf ["movsbl", "movzbl"], operands2 atEreg Operand.ereg, 3⟩ (baseNot [.ebp, .esp]) := by
  refine exact_two fun op source target m hop hsource htarget hm => ?_
  obtain ⟨d, b, rfl, hd, -⟩ := based_eq hsource
  obtain ⟨r, rfl⟩ := ereg_eq htarget
  obtain rfl := noOffset_eq hd
  obtain ⟨a, ha⟩ := address_of_shortest hm List.mem_cons_self
  rw [shortest_extend (formsOf_extend_byte (of_oneOf hop)) ha] at hm
  obtain rfl := Option.some.inj hm
  obtain rfl := base_none ha
  by_cases hebp : b = .ebp ∨ b = .esp <;> simp [hebp]
  · tauto
  · tauto

/-- From a register to memory. -/
theorem exact_store {base : Reg32 → Bool} :
    Exact near ⟨withSize (arith8 ++ ["mov"]) "l", operands2 Operand.ereg (Operand.based bSign base), 4⟩
      narrowOffset := by
  refine exact_two fun op source target m hop hsource htarget hm => ?_
  obtain ⟨r, rfl⟩ := ereg_eq hsource
  obtain ⟨d, b, rfl, hd, hb⟩ := based_eq htarget
  obtain ⟨a, ha⟩ := address_of_shortest hm (List.mem_cons_of_mem _ List.mem_cons_self)
  rw [shortest_store (stores_mov (of_oneOf hop)) ha] at hm
  obtain rfl := Option.some.inj hm
  have hle := base_le ha (n := 3) (by split <;> decide) (by decide)
  simp [← hle]
  omega

/-- A byte to memory at a base register without an offset. -/
theorem exact_byte_plain :
    Exact near ⟨withSize arithMov "b", operands2 Operand.imbSign atEreg, 3⟩ (baseNot [.ebp, .esp]) := by
  refine exact_two fun op source target m hop hsource htarget hm => ?_
  obtain ⟨v, rfl⟩ := imbSign_eq hsource
  obtain ⟨d, b, rfl, hd, -⟩ := based_eq htarget
  obtain rfl := noOffset_eq hd
  obtain ⟨a, ha⟩ := address_of_shortest hm (List.mem_cons_of_mem _ List.mem_cons_self)
  rw [shortest_byte (bytes_arithMov (of_oneOf hop)) ha] at hm
  obtain rfl := Option.some.inj hm
  obtain rfl := base_none ha
  by_cases hebp : b = .ebp ∨ b = .esp <;> simp [hebp]
  · tauto
  · tauto

theorem exact_movb_near :
    Exact near ⟨oneOf ["movb"], operands2 Operand.imbSign ebOff, 4⟩ narrowOffset := by
  refine exact_two fun op source target m hop hsource htarget hm => ?_
  obtain ⟨v, rfl⟩ := imbSign_eq hsource
  obtain ⟨d, b, rfl, hd, hb⟩ := based_eq htarget
  obtain rfl := List.mem_singleton.mp (of_oneOf hop)
  obtain ⟨a, ha⟩ := address_of_shortest hm (List.mem_cons_of_mem _ List.mem_cons_self)
  rw [shortest_byte (by simp [formsOf_movb]) ha] at hm
  obtain rfl := Option.some.inj hm
  have hle := base_le ha (n := 2) (by rw [if_neg (noEsp_ne hb)]) (by decide)
  simp [← hle]
  omega

theorem exact_shift_near :
    Exact near ⟨withSize shift "l", operands2 Operand.imbSign ebOff, 4⟩ narrowOffset := by
  refine exact_two fun op source target m hop hsource htarget hm => ?_
  obtain ⟨v, rfl⟩ := imbSign_eq hsource
  obtain ⟨d, b, rfl, hd, hb⟩ := based_eq htarget
  obtain ⟨a, ha⟩ := address_of_shortest hm (List.mem_cons_of_mem _ List.mem_cons_self)
  rw [shortest_shift (formsOf_shift (of_oneOf hop)) ha] at hm
  obtain rfl := Option.some.inj hm
  have htwo := base_le ha (n := 2) (by rw [if_neg (noEsp_ne hb)]) (by decide)
  have hthree := base_le ha (n := 3) (by rw [if_neg (noEsp_ne hb)]; decide) (by decide)
  by_cases hone : absolute v = some 1
  · simp [hone, ← hthree]
    omega
  · simp [hone, ← htwo]
    omega

/-- A byte is enough for an operation on bytes; an operation on words takes a short immediate. -/
theorem exact_arith_near :
    Exact near ⟨oneOf (cat arith8 ["b", "l"]), operands2 Operand.imbSign ebOff, 4⟩
      (both narrowOffset (either (opIn (cat arith8 ["b"])) shortImmediate)) := by
  have hwords : ∀ op ∈ cat arith8 ["b", "l"], op ∈ cat arith8 ["b"] ∨ op ∈ cat arith8 ["l"] ∧
      op ∉ cat arith8 ["b"] := by decide
  refine exact_two fun op source target m hop hsource htarget hm => ?_
  obtain ⟨v, rfl⟩ := imbSign_eq hsource
  obtain ⟨d, b, rfl, hd, hb⟩ := based_eq htarget
  obtain ⟨a, ha⟩ := address_of_shortest hm (List.mem_cons_of_mem _ List.mem_cons_self)
  have hle := base_le ha (n := 2) (by rw [if_neg (noEsp_ne hb)]) (by decide)
  have hpos := (addressBytes_bounds ha).1
  rcases hwords op (of_oneOf hop) with hbyte | ⟨hlong, hbyte⟩
  · rw [shortest_byte (by simp [formsOf_arith8_byte hbyte]) ha] at hm
    obtain rfl := Option.some.inj hm
    simp [hbyte, ← hle]
    omega
  · rw [shortest_group1 (formsOf_arith8 hlong) ha] at hm
    obtain rfl := Option.some.inj hm
    cases hv : short .dword v with
    | false =>
      simp [hbyte, hv]
      omega
    | true =>
      simp [hbyte, hv, ← hle]
      omega

theorem exact_arith_register :
    Exact near ⟨withSize (arith8 ++ shift) "l", operands2 Operand.imbSign Operand.ereg, 3⟩
      (either (opIn (cat shift ["l"])) shortImmediate) := by
  have hwords : ∀ op ∈ cat (arith8 ++ shift) ["l"], op ∈ cat shift ["l"] ∨ op ∈ cat arith8 ["l"] ∧
      op ∉ cat shift ["l"] := by decide
  refine exact_two fun op source target m hop hsource htarget hm => ?_
  obtain ⟨v, rfl⟩ := imbSign_eq hsource
  obtain ⟨r, rfl⟩ := ereg_eq htarget
  rcases hwords op (of_oneOf hop) with hshift | ⟨harith, hshift⟩
  · have hle : m ≤ 3 :=
      shortest_le (f := ⟨1, [.ubyte, .rm .dword]⟩) (by rw [formsOf_shift hshift]; decide) rfl hm
    simp [hshift, hle]
  · rw [shortest_group1_reg (formsOf_arith8 harith)] at hm
    obtain rfl := Option.some.inj hm
    cases hv : short .dword v with
    | false =>
      by_cases hr : r = .eax <;> simp [hshift, hv, hr]
    | true => simp [hshift, hv]

/-- An immediate to memory: a short one of an operation takes one byte, any other four. -/
theorem immediate_bytes {op : String} {d : Option Const} {b x : Option Reg32} {sc : Option Scale} {v : Const}
    {a m : Nat} (h : op ∈ cat (arith8 ++ ["mov"]) ["l"]) (ha : addressBytes d b x = some a)
    (hm : shortest near ⟨op, [.imm v, .mem d b x sc]⟩ = some m) :
    m = (if op ≠ "movl" ∧ short .dword v = true then 2 else 5) + a := by
  have hwords : cat ["mov"] ["l"] = ["movl"] := by decide
  have hnot : ∀ op ∈ cat arith8 ["l"], op ≠ "movl" := by decide
  rw [cat_append, List.mem_append, hwords] at h
  rcases h with h | h
  · rw [shortest_group1 (formsOf_arith8 h) ha] at hm
    obtain rfl := Option.some.inj hm
    cases hv : short .dword v <;> simp [hnot op h]
  · obtain rfl := List.mem_singleton.mp h
    rw [shortest_mov formsOf_movl ha] at hm
    obtain rfl := Option.some.inj hm
    simp

theorem Exact.congr {r : Rule} {c c' : Condition} (h : Exact near r c)
    (heq : ∀ op args, r.ops op = true → c op args = c' op args) : Exact near r c' := by
  intro op args m hop hargs hm
  rw [← heq op args hop]
  exact h op args m hop hargs hm

/-- The displacement is short, or the immediate of an operation is. -/
theorem exact_immediate {offset : Option Const → Bool} {base : Reg32 → Bool} {k : Nat}
    (hp : ∀ o, p o = true → ∃ v, o = .imm v)
    (hlow : ∀ b, base b = true → (if b = .esp then 3 else 2) ≤ k) (hhigh : k ≤ 3)
    (hfar : ∀ b, base b = true → (if b = .esp then 6 else 5) ≤ k + 3)
    (hops : ∀ op, ops op = true → op ∈ cat (arith8 ++ ["mov"]) ["l"]) :
    Exact near ⟨ops, operands2 p (Operand.based offset base), 5 + k⟩
      (either narrowOffset (both (fun op _ => op ≠ "movl") shortImmediate)) := by
  refine exact_two fun op source target m hop hsource htarget hm => ?_
  obtain ⟨v, rfl⟩ := hp source hsource
  obtain ⟨d, b, rfl, hd, hb⟩ := based_eq htarget
  obtain ⟨a, ha⟩ := address_of_shortest hm (List.mem_cons_of_mem _ List.mem_cons_self)
  have hle := base_le ha (hlow b hb) (by omega)
  have hmax := Nat.le_trans (base_le_max ha) (hfar b hb)
  obtain rfl := immediate_bytes (hops op hop) ha hm
  by_cases hshort : op ≠ "movl" ∧ short .dword v = true
  · rw [if_pos hshort]
    simp [hshort]
    omega
  · have hcondition : (decide (op ≠ "movl") && short .dword v) = false := by
      rw [Bool.eq_false_iff, Ne, Bool.and_eq_true, decide_eq_true_eq]
      exact hshort
    rw [if_neg hshort]
    simp only [either, both, narrowOffset, shortImmediate, List.all_cons, List.all_nil, Operand.memoryIs,
      Operand.shortIfImmediate, Bool.true_and, Bool.and_true, hcondition, Bool.or_false]
    rw [← hle]
    omega

theorem hlow_noEsp (b : Reg32) (hb : noEsp b = true) : (if b = .esp then 3 else 2) ≤ 2 := by
  rw [if_neg (noEsp_ne hb)]

theorem hfar_noEsp (b : Reg32) (hb : noEsp b = true) : (if b = .esp then 6 else 5) ≤ 2 + 3 := by
  rw [if_neg (noEsp_ne hb)]

theorem exact_immediate_near :
    Exact near ⟨withSize (arith8 ++ ["mov"]) "l", operands2 Operand.immed ebOff, 7⟩
      (either narrowOffset (both (fun op _ => op ≠ "movl") shortImmediate)) :=
  exact_immediate (fun o => immed_eq) hlow_noEsp (by decide) hfar_noEsp fun op hop => of_oneOf hop

theorem exact_immediate_esp :
    Exact near ⟨withSize (arith8 ++ ["mov"]) "l", operands2 Operand.immed bEsp, 8⟩
      (either narrowOffset (both (fun op _ => op ≠ "movl") shortImmediate)) := by
  refine exact_immediate (k := 3) (fun o => immed_eq) (fun b hb => ?_) (by decide) (fun b hb => ?_)
    fun op hop => of_oneOf hop
  · rw [if_pos (isEsp_eq hb)]
  · rw [if_pos (isEsp_eq hb)]

theorem opIn_movl {op : String} (h : oneOf ["movl"] op = true) : op ∈ cat (arith8 ++ ["mov"]) ["l"] := by
  rw [List.mem_singleton.mp (of_oneOf h)]
  decide

/-- For `movl` the immediate always has four bytes. -/
theorem exact_movl_near :
    Exact near ⟨oneOf ["movl"], operands2 Operand.imbSign ebOff, 7⟩ narrowOffset := by
  have hexact : Exact near ⟨oneOf ["movl"], operands2 Operand.imbSign ebOff, 7⟩
      (either narrowOffset (both (fun op _ => op ≠ "movl") shortImmediate)) :=
    exact_immediate (fun o => imbSign_eq) hlow_noEsp (by decide) hfar_noEsp fun op => opIn_movl
  refine hexact.congr fun op args hop => ?_
  simp [List.mem_singleton.mp (of_oneOf hop)]

theorem exact_movl_esp :
    Exact near ⟨oneOf ["movl"], operands2 Operand.imbSign bEsp, 8⟩ narrowOffset := by
  have hexact : Exact near ⟨oneOf ["movl"], operands2 Operand.imbSign bEsp, 8⟩
      (either narrowOffset (both (fun op _ => op ≠ "movl") shortImmediate)) := by
    refine exact_immediate (k := 3) (fun o => imbSign_eq) (fun b hb => ?_) (by decide) (fun b hb => ?_)
      fun op => opIn_movl
    · rw [if_pos (isEsp_eq hb)]
    · rw [if_pos (isEsp_eq hb)]
  refine hexact.congr fun op args hop => ?_
  simp [List.mem_singleton.mp (of_oneOf hop)]

theorem exact_arith_far :
    Exact near ⟨withSize arith8 "l", operands2 Operand.imbSign eOff, 7⟩ (either shortImmediate narrowOffset) := by
  have hnot : ∀ op ∈ cat arith8 ["l"], op ≠ "movl" := by decide
  have hexact : Exact near ⟨withSize arith8 "l", operands2 Operand.imbSign eOff, 7⟩
      (either narrowOffset (both (fun op _ => op ≠ "movl") shortImmediate)) := by
    refine exact_immediate (fun o => imbSign_eq) hlow_noEsp (by decide) hfar_noEsp fun op hop => ?_
    rw [cat_append]
    exact List.mem_append_left _ (of_oneOf hop)
  refine hexact.congr fun op args hop => ?_
  simp [hnot op (of_oneOf hop), Bool.or_comm]

theorem exact_unary_near :
    Exact near ⟨withSize ["inc", "dec", "push"] "l", operands1 ebOff, 3⟩ narrowOffset := by
  have hwords : cat ["inc", "dec", "push"] ["l"] = ["incl", "decl", "pushl"] := by decide
  refine exact_one fun op target m hop htarget hm => ?_
  obtain ⟨d, b, rfl, hd, hb⟩ := based_eq htarget
  obtain ⟨a, ha⟩ := address_of_shortest hm List.mem_cons_self
  have hforms : formsOf op ∈ [incForms .dword, pushForms .dword] := by
    have hop := of_oneOf hop
    rw [hwords, List.mem_cons, List.mem_pair] at hop
    rcases hop with rfl | rfl | rfl
    · simp [formsOf_inc]
    · simp [formsOf_inc]
    · simp [formsOf_pushl]
  rw [shortest_unary hforms ha] at hm
  obtain rfl := Option.some.inj hm
  have hle := base_le ha (n := 2) (by rw [if_neg (noEsp_ne hb)]) (by decide)
  simp [← hle]
  omega

/-- Floating-point operations on memory, of which some have the byte of `fwait` in front. -/
theorem exact_floating_based {offset : Option Const → Bool} {base : Reg32 → Bool}
    (h : ∀ op d b a, offset d = true → base b = true → addressBytes d (some b) none = some a →
      ((if op ∈ waiting then 2 else 1) + a ≤ n ↔ c op [.mem d (some b) none none] = true)) :
    Exact near ⟨floating, operands1 (Operand.based offset base), n⟩ c := by
  refine exact_one fun op target m hop htarget hm => ?_
  obtain ⟨d, b, rfl, hd, hb⟩ := based_eq htarget
  obtain ⟨a, ha⟩ := address_of_shortest hm List.mem_cons_self
  obtain rfl := shortest_floating hop ha hm
  exact h op d b a hd hb ha

theorem exact_floating_indexed {offset : Option Const → Bool}
    (h : ∀ op d b x sc a, offset d = true → addressBytes d (some b) (some x) = some a →
      ((if op ∈ waiting then 2 else 1) + a ≤ n ↔ c op [.mem d (some b) (some x) sc] = true)) :
    Exact near ⟨floating, operands1 (Operand.indexed offset), n⟩ c := by
  refine exact_one fun op target m hop htarget hm => ?_
  obtain ⟨d, b, x, sc, rfl, hd⟩ := indexed_eq htarget
  obtain ⟨a, ha⟩ := address_of_shortest hm List.mem_cons_self
  obtain rfl := shortest_floating hop ha hm
  exact h op d b x sc a hd ha

theorem exact_floating_plain :
    Exact near ⟨floating, operands1 atEreg, 3⟩ (unlessWaiting (baseNot [.ebp, .esp])) := by
  refine exact_floating_based fun op d b a hd hb ha => ?_
  obtain rfl := noOffset_eq hd
  obtain rfl := base_none ha
  by_cases hwait : op ∈ waiting
  · by_cases hebp : b = .ebp ∨ b = .esp <;> simp [hwait, hebp]
    · tauto
    · tauto
  · by_cases hebp : b = .ebp ∨ b = .esp <;> simp [hwait, hebp]

theorem exact_floating_near :
    Exact near ⟨floating, operands1 (Operand.based bSign anyBase), 4⟩
      (both narrowOffset (unlessWaiting zeroOrNotEsp)) := by
  refine exact_floating_based fun op d b a hd hb ha => ?_
  have hthree := base_le ha (n := 3) (by split <;> decide) (by decide)
  by_cases hwait : op ∈ waiting
  · by_cases hesp : b = .esp
    · subst hesp
      have htwo := esp_le_two ha
      simp [hwait, ← hthree, ← htwo]
      omega
    · have htwo := base_le ha (n := 2) (by rw [if_neg hesp]) (by decide)
      simp [hwait, hesp, ← htwo]
      omega
  · simp [hwait, ← hthree]
    omega

theorem exact_floating_indexed_plain :
    Exact near ⟨floating, operands1 (Operand.indexed noOffset), 4⟩ (unlessWaiting (baseNot [.ebp])) := by
  refine exact_floating_indexed fun op d b x sc a hd ha => ?_
  obtain rfl := noOffset_eq hd
  obtain rfl := index_none ha
  by_cases hwait : op ∈ waiting
  · by_cases hebp : b = .ebp <;> simp [hwait, hebp]
  · by_cases hebp : b = .ebp <;> simp [hwait, hebp]

theorem exact_floating_indexed_near :
    Exact near ⟨floating, operands1 (Operand.indexed bSign), 4⟩
      (both narrowOffset (unlessWaiting (both (baseNot [.ebp]) zeroOffset))) := by
  refine exact_floating_indexed fun op d b x sc a hd ha => ?_
  have hthree := index_le ha (n := 3) (by decide) (by decide)
  have htwo : (b ≠ .ebp ∧ vanishes d = true) ↔ a ≤ 2 := by rw [index_le_two ha, and_comm]
  by_cases hwait : op ∈ waiting
  · simp only [ne_eq] at htwo
    simp [hwait, ← hthree, htwo]
    omega
  · simp [hwait, ← hthree]
    omega

end Patterns

end Pittsfield.Rewrite
