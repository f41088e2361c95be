import Octet.Proofs.Compiler.Overflow
import Octet.Proofs.Machine.Determinism
import Octet.Proofs.Walker.Trials

namespace Octet

section Values

variable {op : Comparison} {left right v : Value} {i j : Int}

/-- Comparisons in which numbers count, and nothing else. -/
def Comparison.isOrder : Comparison → Bool
  | equal | notEqual => false
  | less | lessOrEqual | greater | greaterOrEqual => true

/-- The operands that the language and the flags compare alike: for an equality all but two
spellings of one number, and for an order two numbers in any spelling. -/
def Comparison.Faithful (op : Comparison) (left right : Value) : Prop :=
  if op.isOrder then left.reading?.isSome = true ∧ right.reading?.isSome = true
  else ¬(left ≠ right ∧ ∃ i, left.reading? = some i ∧ right.reading? = some i)

/-- Of two operands that are not both numbers the first that is none. -/
def Value.offender (left right : Value) : Value :=
  if left.reading? = none then left else right

theorem Flags.equal_compare_numbers (hl : left.reading? = some i) (hr : right.reading? = some j) :
    (Flags.clear.compare left right).equal = (i == j) := by
  simp only [Flags.compare, hl, hr, Flags.setOrder]

theorem Flags.equal_compare_words (h : left.reading? = none ∨ right.reading? = none) :
    (Flags.clear.compare left right).equal = (left == right) := by
  obtain h | h := h
  · simp only [Flags.compare, h, Flags.setOrder]
  · simp only [Flags.compare, h, Flags.setOrder]
    cases left.reading? <;> rfl

/-- The flags take two values for equal that the language tells apart only if both spell one
number. -/
theorem Comparison.equal_compare_iff : (Flags.clear.compare left right).equal = (left == right) ↔
    ¬(left ≠ right ∧ ∃ i, left.reading? = some i ∧ right.reading? = some i) := by
  by_cases he : left = right
  · subst he
    have hs : (Flags.clear.compare left left).equal = true := by
      cases hv : left.reading? with
      | none => rw [Flags.equal_compare_words (.inl hv), beq_self_eq_true]
      | some i => rw [Flags.equal_compare_numbers hv hv, beq_self_eq_true]
    simp [hs]
  · rw [beq_eq_false_iff_ne.2 he]
    cases hl : left.reading? with
    | none => simp [Flags.equal_compare_words (.inl hl), he]
    | some i =>
      cases hr : right.reading? with
      | none => simp [Flags.equal_compare_words (.inr hr), he]
      | some j =>
        rw [Flags.equal_compare_numbers hl hr, beq_eq_false_iff_ne]
        refine not_congr ⟨?_, ?_⟩
        · rintro rfl
          exact ⟨he, i, rfl, rfl⟩
        · rintro ⟨-, k, hi, hj⟩
          exact (Option.some.inj hi).trans (Option.some.inj hj).symm

theorem Value.toNumber_of_none (h : v.reading? = none) :
    v.toNumber = .error (.notANumber v.display) := by
  rw [toNumber, h]

/-- An order of operands that are no numbers fails at the first of them. -/
theorem Comparison.holds_of_not_faithful (ho : op.isOrder = true) (h : ¬op.Faithful left right) :
    op.holds left right = .error (.notANumber (Value.offender left right).display) := by
  rw [Faithful, if_pos ho] at h
  cases hl : left.reading? with
  | none =>
    have hn := Value.toNumber_of_none hl
    rw [Value.offender, if_pos hl]
    cases op with
    | equal | notEqual => cases ho
    | less | lessOrEqual | greater | greaterOrEqual =>
      simp only [holds, hn, bind, Except.bind]
  | some i =>
    have hr : right.reading? = none := by
      simpa [hl] using h
    have hn := Value.toNumber_eq_ok_iff.2 hl
    have hm := Value.toNumber_of_none hr
    have hc : Value.offender left right = right := if_neg (by simp [hl])
    rw [hc]
    cases op with
    | equal | notEqual => cases ho
    | less | lessOrEqual | greater | greaterOrEqual =>
      simp only [holds, hn, hm, bind, Except.bind]

/-- The language and the flags compare two values alike just where the comparison is faithful. -/
theorem Comparison.holds_eq_passes_iff :
    op.holds left right = .ok (op.passes left right) ↔ op.Faithful left right := by
  by_cases ho : op.isOrder = true
  · by_cases hf : op.Faithful left right
    · refine iff_of_true (holds_of_regular ?_) hf
      rw [Faithful, if_pos ho] at hf
      cases op with
      | equal | notEqual => cases ho
      | less | lessOrEqual | greater | greaterOrEqual => exact hf
    · rw [holds_of_not_faithful ho hf]
      exact iff_of_false nofun hf
  · rw [Faithful, if_neg ho, ← equal_compare_iff]
    cases op with
    | equal => simp only [holds, passes, Except.ok.injEq, eq_comm]
    | notEqual =>
      simp only [holds, passes, Except.ok.injEq, bne, Bool.not_inj_iff, eq_comm]
    | less | lessOrEqual | greater | greaterOrEqual => exact absurd rfl ho

/-- A text that is not empty and yet reads as zero. The language takes it for true, and the machine
does not. -/
def Value.IsBlurred (v : Value) : Prop := ∃ s, v = text s ∧ s ≠ "" ∧ reading s = some 0

/-- The language and the machine agree on what a value is taken for just where it is not blurred. -/
theorem Value.isNonzero_eq_isTruthy_iff : v.isNonzero = v.isTruthy ↔ ¬v.IsBlurred := by
  refine ⟨?_, fun h => isNonzero_of_regular ?_⟩
  · rintro h ⟨s, rfl, hs, hr⟩
    have hr : (text s).reading? = some 0 := hr
    have hz : (text s).isNonzero = false := by
      rw [isNonzero, Flags.equal_compare_numbers hr rfl]
      rfl
    have ht : (text s).isTruthy = true := by
      simpa [isTruthy] using hs
    exact Bool.false_ne_true (hz.symm.trans (h.trans ht))
  · cases v with
    | number n => trivial
    | text s =>
      intro hr
      by_contra hs
      exact h ⟨s, rfl, by simpa using hs, hr⟩

end Values

/-- An operation on operands that the language and the machine take for the same. -/
def BinaryOp.Faithful (op : BinaryOp) (left right : Value) : Prop :=
  match op with
  | arith _ => True
  | compare op => op.Faithful left right

theorem BinaryOp.apply_of_faithful {op : BinaryOp} {left right : Value} {flags : Flags}
    (h : op.Faithful left right) : op.apply flags left right =
      (op.reckon flags.carry left right).map fun (v, carry) => (v, { flags with carry }) := by
  cases op with
  | arith op => exact apply_eq_reckon nofun
  | compare op =>
    simp only [apply, reckon, Comparison.holds_eq_passes_iff.2 h]
    rfl

namespace Compiler

open Machine

variable {program : Program} {pc last : Nat} {exit : Value → Nat} {state : State} {flags : Flags}
  {e : Expr} {target : Option Slot} {i j : Slot} {op : BinaryOp}

/-- The code of an expression, from one position to another. It leaves the value in a register, or
it is a condition: then it ends at its last position if the value is true, and further on if it is
not. -/
def Spans (program : Program) (e : Expr) (target : Option Slot) (pc last : Nat)
    (exit : Value → Nat) : Prop :=
  match target with
  | some r => ∃ scope after, Installed program (compute e r) scope after pc last ∧
      exit = fun _ => last
  | none => ∃ otherwise scope after miss,
      Installed program (guard e otherwise) scope after pc last ∧
      program.labels.get? (Listing.labelName otherwise) = some miss ∧ last < miss ∧
      exit = fun v => if v.isTruthy then last else miss

/-- A piece of code by itself ends with a value and a carry, or in a fault. -/
def Ends (program : Program) (target : Option Slot) (pc last : Nat) (exit : Value → Nat)
    (state : State) (result : Except Fault (Value × Bool)) : Prop :=
  Yields (cut program last) pc state result (fun p => exit p.1) fun p next =>
    (∀ r ∈ target, next.registers.read r = p.1) ∧ next.flags.carry = p.2

/-- The code of an expression ends as the language does, from the same slots and carry. -/
def Agrees (program : Program) (e : Expr) (target : Option Slot) (pc last : Nat)
    (exit : Value → Nat) (state : State) (flags : Flags) : Prop :=
  Ends program target pc last exit state
    ((e.eval state.registers flags).map fun p => (p.1, p.2.carry))

theorem ended_cut (h : Spans program e target pc last exit) (v : Value) :
    (cut program last).instructions[exit v]? = none := by
  have hl : last ≤ exit v := by
    cases target with
    | some r =>
      obtain ⟨_, _, -, rfl⟩ := h
      exact Nat.le_refl last
    | none =>
      obtain ⟨_, _, _, miss, -, -, hm, rfl⟩ := h
      dsimp only
      split
      · exact Nat.le_refl last
      · exact hm.le
  rw [fetch_cut, if_neg (Nat.not_lt_of_le hl)]

theorem exit_ofBool_inj (h : Spans program e none pc last exit) {a b : Bool}
    (hab : exit (.ofBool a) = exit (.ofBool b)) : a = b := by
  obtain ⟨_, _, _, miss, -, -, hm, rfl⟩ := h
  simp only [isTruthy_ofBool] at hab
  cases a <;> cases b <;> simp at hab ⊢ <;> omega

theorem ends_condition (ha : e.Avoids IsWork) (hd : e.depth ≤ 4)
    (h : Spans program e none pc last exit) (state : State) :
    Ends program none pc last exit state ((e.reckonGuard state.registers state.flags.carry).map
      fun (go, carry) => (.ofBool go, carry)) := by
  obtain ⟨otherwise, scope, after, miss, h, hm, -, rfl⟩ := h
  have hw : WorksGuard (cut program last) pc e state last miss :=
    works_guard ha hd (installed_cut h) hm state
  rw [Ends, yields_map]
  simp only [isTruthy_ofBool]
  exact hw.imp fun p next hg => ⟨nofun, hg.carry⟩

theorem ends_expression (ha : e.Avoids IsWork) (hd : e.depth ≤ 4)
    (hp : target = none → ¬isPlain e) (h : Spans program e target pc last exit) (state : State) :
    Ends program target pc last exit state (e.reckon state.registers state.flags.carry) := by
  cases target with
  | some r =>
    obtain ⟨scope, after, h, rfl⟩ := h
    refine (correct_of_depth_le ha hd state (installed_cut h)).imp fun p next he => ⟨?_, he.carry⟩
    rintro _ ⟨⟩
    exact he.value
  | none =>
    obtain ⟨left, op, right, rfl⟩ := (isPlain_or e).resolve_left (hp rfl)
    rw [reckon_compare]
    exact ends_condition ha hd h state

theorem depth_operation (i j : Slot) (op : BinaryOp) :
    (Expr.binary (.slot i) op (.slot j)).depth = 0 := by
  have hv : (Expr.binary (.slot i) op (.slot j)).folded? = none := by
    cases op with
    | arith op => cases op <;> rfl
    | compare op => rfl
  exact (depth_binary hv).trans rfl

theorem ends_operation (hi : ¬IsWork i) (hj : ¬IsWork j)
    (hop : target = none → ∃ c, op = .compare c)
    (h : Spans program (.binary (.slot i) op (.slot j)) target pc last exit) (state : State) :
    Ends program target pc last exit state
      (op.reckon state.flags.carry (state.registers.read i) (state.registers.read j)) := by
  have ha : (Expr.binary (.slot i) op (.slot j)).Avoids IsWork := ⟨hi, hj⟩
  refine ends_expression ha ((depth_operation i j op).trans_le (Nat.zero_le 4)) (fun hn => ?_) h
    state
  obtain ⟨c, rfl⟩ := hop hn
  exact id

/-- Code that ends with a truth value ends with that one only. -/
theorem Ends.ofBool_inj {a b first second : Bool} (h : Spans program e target pc last exit)
    (hl : Ends program target pc last exit state (.ok (.ofBool a, first)))
    (hr : Ends program target pc last exit state (.ok (.ofBool b, second))) : a = b := by
  obtain ⟨hexit, next, ⟨hv, -⟩, hv', -⟩ := hl.meet hr (fun p => ended_cut h p.1)
    fun p => ended_cut h p.1
  cases target with
  | none => exact exit_ofBool_inj h hexit
  | some r =>
    have he : Value.ofBool a = .ofBool b := (hv r rfl).symm.trans (hv' r rfl)
    simpa only [isTruthy_ofBool] using congrArg Value.isTruthy he

theorem Ends.not_error {p : Value × Bool} {fault : Fault}
    (h : Spans program e target pc last exit) (hl : Ends program target pc last exit state (.ok p))
    (hr : Ends program target pc last exit state (.error fault)) : False :=
  hl.meet hr (fun p => ended_cut h p.1) fun p => ended_cut h p.1

/-- An operation on two slots ends in the machine as it does in the language just where it is
faithful. -/
theorem agrees_operation_iff (hi : ¬IsWork i) (hj : ¬IsWork j)
    (hop : target = none → ∃ c, op = .compare c)
    (h : Spans program (.binary (.slot i) op (.slot j)) target pc last exit)
    (hc : flags.carry = state.flags.carry) :
    Agrees program (.binary (.slot i) op (.slot j)) target pc last exit state flags ↔
      op.Faithful (state.registers.read i) (state.registers.read j) := by
  have hm := ends_operation hi hj hop h state
  have he : (Expr.binary (.slot i) op (.slot j)).eval state.registers flags =
    op.apply flags (state.registers.read i) (state.registers.read j) := rfl
  rw [Agrees, he]
  refine ⟨fun hw => ?_, fun hf => ?_⟩
  · cases op with
    | arith op => trivial
    | compare op =>
      refine Comparison.holds_eq_passes_iff.1 ?_
      rw [BinaryOp.apply] at hw
      cases hv : op.holds (state.registers.read i) (state.registers.read j) with
      | error fault =>
        rw [hv] at hw
        exact (hm.not_error h hw).elim
      | ok b =>
        rw [hv] at hw
        exact congrArg Except.ok (hw.ofBool_inj h hm)
  · have hv : ∀ result : Except Fault (Value × Bool), (result.map fun (v, carry) =>
        (v, { flags with carry })).map (fun p => (p.1, p.2.carry)) = result := by
      intro result
      cases result <;> rfl
    rw [BinaryOp.apply_of_faithful hf, hv, hc]
    exact hm

/-- A condition on a slot leads the machine where it leads the language just where the value is not
blurred. -/
theorem agrees_condition_iff (hi : ¬IsWork i) (h : Spans program (.slot i) none pc last exit)
    (hc : flags.carry = state.flags.carry) :
    Agrees program (.slot i) none pc last exit state flags ↔
      ¬(state.registers.read i).IsBlurred := by
  let v := state.registers.read i
  have hm : Ends program none pc last exit state (.ok (.ofBool v.isNonzero, state.flags.carry)) :=
    ends_condition (e := .slot i) hi (by simp [Expr.depth]) h state
  -- A condition leaves no value, so only its truth tells what the code ends with.
  have ha : Agrees program (.slot i) none pc last exit state flags ↔
      Ends program none pc last exit state (.ok (.ofBool v.isTruthy, state.flags.carry)) := by
    have hexit : exit v = exit (.ofBool v.isTruthy) := by
      obtain ⟨_, _, _, miss, -, -, -, rfl⟩ := h
      simp only [isTruthy_ofBool]
    refine exists_congr fun next => and_congr ?_ (and_congr (iff_of_true ?_ ?_) ?_)
    · exact iff_of_eq (congrArg (Reaches (cut program last) pc state [] · next) hexit)
    · rintro r ⟨⟩
    · rintro r ⟨⟩
    · exact iff_of_eq (congrArg (next.flags.carry = ·) hc)
  rw [ha, ← Value.isNonzero_eq_isTruthy_iff]
  exact ⟨fun hw => hm.ofBool_inj h hw, fun hf => hf ▸ hm⟩

/-- The language and the machine differ on a single operation in three cases only: at two spellings
of one number that are told apart, at the order of what is no number, and at a condition whose value
is blurred. The order of what is no number fails in the language and not in the machine. -/
theorem agrees_single_operation (program : Program) (pc last : Nat) (exit : Value → Nat)
    (state : State) (flags : Flags) (hc : flags.carry = state.flags.carry) :
    let left := state.registers.read 0
    let right := state.registers.read 1
    (∀ op r, Spans program (.binary (.slot 0) (.arith op) (.slot 1)) (some r) pc last exit →
      Agrees program (.binary (.slot 0) (.arith op) (.slot 1)) (some r) pc last exit state flags) ∧
    (∀ op target, Spans program (.binary (.slot 0) (.compare op) (.slot 1)) target pc last exit →
      (Agrees program (.binary (.slot 0) (.compare op) (.slot 1)) target pc last exit state flags ↔
        op.Faithful left right) ∧
      (op.isOrder = true → ¬op.Faithful left right →
        (Expr.binary (.slot 0) (.compare op) (.slot 1)).eval state.registers flags =
          .error (.notANumber (Value.offender left right).display) ∧
        ∃ p, Ends program target pc last exit state (.ok p))) ∧
    (Spans program (.slot 0) none pc last exit →
      (Agrees program (.slot 0) none pc last exit state flags ↔ ¬left.IsBlurred)) := by
  intro left right
  have h0 : ¬IsWork 0 := by decide
  have h1 : ¬IsWork 1 := by decide
  refine ⟨fun op r h => ?_, fun op target h => ⟨?_, fun ho hf => ?_⟩, fun h => ?_⟩
  · have hop : some r = none → ∃ c, BinaryOp.arith op = .compare c := nofun
    exact (agrees_operation_iff h0 h1 hop h hc).2 trivial
  · exact agrees_operation_iff h0 h1 (fun _ => ⟨op, rfl⟩) h hc
  · refine ⟨?_, _, ends_operation h0 h1 (fun _ => ⟨op, rfl⟩) h state⟩
    have he : (Expr.binary (.slot 0) (.compare op) (.slot 1)).eval state.registers flags =
      (BinaryOp.compare op).apply flags left right := rfl
    rw [he, BinaryOp.apply, Comparison.holds_of_not_faithful ho hf]
    rfl
  · exact agrees_condition_iff h0 h hc

/-- The condition takes `07` and `7` for equal in the machine, and for different in the language. -/
theorem agrees_single_operation_spellings :
    let e := Expr.binary (.slot 0) (.compare .equal) (.slot 1)
    let program := (Block.branch 1 e (.halt 2 .done) .done .done).compile.assembled none
    let state : State := ⟨(Memory.initial.put 0 (.text "07")).put 1 (.number 7), .empty, .clear, []⟩
    ∃ last exit, Spans program e none 0 last exit ∧
      ¬Agrees program e none 0 last exit state .clear := by
  intro e program state
  obtain ⟨miss, first, second, p, q, hg, hb, hm, -⟩ :=
    installed_branch_done (installed_compile (.branch 1 e (.halt 2 .done) .done .done) none)
  obtain ⟨-, hr⟩ := installed_halt hb
  have hs : Spans program e none 0 p fun v => if v.isTruthy then p else q :=
    ⟨miss, _, _, q, hg, hm, hr.le, rfl⟩
  have hf : ¬Comparison.equal.Faithful (state.registers.read 0) (state.registers.read 1) :=
    fun hf => hf ⟨by decide, 7, by decide +kernel, by decide +kernel⟩
  exact ⟨p, _, hs, fun ha => hf
    (((agrees_single_operation program 0 p _ state .clear rfl).2.1 .equal none hs).1.1 ha)⟩

end Compiler

end Octet
