import Octet.Proofs.Compiler.Reckoning
import Octet.Proofs.Tree.Normal

namespace Octet

namespace Expr

variable {e part left right : Expr} {op : BinaryOp} {v : Value}

/-- What is folded is the value of the expression, whatever the slots and the flags are, and the
flags stay as they are. -/
theorem eval_of_folded? (h : e.folded? = some v) (memory : Memory) (flags : Flags) :
    e.eval memory flags = .ok (v, flags) := by
  induction e generalizing v with
  | number n | text s =>
    cases h
    rfl
  | slot i => cases h
  | binary left op right ihl ihr =>
    obtain ⟨rfl, l, r, hl, hr, ht, rfl⟩ := folded?_binary h
    -- One operand is a text, so the two are joined without a look at the carry.
    rw [eval, ihl hl]
    simp only [bind, Except.bind, ihr hr, BinaryOp.apply, Flags.operate, ht]
    rfl

/-- An expression is folded from its parts. -/
theorem IsPart.exists_folded? (hp : part.IsPart e) (h : e.folded? = some v) :
    ∃ w, part.folded? = some w := by
  induction hp generalizing v with
  | self => exact ⟨v, h⟩
  | left _ ih =>
    obtain ⟨-, l, r, hl, -⟩ := folded?_binary h
    exact ih hl
  | right _ ih =>
    obtain ⟨-, l, r, -, hr, -⟩ := folded?_binary h
    exact ih hr

/-- An expression that comes to a number, from one state at least. -/
def IsNumber (e : Expr) : Prop :=
  ∃ memory flags n after, e.eval memory flags = .ok (.number n, after)

theorem isNumber_iff_of_folded? (h : e.folded? = some v) : e.IsNumber ↔ v.isText = false := by
  constructor
  · rintro ⟨memory, flags, n, after, he⟩
    rw [eval_of_folded? h] at he
    cases he
    rfl
  · intro hv
    cases v with
    | number n => exact ⟨.initial, .clear, n, .clear, eval_of_folded? h _ _⟩
    | text s => cases hv

/-- What no expression is folded with: a slot, an operator that is no plus sign, and the sum of two
numbers, which takes the carry in and leaves another one. -/
inductive ResistsFolding : Expr → Prop
  | slot (i : Slot) : ResistsFolding (slot i)
  | operator {op : BinaryOp} (left right : Expr) (h : op ≠ .arith .add) :
      ResistsFolding (binary left op right)
  | sum {left right : Expr} (hl : left.IsNumber) (hr : right.IsNumber) :
      ResistsFolding (binary left (.arith .add) right)

theorem ResistsFolding.folded?_eq_none (h : e.ResistsFolding) : e.folded? = none := by
  rw [Option.eq_none_iff_forall_ne_some]
  intro v hv
  cases h with
  | slot i => cases hv
  | operator left right h => exact h (folded?_binary hv).1
  | sum hl hr =>
    obtain ⟨-, l, r, hfl, hfr, ht, -⟩ := folded?_binary hv
    rw [(isNumber_iff_of_folded? hfl).1 hl, (isNumber_iff_of_folded? hfr).1 hr] at ht
    cases ht

/-- An addition is not folded if one of its operands is not, or if both of them are numbers. -/
theorem of_folded?_sum_eq_none (h : (binary left (.arith .add) right).folded? = none) :
    left.folded? = none ∨ right.folded? = none ∨ (left.IsNumber ∧ right.IsNumber) := by
  cases hl : left.folded? with
  | none => exact .inl rfl
  | some l =>
    cases hr : right.folded? with
    | none => exact .inr (.inl rfl)
    | some r =>
      have ht : (l.isText || r.isText) = false := by simpa [folded?, hl, hr] using h
      obtain ⟨hlt, hrt⟩ := Bool.or_eq_false_iff.1 ht
      exact .inr (.inr
        ⟨(isNumber_iff_of_folded? hl).2 hlt, (isNumber_iff_of_folded? hr).2 hrt⟩)

/-- An expression is folded unless it has a part that resists. -/
theorem folded?_eq_none_iff :
    e.folded? = none ↔ ∃ part : Expr, part.IsPart e ∧ part.ResistsFolding := by
  constructor
  · intro h
    induction e with
    | number n | text s => cases h
    | slot i => exact ⟨_, .self _, .slot i⟩
    | binary left op right ihl ihr =>
      by_cases hop : op = .arith .add
      · subst hop
        obtain hl | hr | ⟨hl, hr⟩ := of_folded?_sum_eq_none h
        · obtain ⟨part, hp, hpart⟩ := ihl hl
          exact ⟨part, hp.left, hpart⟩
        · obtain ⟨part, hp, hpart⟩ := ihr hr
          exact ⟨part, hp.right, hpart⟩
        · exact ⟨_, .self _, .sum hl hr⟩
      · exact ⟨_, .self _, .operator left right hop⟩
  · rintro ⟨part, hp, hr⟩
    rw [Option.eq_none_iff_forall_ne_some]
    intro v hv
    obtain ⟨w, hw⟩ := hp.exists_folded? hv
    rw [hr.folded?_eq_none] at hw
    cases hw

end Expr

theorem Walker.eval_of_folded? {e : Expr} {v : Value} (h : e.folded? = some v) (state : State)
    (line : Nat) : state.eval line e = pure (v, state) := by
  rw [State.eval, Expr.eval_of_folded? h]
  rfl

/-- Folding is sound and touches no state: from any state the walker comes to the folded value,
without a fault or a signal, and the state is as it was. An operation is folded only to a text, and
only if it is an addition; and an expression is left alone exactly if there is a slot in it, another
operator or a sum of two numbers. -/
theorem Walker.evaluates_folded :
    (∀ (e : Expr) (v : Value), e.folded? = some v →
      ∀ (state : State) (line : Nat), state.eval line e = pure (v, state)) ∧
    (∀ (left right : Expr) (op : BinaryOp) (v : Value),
      (Expr.binary left op right).folded? = some v →
        op = .arith .add ∧ ∃ t, v = .text t ∧ ∀ (state : State) (line : Nat),
          state.eval line (.binary left op right) = pure (.text t, state)) ∧
    ∀ e : Expr, e.folded? = none ↔ ∃ part : Expr, part.IsPart e ∧ part.ResistsFolding := by
  refine ⟨fun e v h => eval_of_folded? h, fun left right op v h => ?_,
    fun e => Expr.folded?_eq_none_iff⟩
  have he := eval_of_folded? h
  obtain ⟨hop, l, r, -, -, -, rfl⟩ := Expr.folded?_binary h
  exact ⟨hop, _, rfl, he⟩

theorem Walker.evaluates_folded_mixed :
    let right : Expr := .binary (.number 300) (.arith .add) (.text "b")
    let e : Expr := .binary (.text "a") (.arith .add) right
    let state : State := ⟨.initial, ⟨true, false, true⟩, [some "7"]⟩
    e.folded? = some (.text "a44b") ∧ state.eval 3 e = pure (.text "a44b", state) ∧
      right.folded? = some (.text "44b") ∧ state.eval 3 right = pure (.text "44b", state) := by
  intro right e state
  have he : e.folded? = some (.text "a44b") := by decide
  have hr : right.folded? = some (.text "44b") := by decide
  obtain ⟨hvalue, htext, -⟩ := evaluates_folded
  obtain ⟨-, t, ht, hs⟩ := htext _ _ _ _ hr
  cases ht
  exact ⟨he, hvalue e _ he state 3, hr, hs state 3⟩

/-- The sum of two numbers keeps the text that it is joined to from being folded. -/
example : (Expr.binary (.binary (.number 1) (.arith .add) (.number 2)) (.arith .add)
    (.text "a")).folded? = none := by
  decide

end Octet
