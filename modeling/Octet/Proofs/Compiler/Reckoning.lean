import Octet.Compiler
import Octet.Walker

namespace Octet

section Flags

variable (flags : Flags) (carry : Bool) (left right : Value)

def Flags.ofCarry (carry : Bool) : Flags := ⟨carry, false, false⟩

@[simp] theorem Flags.carry_ofCarry : (Flags.ofCarry carry).carry = carry := rfl

/-- Arithmetic has no eye for the order flags, and leaves them alone. -/
theorem Flags.operate_eq (op : Arith) : flags.operate op left right =
    ((Flags.ofCarry flags.carry).operate op left right).map
      fun (v, after) => (v, { flags with carry := after.carry }) := by
  unfold operate
  split
  · rfl
  · cases left.toNumber with
    | error f => rfl
    | ok i =>
      cases right.toNumber with
      | error f => rfl
      | ok j =>
        simp only [calculate, carry_ofCarry, bind, Except.bind]
        cases op.exact i j <;> rfl

theorem Flags.equal_compare : (flags.compare left right).equal =
    (Flags.clear.compare left right).equal := by
  unfold compare
  split <;> rfl

theorem Flags.greater_compare : (flags.compare left right).greater =
    (Flags.clear.compare left right).greater := by
  unfold compare
  split <;> rfl

end Flags

namespace Comparison

/-- Whether a comparison holds as the flags show it. -/
def passes (op : Comparison) (left right : Value) : Bool :=
  let forth := Flags.clear.compare left right
  let back := Flags.clear.compare right left
  match op with
  | equal => forth.equal
  | notEqual => !forth.equal
  | less => back.greater
  | lessOrEqual => back.greater || back.equal
  | greater => forth.greater
  | greaterOrEqual => forth.greater || forth.equal

/-- Operands that the language and the flags compare alike: for an equality two numbers, or one
operand at least that is no number in any spelling, and for an order two that are. -/
def Regular (op : Comparison) (left right : Value) : Prop :=
  match op with
  | equal | notEqual =>
    (left.isText = false ∧ right.isText = false) ∨ left.reading? = none ∨ right.reading? = none
  | _ => left.reading?.isSome = true ∧ right.reading?.isSome = true

variable {op : Comparison} {left right : Value}

theorem regular_of_numbers (hl : left.isText = false) (hr : right.isText = false) :
    op.Regular left right := by
  cases left with
  | text s => cases hl
  | number n =>
    cases right with
    | text s => cases hr
    | number m => cases op <;> simp [Regular, Value.isText, Value.reading?]

theorem equal_compare_of_regular (h : Comparison.equal.Regular left right) :
    (Flags.clear.compare left right).equal = (left == right) := by
  obtain ⟨hl, hr⟩ | h | h := h
  · cases left with
    | text s => cases hl
    | number n =>
      cases right with
      | text s => cases hr
      | number m =>
        simp only [Flags.compare, Value.reading?, Flags.setOrder]
        rw [Bool.eq_iff_iff, beq_iff_eq, beq_iff_eq, Value.number.injEq]
        exact Int.ofNat_inj.trans UInt8.toNat_inj
  · simp only [Flags.compare, h, Flags.setOrder]
  · simp only [Flags.compare, h, Flags.setOrder]
    cases left.reading? <;> rfl

theorem holds_of_regular (h : op.Regular left right) :
    op.holds left right = .ok (op.passes left right) := by
  cases op with
  | equal => rw [holds, passes, equal_compare_of_regular h]
  | notEqual => rw [holds, passes, equal_compare_of_regular h]; rfl
  | less | lessOrEqual | greater | greaterOrEqual =>
    obtain ⟨hl, hr⟩ := h
    obtain ⟨i, hi⟩ := Option.isSome_iff_exists.1 hl
    obtain ⟨j, hj⟩ := Option.isSome_iff_exists.1 hr
    simp only [holds, passes, Value.toNumber, Flags.compare, hi, hj, Flags.setOrder, bind,
      Except.bind, pure, Except.pure]
    try exact congrArg Except.ok (Bool.eq_iff_iff.2 (by simp; omega))

end Comparison

section Reckon

/-- What an operation leaves for two values: as `BinaryOp.apply`, but for a comparison what the
flags show. Of the flags it knows only the carry. -/
def BinaryOp.reckon (op : BinaryOp) (carry : Bool) (left right : Value) :
    Except Fault (Value × Bool) :=
  match op with
  | arith op => do
    let (v, flags) ← (Flags.ofCarry carry).operate op left right
    return (v, flags.carry)
  | compare op => .ok (.ofBool (op.passes left right), carry)

/-- The value that the machine works out for an expression, and the carry that it leaves. -/
def Expr.reckon (memory : Memory) : Expr → Bool → Except Fault (Value × Bool)
  | number n, carry => .ok (.ofInt n.toNat, carry)
  | text s, carry => .ok (.text s, carry)
  | slot i, carry => .ok (memory.read i, carry)
  | binary left op right, carry => do
    let (l, carry) ← left.reckon memory carry
    let (r, carry) ← right.reckon memory carry
    op.reckon carry l r

/-- The values of two operands, the left one first. -/
def Expr.reckonBoth (memory : Memory) (left right : Expr) (carry : Bool) :
    Except Fault (Value × Value × Bool) := do
  let (l, carry) ← left.reckon memory carry
  let (r, carry) ← right.reckon memory carry
  return (l, r, carry)

theorem Expr.reckon_binary (memory : Memory) (left right : Expr) (op : BinaryOp) (carry : Bool) :
    (binary left op right).reckon memory carry =
      (do let (l, r, carry) ← reckonBoth memory left right carry; op.reckon carry l r) := by
  simp only [reckon, reckonBoth, bind, Except.bind, pure, Except.pure]
  cases left.reckon memory carry with
  | error f => rfl
  | ok p =>
    dsimp only
    cases right.reckon memory p.2 <;> rfl

/-- Whether the machine takes a value for something else than zero. -/
def Value.isNonzero (v : Value) : Bool := !(Flags.clear.compare v (.ofInt 0)).equal

/-- Whether the machine goes on at a condition, and the carry that it leaves. A comparison has no
value there. -/
def Expr.reckonGuard (memory : Memory) : Expr → Bool → Except Fault (Bool × Bool)
  | binary left (.compare op) right, carry => do
    let (l, r, carry) ← reckonBoth memory left right carry
    return (op.passes l r, carry)
  | e, carry => do
    let (v, carry) ← e.reckon memory carry
    return (v.isNonzero, carry)

/-- The comparisons that are made while an expression is evaluated, with their operands. -/
def Expr.comparisons (memory : Memory) : Expr → Flags → List (Comparison × Value × Value)
  | binary left op right, flags =>
    left.comparisons memory flags ++
      match left.eval memory flags with
      | .error _ => []
      | .ok (l, flags) =>
        right.comparisons memory flags ++
          match right.eval memory flags, op with
          | .ok (r, _), .compare op => [(op, l, r)]
          | _, _ => []
  | _, _ => []

variable {memory : Memory} {e left right : Expr} {op : BinaryOp} {flags : Flags} {l r : Value}

theorem BinaryOp.apply_eq_reckon (h : ∀ c, op = .compare c → c.Regular l r) :
    op.apply flags l r = (op.reckon flags.carry l r).map
      fun (v, carry) => (v, { flags with carry }) := by
  cases op with
  | arith op =>
    rw [apply, Flags.operate_eq, reckon]
    cases (Flags.ofCarry flags.carry).operate op l r <;> rfl
  | compare op =>
    simp only [apply, reckon, Comparison.holds_of_regular (h op rfl)]
    rfl

/-- Where all comparisons are regular, the machine and the language agree on an expression. -/
theorem Expr.eval_eq_reckon (h : ∀ t ∈ e.comparisons memory flags, t.1.Regular t.2.1 t.2.2) :
    e.eval memory flags = (e.reckon memory flags.carry).map
      fun (v, carry) => (v, { flags with carry }) := by
  induction e generalizing flags with
  | number n | text s | slot i => rfl
  | binary left op right ihl ihr =>
    simp only [comparisons, List.mem_append] at h
    have hl := ihl fun t ht => h t (.inl ht)
    rw [eval, reckon, hl]
    cases hv : left.reckon memory flags.carry with
    | error f => rfl
    | ok p =>
      obtain ⟨l, carry⟩ := p
      rw [hl, hv] at h
      simp only [Except.map, List.mem_append] at h
      have hr : right.eval memory { flags with carry } = _ :=
        ihr fun t ht => h t (.inr (.inl ht))
      simp only [Except.map, bind, Except.bind, hr]
      cases hw : right.reckon memory carry with
      | error f => rfl
      | ok q =>
        obtain ⟨r, last⟩ := q
        rw [hr, hw] at h
        simp only [Except.map] at h ⊢
        rw [BinaryOp.apply_eq_reckon]
        · cases op.reckon last l r <;> rfl
        · rintro c rfl
          exact h (c, l, r) (.inr (.inr (by simp)))

/-- What is folded is the joined text of its operands, which are known themselves. -/
theorem Expr.folded?_binary {v : Value} (h : (binary left op right).folded? = some v) :
    op = .arith .add ∧ ∃ l r, left.folded? = some l ∧ right.folded? = some r ∧
      (l.isText || r.isText) = true ∧ v = .text (l.display ++ r.display) := by
  simp only [folded?] at h
  split at h
  · next l r hl hr =>
    split at h
    · next ht => exact ⟨rfl, l, r, hl, hr, ht, (Option.some.inj h).symm⟩
    · cases h
  · cases h

theorem Expr.text_display_of_folded? {v : Value} (h : (binary left op right).folded? = some v) :
    .text v.display = v := by
  obtain ⟨-, l, r, -, -, -, rfl⟩ := folded?_binary h
  rfl

/-- What is folded is the value of the expression, and takes no part of the carry. -/
theorem Expr.reckon_of_folded? {v : Value} (h : e.folded? = some v) (carry : Bool) :
    e.reckon memory carry = .ok (v, carry) := by
  induction e generalizing v carry with
  | number n | text s =>
    cases h
    rfl
  | slot i => cases h
  | binary left op right ihl ihr =>
    obtain ⟨rfl, l, r, hl, hr, ht, rfl⟩ := folded?_binary h
    rw [reckon, ihl hl]
    simp only [bind, Except.bind, ihr hr, BinaryOp.reckon, Flags.operate, ht]
    rfl

/-- An expression has a slot in it nowhere. -/
def Expr.Avoids (slots : Slot → Prop) : Expr → Prop
  | number _ | text _ => True
  | slot i => ¬slots i
  | binary left _ right => left.Avoids slots ∧ right.Avoids slots

/-- Slots that an expression avoids do not matter to its value. -/
theorem Expr.reckon_congr {slots : Slot → Prop} {other : Memory} (h : e.Avoids slots)
    (hm : ∀ i, ¬slots i → memory.read i = other.read i) (carry : Bool) :
    e.reckon memory carry = e.reckon other carry := by
  induction e generalizing carry with
  | number n | text s => rfl
  | slot i => simp only [reckon, hm i h]
  | binary left op right ihl ihr =>
    obtain ⟨hl, hr⟩ := h
    simp only [reckon, ihl hl, ihr hr]

end Reckon

end Octet
