import Octet.Proofs.Compiler.Reckoning

namespace Octet

/-- What a run puts to the test: two values against each other, or the value of a condition. -/
inductive Trial
  | compare (op : Comparison) (left right : Value)
  | condition (v : Value)
deriving DecidableEq

/-- A trial that comes out alike for the language and for the flags. As a condition, a text that
reads as zero does not, unless it is empty. -/
def Trial.Regular : Trial → Prop
  | compare op left right => op.Regular left right
  | condition (.number _) => True
  | condition (.text s) => reading s = some 0 → s.isEmpty = true

instance (op : Comparison) (left right : Value) : Decidable (op.Regular left right) :=
  match op with
  | .equal | .notEqual => inferInstanceAs (Decidable (_ ∨ _))
  | .less | .lessOrEqual | .greater | .greaterOrEqual => inferInstanceAs (Decidable (_ ∧ _))

instance : DecidablePred Trial.Regular := fun trial =>
  match trial with
  | .compare op left right => inferInstanceAs (Decidable (op.Regular left right))
  | .condition (.number _) => inferInstanceAs (Decidable True)
  | .condition (.text s) => inferInstanceAs (Decidable (reading s = some 0 → s.isEmpty = true))

/-- The language and the machine agree on what the value of a regular condition is taken for. -/
theorem Value.isNonzero_of_regular {v : Value} (h : (Trial.condition v).Regular) :
    v.isNonzero = v.isTruthy := by
  cases v with
  | number n =>
    have hz : ((n.toNat : Int) == 0) = (n == 0) := by
      rw [Bool.eq_iff_iff, beq_iff_eq, beq_iff_eq, ← UInt8.toNat_inj]
      exact Int.natCast_eq_zero
    have ht : (number n).isTruthy = !(n == 0) := rfl
    rw [ht, ← hz]
    rfl
  | text s =>
    have hs (hr : reading s ≠ some 0) : s.isEmpty = false := by
      rw [String.isEmpty_eq_false_iff]
      rintro rfl
      exact hr rfl
    have he : (Flags.clear.compare (text s) (.number 0)).equal = s.isEmpty := by
      cases hr : reading s with
      | none =>
        simp only [Flags.compare, Value.reading?, hr, hs (by simp [hr])]
        rfl
      | some i =>
        have hc : (Flags.clear.compare (text s) (.number 0)).equal = (i == 0) := by
          simp only [Flags.compare, Value.reading?, hr]
          rfl
        rw [hc]
        by_cases hi : i = 0
        · rw [hi] at hr ⊢
          exact (h hr).symm
        · rw [hs (hr ▸ fun hz => hi (Option.some.inj hz)), beq_eq_false_iff_ne]
          exact hi
    exact congrArg (! ·) he

namespace Walker

/-- The trials while an expression is evaluated. -/
def State.trials (state : State) (e : Expr) : List Trial :=
  (e.comparisons state.memory state.flags).map fun (op, left, right) => .compare op left right

/-- The trials of a condition: those of the expression, and its value. -/
def State.conditionTrials (state : State) (condition : Expr) : List Trial :=
  state.trials condition ++
    match condition.eval state.memory state.flags with
    | .ok (v, _) => [.condition v]
    | .error _ => []

/-- The trials of a loop, by what its body does and the trials that it has. -/
def iterateTrials (condition : Expr) (body : State → Run (Located Fault) (Flow × State))
    (bodyTrials : State → List Trial) : Nat → State → List Trial
  | 0, state => state.conditionTrials condition
  | left + 1, state =>
    state.conditionTrials condition ++
      match condition.eval state.memory state.flags with
      | .ok (v, flags) =>
        if v.isTruthy then
          bodyTrials { state with flags } ++
            match (body { state with flags }).result with
            | .ok (.next, state) => iterateTrials condition body bodyTrials left state
            | _ => []
        else []
      | .error _ => []

end Walker

open Walker

/-- The trials while a block is run from a state. -/
def Block.trials : Block → Walker.State → List Trial
  | done, _ | halt _ _, _ => []
  | assign _ slot value rest, state =>
    state.trials value ++
      match value.eval state.memory state.flags with
      | .ok (v, flags) => rest.trials ({ state with flags }.set slot v)
      | .error _ => []
  | output _ value rest, state =>
    state.trials value ++
      match value.eval state.memory state.flags with
      | .ok (_, flags) => rest.trials { state with flags }
      | .error _ => []
  | input _ slot rest, state =>
    match state.script.read.result with
    | .ok (v, script) => rest.trials ({ state with script }.set slot v)
    | .error _ => []
  | branch _ condition body otherwise rest, state =>
    state.conditionTrials condition ++
      match condition.eval state.memory state.flags with
      | .ok (v, flags) =>
        (if v.isTruthy then body.trials { state with flags }
          else otherwise.trials { state with flags }) ++
          match (if v.isTruthy then exec body { state with flags }
            else exec otherwise { state with flags }).result with
          | .ok (.next, state) => rest.trials state
          | _ => []
      | .error _ => []
  | loop line condition body rest, state =>
    iterateTrials condition (exec body) body.trials loopLimit state ++
      match (iterate line condition (exec body) loopLimit state).result with
      | .ok (.next, state) => rest.trials state
      | _ => []

end Octet
