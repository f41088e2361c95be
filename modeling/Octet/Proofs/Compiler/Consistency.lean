import Octet.Proofs.Compiler.Differences
import Octet.Proofs.Compiler.Verdicts
import Octet.Proofs.Machine.Order

namespace Octet

variable {left right : Value} {op : Comparison}

/-- Whether a comparison holds of two values that stand in an order. -/
def Comparison.accepts : Comparison → Ordering → Bool
  | equal => Ordering.isEq
  | notEqual => Ordering.isNe
  | less => Ordering.isLT
  | lessOrEqual => Ordering.isLE
  | greater => Ordering.isGT
  | greaterOrEqual => Ordering.isGE

/-- Though two comparisons test their operands in exchange, each passes by the one order of both. -/
theorem Comparison.passes_eq_accepts (op : Comparison) (left right : Value) :
    op.passes left right = op.accepts (left.order right) := by
  simp only [passes, Flags.compare_eq, Flags.setOrder, Value.order_swap right left]
  cases op <;> cases left.order right <;> rfl

namespace Compiler

open Machine

variable {program : Program} {pc last : Nat} {exit : Value → Nat} {target : Option Slot}
  {i j : Slot} {b : Bool}

/-- The comparison of two slots, as a value or as a condition, ends with what passes. The slots may
be work registers: nothing is brought home. -/
theorem ends_comparison
    (h : Spans program (.binary (.slot i) (.compare op) (.slot j)) target pc last exit)
    (state : State) :
    Ends program target pc last exit state
      (.ok (.ofBool (op.passes (state.registers.read i) (state.registers.read j)),
        state.flags.carry)) := by
  cases target with
  | some r =>
    obtain ⟨scope, after, h, rfl⟩ := h
    have hy := yields_compute_compare (installed_cut h) state
    rw [effectBoth_slot] at hy
    obtain ⟨_, hr, rfl⟩ := hy
    refine ⟨_, hr, ?_, carry_tested ..⟩
    rintro _ ⟨⟩
    rw [settled, registers_set, Memory.read_put, if_pos rfl]
    rfl
  | none =>
    obtain ⟨otherwise, scope, after, miss, h, hm, -, rfl⟩ := h
    have hy := yields_guard_compare (installed_cut h) hm state
    rw [effectBoth_slot] at hy
    obtain ⟨_, hr, rfl⟩ := hy
    refine ⟨compared op i j state, ?_, ?_, carry_tested ..⟩
    · simp only [isTruthy_ofBool]
      exact hr
    · rintro _ ⟨⟩

/-- A place in compiled code where two slots are compared, and a state in which they hold two
values. The comparison is a condition if it has no target. -/
structure Site (op : Comparison) (target : Option Slot) (left right : Value) where
  program : Program
  leftSlot : Slot
  rightSlot : Slot
  pc : Nat
  last : Nat
  exit : Value → Nat
  state : State
  code :
    Spans program (.binary (.slot leftSlot) (.compare op) (.slot rightSlot)) target pc last exit
  holds_left : state.registers.read leftSlot = left
  holds_right : state.registers.read rightSlot = right

/-- The comparison leaves its truth value in the target, or goes where that leads. -/
def Site.Gives (site : Site op target left right) (b : Bool) : Prop :=
  ∃ carry, Ends site.program target site.pc site.last site.exit site.state (.ok (.ofBool b, carry))

theorem Site.gives_iff (site : Site op target left right) :
    site.Gives b ↔ b = op.accepts (left.order right) := by
  have he := ends_comparison site.code site.state
  rw [site.holds_left, site.holds_right, Comparison.passes_eq_accepts] at he
  refine ⟨?_, ?_⟩
  · rintro ⟨carry, hb⟩
    exact hb.ofBool_inj site.code he
  · rintro rfl
    exact ⟨_, he⟩

theorem nonempty_site (op : Comparison) (target : Option Slot) (left right : Value) :
    Nonempty (Site op target left right) := by
  let e := Expr.binary (.slot 0) (.compare op) (.slot 1)
  let registers := (Memory.initial.put 0 left).put 1 right
  let state : State := ⟨registers, .empty, .clear, []⟩
  have hl : registers.read 0 = left := by simp [registers, Memory.read_put]
  have hr : registers.read 1 = right := by simp [registers, Memory.read_put]
  obtain ⟨program, pc, last, exit, h⟩ : ∃ program pc last exit,
      Spans program e target pc last exit := by
    cases target with
    | some r =>
      obtain ⟨mid, p, hc, -⟩ := installed_assign (installed_compile (.assign 1 r e .done) none)
      exact ⟨_, _, p, _, _, mid, hc, rfl⟩
    | none =>
      obtain ⟨miss, first, second, p, q, hg, hb, hm, -⟩ :=
        installed_branch_done (installed_compile (.branch 1 e (.halt 1 .done) .done .done) none)
      have hlt : p < q := lt_of_block Block.noConfusion hb
      exact ⟨_, _, p, _, miss, _, first, q, hg, hm, hlt, rfl⟩
  exact ⟨⟨program, 0, 1, pc, last, exit, state, h, hl, hr⟩⟩

/-- Of two values just one is equal to the other, or greater, or less, as `pav` tests them, and so
the six comparisons that are compiled to it agree with each other wherever they stand. -/
theorem comparisons_consistent (left right : Value) :
    (∃ flags, Tests left right flags) ∧
    (∀ forth back, Tests left right forth → Tests right left back →
      [forth.equal, forth.greater, back.greater].count true = 1 ∧ forth.equal = back.equal) ∧
    (∀ op target, Nonempty (Site op target left right)) ∧
    ∃ truth : Comparison → Bool,
      (∀ op target (site : Site op target left right) b, site.Gives b ↔ b = truth op) ∧
      [truth .less, truth .equal, truth .greater].count true = 1 ∧
      truth .lessOrEqual = !truth .greater ∧ truth .greaterOrEqual = !truth .less ∧
      truth .notEqual = !truth .equal := by
  refine ⟨⟨_, tests_iff.2 ⟨.clear, rfl⟩⟩, ?_, fun op target => nonempty_site op target left right,
    fun op => op.accepts (left.order right), fun op target site b => site.gives_iff, ?_⟩
  · intro forth back hf hb
    obtain ⟨prior, rfl⟩ := tests_iff.1 hf
    obtain ⟨prior', rfl⟩ := tests_iff.1 hb
    simp only [Flags.compare_eq, Flags.setOrder, Value.order_swap right left]
    cases left.order right <;> exact ⟨rfl, rfl⟩
  · cases left.order right <;> exact ⟨rfl, rfl, rfl, rfl⟩

end Compiler

end Octet
