import Octet.Proofs.Compiler.Installed
import Octet.Proofs.Compiler.Reckoning
import Octet.Proofs.Machine.Instructions

namespace Octet.Compiler

open Listing (Line Placed)
open Machine

variable {program : Program} {pc last : Nat} {state next : State} {target l r : Slot}
  {scope after : Scope} {op : Comparison} {label destination : Nat} {fault : Fault}

theorem reaches_next {instruction : Instruction} {signals : List Signal}
    (h : At program pc instruction)
    (he : step program instruction state = ⟨signals, .ok (.next, next)⟩)
    (hs : exchanges signals = []) : Reaches program pc state [] (pc + 1) next := by
  have hr := reaches_of_step h he rfl
  rwa [hs] at hr

/-- The flags after `test`. -/
def tested (op : Comparison) (flags : Flags) (left right : Value) : Flags :=
  match op with
  | .less | .lessOrEqual => flags.compare right left
  | _ => flags.compare left right

/-- Whether one of `jumps` is taken. -/
def taken (op : Comparison) (flags : Flags) : Bool :=
  match op with
  | .equal | .notEqual => flags.equal
  | .less | .greater => flags.greater
  | .lessOrEqual | .greaterOrEqual => flags.greater || flags.equal

@[simp] theorem carry_tested (flags : Flags) (left right : Value) :
    (tested op flags left right).carry = flags.carry := by
  cases op <;> exact Flags.carry_compare ..

/-- A jump is taken where the comparison holds, and for `notEqual` where it does not. -/
theorem passes_eq (flags : Flags) (left right : Value) : op.passes left right =
    (taken op (tested op flags left right) == decide (op ≠ .notEqual)) := by
  cases op <;>
    simp [taken, tested, Comparison.passes, Flags.equal_compare flags,
      Flags.greater_compare flags]

/-- A state once two of its registers have been compared. -/
def compared (op : Comparison) (l r : Slot) (state : State) : State :=
  { state with flags := tested op state.flags (state.registers.read l) (state.registers.read r) }

theorem reaches_test (hp : Placed program pc [test op l r]) (state : State) :
    Reaches program pc state [] (pc + 1) (compared op l r state) := by
  cases op <;> exact reaches_next hp.1 step_pav rfl

theorem reaches_jumps (hp : Placed program pc (jumps op label))
    (hl : program.labels.get? (Listing.labelName label) = some destination) :
    Reaches program pc state []
      (if taken op state.flags then destination else pc + Listing.size (jumps op label)) state := by
  have he : ∀ {pc}, At program pc ⟨.rev, [.label (Listing.labelName label)]⟩ →
      Reaches program pc state [] (if state.flags.equal then destination else pc + 1) state :=
    fun h => reaches_of_step h (step_rev hl) (by cases state.flags.equal <;> rfl)
  have hg : ∀ {pc}, At program pc ⟨.rgv, [.label (Listing.labelName label)]⟩ →
      Reaches program pc state [] (if state.flags.greater then destination else pc + 1) state :=
    fun h => reaches_of_step h (step_rgv hl) (by cases state.flags.greater <;> rfl)
  have hb : Placed program pc [jump .rgv label, jump .rev label] →
      Reaches program pc state []
        (if state.flags.greater || state.flags.equal then destination else pc + 2) state := by
    rintro ⟨hf, hs, -⟩
    have hf := hg hf
    cases hv : state.flags.greater with
    | true => simpa [hv] using hf
    | false =>
      rw [hv] at hf
      exact hf.trans (he hs)
  cases op with
  | equal | notEqual => exact he hp.1
  | less | greater => exact hg hp.1
  | lessOrEqual | greaterOrEqual => exact hb hp

theorem ofInt_hit (op : Comparison) : Value.ofInt (hit op) = .ofBool (decide (op ≠ .notEqual)) := by
  cases op <;> rfl

theorem ofInt_one_sub_hit (op : Comparison) :
    Value.ofInt (1 - hit op) = .ofBool (decide (op = .notEqual)) := by
  cases op <;> rfl

/-- A register holds whether the comparison of two others passes, and the flags are those of its
test. -/
def settled (op : Comparison) (target l r : Slot) (state : State) : State :=
  (compared op l r state).set target
    (.ofBool (op.passes (state.registers.read l) (state.registers.read r)))

theorem set_set (state : State) (r : Slot) (v w : Value) :
    (state.set r v).set r w = state.set r w := by
  simp only [State.set, Memory.put, Vector.set_set]

/-- The code of `truth` is over when the register holds whether the comparison passes. -/
theorem reaches_settled (h : Installed program (truth op target l r) scope after pc last)
    (state : State) : Reaches program pc state [] last (settled op target l r state) := by
  obtain ⟨n, p, ht, hh, hj, rfl, hm, rfl, hl⟩ := installed_truth h
  let second := (compared op l r state).set target (.ofInt (hit op))
  have hr : Reaches program pc state [] (pc + 2) second :=
    (reaches_test ht state).trans (reaches_next hh (step_tar_immediate _) rfl)
  have hr := hr.trans (reaches_jumps hj hl)
  have hv : op.passes (state.registers.read l) (state.registers.read r) =
      (taken op second.flags == decide (op ≠ .notEqual)) := passes_eq ..
  rw [settled, hv]
  by_cases ht : taken op second.flags = true
  · rw [if_pos ht] at hr
    rw [ht, Bool.true_beq, ← ofInt_hit]
    exact hr
  · rw [if_neg ht] at hr
    have hs := hr.trans (reaches_next hm (step_tar_immediate _) rfl)
    have hf : (false == decide (op ≠ .notEqual)) = decide (op = .notEqual) := by cases op <;> rfl
    rw [set_set, ofInt_one_sub_hit, ← hf] at hs
    rwa [eq_false_of_ne_true ht]

/-- After the code of `truth`, a register holds whether the comparison passes. -/
theorem reaches_truth (h : Installed program (truth op target l r) scope after pc last)
    (state : State) :
    ∃ next, Reaches program pc state [] last next ∧
      next.registers.read target =
        .ofBool (op.passes (state.registers.read l) (state.registers.read r)) ∧
      (∀ i, i ≠ target → next.registers.read i = state.registers.read i) ∧
      next.flags.carry = state.flags.carry ∧ next.ring = state.ring ∧
      next.script = state.script := by
  refine ⟨_, reaches_settled h state, ?_, fun i hi => ?_, carry_tested .., rfl, rfl⟩
  · rw [settled, registers_set, Memory.read_put, if_pos rfl]
  · rw [settled, registers_set, Memory.read_put, if_neg hi]
    rfl

end Octet.Compiler
