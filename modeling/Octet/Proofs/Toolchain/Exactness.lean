import Mathlib.Data.Rat.Floor
import Octet.Proofs.Flags.Wide
import Octet.Proofs.Machine.Calls
import Octet.Proofs.Toolchain.Mileage
import Octet.Proofs.Walker.Evaluations

namespace Octet

open Octet.Parser (bind_ok)

/-- The number that an operation stands for: a quotient goes to the floor, and a remainder has the
sign of the dividend. -/
def Arith.Denotes (op : Arith) (left right result : Int) : Prop :=
  match op with
  | add => result = left + right
  | sub => result = left - right
  | mul => result = left * right
  | div => result = ⌊(left / right : ℚ)⌋
  | mod => right ∣ left - result ∧ |result| < |right| ∧ (result = 0 ∨ result.sign = left.sign)

def Arith.Divides (op : Arith) : Prop := op = .div ∨ op = .mod

/-- What an operation has to come to: the byte of its result with the carry, which leaves the carry
set where the sum is no byte, or the fault of its own by a divisor of zero, which leaves the flags
as they are. -/
def Flags.Answers (flags : Flags) (op : Arith) (left right : Int) (after : Flags) :
    Except Fault UInt8 → Prop
  | .ok n =>
    ¬(op.Divides ∧ right = 0) ∧ ∃ result, op.Denotes left right result ∧
      let sum := result + if flags.carry then 1 else 0
      (n.toNat : Int) = sum % 256 ∧ after = { flags with carry := ¬(0 ≤ sum ∧ sum ≤ 255) }
  | .error fault =>
    right = 0 ∧ after = flags ∧
      (op = .div ∧ fault = .divisionByZero ∨ op = .mod ∧ fault = .moduloByZero)

/-- The calls of the arithmetic unit in a run. -/
def Engine.calls : Engine → Memory → Script → List Call
  | walker program, memory, script =>
    Walker.calls (Walker.evaluations program ⟨memory, .clear, script⟩)
  | machine program, registers, script =>
    Machine.callsFrom program stepLimit 0 ⟨registers, .empty, .clear, script⟩

section Exactness

variable {flags after : Flags} {op : Arith} {left right i : Int} {n : UInt8} {fault : Fault}

theorem floor_div (left right : Int) : ⌊(left / right : ℚ)⌋ = left.fdiv right := by
  obtain ⟨n, rfl | rfl⟩ := right.eq_nat_or_neg
  · rw [Int.cast_natCast, Rat.floor_intCast_div_natCast,
      Int.fdiv_eq_ediv_of_nonneg _ n.cast_nonneg]
  · have hq : (left / (-n : Int) : ℚ) = (-left : Int) / n := by
      rw [Int.cast_neg, Int.cast_neg, Int.cast_natCast, div_neg, neg_div]
    rw [hq, Rat.floor_intCast_div_natCast, ← Int.neg_fdiv_neg, neg_neg,
      Int.fdiv_eq_ediv_of_nonneg _ n.cast_nonneg]

theorem denotes_exact (h : op.exact left right = .ok i) :
    ¬(op.Divides ∧ right = 0) ∧ op.Denotes left right i := by
  have ho := op.outcome_exact left right
  rw [h] at ho
  cases ho with
  | add | sub | mul => exact ⟨fun hd => by cases hd.1 <;> contradiction, rfl⟩
  | div hr => exact ⟨fun hd => hr hd.2, (floor_div left right).symm⟩
  | mod hr =>
    refine ⟨fun hd => hr hd.2, Int.dvd_self_sub_tmod, ?_, ?_⟩
    · rw [Int.abs_eq_natAbs, Int.abs_eq_natAbs, Int.natAbs_tmod]
      exact Int.ofNat_lt.2 (Nat.mod_lt _ (Int.natAbs_pos.2 hr))
    · rw [Int.sign_tmod]
      by_cases hd : right ∣ left
      · exact .inl (Int.tmod_eq_zero_of_dvd hd)
      · exact .inr (if_neg hd)

theorem answers_of_calculate (h : flags.calculate op left right = .ok (n, after)) :
    flags.Answers op left right after (.ok n) := by
  obtain ⟨i, hi, h⟩ := bind_ok h
  obtain ⟨hd, hi⟩ := denotes_exact hi
  cases h
  refine ⟨hd, i, hi, toNat_wrap _, ?_⟩
  have hcarry (sum : Int) :
      (decide (sum < 0) || decide (256 ≤ sum)) = decide ¬(0 ≤ sum ∧ sum ≤ 255) := by
    rw [Bool.eq_iff_iff, Bool.or_eq_true, decide_eq_true_eq, decide_eq_true_eq, decide_eq_true_eq]
    omega
  rw [hcarry]

theorem answers_of_error (h : flags.calculate op left right = .error fault) :
    flags.Answers op left right flags (.error fault) := by
  have ho := op.outcome_exact left right
  rw [Flags.calculate] at h
  cases he : op.exact left right with
  | ok i =>
    rw [he] at h
    cases h
  | error other =>
    rw [he] at h ho
    cases h
    cases ho with
    | divZero hr => exact ⟨hr, rfl, .inl ⟨rfl, rfl⟩⟩
    | modZero hr => exact ⟨hr, rfl, .inr ⟨rfl, rfl⟩⟩

/-- No run calls the arithmetic unit with numbers of more than 64 bits. -/
theorem Engine.isInt64_of_mem_calls {engine : Engine} {memory : Memory} {script : Script}
    {call : Call} (h : call ∈ engine.calls memory script) :
    Text.isInt64 call.left = true ∧ Text.isInt64 call.right = true := by
  cases engine with
  | walker program => exact Walker.isInt64_of_mem_calls h
  | machine program => exact Machine.isInt64_of_mem_callsFrom h

/-- The arithmetic unit is exact: for numbers of 64 bits, which are all that a run of either engine
calls it with, nothing that it works out overflows a word of 128 bits, and it answers with the byte
of the exact result or with the fault of a division by zero. -/
theorem arithmetic_exact :
    (∀ (flags : Flags) (op : Arith) (left right : Int),
      Text.isInt64 left = true → Text.isInt64 right = true →
      ∃ outcome after, Wide.calculate flags op left right = some (outcome, after) ∧
        flags.calculate op left right = outcome.map (·, after) ∧
        flags.Answers op left right after outcome) ∧
    ∀ (engine : Engine) (memory : Memory) (script : Script), ∀ call ∈ engine.calls memory script,
      Text.isInt64 call.left = true ∧ Text.isInt64 call.right = true := by
  refine ⟨fun flags op left right hl hr => ?_, fun _ _ _ _ => Engine.isInt64_of_mem_calls⟩
  rw [Wide.calculate_eq hl hr]
  cases h : flags.calculate op left right with
  | ok p => exact ⟨.ok p.1, p.2, rfl, rfl, answers_of_calculate h⟩
  | error fault => exact ⟨.error fault, flags, rfl, rfl, answers_of_error h⟩

theorem arithmetic_exact_least :
    Flags.Answers ⟨true, true, false⟩ .div (-2 ^ 63) (-1) ⟨true, true, false⟩ (.ok 1) ∧
    let least : Expr := .text "-9223372036854775808"
    let engine := Engine.walker (.output 1 (.binary least (.arith .mul) least) .done)
    engine.calls .initial [] = [⟨.clear, .mul, -2 ^ 63, -2 ^ 63⟩] ∧
      ∀ call ∈ engine.calls .initial [],
        Text.isInt64 call.left = true ∧ Text.isInt64 call.right = true := by
  have hleast : Text.isInt64 (-2 ^ 63) = true := by decide
  obtain ⟨outcome, after, hw, -, ha⟩ :=
    arithmetic_exact.1 ⟨true, true, false⟩ .div (-2 ^ 63) (-1) hleast (by decide)
  have hv : Wide.calculate ⟨true, true, false⟩ .div (-2 ^ 63) (-1) =
      some (.ok 1, ⟨true, true, false⟩) := by decide
  rw [hv] at hw
  cases hw
  exact ⟨ha, by decide, arithmetic_exact.2 _ _ _⟩

end Exactness

end Octet
