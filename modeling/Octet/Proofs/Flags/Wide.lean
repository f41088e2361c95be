import Mathlib.Tactic.NormNum
import Octet.Flags

namespace Octet

variable {op : Arith} {left right i : Int}

/-- What an operation can come to. -/
inductive Arith.Outcome (left right : Int) : Arith → Except Fault Int → Prop
  | add : Outcome left right .add (.ok (left + right))
  | sub : Outcome left right .sub (.ok (left - right))
  | mul : Outcome left right .mul (.ok (left * right))
  | div (divisor : right ≠ 0) : Outcome left right .div (.ok (left.fdiv right))
  | divZero (divisor : right = 0) : Outcome left right .div (.error .divisionByZero)
  | mod (divisor : right ≠ 0) : Outcome left right .mod (.ok (left.tmod right))
  | modZero (divisor : right = 0) : Outcome left right .mod (.error .moduloByZero)

theorem Arith.outcome_exact (op : Arith) (left right : Int) :
    Outcome left right op (op.exact left right) := by
  cases op with
  | add => exact .add
  | sub => exact .sub
  | mul => exact .mul
  | div =>
    rw [exact]
    split
    · exact .divZero ‹_›
    · exact .div ‹_›
  | mod =>
    rw [exact]
    split
    · exact .modZero ‹_›
    · exact .mod ‹_›

namespace Wide

/-- A signed word of 128 bits has room for a number. -/
def fits (i : Int) : Bool := -2 ^ 127 ≤ i && i < 2 ^ 127

/-- What an operation leaves in a word, unless it overflows. -/
def word (i : Int) : Option Int := if fits i then some i else none

/-- The quotient toward zero. -/
def quotient (left right : Int) : Option Int := word (left.tdiv right)

/-- The remainder of that quotient, which overflows with it. -/
def remainder (left right : Int) : Option Int := do
  let _ ← quotient left right
  word (left.tmod right)

/-- The quotient toward the floor, from the one toward zero. -/
def floorQuotient (left right : Int) : Option Int := do
  let q ← quotient left right
  let r ← remainder left right
  if r ≠ 0 ∧ decide (left < 0) ≠ decide (right < 0) then word (q - 1) else return q

/-- The remainder of a division by 256 that is never negative. -/
def byte (i : Int) : Option UInt8 := do
  let r ← remainder i 256
  let r ← if r < 0 then word (r + 256) else pure r
  return UInt8.ofNat r.toNat

/-- The result before the carry is added. -/
def exact (op : Arith) (left right : Int) : Option (Except Fault Int) :=
  match op with
  | .add => Except.ok <$> word (left + right)
  | .sub => Except.ok <$> word (left - right)
  | .mul => Except.ok <$> word (left * right)
  | .div =>
    if right = 0 then return .error .divisionByZero else Except.ok <$> floorQuotient left right
  | .mod => if right = 0 then return .error .moduloByZero else Except.ok <$> remainder left right

/-- A result with the carry. -/
def sum (flags : Flags) (result : Int) : Option Int :=
  if flags.carry then word (result + 1) else some result

/-- The arithmetic unit in words of 128 bits, with the flags that it leaves behind. All that is
worked out on the way has to have room in a word: without it there is no outcome. -/
def calculate (flags : Flags) (op : Arith) (left right : Int) :
    Option (Except Fault UInt8 × Flags) := do
  match ← exact op left right with
  | .error fault => return (.error fault, flags)
  | .ok result =>
    let sum ← sum flags result
    return (.ok (← byte sum), { flags with carry := 256 ≤ sum || sum < 0 })

theorem word_of_le (h : i.natAbs ≤ 2 ^ 126 + 1) : word i = some i := by
  have hf : fits i = true := by
    rw [fits, Bool.and_eq_true, decide_eq_true_eq, decide_eq_true_eq]
    omega
  exact if_pos hf

theorem natAbs_le_of_isInt64 (h : Text.isInt64 i = true) : i.natAbs ≤ 2 ^ 63 := by
  simp only [Text.isInt64, Bool.and_eq_true, decide_eq_true_eq] at h
  omega

theorem natAbs_tmod_le (left right : Int) : (left.tmod right).natAbs ≤ left.natAbs := by
  rw [Int.natAbs_tmod]
  exact Nat.mod_le ..

theorem quotient_eq (h : left.natAbs ≤ 2 ^ 126 + 1) :
    quotient left right = some (left.tdiv right) :=
  word_of_le ((Int.natAbs_tdiv_le_natAbs left right).trans h)

theorem remainder_eq (h : left.natAbs ≤ 2 ^ 126 + 1) :
    remainder left right = some (left.tmod right) := by
  rw [remainder, quotient_eq h]
  exact word_of_le ((natAbs_tmod_le left right).trans h)

/-- The quotient toward zero is one too much where something remains and the signs differ. -/
theorem fdiv_eq (hr : right ≠ 0) : left.fdiv right =
    if left.tmod right ≠ 0 ∧ decide (left < 0) ≠ decide (right < 0) then left.tdiv right - 1
    else left.tdiv right := by
  have hdvd : left.tmod right = 0 ↔ right ∣ left :=
    ⟨Int.dvd_of_tmod_eq_zero, Int.tmod_eq_zero_of_dvd⟩
  rw [Int.fdiv_eq_tdiv]
  simp only [ne_eq, hdvd]
  by_cases hd : right ∣ left
  · simp [hd]
  · obtain hlt | hgt := Int.lt_or_gt_of_ne hr
    · have hs : right.sign = -1 := Int.sign_eq_neg_one_of_neg hlt
      by_cases hl : left < 0 <;> simp [hd, hlt, hl, hs] <;> omega
    · have hs : right.sign = 1 := Int.sign_eq_one_of_pos hgt
      by_cases hl : left < 0 <;> simp [hd, hl, hs] <;> omega

theorem floorQuotient_eq (h : left.natAbs ≤ 2 ^ 64) (hr : right ≠ 0) :
    floorQuotient left right = some (left.fdiv right) := by
  have hq := (Int.natAbs_tdiv_le_natAbs left right).trans h
  rw [floorQuotient, quotient_eq (by omega), remainder_eq (by omega), fdiv_eq hr]
  simp only [bind, Option.bind]
  split
  · exact word_of_le (by omega)
  · rfl

theorem byte_eq (h : i.natAbs ≤ 2 ^ 126 + 1) : byte i = some (wrap i) := by
  have hmod : i % 256 = i.tmod 256 + if 0 ≤ i ∨ 256 ∣ i then 0 else 256 := by
    rw [Int.emod_eq_tmod]
    split <;> rfl
  rw [byte, remainder_eq h, wrap]
  simp only [bind, Option.bind, pure]
  split at hmod
  · rw [if_neg (by omega), hmod, Int.add_zero]
  · rw [if_pos (by omega), word_of_le (by omega), hmod]

section Operands

variable (hl : Text.isInt64 left = true) (hr : Text.isInt64 right = true)
include hl hr

/-- A result is far from the ends of a word. -/
theorem natAbs_exact_le (h : op.exact left right = .ok i) : i.natAbs ≤ 2 ^ 126 := by
  have hl := natAbs_le_of_isInt64 hl
  have hr := natAbs_le_of_isInt64 hr
  have ho := op.outcome_exact left right
  rw [h] at ho
  cases ho with
  | add | sub => omega
  | mul =>
    rw [Int.natAbs_mul]
    calc left.natAbs * right.natAbs
      _ ≤ 2 ^ 63 * 2 ^ 63 := Nat.mul_le_mul hl hr
      _ = 2 ^ 126 := by norm_num
  | div =>
    have := Int.natAbs_fdiv_le_natAbs left right
    omega
  | mod =>
    have := natAbs_tmod_le left right
    omega

theorem exact_eq : exact op left right = some (op.exact left right) := by
  have hle := natAbs_le_of_isInt64 hl
  have hword (i : Int) (h : op.exact left right = .ok i) : word i = some i :=
    word_of_le ((natAbs_exact_le hl hr h).trans (Nat.le_succ _))
  cases op with
  | add | sub | mul =>
    rw [exact, hword _ rfl]
    rfl
  | div =>
    rw [exact, Arith.exact]
    split
    · rfl
    · rw [floorQuotient_eq (by omega) ‹_›]
      rfl
  | mod =>
    rw [exact, Arith.exact]
    split
    · rfl
    · rw [remainder_eq (by omega)]
      rfl

/-- In words of 128 bits nothing overflows for operands of 64 bits. -/
theorem calculate_eq (flags : Flags) : calculate flags op left right =
    some (match flags.calculate op left right with
      | .ok (n, after) => (.ok n, after)
      | .error fault => (.error fault, flags)) := by
  rw [calculate, exact_eq hl hr, Flags.calculate]
  cases h : op.exact left right with
  | error fault => rfl
  | ok i =>
    have hi := natAbs_exact_le hl hr h
    have hsum : sum flags i = some (i + if flags.carry then 1 else 0) := by
      rw [sum]
      split
      · exact word_of_le (by omega)
      · rw [Int.add_zero]
    have hbyte : byte (i + if flags.carry then 1 else 0) =
        some (wrap (i + if flags.carry then 1 else 0)) :=
      byte_eq (by split <;> omega)
    simp only [bind, Option.bind, pure, Except.bind, Except.pure, hsum, hbyte]
    rw [Bool.or_comm]

end Operands

end Wide

end Octet
