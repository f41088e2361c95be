import Mathlib.Data.String.Basic
import Mathlib.Order.Compare
import Octet.Proofs.Assembly.Spelling
import Octet.Proofs.Machine.Instructions

namespace Octet

variable {left right v : Value}

section Readings

theorem reading_repr (n : UInt8) : reading n.toNat.repr = some (n.toNat : Int) := by
  have hb : ∀ c ∈ Nat.toDigits 10 n.toNat, Text.isBlank c = false := fun c hc =>
    Assembly.isBlank_of_isMark (Assembly.isMark_of_isDigit (Text.isDigit_of_mem_digits hc))
  have ht : Text.trim (Nat.toDigits 10 n.toNat) = Nat.toDigits 10 n.toNat :=
    Text.trim_of_ends (fun c hc => hb c (List.mem_of_head? hc))
      fun c hc => hb c (List.mem_of_getLast? hc)
  have hi : Text.isInt64 (n.toNat : Int) = true :=
    Value.isInt64_of_reading? (v := .number n) rfl
  have hr : Text.readInt (Nat.toDigits 10 n.toNat) = some (n.toNat : Int) := by
    simpa only [Int.repr, Nat.toList_repr] using Text.readInt_repr hi
  rw [reading, Nat.toList_repr, ht]
  split
  · next hn => exact absurd hn Nat.toDigits_ne_nil
  · exact hr

/-- A value is read as what it is displayed as. -/
theorem Value.reading_display (v : Value) : reading v.display = v.reading? := by
  cases v with
  | number n => exact reading_repr n
  | text s => rfl

/-- Of values that are no numbers, or one of which is none, none is displayed as another. -/
theorem Value.display_inj (h : left.reading? = none ∨ right.reading? = none) :
    left.display = right.display ↔ left = right := by
  refine ⟨fun hd => ?_, congrArg display⟩
  have he : left.reading? = right.reading? := by
    rw [← reading_display left, hd, reading_display right]
  have hl : left.reading? = none := by
    obtain h | h := h
    · exact h
    · exact he.trans h
  have hr : right.reading? = none := he.symm.trans hl
  cases left with
  | number n => cases hl
  | text s =>
    cases right with
    | number n => cases hr
    | text t => exact congrArg Value.text hd

end Readings

section Order

/-- The order that the flags tell: two numbers are ordered as numbers, and all else as it is
displayed. -/
def Value.order (left right : Value) : Ordering :=
  match left.reading?, right.reading? with
  | some i, some j => compare i j
  | _, _ => compare left.display right.display

variable {i j : Int}

theorem Value.order_numbers (hl : left.reading? = some i) (hr : right.reading? = some j) :
    left.order right = compare i j := by
  rw [order, hl, hr]

theorem Value.order_words (h : left.reading? = none ∨ right.reading? = none) :
    left.order right = compare left.display right.display := by
  obtain h | h := h
  · rw [order, h]
  · rw [order, h]
    cases left.reading? <;> rfl

theorem Flags.compare_words (flags : Flags) (h : left.reading? = none ∨ right.reading? = none) :
    flags.compare left right =
      flags.setOrder (left == right) (right.display < left.display) := by
  obtain h | h := h
  · rw [Flags.compare, h]
  · rw [Flags.compare, h]
    cases left.reading? <;> rfl

/-- Either both values are numbers, or one of them is none. -/
theorem Value.numbers_or_words (left right : Value) :
    (∃ i j, left.reading? = some i ∧ right.reading? = some j) ∨
      left.reading? = none ∨ right.reading? = none := by
  cases left.reading? <;> cases right.reading? <;> simp

theorem Value.order_swap (left right : Value) : left.order right = (right.order left).swap := by
  obtain ⟨i, j, hl, hr⟩ | h := numbers_or_words left right
  · rw [order_numbers hl hr, order_numbers hr hl]
    exact Std.OrientedOrd.eq_swap
  · rw [order_words h, order_words h.symm]
    exact Std.OrientedOrd.eq_swap

theorem isEq_compare {α : Type} [LinearOrder α] (a b : α) :
    (compare a b).isEq = decide (a = b) := by
  rw [Bool.eq_iff_iff, Ordering.isEq_iff_eq_eq, compare_eq_iff_eq, decide_eq_true_iff]

theorem isGT_compare {α : Type} [LinearOrder α] (a b : α) :
    (compare a b).isGT = decide (b < a) := by
  rw [Bool.eq_iff_iff, Ordering.isGT_iff_eq_gt, compare_gt_iff_gt, decide_eq_true_iff]

/-- The flags tell the order of two values, and nothing else about them. -/
theorem Flags.compare_eq (flags : Flags) (left right : Value) :
    flags.compare left right =
      flags.setOrder (left.order right).isEq (left.order right).isGT := by
  obtain ⟨i, j, hl, hr⟩ | h := Value.numbers_or_words left right
  · rw [Value.order_numbers hl hr, isEq_compare, isGT_compare, Flags.compare, hl, hr]
    rfl
  · have he : (left == right) = decide (left.display = right.display) := by
      rw [Bool.eq_iff_iff, beq_iff_eq, decide_eq_true_iff]
      exact (Value.display_inj h).symm
    rw [Value.order_words h, isEq_compare, isGT_compare, Flags.compare_words flags h, he]

end Order

namespace Machine

/-- The flags that a `pav` of two values leaves, wherever it stands and whatever was there
before. -/
def Tests (left right : Value) (flags : Flags) : Prop :=
  ∃ program state operands next, valueAt program state.registers operands 0 = .ok left ∧
    valueAt program state.registers operands 1 = .ok right ∧
    step program ⟨.pav, operands⟩ state = ⟨[], .ok (.next, next)⟩ ∧ next.flags = flags

theorem step_pav_values {program : Program} {state : State} {operands : List Operand}
    (hl : valueAt program state.registers operands 0 = .ok left)
    (hr : valueAt program state.registers operands 1 = .ok right) :
    step program ⟨.pav, operands⟩ state =
      ⟨[], .ok (.next, { state with flags := state.flags.compare left right })⟩ := by
  simp only [step, hl, hr]
  rfl

theorem tests_iff {flags : Flags} :
    Tests left right flags ↔ ∃ prior : Flags, prior.compare left right = flags := by
  refine ⟨?_, ?_⟩
  · rintro ⟨program, state, operands, next, hl, hr, hs, rfl⟩
    rw [step_pav_values hl hr] at hs
    cases hs
    exact ⟨state.flags, rfl⟩
  · rintro ⟨prior, rfl⟩
    let registers := (Memory.initial.put 0 left).put 1 right
    have hl : registers.read 0 = left := by simp [registers, Memory.read_put]
    have hr : registers.read 1 = right := by simp [registers, Memory.read_put]
    exact ⟨.empty, ⟨registers, .empty, prior, []⟩, [.register 0, .register 1], _,
      congrArg Except.ok hl, congrArg Except.ok hr, step_pav_values (congrArg Except.ok hl)
        (congrArg Except.ok hr), rfl⟩

end Machine

end Octet
