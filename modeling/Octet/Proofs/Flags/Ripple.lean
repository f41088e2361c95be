import Mathlib.Data.Nat.Digits.Defs
import Octet.Proofs.Flags.Calls

namespace Octet

/-- The number that some bytes write, the lowest one first. -/
def magnitude (bytes : List UInt8) : Nat :=
  Nat.ofDigits 256 (bytes.map UInt8.toNat)

/-- Pairs of bytes are added one after another, each with the carry that the last one left. -/
inductive Ripple : Bool → List (UInt8 × UInt8) → List UInt8 → Bool → Prop
  | nil {carry : Bool} : Ripple carry [] [] carry
  | cons {carry next last : Bool} {a b n : UInt8} {pairs : List (UInt8 × UInt8)}
      {bytes : List UInt8} (sum : n.toNat + 256 * next.toNat = a.toNat + b.toNat + carry.toNat)
      (rest : Ripple next pairs bytes last) : Ripple carry ((a, b) :: pairs) (n :: bytes) last

/-- Some bytes and a carry are the sum of two numbers that are written in as many bytes. -/
structure IsSum (l r bytes : List UInt8) (carry : Bool) : Prop where
  length : bytes.length = l.length
  modulo : magnitude bytes = (magnitude l + magnitude r) % 256 ^ l.length
  overflow : carry = true ↔ 256 ^ l.length ≤ magnitude l + magnitude r

section Ripple

variable {l r bytes : List UInt8} {carry last : Bool}

theorem magnitude_cons (n : UInt8) (bytes : List UInt8) :
    magnitude (n :: bytes) = n.toNat + 256 * magnitude bytes :=
  Nat.ofDigits_cons ..

theorem magnitude_lt (bytes : List UInt8) : magnitude bytes < 256 ^ bytes.length := by
  rw [← bytes.length_map UInt8.toNat]
  apply Nat.ofDigits_lt_base_pow_length (by decide)
  intro digit hd
  obtain ⟨n, -, rfl⟩ := List.mem_map.1 hd
  exact n.toNat_lt

theorem Ripple.magnitude_add (h : Ripple carry (l.zip r) bytes last) (hl : l.length = r.length) :
    bytes.length = l.length ∧
      magnitude bytes + 256 ^ l.length * last.toNat = magnitude l + magnitude r + carry.toNat := by
  induction l generalizing r bytes carry with
  | nil =>
    obtain rfl := List.length_eq_zero_iff.1 hl.symm
    cases h
    exact ⟨rfl, by simp [magnitude]⟩
  | cons a l ih =>
    cases r with
    | nil => cases hl
    | cons b r =>
      cases h with
      | cons sum rest =>
        obtain ⟨hlen, hsum⟩ := ih rest (Nat.succ.inj hl)
        refine ⟨congrArg (· + 1) hlen, ?_⟩
        simp only [magnitude_cons, List.length_cons, Nat.pow_succ]
        -- 256 times the sum of the higher bytes, which takes the carry of the lowest ones
        linarith

/-- A clear carry adds nothing, so the bytes and the last carry are the sum. -/
theorem Ripple.isSum (h : Ripple false (l.zip r) bytes last) (hl : l.length = r.length) :
    IsSum l r bytes last := by
  obtain ⟨hlen, hsum⟩ := h.magnitude_add hl
  have hlt := magnitude_lt bytes
  rw [Bool.toNat_false, Nat.add_zero] at hsum
  rw [hlen] at hlt
  refine ⟨hlen, ?_, ?_⟩
  · rw [← hsum, Nat.add_mul_mod_self_left, Nat.mod_eq_of_lt hlt]
  · cases last with
    | false =>
      rw [Bool.toNat_false, Nat.mul_zero] at hsum
      simp only [Bool.false_eq_true, false_iff]
      omega
    | true =>
      rw [Bool.toNat_true, Nat.mul_one] at hsum
      simp only [true_iff]
      omega

/-- The sum of two bytes and a carry is a byte and a carry. -/
theorem Flags.calculate_add (flags : Flags) (a b : UInt8) :
    ∃ n after, flags.calculate .add a.toNat b.toNat = .ok (n, after) ∧
      n.toNat + 256 * after.carry.toNat = a.toNat + b.toNat + flags.carry.toNat := by
  have ha := a.toNat_lt
  have hb := b.toNat_lt
  let sum : Int := a.toNat + b.toNat + if flags.carry then 1 else 0
  have hsum : sum = (a.toNat + b.toNat + flags.carry.toNat : Nat) := by
    cases h : flags.carry <;> simp [sum, h]
  have hcarry : (decide (sum < 0) || decide (256 ≤ sum)) = decide (256 ≤ sum) := by
    rw [decide_eq_false (by omega), Bool.false_or]
  have hn := toNat_wrap sum
  refine ⟨wrap sum, { flags with carry := sum < 0 || 256 ≤ sum }, rfl, ?_⟩
  have hbit := flags.carry.toNat_le
  simp only [hcarry]
  by_cases hle : 256 ≤ sum
  · rw [decide_eq_true hle, Bool.toNat_true]
    omega
  · rw [decide_eq_false hle, Bool.toNat_false]
    omega

end Ripple

section Calls

variable {carry last : Bool} {calls : List Call} {pairs : List (UInt8 × UInt8)}

/-- A call that adds two bytes. -/
def Call.Adds (call : Call) (pair : UInt8 × UInt8) : Prop :=
  call.op = .add ∧ call.left = pair.1.toNat ∧ call.right = pair.2.toNat

def Call.byte? (call : Call) : Option UInt8 := call.result.toOption.map Prod.fst

theorem Chained.ripple (h : Chained carry calls last) (hp : List.Forall₂ Call.Adds calls pairs) :
    Ripple carry pairs (calls.filterMap Call.byte?) last := by
  induction h generalizing pairs with
  | nil =>
    cases hp
    exact .nil
  | @cons call n after calls last called _ ih =>
    cases hp with
    | @cons _ pair _ pairs hadds hp =>
      obtain ⟨hop, hleft, hright⟩ := hadds
      obtain ⟨m, next, hc, hsum⟩ := call.flags.calculate_add pair.1 pair.2
      have hbyte : call.byte? = some n := by
        rw [Call.byte?, called]
        rfl
      rw [← hop, ← hleft, ← hright] at hc
      cases called.symm.trans hc
      rw [List.filterMap_cons_some hbyte]
      exact .cons hsum (ih hp)

end Calls

/-- Two values are added, or they are compared. -/
inductive Act
  | add (left right : Value)
  | compare (left right : Value)

namespace Act

/-- The bytes that are added, if a text does not turn the addition into a join. -/
def pair? : Act → Option (UInt8 × UInt8)
  | add (.number a) (.number b) => some (a, b)
  | _ => none

/-- Performs one after another, to the values of the additions and the flags in the end. -/
def perform : List Act → Flags → Except Fault (List Value × Flags)
  | [], flags => .ok ([], flags)
  | add left right :: acts, flags => do
    let (v, flags) ← flags.operate .add left right
    let (values, flags) ← perform acts flags
    return (v :: values, flags)
  | compare left right :: acts, flags => perform acts (flags.compare left right)

end Act

def Value.byte? : Value → Option UInt8
  | number n => some n
  | text _ => none

section Act

variable {flags next : Flags} {left right v : Value} {acts : List Act} {values : List Value}
  {after : Flags}

theorem Act.perform_add (ho : flags.operate .add left right = .ok (v, next))
    (hp : perform acts next = .ok (values, after)) :
    perform (add left right :: acts) flags = .ok (v :: values, after) := by
  rw [perform, ho]
  simp only [bind, Except.bind, hp]
  rfl

/-- An addition joins its operands, or it adds two bytes. -/
theorem Act.join_or_pair (flags : Flags) (left right : Value) :
    ((add left right).pair? = none ∧
      ∃ s, flags.operate .add left right = .ok (.text s, flags)) ∨
    ∃ a b n next, left = .number a ∧ right = .number b ∧
      flags.operate .add left right = .ok (.number n, next) ∧
      n.toNat + 256 * next.carry.toNat = a.toNat + b.toNat + flags.carry.toNat := by
  cases left with
  | text s => exact .inl ⟨rfl, _, rfl⟩
  | number a =>
    cases right with
    | text s => exact .inl ⟨rfl, _, rfl⟩
    | number b =>
      obtain ⟨n, next, hc, hsum⟩ := flags.calculate_add a b
      refine .inr ⟨a, b, n, next, rfl, rfl, ?_, hsum⟩
      have ho : flags.operate .add (.number a) (.number b) =
          (flags.calculate .add a.toNat b.toNat).bind fun p => .ok (.number p.1, p.2) := rfl
      rw [ho, hc]
      rfl

/-- Comparisons and joins stand aside of the addition of the pairs. -/
theorem Act.ripple_perform (acts : List Act) (flags : Flags) :
    ∃ values after, perform acts flags = .ok (values, after) ∧
      Ripple flags.carry (acts.filterMap pair?) (values.filterMap Value.byte?) after.carry := by
  induction acts generalizing flags with
  | nil => exact ⟨[], flags, rfl, .nil⟩
  | cons act acts ih =>
    cases act with
    | compare left right =>
      obtain ⟨values, after, hp, hr⟩ := ih (flags.compare left right)
      rw [flags.carry_compare] at hr
      exact ⟨values, after, hp, hr⟩
    | add left right =>
      obtain ⟨hn, s, ho⟩ | ⟨a, b, n, next, rfl, rfl, ho, hsum⟩ :=
        Act.join_or_pair flags left right
      · obtain ⟨values, after, hp, hr⟩ := ih flags
        refine ⟨_, after, perform_add ho hp, ?_⟩
        rwa [List.filterMap_cons_none hn, List.filterMap_cons_none rfl]
      · obtain ⟨values, after, hp, hr⟩ := ih next
        exact ⟨_, after, perform_add ho hp, .cons hsum hr⟩

end Act

end Octet
