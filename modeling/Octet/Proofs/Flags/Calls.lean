import Octet.Proofs.Tree.Normal
import Octet.Walker

namespace Octet

open Octet.Parser (bind_ok)

/-- A call of the arithmetic unit: two numbers, and the flags at that time. -/
structure Call where
  flags : Flags
  op : Arith
  left : Int
  right : Int
deriving DecidableEq

def Call.result (call : Call) : Except Fault (UInt8 × Flags) :=
  call.flags.calculate call.op call.left call.right

/-- Joining a text needs no call, and an operand that is no number prevents it. -/
def Flags.calls (flags : Flags) (op : Arith) (left right : Value) : List Call :=
  if op = .add ∧ (left.isText || right.isText) then []
  else
    match left.reading?, right.reading? with
    | some i, some j => [⟨flags, op, i, j⟩]
    | _, _ => []

def BinaryOp.calls (op : BinaryOp) (flags : Flags) (left right : Value) : List Call :=
  match op with
  | arith op => flags.calls op left right
  | compare _ => []

/-- The calls while an expression is evaluated, as far as the evaluation comes. -/
def Expr.calls (memory : Memory) : Expr → Flags → List Call
  | binary left op right, flags =>
    left.calls memory flags ++
      match left.eval memory flags with
      | .error _ => []
      | .ok (l, flags) =>
        right.calls memory flags ++
          match right.eval memory flags with
          | .error _ => []
          | .ok (r, flags) => op.calls flags l r
  | _, _ => []

/-- Calls that succeed one after another, where each takes the carry that the last one left. -/
inductive Chained : Bool → List Call → Bool → Prop
  | nil {carry : Bool} : Chained carry [] carry
  | cons {call : Call} {n : UInt8} {after : Flags} {calls : List Call} {last : Bool}
      (called : call.result = .ok (n, after)) (rest : Chained after.carry calls last) :
      Chained call.flags.carry (call :: calls) last

section Calls

variable {flags after : Flags} {op : Arith} {left right v : Value} {call : Call}
  {calls more : List Call} {first middle last : Bool}

theorem isInt64_of_mem_calls (h : call ∈ flags.calls op left right) :
    Text.isInt64 call.left = true ∧ Text.isInt64 call.right = true := by
  unfold Flags.calls at h
  split at h
  · cases h
  · split at h
    · next hl hr =>
      cases List.mem_singleton.1 h
      exact ⟨Value.isInt64_of_reading? hl, Value.isInt64_of_reading? hr⟩
    · cases h

theorem Chained.of_eq (h : first = last) : Chained first [] last := h ▸ .nil

theorem Chained.append (h : Chained first calls middle) (hm : Chained middle more last) :
    Chained first (calls ++ more) last := by
  induction h with
  | nil => exact hm
  | cons called _ ih => exact .cons called (ih hm)

theorem chained_operate (h : flags.operate op left right = .ok (v, after)) :
    Chained flags.carry (flags.calls op left right) after.carry := by
  rw [Flags.calls]
  rw [Flags.operate] at h
  split at h
  · next hj =>
    rw [if_pos hj]
    cases h
    exact .nil
  · next hj =>
    obtain ⟨i, hi, h⟩ := bind_ok h
    obtain ⟨j, hj', h⟩ := bind_ok h
    obtain ⟨⟨n, next⟩, hc, h⟩ := bind_ok h
    have hcall : (Call.mk flags op i j).result = .ok (n, next) := hc
    rw [if_neg hj, Value.toNumber_eq_ok_iff.1 hi, Value.toNumber_eq_ok_iff.1 hj']
    cases h
    exact .cons hcall .nil

end Calls

section Expr

variable {memory : Memory} {e : Expr} {op : BinaryOp} {flags after : Flags}
  {left right v : Value} {call : Call}

theorem BinaryOp.isInt64_of_mem_calls (h : call ∈ op.calls flags left right) :
    Text.isInt64 call.left = true ∧ Text.isInt64 call.right = true := by
  cases op with
  | arith op => exact Octet.isInt64_of_mem_calls h
  | compare op => cases h

theorem BinaryOp.chained_apply (h : op.apply flags left right = .ok (v, after)) :
    Chained flags.carry (op.calls flags left right) after.carry := by
  cases op with
  | arith op => exact chained_operate h
  | compare op =>
    obtain ⟨holds, -, h⟩ := bind_ok h
    cases h
    exact .nil

/-- The numbers that an expression calls the arithmetic unit with have 64 bits. -/
theorem Expr.isInt64_of_mem_calls (h : call ∈ e.calls memory flags) :
    Text.isInt64 call.left = true ∧ Text.isInt64 call.right = true := by
  induction e generalizing flags with
  | number | text | slot => cases h
  | binary left op right ihl ihr =>
    rw [calls] at h
    obtain h | h := List.mem_append.1 h
    · exact ihl h
    · split at h
      · cases h
      · obtain h | h := List.mem_append.1 h
        · exact ihr h
        · split at h
          · cases h
          · exact op.isInt64_of_mem_calls h

theorem Expr.chained_eval (h : e.eval memory flags = .ok (v, after)) :
    Chained flags.carry (e.calls memory flags) after.carry := by
  induction e generalizing flags v after with
  | number | text | slot =>
    cases h
    exact .nil
  | binary left op right ihl ihr =>
    obtain ⟨⟨l, between⟩, hl, h⟩ := bind_ok h
    obtain ⟨⟨r, behind⟩, hr, h⟩ := bind_ok h
    simp only [calls, hl, hr]
    exact (ihl hl).append ((ihr hr).append (op.chained_apply h))

end Expr

end Octet
