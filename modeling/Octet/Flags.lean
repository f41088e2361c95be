import Octet.Value

namespace Octet

/-- The arithmetic of the language and of the machine. -/
inductive Arith
  | add
  | sub
  | mul
  | div
  | mod
deriving DecidableEq

/-- The result before it is cut to a byte. A quotient goes to the floor, and a remainder has the
sign of the dividend. -/
def Arith.exact (op : Arith) (left right : Int) : Except Fault Int :=
  match op with
  | add => .ok (left + right)
  | sub => .ok (left - right)
  | mul => .ok (left * right)
  | div => if right = 0 then .error .divisionByZero else .ok (left.fdiv right)
  | mod => if right = 0 then .error .moduloByZero else .ok (left.tmod right)

structure Flags where
  carry : Bool
  equal : Bool
  greater : Bool
deriving DecidableEq

namespace Flags

def clear : Flags := ⟨false, false, false⟩

/-- Every operation takes the carry in and leaves its own: whether the sum is no byte. -/
def calculate (flags : Flags) (op : Arith) (left right : Int) : Except Fault (UInt8 × Flags) := do
  let result ← op.exact left right
  let sum := result + if flags.carry then 1 else 0
  return (wrap sum, { flags with carry := sum < 0 || 256 ≤ sum })

/-- Addition joins its operands if one is a text, without a look at the carry. -/
def operate (flags : Flags) (op : Arith) (left right : Value) : Except Fault (Value × Flags) :=
  if op = .add ∧ (left.isText || right.isText) then
    .ok (.text (left.display ++ right.display), flags)
  else do
    let i ← left.toNumber
    let j ← right.toNumber
    let (n, flags) ← flags.calculate op i j
    return (.number n, flags)

def setOrder (flags : Flags) (equal greater : Bool) : Flags := { flags with equal, greater }

/-- Two numbers compare as numbers, all else by kind and content or by what is displayed. -/
def compare (flags : Flags) (left right : Value) : Flags :=
  match left.reading?, right.reading? with
  | some i, some j => flags.setOrder (i == j) (j < i)
  | _, _ => flags.setOrder (left == right) (right.display < left.display)

@[simp] theorem carry_compare (flags : Flags) (left right : Value) :
    (flags.compare left right).carry = flags.carry := by
  unfold compare
  split <;> rfl

end Flags

end Octet
