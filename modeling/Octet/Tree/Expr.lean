import Octet.Flags
import Octet.Memory

namespace Octet

inductive Comparison
  | equal
  | notEqual
  | less
  | lessOrEqual
  | greater
  | greaterOrEqual
deriving DecidableEq

inductive BinaryOp
  | arith (op : Arith)
  | compare (op : Comparison)
deriving DecidableEq

namespace BinaryOp

def symbol : BinaryOp → String
  | arith .add => "+"
  | arith .sub => "-"
  | arith .mul => "*"
  | arith .div => "/"
  | arith .mod => "MOD"
  | compare .equal => "="
  | compare .notEqual => "!="
  | compare .less => "<"
  | compare .lessOrEqual => "<="
  | compare .greater => ">"
  | compare .greaterOrEqual => ">="

/-- How tightly an operator binds: comparisons least, then sums, then products. -/
def level : BinaryOp → Nat
  | compare _ => 0
  | arith .add | arith .sub => 1
  | arith .mul | arith .div | arith .mod => 2

end BinaryOp

inductive Expr
  | number (n : UInt32)
  | text (s : String)
  | slot (i : Slot)
  | binary (left : Expr) (op : BinaryOp) (right : Expr)
deriving DecidableEq

namespace Expr

def isBinary : Expr → Bool
  | binary _ _ _ => true
  | _ => false

/-- An expression as it is written, without parentheses. -/
def display : Expr → String
  | number n => n.toNat.repr
  | text s => Text.quote s
  | slot i => "DING " ++ i.val.repr
  | binary left op right => left.display ++ " " ++ op.symbol ++ " " ++ right.display

/-- The expression read so far goes on with an operator and an operand. The operator takes what
binds tighter to its left, and all of one level from the left. -/
def extend : Expr → BinaryOp → Expr → Expr
  | binary left root right, op, operand =>
    if root.level < op.level then binary left root (right.extend op operand)
    else binary (binary left root right) op operand
  | e, op, operand => binary e op operand

end Expr

end Octet
