import Octet.Located
import Octet.Token
import Octet.Tree.Block

namespace Octet

inductive ParseError
  | missingErwache
  | unexpectedToken (expected found : Token)
  | expectedStatement (found : Token)
  | expectedSlot (after : Keyword)
  | slotOutOfRange (n : UInt32)
  | expectedExpr (found : Token)
  | unclosed (block : Keyword)
  | unexpectedEnd
deriving DecidableEq

def ParseError.message : ParseError → String
  | missingErwache => "Program must begin with ERWACHE"
  | unexpectedToken expected found =>
    "Expected " ++ expected.display ++ ", found " ++ found.display ++ " instead"
  | expectedStatement found => "Unexpected token: " ++ found.display
  | expectedSlot after => "Expected slot number after " ++ after.name
  | slotOutOfRange n => "DING slot must be 0-7, got " ++ n.toNat.repr
  | expectedExpr found => "Expected expression, got: " ++ found.display
  | unclosed block => "Expected ENDE to close " ++ block.name ++ " block"
  | unexpectedEnd => "Abrupt end of program"

namespace Parser

/-- How far the parser has come: the tokens that are left, and the line of the one that has been
taken last. -/
structure Cursor where
  tokens : List (Located Token)
  lastLine : Nat

def Cursor.size (s : Cursor) : Nat := s.tokens.length

/-- What has been read, and the cursor behind it. -/
structure Reading (α : Type) (bound : Nat) where
  value : α
  rest : Cursor
  size_lt : rest.size < bound

abbrev Parse (α : Type) (bound : Nat) := Except (Located ParseError) (Reading α bound)

def Reading.weaken {α : Type} {m n : Nat} (h : m ≤ n) (r : Reading α m) : Reading α n :=
  ⟨r.value, r.rest, Nat.lt_of_lt_of_le r.size_lt h⟩

def comparison? : Token → Option BinaryOp
  | .equal => some (.compare .equal)
  | .notEqual => some (.compare .notEqual)
  | .greater => some (.compare .greater)
  | .less => some (.compare .less)
  | .greaterOrEqual => some (.compare .greaterOrEqual)
  | .lessOrEqual => some (.compare .lessOrEqual)
  | _ => none

def additive? : Token → Option BinaryOp
  | .plus => some (.arith .add)
  | .minus => some (.arith .sub)
  | _ => none

def multiplicative? : Token → Option BinaryOp
  | .times => some (.arith .mul)
  | .slash => some (.arith .div)
  | .keyword .mod => some (.arith .mod)
  | _ => none

namespace Cursor

def peek (s : Cursor) : Option Token := s.tokens.head?.map Located.val

/-- Fails on the line of the next token, or of the last one if none is left. -/
def fail {α : Type} (s : Cursor) (e : ParseError) : Except (Located ParseError) α :=
  .error ⟨(s.tokens.head?.map Located.line).getD s.lastLine, e⟩

/-- Takes a token. The end of the text is never taken. -/
def next (s : Cursor) : Parse (Located Token) s.size :=
  match s with
  | ⟨[], _⟩ => s.fail .unexpectedEnd
  | ⟨token :: rest, _⟩ =>
    if token.val = .eof then .error (token.map .expectedStatement)
    else return ⟨token, ⟨rest, token.line⟩, Nat.lt_succ_self _⟩

/-- Line ends only part statements from each other. -/
def skipNewlines (s : Cursor) : Cursor :=
  { s with tokens := s.tokens.dropWhile (·.val = .newline) }

theorem size_skipNewlines_le (s : Cursor) : s.skipNewlines.size ≤ s.size :=
  (List.dropWhile_sublist _).length_le

def expect (token : Token) (s : Cursor) : Parse Unit s.size :=
  match s.peek with
  | some found =>
    if found = token then do
      let ⟨_, rest, h⟩ ← s.next
      return ⟨(), rest, h⟩
    else s.fail (.unexpectedToken token found)
  | none => s.fail .unexpectedEnd

def keyword (k : Keyword) (s : Cursor) : Parse Unit s.size := s.expect (.keyword k)

def slot (after : Keyword) (s : Cursor) : Parse Slot s.size :=
  match s.peek with
  | some (.number n) => do
    let ⟨token, rest, h⟩ ← s.next
    match Slot.ofNat? n.toNat with
    | some slot => return ⟨slot, rest, h⟩
    | none => .error ⟨token.line, .slotOutOfRange n⟩
  | _ => s.fail (.expectedSlot after)

def primary (s : Cursor) : Parse Expr s.size :=
  match s.peek with
  | some (.number n) => do
    let ⟨_, rest, h⟩ ← s.next
    return ⟨.number n, rest, h⟩
  | some (.text _) => do
    let ⟨token, rest, h⟩ ← s.next
    match token.val with
    | .text text => return ⟨.text text, rest, h⟩
    | _ => rest.fail .unexpectedEnd
  | some (.keyword .ding) => do
    let ⟨_, s₁, h₁⟩ ← s.next
    let ⟨slot, rest, h⟩ ← s₁.slot .ding
    return ⟨.slot slot, rest, Nat.lt_trans h h₁⟩
  | some token => s.fail (.expectedExpr token)
  | none => s.fail .unexpectedEnd

/-- Goes on behind an expression, as long as an operator and an operand follow. -/
def binaryFrom (operand : (s : Cursor) → Parse Expr s.size) (operator : Token → Option BinaryOp)
    (left : Expr) (s : Cursor) : Parse Expr (s.size + 1) :=
  match s.peek.bind operator with
  | some op => do
    let ⟨_, s₁, h₁⟩ ← s.next
    let ⟨right, s₂, h₂⟩ ← operand s₁
    (binaryFrom operand operator (.binary left op right) s₂).map (.weaken (by omega))
  | none => return ⟨left, s, Nat.lt_succ_self _⟩
termination_by s.size

/-- Operands and operators of one level, which bind to the left. -/
def binary (operand : (s : Cursor) → Parse Expr s.size) (operator : Token → Option BinaryOp)
    (s : Cursor) : Parse Expr s.size := do
  let ⟨left, s₁, h₁⟩ ← operand s
  (binaryFrom operand operator left s₁).map (.weaken h₁)

def multiplicative (s : Cursor) : Parse Expr s.size := s.binary primary multiplicative?

def additive (s : Cursor) : Parse Expr s.size := s.binary multiplicative additive?

def comparison (s : Cursor) : Parse Expr s.size := s.binary additive comparison?

def expr (s : Cursor) : Parse Expr s.size := s.comparison

def close (block : Keyword) (s : Cursor) : Parse Unit (s.size + 1) :=
  let s₁ := s.skipNewlines
  if s₁.peek = some (.keyword .ende) then do
    let ⟨_, rest, h⟩ ← s₁.next
    return ⟨(), rest, Nat.lt_succ_of_lt (Nat.lt_of_lt_of_le h s.size_skipNewlines_le)⟩
  else s₁.fail (.unclosed block)

mutual

def statement (s : Cursor) : Parse (Located Statement) s.size := do
  let ⟨token, s₁, h₁⟩ ← s.next
  match token.val with
  | .keyword .verneinung => return ⟨⟨token.line, .halt⟩, s₁, h₁⟩
  | .keyword .ding =>
    let ⟨slot, s₂, h₂⟩ ← s₁.slot .ding
    let ⟨_, s₃, h₃⟩ ← s₂.expect .equal
    let ⟨value, rest, h⟩ ← s₃.expr
    return ⟨⟨token.line, .assign slot value⟩, rest, by omega⟩
  | .keyword .vorstellung =>
    let ⟨value, rest, h⟩ ← s₁.expr
    return ⟨⟨token.line, .output value⟩, rest, by omega⟩
  | .keyword .wille =>
    let ⟨slot, rest, h⟩ ← s₁.slot .wille
    return ⟨⟨token.line, .input slot⟩, rest, by omega⟩
  | .keyword .wenn =>
    let ⟨condition, s₂, h₂⟩ ← s₁.expr
    let ⟨_, s₃, h₃⟩ ← s₂.keyword .dann
    let ⟨body, s₄, h₄⟩ ← s₃.block .done
    let ⟨otherwise, s₅, h₅⟩ ← s₄.otherwise
    let ⟨_, rest, h⟩ ← s₅.close .wenn
    return ⟨⟨token.line, .branch condition body otherwise⟩, rest, by omega⟩
  | .keyword .solange =>
    let ⟨condition, s₂, h₂⟩ ← s₁.expr
    let ⟨body, s₃, h₃⟩ ← s₂.block .done
    let ⟨_, rest, h⟩ ← s₃.close .solange
    return ⟨⟨token.line, .loop condition body⟩, rest, by omega⟩
  | found => .error ⟨token.line, .expectedStatement found⟩
termination_by 2 * s.size

/-- The statements up to `ENDE` or `SONST`, or up to a halt. Those before the cursor are held in
reverse. -/
def block (read : Block) (s : Cursor) : Parse Block (s.size + 1) :=
  let s₁ := s.skipNewlines
  match s₁.peek with
  | none | some .eof | some (.keyword .ende) | some (.keyword .sonst) =>
    return ⟨read.reverse, s₁, Nat.lt_succ_of_le s.size_skipNewlines_le⟩
  | _ => do
    let ⟨statement, rest, h⟩ ← s₁.statement
    have h : rest.size < s.size := Nat.lt_of_lt_of_le h s.size_skipNewlines_le
    let read := Block.cons statement read
    if statement.val = .halt then return ⟨read.reverse, rest, Nat.lt_succ_of_lt h⟩
    else (rest.block read).map (.weaken (Nat.succ_le_succ (Nat.le_of_lt h)))
termination_by 2 * s.size + 1
decreasing_by
  · have := s.size_skipNewlines_le
    omega
  · omega

/-- The second block of a branch, which may be missing. -/
def otherwise (s : Cursor) : Parse Block (s.size + 1) :=
  let s₁ := s.skipNewlines
  if s₁.peek = some (.keyword .sonst) then do
    let ⟨_, s₂, h₂⟩ ← s₁.next
    have h₂ : s₂.size < s.size := Nat.lt_of_lt_of_le h₂ s.size_skipNewlines_le
    (s₂.block .done).map (.weaken (Nat.succ_le_succ (Nat.le_of_lt h₂)))
  else return ⟨.done, s₁, Nat.lt_succ_of_le s.size_skipNewlines_le⟩
termination_by 2 * s.size

end

/-- The statements outside all others, up to the end of the text. What comes behind a halt among
them is never run, and not read. -/
def statements (read : Block) (s : Cursor) : Except (Located ParseError) Block :=
  let s₁ := s.skipNewlines
  match s₁.peek with
  | none | some .eof => return read.reverse
  | some (.keyword .verneinung) => do
    let ⟨statement, _, _⟩ ← s₁.statement
    return (Block.cons statement read).reverse
  | _ => do
    let ⟨statement, rest, h⟩ ← s₁.statement
    have _ : rest.size < s.size := Nat.lt_of_lt_of_le h s.size_skipNewlines_le
    rest.statements (.cons statement read)
termination_by s.size

def program (s : Cursor) : Except (Located ParseError) Block :=
  let s₁ := s.skipNewlines
  if s₁.peek = some (.keyword .erwache) then do
    let ⟨_, rest, _⟩ ← s₁.next
    rest.statements .done
  else s₁.fail .missingErwache

end Cursor

/-- The program that the tokens write. -/
def parse (tokens : List (Located Token)) : Except (Located ParseError) Block :=
  Cursor.program ⟨tokens, 0⟩

end Parser

end Octet
