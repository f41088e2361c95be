import Octet.Tree.Parser

namespace Octet

namespace Parser

/-- What an expression is read for. -/
inductive Purpose
  | assign (line : Nat) (slot : Slot)
  | output (line : Nat)
  | branch (line : Nat)
  | loop (line : Nat)
deriving DecidableEq

/-- What an operand is due for: an expression that begins with it, or one that goes on. -/
structure Due where
  purpose : Purpose
  before : Option (Expr × BinaryOp)
deriving DecidableEq

/-- The expression once its operand has been read. -/
def Due.complete (due : Due) (operand : Expr) : Expr :=
  match due.before with
  | none => operand
  | some (e, op) => e.extend op operand

/-- The statement that an inner block belongs to, as far as it has been read. -/
inductive Opener
  | body (line : Nat) (condition : Expr)
  | otherwise (line : Nat) (condition : Expr) (body : Block)
  | loop (line : Nat) (condition : Expr)
deriving DecidableEq

def Opener.keyword : Opener → Keyword
  | body _ _ | otherwise _ _ _ => .wenn
  | loop _ _ => .solange

/-- The statement that `ENDE` closes, in front of the statements before it. -/
def Opener.close (opener : Opener) (block before : Block) : Block :=
  match opener with
  | body line condition => .branch line condition block .done before
  | otherwise line condition first => .branch line condition first block before
  | loop line condition => .loop line condition block before

/-- A block that is open around the current one. Its statements are held in reverse. -/
structure Frame where
  opener : Opener
  before : Block
deriving DecidableEq

/-- What may come next. -/
inductive Mode
  | start
  | statement
  | closing
  | assignSlot (line : Nat)
  | inputSlot (line : Nat)
  | equals (line : Nat) (slot : Slot)
  | operand (due : Due)
  | operandSlot (due : Due)
  | operator (purpose : Purpose) (e : Expr)
  | finished
deriving DecidableEq

/-- Where the parser stands between two tokens. The statements of the current block are held in
reverse. -/
structure State where
  mode : Mode
  current : Block
  frames : List Frame
deriving DecidableEq

def operator? : Token → Option BinaryOp
  | .equal => some (.compare .equal)
  | .notEqual => some (.compare .notEqual)
  | .greater => some (.compare .greater)
  | .less => some (.compare .less)
  | .greaterOrEqual => some (.compare .greaterOrEqual)
  | .lessOrEqual => some (.compare .lessOrEqual)
  | .plus => some (.arith .add)
  | .minus => some (.arith .sub)
  | .times => some (.arith .mul)
  | .slash => some (.arith .div)
  | .keyword .mod => some (.arith .mod)
  | _ => none

def slot (after : Keyword) : Token → Except ParseError Slot
  | .number n =>
    match Slot.ofNat? n.toNat with
    | some slot => .ok slot
    | none => .error (.slotOutOfRange n)
  | _ => .error (.expectedSlot after)

namespace State

def initial : State := ⟨.start, .done, []⟩

def enter (state : State) (opener : Opener) : State :=
  ⟨.statement, .done, ⟨opener, state.current⟩ :: state.frames⟩

def operand (state : State) (purpose : Purpose) : State :=
  { state with mode := .operand ⟨purpose, none⟩ }

def statement (state : State) (current : Block) : State :=
  { state with mode := .statement, current }

/-- Where a block may end: at its end mark, or at `SONST` if it is the first of two. -/
def endBlock (state : State) (frame : Frame) (outer : List Frame) :
    Token → Except ParseError State
  | .keyword .ende =>
    .ok ⟨.statement, frame.opener.close state.current.reverse frame.before, outer⟩
  | .keyword .sonst =>
    match frame.opener with
    | .body line condition =>
      let opener := .otherwise line condition state.current.reverse
      .ok ⟨.statement, .done, ⟨opener, frame.before⟩ :: outer⟩
    | opener => .error (.unclosed opener.keyword)
  | _ => .error (.unclosed frame.opener.keyword)

/-- Where a statement may begin. A halt ends its block, and the outermost one for good. -/
def beginStatement (state : State) (line : Nat) : Token → Except ParseError State
  | .newline => .ok (state.statement state.current)
  | .keyword .verneinung =>
    let mode := if state.frames.isEmpty then .finished else .closing
    .ok { state with mode, current := .halt line state.current }
  | .keyword .ding => .ok { state with mode := .assignSlot line }
  | .keyword .vorstellung => .ok (state.operand (.output line))
  | .keyword .wille => .ok { state with mode := .inputSlot line }
  | .keyword .wenn => .ok (state.operand (.branch line))
  | .keyword .solange => .ok (state.operand (.loop line))
  | token =>
    match token, state.frames with
    | .eof, [] => .ok { state with mode := .finished }
    | .eof, frame :: outer | .keyword .ende, frame :: outer | .keyword .sonst, frame :: outer =>
      state.endBlock frame outer token
    | token, _ => .error (.expectedStatement token)

/-- The expression has ended before the token. -/
def endExpr (state : State) (line : Nat) (purpose : Purpose) (e : Expr) (token : Token) :
    Except ParseError State :=
  match purpose with
  | .assign begun slot =>
    (state.statement (.assign begun slot e state.current)).beginStatement line token
  | .output begun => (state.statement (.output begun e state.current)).beginStatement line token
  | .branch begun =>
    if token = .keyword .dann then .ok (state.enter (.body begun e))
    else .error (.unexpectedToken (.keyword .dann) token)
  | .loop begun => (state.enter (.loop begun e)).beginStatement line token

/-- Takes one token. -/
def step (state : State) (line : Nat) (token : Token) : Except ParseError State :=
  match state.mode with
  | .start =>
    match token with
    | .newline => .ok state
    | .keyword .erwache => .ok { state with mode := .statement }
    | _ => .error .missingErwache
  | .statement => state.beginStatement line token
  | .closing =>
    match token, state.frames with
    | .newline, _ => .ok state
    | token, frame :: outer => state.endBlock frame outer token
    | token, [] => .error (.expectedStatement token)
  | .assignSlot begun => do
    let slot ← slot .ding token
    return { state with mode := .equals begun slot }
  | .inputSlot begun => do
    let slot ← slot .wille token
    return state.statement (.input begun slot state.current)
  | .equals begun slot =>
    if token = .equal then .ok (state.operand (.assign begun slot))
    else .error (.unexpectedToken .equal token)
  | .operand due =>
    match token with
    | .number n => .ok { state with mode := .operator due.purpose (due.complete (.number n)) }
    | .text s => .ok { state with mode := .operator due.purpose (due.complete (.text s)) }
    | .keyword .ding => .ok { state with mode := .operandSlot due }
    | token => .error (.expectedExpr token)
  | .operandSlot due => do
    let slot ← slot .ding token
    return { state with mode := .operator due.purpose (due.complete (.slot slot)) }
  | .operator purpose e =>
    match operator? token with
    | some op => .ok { state with mode := .operand ⟨purpose, some (e, op)⟩ }
    | none => state.endExpr line purpose e token
  | .finished => .ok state

/-- What the tokens so far amount to if none follows. -/
def result (state : State) : Except ParseError Block :=
  let ended (current : Block) : Except ParseError Block :=
    match state.frames with
    | [] => .ok current.reverse
    | frame :: _ => .error (.unclosed frame.opener.keyword)
  match state.mode with
  | .start => .error .missingErwache
  | .statement | .closing => ended state.current
  | .assignSlot _ | .operandSlot _ => .error (.expectedSlot .ding)
  | .inputSlot _ => .error (.expectedSlot .wille)
  | .equals _ _ | .operand _ => .error .unexpectedEnd
  | .operator (.assign line slot) e => ended (.assign line slot e state.current)
  | .operator (.output line) e => ended (.output line e state.current)
  | .operator (.branch _) _ => .error .unexpectedEnd
  | .operator (.loop _) _ => .error (.unclosed .solange)
  | .finished => .ok state.current.reverse

def run (state : State) : List (Located Token) → Except (Located ParseError) State
  | [] => .ok state
  | token :: tokens =>
    match state.step token.line token.val with
    | .ok state => state.run tokens
    | .error e => .error ⟨token.line, e⟩

end State

/-- The line of the last token that is not just the end of a line, or the one before them all. -/
def lastLine (before : Nat) : List (Located Token) → Nat
  | [] => before
  | token :: tokens => lastLine (if token.val = .newline then before else token.line) tokens

/-- Takes all tokens that are left. An error stands at the first one that is not taken, or at the
last one if they all are. -/
def State.finish (state : State) (s : Cursor) : Except (Located ParseError) Block := do
  let last ← state.run s.tokens
  last.result.mapError (Located.mk (lastLine s.lastLine s.tokens))

end Parser

end Octet
