import Octet.Console.Script
import Octet.Limit
import Octet.Tree.Block

namespace Octet

/-- Equality asks for one kind and content, and order for two numbers. -/
def Comparison.holds (op : Comparison) (left right : Value) : Except Fault Bool :=
  match op with
  | equal => .ok (left == right)
  | notEqual => .ok (left != right)
  | less => return (← left.toNumber) < (← right.toNumber)
  | lessOrEqual => return (← left.toNumber) ≤ (← right.toNumber)
  | greater => return (← left.toNumber) > (← right.toNumber)
  | greaterOrEqual => return (← left.toNumber) ≥ (← right.toNumber)

def BinaryOp.apply (op : BinaryOp) (flags : Flags) (left right : Value) :
    Except Fault (Value × Flags) :=
  match op with
  | arith op => flags.operate op left right
  | compare op => return (.ofBool (← op.holds left right), flags)

/-- The left operand comes before the right one. Only the flags can change. -/
def Expr.eval (memory : Memory) : Expr → Flags → Except Fault (Value × Flags)
  | number n, flags => .ok (.ofInt n.toNat, flags)
  | text s, flags => .ok (.text s, flags)
  | slot i, flags => .ok (memory.read i, flags)
  | binary left op right, flags => do
    let (l, flags) ← left.eval memory flags
    let (r, flags) ← right.eval memory flags
    op.apply flags l r

namespace Walker

structure State where
  memory : Memory
  flags : Flags
  script : Script

/-- Whether a block has come to its end or to a halt. -/
inductive Flow
  | next
  | halt
deriving DecidableEq

def State.eval (state : State) (line : Nat) (e : Expr) : Run (Located Fault) (Value × State) := do
  let (v, flags) ← (Run.ofExcept (e.eval state.memory state.flags)).atLine line
  return (v, { state with flags })

def State.set (state : State) (slot : Slot) (v : Value) : State :=
  { state with memory := state.memory.put slot v }

/-- Runs a body as long as the condition holds and bodies are left to run. -/
def iterate (line : Nat) (condition : Expr) (body : State → Run (Located Fault) (Flow × State)) :
    Nat → State → Run (Located Fault) (Flow × State)
  | 0, state => do
    let (v, state) ← state.eval line condition
    if v.isTruthy then
      Run.send (.note (.loopOverheated line))
      Run.fail ⟨line, .overheat loopLimit⟩
    else return (.next, state)
  | left + 1, state => do
    let (v, state) ← state.eval line condition
    if v.isTruthy then
      Run.send .tick
      let (flow, state) ← body state
      match flow with
      | .next => iterate line condition body left state
      | .halt => return (.halt, state)
    else return (.next, state)

def exec : Block → State → Run (Located Fault) (Flow × State)
  | .done, state => return (.next, state)
  | .halt _ _, state => return (.halt, state)
  | .assign line slot value rest, state => do
    let (v, state) ← state.eval line value
    exec rest (state.set slot v)
  | .output line value rest, state => do
    let (v, state) ← state.eval line value
    Run.send (.display v.display)
    exec rest state
  | .input line slot rest, state => do
    let (v, script) ← state.script.read.atLine line
    exec rest ({ state with script }.set slot v)
  | .branch line condition body otherwise rest, state => do
    let (v, state) ← state.eval line condition
    let (flow, state) ← if v.isTruthy then exec body state else exec otherwise state
    match flow with
    | .next => exec rest state
    | .halt => return (.halt, state)
  | .loop line condition body rest, state => do
    let (flow, state) ← iterate line condition (exec body) loopLimit state
    match flow with
    | .next => exec rest state
    | .halt => return (.halt, state)

/-- Runs a program to the memory that it leaves. -/
def run (program : Block) (memory : Memory) (script : Script) : Run (Located Fault) Memory := do
  let (flow, state) ← exec program ⟨memory, .clear, script⟩
  match flow with
  | .halt => Run.send (.note .halted)
  | .next =>
    Run.send (.note .ended)
    Run.send (.print endNotice)
  return state.memory

end Walker

end Octet
