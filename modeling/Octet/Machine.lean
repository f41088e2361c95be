import Octet.Assembly.Program
import Octet.Console.Script
import Octet.Flags
import Octet.Limit
import Octet.Ring

namespace Octet

namespace Machine

structure State where
  registers : Memory
  ring : Ring
  flags : Flags
  script : Script

def State.set (state : State) (r : Slot) (v : Value) : State :=
  { state with registers := state.registers.put r v }

/-- Where the machine goes after an instruction. -/
inductive Control
  | next
  | jump (target : Nat)
  | halt
deriving DecidableEq

def registerAt (operands : List Operand) (position : Nat) : Except Fault Slot :=
  match operands[position]? with
  | some (.register r) => .ok r
  | _ => .error (.expectedRegister position)

/-- The value of an operand. A number that is written out is cut to a byte. -/
def valueAt (program : Program) (registers : Memory) (operands : List Operand) (position : Nat) :
    Except Fault Value :=
  match operands[position]? with
  | none => .error (.missingOperand position)
  | some (.register r) => .ok (registers.read r)
  | some (.immediate i) => .ok (.ofInt i)
  | some (.label name) => .error (.labelAsValue name)
  | some (.data key) =>
    match program.data.get? key with
    | some text => .ok (.text text)
    | none => .error (.undefinedData key)

/-- The target of a jump is looked up only when the jump is taken. -/
def destination (program : Program) (operands : List Operand) (taken : Bool) :
    Except Fault Control :=
  if taken then
    match operands.head? with
    | some (.label name) =>
      match program.labels.get? name with
      | some target => .ok (.jump target)
      | none => .error (.undefinedLabel name)
    | _ => .error .expectedLabel
  else .ok .next

def calculate (operands : List Operand) (op : Arith) (state : State) : Except Fault State := do
  let target ← registerAt operands 0
  let left ← registerAt operands 1
  let right ← registerAt operands 2
  let (v, flags) ← state.flags.operate op (state.registers.read left) (state.registers.read right)
  return { state with flags }.set target v

/-- The signals of the events that a push raises. -/
def announce (events : List Event) : List Signal :=
  events.flatMap fun e => [.note (.ring e), .event e]

def step (program : Program) (instruction : Instruction) (state : State) :
    Run Fault (Control × State) :=
  let operands := instruction.operands
  match instruction.opcode with
  | .nov => return (.halt, state)
  | .tar | .tir => do
    let target ← registerAt operands 0
    let v ← valueAt program state.registers operands 1
    return (.next, state.set target v)
  | .tin => do
    let source ← registerAt operands 0
    let (ring, events) := state.ring.push (state.registers.read source)
    Run.sendAll (announce events)
    return (.next, { state with ring })
  | .tab => do
    let target ← registerAt operands 0
    let (v, ring) ← state.ring.pop
    return (.next, { state with ring }.set target v)
  | .mav => do
    let source ← registerAt operands 0
    Run.send (.display (state.registers.read source).display)
    return (.next, state)
  | .vir => do
    let target ← registerAt operands 0
    let (v, script) ← state.script.read
    return (.next, { state with script }.set target v)
  | .mak => do
    Run.send (.print (if state.flags.carry then "1" else "0"))
    return (.next, state)
  | .pav => do
    let left ← valueAt program state.registers operands 0
    let right ← valueAt program state.registers operands 1
    return (.next, { state with flags := state.flags.compare left right })
  | .kur => return (.next, ← calculate operands .add state)
  | .sur => return (.next, ← calculate operands .sub state)
  | .mur => return (.next, ← calculate operands .mul state)
  | .dur => return (.next, ← calculate operands .div state)
  | .rur => return (.next, ← calculate operands .mod state)
  | .rav => return (← destination program operands true, state)
  | .rev => return (← destination program operands state.flags.equal, state)
  | .rgv => return (← destination program operands state.flags.greater, state)

/-- Runs on from an instruction while steps are left. -/
def runFrom (program : Program) : Nat → Nat → State → Run (Located Fault) Memory
  | left, pc, state =>
    match program.instructions[pc]? with
    | none => do
      Run.send (.note (.machineEnded (stepLimit - left)))
      Run.send (.print endNotice)
      return state.registers
    | some instruction => do
      Run.send .tick
      match left with
      | 0 =>
        Run.send (.note (.machineOverheated pc))
        Run.fail (.unplaced (.overheat stepLimit))
      | left + 1 =>
        Run.send (.note (.fetched pc instruction.val))
        let (control, state) ← (step program instruction.val state).atLine instruction.line
        match control with
        | .next => runFrom program left (pc + 1) state
        | .jump target => runFrom program left target state
        | .halt =>
          Run.send (.note (.machineHalted (stepLimit - left)))
          return state.registers

/-- Runs a program from its first instruction to the registers that it leaves. -/
def run (program : Program) (registers : Memory) (script : Script) : Run (Located Fault) Memory :=
  runFrom program stepLimit 0 ⟨registers, .empty, .clear, script⟩

end Machine

end Octet
