import Octet.Assembly.Instruction
import Octet.Event
import Octet.Text.Padded

namespace Octet

/-- How much of the log is asked for. -/
inductive Level
  | debug
  | trace
deriving DecidableEq

/-- What the phases of a run leave in the log. -/
inductive Note
  | lexed (tokens : Nat)
  | parsed (statements : Nat)
  | emitted (labels data : Nat)
  | listed (instructions labels data : Nat)
  | assembled (instructions : Nat)
  | odometer (total : Nat)
  | ring (event : Event)
  | halted
  | ended
  | loopOverheated (line : Nat)
  | fetched (pc : Nat) (instruction : Instruction)
  | machineHalted (steps : Nat)
  | machineOverheated (pc : Nat)
  | machineEnded (steps : Nat)
deriving DecidableEq

namespace Note

def level : Note → Level
  | fetched _ _ => .trace
  | _ => .debug

def message : Note → String
  | lexed tokens => "Lexed " ++ tokens.repr ++ " tokens"
  | parsed statements => "Parsed " ++ statements.repr ++ " top-level statements"
  | emitted labels data =>
    "Emitted " ++ labels.repr ++ " labels and " ++ data.repr ++ " data entries"
  | listed instructions labels data =>
    "Parsed GRUND listing: " ++ instructions.repr ++ " instructions, " ++ labels.repr ++
      " labels, " ++ data.repr ++ " data entries"
  | assembled instructions => "Assembled " ++ instructions.repr ++ " instructions"
  | odometer total => "Odometer reached " ++ total.repr ++ " iterations"
  | ring event => "Ring event: " ++ event.display
  | halted => "Program halted"
  | ended => "Program ended without halting"
  | loopOverheated line => "Loop at line " ++ line.repr ++ " overheated"
  | fetched pc instruction => Text.padLeft 4 '0' pc.repr ++ ": " ++ instruction.display
  | machineHalted steps => "Machine halted after " ++ steps.repr ++ " steps"
  | machineOverheated pc => "Machine overheated at pc=" ++ pc.repr
  | machineEnded steps => "Machine ran off the end after " ++ steps.repr ++ " steps"

/-- Whether a note is in the log, which holds all levels down to the one that is asked for. -/
def isShown (note : Note) : Option Level → Bool
  | none => false
  | some .debug => note.level == .debug
  | some .trace => true

end Note

/-- What the log of a run shows. -/
inductive Entry
  | output (text : String)
  | input (line : Option String)
  | event (e : Event)
  | note (n : Note)
deriving DecidableEq

end Octet
