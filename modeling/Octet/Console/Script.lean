import Octet.Run
import Octet.Value

namespace Octet

/-- What a run is given to read, line by line: `none` where reading fails. Past its end all lines
are empty. -/
abbrev Script := List (Option String)

namespace Script

def next : Script → Option String × Script
  | [] => (some "", [])
  | line :: script => (line, script)

/-- Reads a line into a value. -/
def read (script : Script) : Run Fault (Value × Script) := do
  Run.send (.read script.next.1)
  match script.next.1 with
  | some line => return (.ofInput line, script.next.2)
  | none => Run.fail .input

end Script

end Octet
