import Octet.CommandLine.Session

namespace Octet.CommandLine

def Cause.ofError : IO.Error → Cause
  | .noFileOrDirectory .. => .missing
  | .inappropriateType _ code _ =>
    if code = 20 then .notFolder else .folder
  | .invalidArgument _ code text => if code = 36 then .tooLong else .other text
  | e => .other e.toString

def readText (path : String) : IO (Except Cause String) := do
  try
    let file ← IO.FS.Handle.mk path .read
    match String.fromUTF8? (← file.readBinToEnd) with
    | some text => return .ok text
    | none => return .error .notText
  catch e => return .error (.ofError e)

/-- The disk as a command sees it that reads these files only. Whether it can write one shows when
it does. -/
def loadDisk (paths : List String) : IO Disk := do
  let files ← paths.mapM fun path => return (path, ← readText path)
  return ⟨fun path => (files.lookup path).getD (.error .missing), fun _ => .ok ()⟩

/-- The next line of standard input, if it is not at its end: `none` where reading fails. -/
def nextLine (stdin : IO.FS.Stream) : IO (Option (Option String)) := do
  try
    let line ← stdin.getLine
    return if line.isEmpty then none else some (some (inputLine line.toList))
  catch _ => return some none

/-- Shows what is new on standard output. -/
def showFrom (shown : Nat) (outcome : Outcome) : IO Unit := do
  let stdout ← IO.getStdout
  stdout.putStr (String.ofList (outcome.stdout.toList.drop shown))
  stdout.flush

/-- Runs a command line as far as the lines so far carry it, and again with one line more where it
waits for one. -/
partial def converse (arguments : List String) (disk : Disk) (script : Script) (shown : Nat) :
    IO Outcome := do
  let outcome := commandLine arguments disk (script ++ [none])
  showFrom shown outcome
  let shown := outcome.stdout.length
  if outcome.reads ≤ script.length then return outcome
  match ← nextLine (← IO.getStdin) with
  | some (some line) => converse arguments disk (script ++ [some line]) shown
  | some none => return outcome
  | none =>
    let outcome := commandLine arguments disk script
    showFrom shown outcome
    return outcome

/-- Writes the file of a command. Where that fails, the command fails with it. -/
def save (arguments : List String) (disk : Disk) (outcome : Outcome) : IO Outcome := do
  match outcome.saved with
  | none => return outcome
  | some (path, text) =>
    try
      IO.FS.writeFile path text
      return outcome
    catch e =>
      let cause := Cause.ofError e
      return commandLine arguments { disk with create := fun _ => .error cause } []

end Octet.CommandLine

open Octet.CommandLine in
def main (arguments : List String) : IO UInt32 := do
  let files := match Command.read arguments with
    | .ok command => command.files
    | .error _ => []
  let disk ← loadDisk files
  let outcome ← save arguments disk (← converse arguments disk [] 0)
  IO.eprint outcome.stderr
  return UInt32.ofNat outcome.code
