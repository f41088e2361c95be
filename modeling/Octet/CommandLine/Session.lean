import Octet.CommandLine.Arguments
import Octet.CommandLine.Disk
import Octet.Report

namespace Octet

namespace CommandLine

/-- What a command leaves: its exit code, the two streams, how many lines it has read, and the path
and the text of the file that it writes. -/
structure Outcome where
  code : Nat := 0
  stdout : String := ""
  stderr : String := ""
  reads : Nat := 0
  saved : Option (String × String) := none

namespace Outcome

def fail (outcome : Outcome) (text : String) : Outcome :=
  { outcome with code := 1, stderr := "Error: " ++ text ++ "\n" }

/-- The disk that a command leaves. -/
def disk (outcome : Outcome) (before : Disk) : Disk :=
  match outcome.saved with
  | some (path, text) => before.put path text
  | none => before

end Outcome

/-- What a log shows on standard output. -/
def shown (log : List Entry) : String :=
  String.join (log.filterMap fun
    | .output text => some (text ++ "\n")
    | _ => none)

def reads (log : List Entry) : Nat :=
  log.countP fun
    | .input _ => true
    | _ => false

/-- A line of input without any line feeds and carriage returns at its end. -/
def inputLine (line : List Char) : String :=
  String.ofList (line.reverse.dropWhile fun c => c == '\n' || c == '\r').reverse

def inputs (stdin : String) : Script :=
  (Text.pieces stdin.toList).map fun line => some (inputLine line)

def Cause.under (cause : Cause) (text : String) : String :=
  text ++ "\n\nCaused by:\n    " ++ cause.message

/-- A report as a message shows it, without the end of its last line. -/
def diagnosis (failure : Failure) (origin : Origin) : String :=
  String.ofList (Text.trimEnd (failure.report (some origin)).render.toList)

namespace Session

def source (disk : Disk) (file : String) : Except String Origin :=
  match disk.read file with
  | .ok text => .ok ⟨file, text⟩
  | .error cause => .error (cause.under ("Failed to read source: " ++ file))

/-- The memory that a program boots, if one is asked for. -/
def memory (disk : Disk) : Option String → Except String Memory
  | none => .ok .initial
  | some file =>
    match disk.read file with
    | .error cause => .error (cause.under ("Failed to read boot program: " ++ file))
    | .ok text =>
      (Toolchain.boot text).mapError fun failure =>
        "Failed to boot memory\n" ++ diagnosis failure ⟨file, text⟩

/-- The source is read before the memory is booted. -/
def prepare (disk : Disk) (file : String) (boot : Option String) :
    Except String (Origin × Memory) := do
  let origin ← source disk file
  let memory ← memory disk boot
  return (origin, memory)

def run (mode : Mode) (origin : Origin) (memory : Memory) (script : Script) : Outcome :=
  let run := mode.run origin.text memory script
  let outcome : Outcome := { stdout := shown run.log, reads := reads run.log }
  match run.result with
  | .ok _ => outcome
  | .error failure => outcome.fail (diagnosis failure origin)

/-- A file is opened only when there is a listing to be written to it. -/
def compile (disk : Disk) (origin : Origin) (target : Option String) : Outcome :=
  match (Toolchain.compile origin.text (some origin.name)).result with
  | .error failure => ({} : Outcome).fail (diagnosis failure origin)
  | .ok listing =>
    match target with
    | none => { stdout := listing }
    | some path =>
      match disk.create path with
      | .ok () => { saved := some (path, listing) }
      | .error cause => ({} : Outcome).fail (cause.under ("Failed to open for writing: " ++ path))

end Session

def Command.perform (disk : Disk) (script : Script) : Command → Outcome
  | version => { stdout := Listing.signature ++ "\n" }
  | run mode file boot =>
    match Session.prepare disk file boot with
    | .ok (origin, memory) => Session.run mode origin memory script
    | .error text => ({} : Outcome).fail text
  | compile file target boot =>
    match Session.prepare disk file boot with
    | .ok (origin, _) => Session.compile disk origin target
    | .error text => ({} : Outcome).fail text

end CommandLine

/-- Runs a command line on a disk. -/
def commandLine (arguments : List String) (disk : CommandLine.Disk) (script : Script) :
    CommandLine.Outcome :=
  match CommandLine.Command.read arguments with
  | .ok command => command.perform disk script
  | .error e => { code := 2, stderr := e.message ++ "\n" }

end Octet
