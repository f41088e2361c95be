import Octet.Toolchain

namespace Octet

namespace CommandLine

/-- The options without a value. -/
inductive Flag
  | listing
  | assembly
  | compiled
  | verbose
deriving DecidableEq

/-- The options with a value. -/
inductive Setting
  | output
  | boot
deriving DecidableEq

inductive UsageError
  | unknownOption (name : String)
  | unexpectedValue (option : String)
  | unexpectedFile (file : String)
  | repeated
  | missingValue
  | conflict
  | missingFile
deriving DecidableEq

def UsageError.message : UsageError → String
  | unknownOption name => "Unknown option: " ++ name
  | unexpectedValue option => "Option without a value: " ++ option
  | unexpectedFile file => "Unexpected file: " ++ file
  | repeated => "Option given twice"
  | missingValue => "Missing value of an option"
  | conflict => "Options exclude each other"
  | missingFile => "Missing source file"

/-- What a command line asks for. A listing without a target goes to standard output. -/
inductive Command
  | version
  | run (mode : Mode) (file : String) (boot : Option String)
  | compile (file : String) (target : Option String) (boot : Option String)
deriving DecidableEq

/-- The files that a command reads. -/
def Command.files : Command → List String
  | version => []
  | run _ file boot | compile file _ boot => file :: boot.toList

/-- What has been read of a command line. -/
structure Arguments where
  file : Option String
  flags : List Flag
  settings : List (Setting × Option String)
  /-- The option that the next argument may be the value of. -/
  waiting : Option Setting
  /-- Whether options have come to their end. -/
  ended : Bool

namespace Arguments

def empty : Arguments := ⟨none, [], [], none, false⟩

/-- No value has come for the option that waits for one. -/
def settle (arguments : Arguments) : Arguments :=
  match arguments.waiting with
  | some setting =>
    { arguments with settings := (setting, none) :: arguments.settings, waiting := none }
  | none => arguments

def addFlag (arguments : Arguments) (flag : Flag) : Arguments :=
  { arguments with flags := flag :: arguments.flags }

def addFile (arguments : Arguments) (file : String) : Except UsageError Arguments :=
  match arguments.file with
  | none => .ok { arguments with file }
  | some _ => .error (.unexpectedFile file)

/-- What stands behind the letter of an option in the same argument is its value, with or without
an equals sign before it. -/
def assign (arguments : Arguments) (setting : Setting) : List Char → Arguments
  | [] => { arguments with waiting := some setting }
  | '=' :: value | value =>
    { arguments with settings := (setting, some (String.ofList value)) :: arguments.settings }

/-- Options of one letter that share a hyphen. Nothing is left to read where the version is asked
for. -/
def cluster (arguments : Arguments) : List Char → Except UsageError (Option Arguments)
  | [] => .ok arguments
  | 'S' :: rest => (arguments.addFlag .listing).cluster rest
  | 'v' :: rest => (arguments.addFlag .verbose).cluster rest
  | 'V' :: _ => .ok none
  | 'o' :: rest => .ok (arguments.assign .output rest)
  | 'm' :: rest => .ok (arguments.assign .boot rest)
  | c :: _ => .error (.unknownOption (String.ofList ['-', c]))

def long (arguments : Arguments) (name : List Char) : Except UsageError (Option Arguments) :=
  let option := String.ofList (name.takeWhile (· != '='))
  if ["grund", "compiled", "version"].contains option then
    if name.contains '=' then .error (.unexpectedValue ("--" ++ option))
    else if option = "grund" then .ok (arguments.addFlag .assembly)
    else if option = "compiled" then .ok (arguments.addFlag .compiled)
    else .ok none
  else .error (.unknownOption ("--" ++ option))

/-- Takes one argument. A lone hyphen is no option. -/
def take (arguments : Arguments) (argument : String) : Except UsageError (Option Arguments) :=
  if arguments.ended then arguments.addFile argument
  else
    match argument.toList with
    | ['-', '-'] => .ok (some { arguments.settle with ended := true })
    | '-' :: '-' :: name => arguments.settle.long name
    | '-' :: c :: rest => arguments.settle.cluster (c :: rest)
    | _ =>
      match arguments.waiting with
      | some setting =>
        let settings := (setting, some argument) :: arguments.settings
        .ok (some { arguments with settings, waiting := none })
      | none => arguments.addFile argument

def count (arguments : Arguments) (setting : Setting) : Nat :=
  arguments.settings.countP (·.1 == setting)

def value (arguments : Arguments) (setting : Setting) : Option String :=
  (arguments.settings.lookup setting).join

def mode (arguments : Arguments) : Mode :=
  if arguments.flags.contains .assembly then .execute
  else if arguments.flags.contains .compiled then .compile
  else .walk

/-- What all arguments together ask for. -/
def command (arguments : Arguments) : Except UsageError Command :=
  let modes := [Flag.listing, .assembly, .compiled]
  if modes.any (1 < arguments.flags.count ·) || 1 < arguments.count .output ||
      1 < arguments.count .boot then .error .repeated
  else if arguments.settings.any (·.2.isNone) then .error .missingValue
  else if 1 < modes.countP arguments.flags.contains then .error .conflict
  else
    match arguments.file with
    | none => .error .missingFile
    | some file =>
      let boot := arguments.value .boot
      if arguments.flags.contains .listing then
        .ok (.compile file ((arguments.value .output).filter (· != "-")) boot)
      else .ok (.run arguments.mode file boot)

def readFrom (arguments : Arguments) : List String → Except UsageError Command
  | [] => arguments.settle.command
  | argument :: rest => do
    match ← arguments.take argument with
    | some arguments => arguments.readFrom rest
    | none => return .version

end Arguments

/-- Reads a command line. The version is shown as soon as it is asked for, before what follows is
looked at. -/
def Command.read (arguments : List String) : Except UsageError Command :=
  Arguments.empty.readFrom arguments

end CommandLine

end Octet
