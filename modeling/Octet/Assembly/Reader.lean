import Octet.Assembly.Operand
import Octet.Assembly.Program
import Octet.Text.Escaped

namespace Octet

namespace Assembly

/-- A line up to the first semicolon that is no part of a text. -/
def uncomment (inText afterBackslash : Bool) : List Char → List Char
  | [] => []
  | c :: s =>
    if afterBackslash then c :: uncomment inText false s
    else if c = '\\' ∧ inText then c :: uncomment inText true s
    else if c = '"' then c :: uncomment (!inText) false s
    else if c = ';' ∧ !inText then []
    else c :: uncomment inText false s

def uncommented (line : List Char) : List Char := uncomment false false line

/-- A key, a colon and a text between quotation marks. -/
def entry? (line : List Char) : Option (String × String) :=
  let key := Text.trim (line.takeWhile (· != ':'))
  if key.isEmpty || !key.all fun c => c.isAlphanum || c == '_' then none
  else
    match line.dropWhile (· != ':') with
    | [] => none
    | _ :: rest =>
      match Text.trim rest with
      | '"' :: text =>
        if text.getLast? = some '"' then
          (Text.unescape? text.dropLast).map fun text => (String.ofList key, String.ofList text)
        else none
      | _ => none

/-- The part of a listing that a line belongs to. -/
inductive Part
  | before
  | data
  | code
deriving DecidableEq

structure Reader where
  part : Part
  program : Program
deriving DecidableEq

namespace Reader

def initial : Reader := ⟨.before, .empty⟩

def isLabel (line : List Char) : Bool := line.getLast? == some ':'

/-- Code begins without a header at a label with a point or at a known opcode. -/
def beginsCode (line : List Char) : Bool :=
  (isLabel line && line.head? == some '.') ||
    (Opcode.named? (line.takeWhile fun c => !Text.isBlank c)).isSome

def readData (reader : Reader) (line : List Char) : Except AssemblyError Reader :=
  match entry? line with
  | some (key, text) => .ok { reader with program := reader.program.addData key text }
  | none => .error (.invalidDataEntry (String.ofList line))

def readCode (reader : Reader) (number : Nat) (line : List Char) : Except AssemblyError Reader :=
  if isLabel line then
    let name := String.ofList (Text.trim line.dropLast)
    .ok { reader with program := reader.program.addLabel name }
  else do
    let instruction ← Instruction.read line
    return { reader with program := reader.program.addInstruction number instruction }

/-- Takes a line that has lost its comment and the blanks around it. -/
def readLine (reader : Reader) (number : Nat) (line : List Char) : Except AssemblyError Reader :=
  if line.isEmpty then .ok reader
  else if line = ".data".toList then .ok { reader with part := .data }
  else if line = ".code".toList then .ok { reader with part := .code }
  else
    match reader.part with
    | .data => reader.readData line
    | .code => reader.readCode number line
    | .before =>
      if beginsCode line then { reader with part := .code }.readCode number line else .ok reader

def readLines (reader : Reader) (number : Nat) :
    List (List Char) → Except (Located AssemblyError) Reader
  | [] => .ok reader
  | line :: lines =>
    match reader.readLine number (Text.trim (uncommented line)) with
    | .ok reader => reader.readLines (number + 1) lines
    | .error e => .error ⟨number, e⟩

end Reader

/-- The first key that an instruction names and no entry defines, with its line. -/
def undefined? (program : Program) : Option (Located AssemblyError) :=
  program.instructions.toList.findSome? fun instruction =>
    instruction.val.operands.findSome? fun
      | .data key =>
        if (program.data.get? key).isSome then none else some ⟨instruction.line, .undefinedData key⟩
      | _ => none

/-- The program that a listing writes. Labels may stay undefined, keys may not. -/
def read (listing : String) : Except (Located AssemblyError) Program := do
  let reader ← Reader.initial.readLines 1 (Text.lines listing.toList)
  match undefined? reader.program with
  | none => return reader.program
  | some e => .error e

end Assembly

end Octet
