import Octet.Assembly.Instruction
import Octet.Text.Line

namespace Octet

inductive AssemblyError
  | invalidDataEntry (line : String)
  | unknownOpcode (name : String)
  | invalidOperand (word : String)
  | registerOutOfRange (word : String)
  | undefinedData (key : String)
deriving DecidableEq

def AssemblyError.message : AssemblyError → String
  | invalidDataEntry line => "Invalid data entry: " ++ line
  | unknownOpcode name => "Unknown opcode: " ++ name
  | invalidOperand word => "Invalid operand: " ++ word
  | registerOutOfRange word => "Register out of range: " ++ word
  | undefinedData key => "Undefined data reference: " ++ key

namespace Operand

/-- The number of a register, in or out of range: the letter is followed by one digit. -/
def register? : List Char → Option Nat
  | ['r', d] => if d.isDigit then some (Text.decimal [d]) else none
  | _ => none

def isDataKey : List Char → Bool
  | 's' :: digits => !digits.isEmpty && digits.all Char.isDigit
  | _ => false

/-- Registers and data keys may be written in capitals, and a data key is then made small. -/
def read (word : List Char) : Except AssemblyError Operand :=
  let lower := word.map Char.toLower
  match register? lower with
  | some n =>
    match Slot.ofNat? n with
    | some r => .ok (.register r)
    | none => .error (.registerOutOfRange (String.ofList word))
  | none =>
    if word.head? = some '.' then .ok (.label (String.ofList word))
    else if isDataKey lower then .ok (.data (String.ofList lower))
    else
      match Text.readInt word with
      | some i => .ok (.immediate i)
      | none => .error (.invalidOperand (String.ofList word))

end Operand

/-- An opcode and its operands, with blanks and commas between them. -/
def Instruction.read (line : List Char) : Except AssemblyError Instruction := do
  let words := Text.fields (fun c => Text.isBlank c || c == ',') line
  let name := words.headD []
  match Opcode.named? name with
  | some opcode => return ⟨opcode, ← words.tail.mapM Operand.read⟩
  | none => .error (.unknownOpcode (String.ofList (name.map Char.toLower)))

end Octet
