import Octet.Text.Quoted

namespace Octet

/-- What ends a run before its program does. -/
inductive Fault
  | input
  | overheat (limit : Nat)
  | divisionByZero
  | moduloByZero
  | notANumber (text : String)
  | ringUnderflow
  | undefinedLabel (name : String)
  | undefinedData (key : String)
  | missingOperand (position : Nat)
  | expectedRegister (position : Nat)
  | labelAsValue (name : String)
  | expectedLabel
deriving DecidableEq

def Fault.message : Fault → String
  | input => "Input error"
  | overheat limit => "SYSTEM OVERHEAT: Exceeded maximum of " ++ limit.repr ++ " iterations"
  | divisionByZero => "DIVISION BY ZERO: CRT flickering"
  | moduloByZero => "MODULO BY ZERO: Faint smell of smoke"
  | notANumber text =>
    "Cannot use " ++ Text.quote text ++ " as a number -- DING contains non-numeric data"
  | ringUnderflow => "Ring buffer underflow: nothing to pop"
  | undefinedLabel name => "Undefined label: " ++ name
  | undefinedData key => "Undefined data reference: " ++ key
  | missingOperand position => "Missing operand at position " ++ position.repr
  | expectedRegister position => "Expected register operand at position " ++ position.repr
  | labelAsValue name => "Cannot use label as value: " ++ name
  | expectedLabel => "Jump requires a label operand"

end Octet
