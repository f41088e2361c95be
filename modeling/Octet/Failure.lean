import Octet.Assembly.Operand
import Octet.Fault
import Octet.Token.Lexer
import Octet.Tree.Parser

namespace Octet

/-- Why a text was not run to its end, by the phase that found out. -/
inductive Failure
  | lexing (errors : List (Located LexError))
  | parsing (e : Located ParseError)
  | assembling (e : Located AssemblyError)
  | running (e : Located Fault)
  | io (text : String)
deriving DecidableEq

namespace Failure

def kind : Failure → String
  | lexing _ => "Lexical error"
  | parsing _ => "Syntax error"
  | assembling _ => "Assembly error"
  | running _ => "Runtime error"
  | io _ => "I/O error"

/-- Everything that is wrong. Only the first phase finds more than one error. -/
def errors : Failure → List (Located String)
  | lexing errors => errors.map (Located.map LexError.message)
  | parsing e => [e.map ParseError.message]
  | assembling e => [e.map AssemblyError.message]
  | running e => [e.map Fault.message]
  | io text => [.unplaced text]

/-- The line of the first error. -/
def line (failure : Failure) : Nat := (failure.errors.head?.map Located.line).getD 0

/-- The first error, which stands without its kind unless it comes from outside. -/
def message : Failure → String
  | io text => "I/O error: " ++ text
  | failure => (failure.errors.head?.map Located.val).getD ""

end Failure

end Octet
