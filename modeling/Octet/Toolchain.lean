import Octet.Assembly.Reader
import Octet.Compiler
import Octet.Failure
import Octet.Machine
import Octet.Walker

namespace Octet

namespace Toolchain

/-- The program that a source writes. -/
def parse (source : String) : Run Failure Block := do
  let tokens ← (Lexer.tokenize source).mapError Failure.lexing
  Run.send (.note (.lexed tokens.length))
  let program ← (Parser.parse tokens).mapError Failure.parsing
  Run.send (.note (.parsed program.length))
  return program

/-- The listing of a source, with the name of its file if it has one. -/
def compile (source : String) (name : Option String) : Run Failure String := do
  let program ← parse source
  let listing := program.compile
  Run.send (.note (.emitted listing.labels listing.texts.length))
  return listing.render name

/-- The program that a listing writes. -/
def assemble (listing : String) : Run Failure Program := do
  let program ← (Assembly.read listing).mapError Failure.assembling
  Run.send (.note (.listed program.instructions.size program.labels.size program.data.size))
  return program

def walk (source : String) (memory : Memory) (script : Script) : Run Failure Memory := do
  let program ← parse source
  (Walker.run program memory script).mapError Failure.running

def execute (listing : String) (registers : Memory) (script : Script) : Run Failure Memory := do
  let program ← assemble listing
  Run.send (.note (.assembled program.instructions.size))
  (Machine.run program registers script).mapError Failure.running

def compileAndExecute (source : String) (registers : Memory) (script : Script) :
    Run Failure Memory := do
  let listing ← compile source none
  execute listing registers script

/-- The memory that a source leaves when it starts from the initial one and has nothing to
read. -/
def boot (source : String) : Except Failure Memory := (walk source .initial []).result

end Toolchain

/-- The ways to run a text. -/
inductive Mode
  | walk
  | execute
  | compile
deriving DecidableEq

def Mode.run : Mode → String → Memory → Script → Run Failure Memory
  | walk => Toolchain.walk
  | execute => Toolchain.execute
  | compile => Toolchain.compileAndExecute

end Octet
