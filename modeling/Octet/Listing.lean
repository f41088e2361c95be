import Octet.Assembly.Instruction
import Octet.Text.Escaped
import Octet.Text.Padded

namespace Octet

namespace Listing

/-- A line of code: the place of a label, or an instruction with or without a comment. -/
inductive Line
  | label (n : Nat)
  | instruction (i : Instruction) (comment : Option String)
deriving DecidableEq

def labelName (n : Nat) : String := ".L" ++ n.repr

def dataKey (n : Nat) : String := "s" ++ n.repr

/-- An instruction in columns. -/
def instructionText (i : Instruction) : String :=
  match i.operands with
  | [] => i.opcode.name
  | operands =>
    Text.padRight 5 i.opcode.name ++ ", ".intercalate (operands.map Operand.display)

def Line.text : Line → String
  | .label n => labelName n ++ ":"
  | .instruction i none => "  " ++ instructionText i
  | .instruction i (some comment) =>
    "  " ++ Text.padRight 24 (instructionText i) ++ "; " ++ comment

/-- Puts a comment beside the first instruction. -/
def annotate (comment : String) : List Line → List Line
  | .instruction i _ :: code => .instruction i (some comment) :: code
  | code => code

end Listing

/-- A generated program: its texts, how many labels it has, and its code. -/
structure Listing where
  texts : List String
  labels : Nat
  code : List Listing.Line

namespace Listing

def entryText (n : Nat) (text : String) : String :=
  "  " ++ dataKey n ++ ": \"" ++ String.ofList (Text.escape text.toList) ++ "\""

def entryTexts (n : Nat) : List String → List String
  | [] => []
  | text :: texts => entryText n text :: entryTexts (n + 1) texts

/-- The name and the version that a listing is signed with. -/
def signature : String := "welt 0.3.1"

def heading (name : Option String) : List String :=
  ["; === GRUND (DAS-8 Q4) ==="] ++
    (match name with
      | some name => ["; source: " ++ name]
      | none => []) ++
    ["; compiled by " ++ signature, ""]

/-- The lines of a listing. There is a data section only if there are texts. -/
def lineTexts (listing : Listing) (name : Option String) : List String :=
  heading name ++
    (if listing.texts.isEmpty then [] else [".data"] ++ entryTexts 0 listing.texts ++ [""]) ++
    [".code"] ++ listing.code.map Line.text

/-- A listing as it is written to a file, with the name of its source if it has one. -/
def render (listing : Listing) (name : Option String) : String :=
  String.join ((listing.lineTexts name).map (· ++ "\n"))

end Listing

end Octet
