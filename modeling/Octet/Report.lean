import Octet.Failure

namespace Octet

/-- The name and the text of a file that errors stand in. -/
structure Origin where
  name : String
  text : String

/-- A line by its number, counted from 1. -/
def Origin.line? (origin : Origin) : Nat → Option String
  | 0 => none
  | n + 1 => (Text.lines origin.text.toList)[n]?.map String.ofList

/-- Errors of one kind, with the file that they stand in if it is known. -/
structure Report where
  kind : String := "error"
  origin : Option Origin
  errors : List (Located String)

namespace Report

/-- The number of a line and the line itself. -/
def quotation (name : String) (line : Nat) (text : String) : String :=
  " --> " ++ name ++ ":" ++ line.repr ++ "\n" ++
    String.ofList (List.replicate line.repr.length ' ') ++ " |\n" ++
    line.repr ++ " | " ++ text ++ "\n"

/-- Where an error stands. A line that the file does not have is only named, and line 0 is left
out. -/
def place (origin : Option Origin) (line : Nat) : String :=
  match origin.bind fun origin => (origin.line? line).map fun text => (origin.name, text) with
  | some (name, text) => quotation name line text
  | none => if line = 0 then "" else " --> line " ++ line.repr ++ "\n"

def entry (report : Report) (e : Located String) : String :=
  report.kind ++ ": " ++ e.val ++ "\n" ++ place report.origin e.line ++ "\n"

def count (n : Nat) : String :=
  n.repr ++ (if n = 1 then " error" else " errors") ++ " reported\n"

def render (report : Report) : String :=
  if report.errors.isEmpty then "No errors were reported\n"
  else String.join (report.errors.map report.entry) ++ count report.errors.length

end Report

def Failure.report (failure : Failure) (origin : Option Origin) : Report :=
  ⟨failure.kind, origin, failure.errors⟩

end Octet
