import Octet.Console.Note

namespace Octet

/-- Counts the bodies of loops that are begun, or the instructions that are fetched. -/
structure Odometer where
  total : Nat

namespace Odometer

def zero : Odometer := ⟨0⟩

def restlessTotal : Nat := 1024

def sufferingTotal : Nat := 4096

/-- What the count adds to the log where it is reached. -/
def remark (total : Nat) : List Entry :=
  if total = restlessTotal then [.note (.odometer total), .output "...", .event .restless]
  else if total = sufferingTotal then
    [.note (.odometer total), .output "Alles Leben ist Leiden.", .event .suffering]
  else []

def tick (odometer : Odometer) : List Entry × Odometer :=
  (remark (odometer.total + 1), ⟨odometer.total + 1⟩)

end Odometer

end Octet
