namespace Octet

/-- The phosphor screen remembers the last text it has shown whole. -/
structure Screen where
  last : String

namespace Screen

def blank : Screen := ⟨""⟩

/-- A text of several characters that is shown again loses one of them, and is forgotten. -/
def display (screen : Screen) (text : String) : String × Screen :=
  if 1 < text.length ∧ text = screen.last then
    (String.ofList (text.toList.eraseIdx ((text.length - 1) % 5)), blank)
  else (text, ⟨text⟩)

end Screen

end Octet
