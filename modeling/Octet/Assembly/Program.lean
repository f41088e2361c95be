import Octet.Assembly.Instruction
import Octet.Located

namespace Octet

/-- What is known under a name. Of two entries under one name the later stands. -/
structure Table (α : Type) where
  entries : List (String × α)
deriving DecidableEq

namespace Table

variable {α : Type}

def empty : Table α := ⟨[]⟩

def put (table : Table α) (name : String) (a : α) : Table α :=
  ⟨(name, a) :: table.entries.filter (·.1 != name)⟩

def get? (table : Table α) (name : String) : Option α := table.entries.lookup name

def size (table : Table α) : Nat := table.entries.length

@[simp] theorem get?_empty (name : String) : (empty : Table α).get? name = none := rfl

theorem get?_put (table : Table α) (name : String) (a : α) (other : String) :
    (table.put name a).get? other = if other = name then some a else table.get? other := by
  unfold get? put
  by_cases h : other = name
  · simp [h]
  · have hb : (other == name) = false := beq_eq_false_iff_ne.2 h
    simp only [List.lookup_cons, hb, if_neg h]
    induction table.entries with
    | nil => rfl
    | cons entry entries ih =>
      obtain ⟨key, b⟩ := entry
      by_cases hk : key = name
      · simp [hk, ih, List.lookup_cons, hb]
      · simp [hk, ih, List.lookup_cons]

end Table

/-- A listing that has been read: its instructions, where its labels point and its texts. -/
structure Program where
  instructions : Array (Located Instruction)
  labels : Table Nat
  data : Table String
deriving DecidableEq

namespace Program

def empty : Program := ⟨#[], .empty, .empty⟩

def addLabel (program : Program) (name : String) : Program :=
  { program with labels := program.labels.put name program.instructions.size }

def addData (program : Program) (key text : String) : Program :=
  { program with data := program.data.put key text }

def addInstruction (program : Program) (line : Nat) (instruction : Instruction) : Program :=
  { program with instructions := program.instructions.push ⟨line, instruction⟩ }

end Program

end Octet
