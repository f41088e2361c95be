import Octet.Value

namespace Octet

abbrev Slot := Fin 8

/-- The eight slots of the language, and the eight registers of the machine. -/
abbrev Memory := Vector Value 8

namespace Memory

/-- What the slots hold before anything has run. -/
def initial : Memory :=
  #v[.number 0, .number 0, .number 0, .number 4, .number 0, .number 0, .number 0, .number 97]

/-- Slots past the end of the list hold zero, and values past the last slot are dropped. -/
def ofList (values : List Value) : Memory :=
  Vector.ofFn fun slot => values.getD slot (.number 0)

def read (memory : Memory) (slot : Slot) : Value := memory[slot]

def put (memory : Memory) (slot : Slot) (v : Value) : Memory := memory.set slot v

theorem read_put (memory : Memory) (slot : Slot) (v : Value) (other : Slot) :
    (memory.put slot v).read other = if other = slot then v else memory.read other := by
  by_cases h : other = slot
  · simp [read, put, h]
  · have hv : slot.val ≠ other.val := fun hv => h (Fin.ext hv.symm)
    simp [read, put, h, hv]

end Memory

def Slot.ofNat? (n : Nat) : Option Slot :=
  if h : n < 8 then some ⟨n, h⟩ else none

end Octet
