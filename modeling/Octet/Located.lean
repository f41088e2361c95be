namespace Octet

/-- A value and the line it stands on. Line 0 is no line. -/
structure Located (α : Type) where
  line : Nat
  val : α
deriving DecidableEq

namespace Located

variable {α β : Type}

def unplaced (a : α) : Located α := ⟨0, a⟩

def map (f : α → β) (a : Located α) : Located β := ⟨a.line, f a.val⟩

@[simp] theorem line_map (f : α → β) (a : Located α) : (a.map f).line = a.line := rfl

@[simp] theorem val_map (f : α → β) (a : Located α) : (a.map f).val = f a.val := rfl

end Located

end Octet
