namespace Octet.Text

/-- The pieces of a text between its separators: one more than there are separators. -/
def split (sep : Char → Bool) (s : List Char) : List (List Char) :=
  s.foldr (fun c pieces => if sep c then [] :: pieces else pieces.modifyHead (c :: ·)) [[]]

variable (sep : Char → Bool)

@[simp] theorem split_nil : split sep [] = [[]] := rfl

theorem split_cons (c : Char) (s : List Char) :
    split sep (c :: s) = if sep c then [] :: split sep s else (split sep s).modifyHead (c :: ·) :=
  rfl

theorem split_ne_nil (s : List Char) : split sep s ≠ [] := by
  induction s with
  | nil => simp
  | cons c s ih =>
    rw [split_cons]
    split
    · simp
    · cases h : split sep s with
      | nil => exact absurd h ih
      | cons p ps => simp

theorem length_split (s : List Char) : (split sep s).length = s.countP sep + 1 := by
  induction s with
  | nil => rfl
  | cons c s ih =>
    rw [split_cons]
    split <;> simp [*]

/-- The pieces of a text that hold a character. -/
def fields (s : List Char) : List (List Char) :=
  (split sep s).filter fun p => !p.isEmpty

def pieces (s : List Char) : List (List Char) :=
  split (· == '\n') s

/-- A line without the carriage return at its end. -/
def chomp (s : List Char) : List Char :=
  if s.getLast? = some '\r' then s.dropLast else s

theorem length_chomp_le (s : List Char) : (chomp s).length ≤ s.length := by
  unfold chomp
  split <;> simp

/-- The lines of a text. A line feed ends a line, alone or after a carriage return; an empty last
piece is no line. -/
def lines (s : List Char) : List (List Char) :=
  let last := (pieces s).getLastD []
  (pieces s).dropLast.map chomp ++ if last.isEmpty then [] else [last]

end Octet.Text
