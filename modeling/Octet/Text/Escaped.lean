namespace Octet.Text

/-- A character as it is written between the quotation marks of a data entry. -/
def escapeChar (c : Char) : List Char :=
  if c = '\\' ∨ c = '"' then ['\\', c]
  else if c = '\n' then ['\\', 'n']
  else if c = '\t' then ['\\', 't']
  else [c]

def escape (s : List Char) : List Char :=
  s.flatMap escapeChar

@[simp] theorem escape_nil : escape [] = [] := rfl

@[simp] theorem escape_cons (c : Char) (s : List Char) :
    escape (c :: s) = escapeChar c ++ escape s := rfl

theorem newline_notMem_escape (s : List Char) : '\n' ∉ escape s := by
  intro h
  obtain ⟨c, -, hc⟩ := List.mem_flatMap.1 h
  rw [escapeChar] at hc
  split at hc
  · next he => obtain rfl | rfl := he <;> simp at hc
  · split at hc
    · simp at hc
    · next he =>
      split at hc
      · simp at hc
      · exact he (List.mem_singleton.1 hc).symm

/-- What a character means after a backslash. -/
def escaped (c : Char) : Char :=
  if c = 'n' then '\n' else if c = 't' then '\t' else c

/-- Reads what `escape` writes. No backslash may end the text and no quotation mark stand alone. -/
def unescape? : List Char → Option (List Char)
  | [] => some []
  | c :: s =>
    if c = '"' then none
    else if c = '\\' then
      match s with
      | [] => none
      | d :: s => (unescape? s).map (escaped d :: ·)
    else (unescape? s).map (c :: ·)

theorem unescape?_escapeChar_append (c : Char) (s : List Char) :
    unescape? (escapeChar c ++ s) = (unescape? s).map (c :: ·) := by
  unfold escapeChar
  split
  · next h => rcases h with rfl | rfl <;> simp [unescape?, escaped]
  · next h =>
    split
    · next h => subst h; simp [unescape?, escaped]
    · split
      · next h => subst h; simp [unescape?, escaped]
      · cases s <;> simp_all [unescape?]

theorem unescape?_escape (s : List Char) : unescape? (escape s) = some s := by
  induction s with
  | nil => rfl
  | cons c s ih => rw [escape_cons, unescape?_escapeChar_append, ih]; rfl

end Octet.Text
