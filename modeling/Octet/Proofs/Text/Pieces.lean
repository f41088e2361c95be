import Octet.Proofs.Text.Layout

namespace Octet.Text

variable {s before piece after rest : List Char} {n : Nat}

/-- Some text in front of a line: there is none, or it ends in a line feed. -/
def Begins (before : List Char) : Prop := ∀ c ∈ before.getLast?, c = '\n'

/-- The number of a piece of a text, of which there is one more than there are line feeds. -/
def HasPiece (s : List Char) (n : Nat) : Prop := 0 < n ∧ n ≤ s.count '\n' + 1

/-- Nothing, or a comment up to the end of a line. -/
def IsComment (s : List Char) : Prop := s = [] ∨ ∃ rest, s = ';' :: rest ∧ '\n' ∉ rest

theorem IsComment.newline_notMem (h : IsComment s) : '\n' ∉ s := by
  obtain rfl | ⟨rest, rfl, hr⟩ := h
  · exact List.not_mem_nil
  · simpa using hr

theorem length_lines_le (s : List Char) : (lines s).length ≤ s.count '\n' + 1 := by
  rw [← length_pieces, lines]
  have hn : 0 < (pieces s).length := List.length_pos_iff.2 (split_ne_nil _ s)
  split
  · simp
  · simp
    omega

theorem hasPiece_of_getElem? (h : (pieces s)[n]? = some piece) : HasPiece s (n + 1) := by
  have hn : n < (pieces s).length := (List.getElem?_eq_some_iff.1 h).1
  rw [length_pieces] at hn
  exact ⟨n.succ_pos, hn⟩

/-- A text can be cut in front of each of its pieces. -/
theorem exists_begins (h : n ≤ s.count '\n') :
    ∃ before rest, s = before ++ rest ∧ Begins before ∧ before.count '\n' = n := by
  induction n with
  | zero => exact ⟨[], s, rfl, nofun, rfl⟩
  | succ n ih =>
    obtain ⟨before, rest, rfl, -, rfl⟩ := ih (Nat.le_of_succ_le h)
    rw [List.count_append] at h
    have hm : '\n' ∈ rest := List.count_pos_iff.1 (by omega)
    obtain ⟨piece, after, rfl, hp⟩ := List.eq_append_cons_of_mem hm
    refine ⟨before ++ piece ++ ['\n'], after, by simp, by simp [Begins], ?_⟩
    simp [List.count_eq_zero_of_not_mem hp]

/-- The lines of a text are those of a beginning and those of the rest. -/
theorem lines_append_of_begins (hb : Begins before) (rest : List Char) :
    lines (before ++ rest) = lines before ++ lines rest := by
  obtain rfl | ⟨front, c, rfl⟩ := List.eq_nil_or_concat' before
  · rfl
  · obtain rfl : c = '\n' := hb c (by simp)
    have hl : lines (front ++ '\n' :: []) = (pieces front).map chomp := by
      rw [lines_append]
      exact List.append_nil _
    rw [hl, List.append_assoc, List.singleton_append, lines_append]

theorem length_lines_of_begins (hb : Begins before) :
    (lines before).length = before.count '\n' := by
  obtain rfl | ⟨front, c, rfl⟩ := List.eq_nil_or_concat' before
  · rfl
  · obtain rfl : c = '\n' := hb c (by simp)
    have hl : (lines []).length = 0 := rfl
    rw [lines_append, List.length_append, hl, List.length_map, length_pieces]
    simp

/-- The first line behind a beginning is the one with the next number. -/
theorem getElem?_lines (hb : Begins before) (rest : List Char) :
    (lines (before ++ rest))[before.count '\n']? = (lines rest).head? := by
  rw [lines_append_of_begins hb, ← length_lines_of_begins hb,
    List.getElem?_append_right (Nat.le_refl _), Nat.sub_self, List.head?_eq_getElem?]

theorem head?_lines_of_feed (h : '\n' ∉ piece) (after : List Char) :
    (lines (piece ++ '\n' :: after)).head? = some (chomp piece) := by
  rw [lines_append, pieces_of_not_mem h]
  rfl

theorem lines_of_not_mem (h : '\n' ∉ piece) (hn : piece ≠ []) : lines piece = [piece] := by
  simp [lines, pieces_of_not_mem h, hn]

end Octet.Text
