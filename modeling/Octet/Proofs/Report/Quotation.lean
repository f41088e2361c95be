import Mathlib.Data.List.Forall2
import Octet.Proofs.Text.Pieces
import Octet.Report

namespace Octet

namespace Report

variable {origin : Origin} {n : Nat} {shown : String}

/-- A line that is quoted: the name of the file and the number of the line, a bar as far to the
right as the number is wide, and the number again with the line behind a bar. -/
inductive Quoted (name : String) (n : Nat) (line : List Char) : String → Prop
  | mk {margin : List Char} (hm : margin.length = n.repr.length) (hs : ∀ c ∈ margin, c = ' ') :
      Quoted name n line
        (" --> " ++ name ++ ":" ++ n.repr ++ "\n" ++ String.ofList margin ++ " |\n" ++ n.repr ++
          " | " ++ String.ofList line ++ "\n")

/-- The line that a piece in front of a line feed holds: the piece, or what stands in front of the
carriage return that it ends in. -/
inductive Bare : List Char → List Char → Prop
  | feed {line : List Char} (h : ∀ c ∈ line.getLast?, c ≠ '\r') : Bare line line
  | returnFeed (line : List Char) : Bare (line ++ ['\r']) line

/-- The quotation of a piece of a text, under its number. A line feed behind the piece takes a
carriage return away with it. The last piece is quoted as it is, and only if there is something in
it. -/
inductive Quotes (origin : Origin) : Nat → String → Prop
  | ended {before piece line after : List Char} {shown : String}
      (h : origin.text.toList = before ++ (piece ++ '\n' :: after)) (hb : Text.Begins before)
      (hp : '\n' ∉ piece) (hl : Bare piece line)
      (hq : Quoted origin.name (before.count '\n' + 1) line shown) :
      Quotes origin (before.count '\n' + 1) shown
  | last {before piece : List Char} {shown : String} (h : origin.text.toList = before ++ piece)
      (hb : Text.Begins before) (hp : '\n' ∉ piece) (hn : piece ≠ [])
      (hq : Quoted origin.name (before.count '\n' + 1) piece shown) :
      Quotes origin (before.count '\n' + 1) shown

/-- What shows a piece of a text: its quotation, or only its number if it is the last one and there
is nothing in it. -/
inductive Places (origin : Origin) : Nat → String → Prop
  | quotes {n : Nat} {shown : String} (h : Quotes origin n shown) : Places origin n shown
  | past (h : Text.Begins origin.text.toList) :
      Places origin (origin.text.toList.count '\n' + 1)
        (" --> line " ++ (origin.text.toList.count '\n' + 1).repr ++ "\n")

theorem quoted_quotation (name : String) (n : Nat) (line : List Char) :
    Quoted name n line (quotation name n (String.ofList line)) :=
  .mk List.length_replicate fun _ => List.eq_of_mem_replicate

theorem bare_chomp (piece : List Char) : Bare piece (Text.chomp piece) := by
  by_cases h : piece.getLast? = some '\r'
  · obtain ⟨line, rfl⟩ := List.getLast?_eq_some_iff.1 h
    rw [Text.chomp, if_pos h, List.dropLast_concat]
    exact .returnFeed line
  · rw [Text.chomp, if_neg h]
    exact .feed fun c hc he => h (he ▸ hc)

theorem place_of_line {text : String} (h : origin.line? n = some text) :
    place (some origin) n = quotation origin.name n text := by
  simp [place, h]

theorem place_of_none (h : origin.line? (n + 1) = none) :
    place (some origin) (n + 1) = " --> line " ++ (n + 1).repr ++ "\n" := by
  simp [place, h]

/-- A piece of a text is a line of it, or it is the last one and there is nothing in it. -/
theorem line?_cases (h : n ≤ origin.text.toList.count '\n') :
    (∃ text, origin.line? (n + 1) = some text ∧
      Quotes origin (n + 1) (quotation origin.name (n + 1) text)) ∨
    origin.line? (n + 1) = none ∧ n = origin.text.toList.count '\n' ∧
      Text.Begins origin.text.toList := by
  obtain ⟨before, rest, hs, hb, rfl⟩ := Text.exists_begins h
  have hl : origin.line? (before.count '\n' + 1) =
      (Text.lines rest).head?.map String.ofList := by
    rw [Origin.line?, hs, Text.getElem?_lines hb]
  rw [hl]
  by_cases hm : '\n' ∈ rest
  · obtain ⟨piece, after, rfl, hp⟩ := List.eq_append_cons_of_mem hm
    rw [Text.head?_lines_of_feed hp]
    exact .inl ⟨_, rfl, .ended hs hb hp (bare_chomp piece) (quoted_quotation ..)⟩
  · by_cases hn : rest = []
    · subst hn
      rw [List.append_nil] at hs
      exact .inr ⟨rfl, by rw [hs], hs ▸ hb⟩
    · rw [Text.lines_of_not_mem hm hn]
      exact .inl ⟨_, rfl, .last hs hb hm hn (quoted_quotation ..)⟩

theorem places_place (h : Text.HasPiece origin.text.toList n) :
    Places origin n (place (some origin) n) := by
  obtain ⟨hp, hn⟩ := h
  obtain ⟨m, rfl⟩ := Nat.exists_eq_add_one.2 hp
  obtain ⟨text, hl, hq⟩ | ⟨hl, rfl, hb⟩ := line?_cases (Nat.le_of_lt_succ hn)
  · rw [place_of_line hl]
    exact .quotes hq
  · rw [place_of_none hl]
    exact .past hb

theorem quotes_place (hp : 0 < n) (hn : n ≤ (Text.lines origin.text.toList).length) :
    Quotes origin n (place (some origin) n) := by
  obtain ⟨m, rfl⟩ := Nat.exists_eq_add_one.2 hp
  have hle := Text.length_lines_le origin.text.toList
  obtain ⟨text, hl, hq⟩ | ⟨hl, -⟩ := line?_cases (Nat.le_of_lt_succ (Nat.le_trans hn hle))
  · rw [place_of_line hl]
    exact hq
  · rw [Origin.line?, List.getElem?_eq_getElem hn] at hl
    cases hl

/-- An error as a report shows it: its kind and its message, and below them its place if it has
one. -/
inductive Enters (P : Nat → String → Prop) (kind : String) : Located String → String → Prop
  | unplaced (message : String) :
      Enters P kind (.unplaced message) (kind ++ ": " ++ message ++ "\n\n")
  | placed {n : Nat} {shown : String} (message : String) (h : P n shown) :
      Enters P kind ⟨n, message⟩ (kind ++ ": " ++ message ++ "\n" ++ shown ++ "\n")

/-- The last line of a report, which tells how many errors it has shown. -/
inductive Counts : Nat → String → Prop
  | one : Counts 1 "1 error reported\n"
  | many {n : Nat} (h : n ≠ 1) : Counts n (n.repr ++ " errors reported\n")

/-- A report shows all errors of a failure in their order, and how many they are. -/
def Shows (P : Nat → String → Prop) (failure : Failure) (report : String) : Prop :=
  failure.errors ≠ [] ∧ ∃ entries total,
    List.Forall₂ (Enters P failure.kind) failure.errors entries ∧ Counts entries.length total ∧
      report = String.join entries ++ total

theorem counts_count (n : Nat) : Counts n (count n) := by
  by_cases h : n = 1
  · subst h
    exact .one
  · have hc : count n = n.repr ++ " errors reported\n" := by
      rw [count, if_neg h, String.append_assoc]
      rfl
    exact hc ▸ .many h

theorem enters_entry {P : Nat → String → Prop} {kind : String} {errors : List (Located String)}
    {e : Located String} (h : e.line = 0 ∨ P e.line (place (some origin) e.line)) :
    Enters P kind e (entry ⟨kind, some origin, errors⟩ e) := by
  obtain ⟨line, message⟩ := e
  obtain rfl | h := h
  · have he : entry ⟨kind, some origin, errors⟩ (.unplaced message) =
        kind ++ ": " ++ message ++ "\n\n" := by
      simp [entry, place, Located.unplaced, Origin.line?, String.append_assoc]
    exact he ▸ .unplaced message
  · exact .placed message h

theorem shows_render {P : Nat → String → Prop} {failure : Failure} (hn : failure.errors ≠ [])
    (h : ∀ e ∈ failure.errors, e.line = 0 ∨ P e.line (place (some origin) e.line)) :
    Shows P failure (failure.report (some origin)).render := by
  refine ⟨hn, failure.errors.map (failure.report (some origin)).entry, _, ?_, counts_count _, ?_⟩
  · exact List.forall₂_map_right_iff.2 (List.forall₂_same.2 fun e he => enters_entry (h e he))
  · simp [render, Failure.report, hn]

end Report

end Octet
