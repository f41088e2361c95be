import Octet.Proofs.Text.Pieces
import Octet.Proofs.Tree.Viable

namespace Octet

/-- The lines of the statements of a block and of those inside them, in the order they are written
in. -/
def Block.lines : Block → List Nat
  | done => []
  | halt line rest | assign line _ _ rest | output line _ rest | input line _ rest =>
    line :: rest.lines
  | branch line _ body otherwise rest => line :: (body.lines ++ otherwise.lines ++ rest.lines)
  | loop line _ body rest => line :: (body.lines ++ rest.lines)

namespace Lexer

variable {source : String} {number : Nat} {lines : List (List Char)}
  {item : Located (Except LexError Token)}

/-- What a line contributes stands on it, and an error is the one that its reading ends in. -/
theorem of_mem_lineItems {line : List Char} (h : item ∈ lineItems number line) :
    item.line = number ∧ ∀ e, item.val = .error e → (lexLine (Text.chomp line)).2 = some e := by
  unfold lineItems at h
  dsimp only at h
  obtain h | h := List.mem_append.1 h
  · obtain ⟨token, -, rfl⟩ := List.mem_map.1 h
    exact ⟨rfl, nofun⟩
  · split at h
    · next e he =>
      rw [List.mem_singleton.1 h]
      refine ⟨rfl, ?_⟩
      rintro _ ⟨⟩
      exact he
    · split at h
      · cases h
      · rw [List.mem_singleton.1 h]
        exact ⟨rfl, nofun⟩

theorem exists_line_of_mem (h : item ∈ itemsFrom number lines) :
    ∃ n line, lines[n]? = some line ∧ item ∈ lineItems (number + n) line := by
  induction lines generalizing number with
  | nil => cases h
  | cons line lines ih =>
    obtain h | h := List.mem_append.1 h
    · exact ⟨0, line, rfl, h⟩
    · obtain ⟨n, found, hf, hi⟩ := ih h
      exact ⟨n + 1, found, hf, by rwa [Nat.add_comm n, ← Nat.add_assoc]⟩

/-- What is read of a text stands on a piece of it. -/
theorem hasPiece_of_mem_items (h : item ∈ items source) :
    Text.HasPiece source.toList item.line := by
  rw [items_eq] at h
  obtain h | h := List.mem_append.1 h
  · obtain ⟨n, line, hf, hi⟩ := exists_line_of_mem h
    rw [(of_mem_lineItems hi).1, Nat.add_comm]
    exact Text.hasPiece_of_getElem? hf
  · rw [List.mem_singleton.1 h]
    exact ⟨Nat.succ_pos _, Nat.le_refl _⟩

/-- The reading of a piece of a text ends in an error, which stands on the number of the piece. -/
def BreaksOn (source : String) (e : Located LexError) : Prop :=
  ∃ n piece, e.line = n + 1 ∧ (Text.pieces source.toList)[n]? = some piece ∧
    (lexLine (Text.chomp piece)).2 = some e.val

theorem BreaksOn.hasPiece {e : Located LexError} (h : BreaksOn source e) :
    Text.HasPiece source.toList e.line := by
  obtain ⟨n, piece, hl, hp, -⟩ := h
  rw [hl]
  exact Text.hasPiece_of_getElem? hp

theorem breaksOn_of_error {errors : List (Located LexError)} {e : Located LexError}
    (h : tokenize source = .error errors) (he : e ∈ errors) : BreaksOn source e := by
  rw [← (tokenize_eq_error_iff.1 h).2, items_eq] at he
  obtain ⟨⟨line, val⟩, hi, he⟩ := List.mem_filterMap.1 he
  cases val with
  | ok token => cases he
  | error error =>
    cases he
    obtain hi | hi := List.mem_append.1 hi
    · obtain ⟨n, piece, hf, hi⟩ := exists_line_of_mem hi
      obtain ⟨hl, hx⟩ := of_mem_lineItems hi
      exact ⟨n, piece, hl.trans (Nat.add_comm 1 n), hf, hx error rfl⟩
    · cases List.mem_singleton.1 hi

theorem hasPiece_of_token {tokens : List (Located Token)} {token : Located Token}
    (h : tokenize source = .ok tokens) (ht : token ∈ tokens) :
    Text.HasPiece source.toList token.line := by
  have hi : token.map .ok ∈ items source := by
    rw [tokenize_eq_ok_iff.1 h]
    exact List.mem_map_of_mem ht
  exact hasPiece_of_mem_items hi

end Lexer

section Written

variable {line : Nat} {k : Keyword} {words : List Token} {b : Block}
  {first after written : List (Located Token)} {lines : List Nat}

theorem Phrase.cons_lines_subset (h : Phrase line k words first)
    (hs : lines ⊆ after.map Located.line) :
    line :: lines ⊆ (first ++ after).map Located.line := by
  obtain ⟨gap, located, -, -, rfl⟩ := h
  have hm : line ∈ ((gap ++ ⟨line, .keyword k⟩ :: located) ++ after).map Located.line := by simp
  refine List.cons_subset.2 ⟨hm, List.Subset.trans hs ?_⟩
  rw [List.map_append]
  exact List.subset_append_right ..

/-- A statement stands on the line of one of the tokens that write it. -/
theorem Block.Written.lines_subset (h : b.Written written) :
    b.lines ⊆ written.map Located.line := by
  induction h with
  | done => exact List.nil_subset _
  | halt hp _ ih | assign hp _ ih | output hp _ ih | input hp _ ih =>
    exact hp.cons_lines_subset ih
  | branch hp _ _ _ ihb ihr =>
    refine hp.cons_lines_subset fun n hn => ?_
    simp only [lines, List.append_nil, List.mem_append] at hn
    simp only [List.map_append, List.mem_append]
    exact hn.elim (fun h => .inl (ihb h)) fun h => .inr (.inr (ihr h))
  | alternative hp _ _ _ _ _ ihb iho ihr =>
    refine hp.cons_lines_subset fun n hn => ?_
    simp only [List.mem_append] at hn
    simp only [List.map_append, List.mem_append]
    obtain (h | h) | h := hn
    · exact .inl (ihb h)
    · exact .inr (.inr (.inl (iho h)))
    · exact .inr (.inr (.inr (.inr (ihr h))))
  | loop hp _ _ _ ihb ihr =>
    refine hp.cons_lines_subset fun n hn => ?_
    simp only [List.mem_append] at hn
    simp only [List.map_append, List.mem_append]
    exact hn.elim (fun h => .inl (ihb h)) fun h => .inr (.inr (ihr h))

end Written

namespace Parser

variable {source : String} {tokens : List (Located Token)} {program : Block}

theorem lines_subset_of_parse (h : parse tokens = .ok program) :
    program.lines ⊆ tokens.map Located.line := by
  obtain ⟨last, hr, hv⟩ := parse_eq_ok.1 h
  have hw := (State.writes_result (State.reads_run State.reads_initial hr) hv).1
  obtain ⟨line, first, statements, rest, -, hs, rfl, -⟩ := hw
  refine List.Subset.trans hs.lines_subset ?_
  simp only [List.map_append]
  exact List.subset_append_of_subset_right _ (List.subset_append_left ..)

/-- The statements of a program stand on pieces of its text. -/
theorem hasPiece_of_parse (ht : Lexer.tokenize source = .ok tokens)
    (h : parse tokens = .ok program) : ∀ n ∈ program.lines, Text.HasPiece source.toList n := by
  intro n hn
  obtain ⟨token, hm, rfl⟩ := List.mem_map.1 (lines_subset_of_parse h hn)
  exact Lexer.hasPiece_of_token ht hm

theorem exists_token_of_error {e : Located ParseError} (ht : Lexer.tokenize source = .ok tokens)
    (h : parse tokens = .error e) : ∃ token ∈ tokens, e.line = token.line := by
  obtain ⟨front, line, rfl⟩ := Lexer.tokens_of_tokenize ht
  obtain ⟨k, hk, -, -, -, hl⟩ := State.exists_of_run_error (State.run_eq_error h)
  exact ⟨_, List.getElem_mem hk, hl⟩

end Parser

end Octet
