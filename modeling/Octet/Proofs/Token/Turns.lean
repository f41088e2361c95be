import Octet.Proofs.Text.Layout
import Octet.Proofs.Token.Lexeme

namespace Octet.Lexer

variable {lexer next : Lexer} {item : Except LexError Token} {token : Token} {e : LexError}
  {c : Char} {s : List Char}

section Stream

theorem stream_of_next? {found : Located (Except LexError Token)}
    (h : lexer.next? = some (found, next)) : lexer.stream = found :: next.stream := by
  rw [stream]
  split <;> simp_all

theorem stream_of_none (h : lexer.next? = none) : lexer.stream = [] := by
  rw [stream]
  split <;> simp_all

theorem stream_of_again (h : lexer.turn = .again next) : lexer.stream = next.stream := by
  have hn := next?_of_again h
  cases hf : next.next? with
  | none => rw [stream_of_none (hn.trans hf), stream_of_none hf]
  | some found => rw [stream_of_next? (hn.trans hf), stream_of_next? hf]

theorem stream_of_found (h : lexer.turn = .found item next) :
    lexer.stream = ⟨next.lineNumber, item⟩ :: (next.settle item).stream :=
  stream_of_next? (next?_of_found h)

theorem stream_of_stop (h : lexer.turn = .stop) : lexer.stream = [] :=
  stream_of_none (next?_of_stop h)

end Stream

variable (lines : List (List Char × Nat)) (k : Nat) (b : Bool)

/-- What is found from the start of a token on, if this is what the line begins with. -/
def resume : Except LexError (Option Token × List Char) → List (Located (Except LexError Token))
  | .error e => ⟨k, .error e⟩ :: stream ⟨lines, [], k, false, .start⟩
  | .ok (none, rest) => stream ⟨lines, rest, k, b, .start⟩
  | .ok (some token, rest) => ⟨k, .ok token⟩ :: stream ⟨lines, rest, k, true, .start⟩

section States

/-- Behind an error the rest of the line is skipped, and what comes then is read from the start. -/
theorem stream_error (s : List Char) :
    stream ⟨lines, s, k, b, .error⟩ = stream ⟨lines, [], k, b, .start⟩ := by
  induction s with
  | nil => exact stream_of_again rfl
  | cons c s ih => exact (stream_of_again rfl).trans ih

theorem stream_comment (s : List Char) :
    stream ⟨lines, s, k, b, .comment⟩ = stream ⟨lines, [], k, b, .start⟩ := by
  induction s with
  | nil => exact stream_of_again rfl
  | cons c s ih => exact (stream_of_again rfl).trans ih

theorem stream_of_error (h : lexer.turn = .found (.error e) next) :
    lexer.stream =
      ⟨next.lineNumber, .error e⟩ :: stream ⟨next.lines, [], next.lineNumber, false, .start⟩ := by
  rw [stream_of_found h]
  exact congrArg _ (stream_error ..)

theorem stream_of_refuse (h : lexer.turn = lexer.refuse e) :
    lexer.stream =
      ⟨lexer.lineNumber, .error e⟩ :: stream ⟨lexer.lines, [], lexer.lineNumber, false, .start⟩ :=
  stream_of_error h

theorem stream_of_emit (h : lexer.turn = lexer.emit token) (ht : IsProper token) :
    lexer.stream = ⟨lexer.lineNumber, .ok token⟩ ::
      stream ⟨lexer.lines, lexer.line, lexer.lineNumber, true, .start⟩ := by
  have hs : settle { lexer with state := .start } (.ok token) =
      ⟨lexer.lines, lexer.line, lexer.lineNumber, true, .start⟩ := by
    simp [settle, ht.1, ht.2]
  rw [stream_of_found h, hs]

theorem stream_complete (ht : IsProper token) (s : List Char) :
    stream ⟨lines, s, k, b, .complete token⟩ =
      ⟨k, .ok token⟩ :: stream ⟨lines, s, k, true, .start⟩ :=
  stream_of_emit rfl ht

theorem stream_word (w : String) (s : List Char) :
    stream ⟨lines, s, k, b, .word w⟩ = ⟨k, .ok (word (w.toList ++ s.takeWhile isWordChar))⟩ ::
      stream ⟨lines, s.dropWhile isWordChar, k, true, .start⟩ := by
  induction s generalizing w with
  | nil =>
    rw [List.takeWhile_nil, List.append_nil]
    exact stream_of_emit rfl (isProper_word _)
  | cons c s ih =>
    by_cases hc : isWordChar c = true
    · have ht : turn ⟨lines, c :: s, k, b, .word w⟩ = .again ⟨lines, s, k, b, .word (w.push c)⟩ :=
        if_pos hc
      rw [stream_of_again ht, ih, String.toList_push, List.takeWhile_cons_of_pos hc,
        List.dropWhile_cons_of_pos hc, List.append_assoc]
      rfl
    · have ht : turn ⟨lines, c :: s, k, b, .word w⟩ =
          emit ⟨lines, c :: s, k, b, .word w⟩ (word w.toList) := if_neg hc
      rw [stream_of_emit ht (isProper_word _), List.takeWhile_cons_of_neg hc,
        List.dropWhile_cons_of_neg hc, List.append_nil]

/-- What is found if this is what digits behind a number come to. -/
def resumeNumber (rest : List Char) : Option UInt32 → List (Located (Except LexError Token))
  | some n => ⟨k, .ok (.number n)⟩ :: stream ⟨lines, rest, k, true, .start⟩
  | none => ⟨k, .error .overflow⟩ :: stream ⟨lines, [], k, false, .start⟩

theorem stream_integer (n : UInt32) (s : List Char) :
    stream ⟨lines, s, k, b, .integer n⟩ =
      resumeNumber lines k (s.dropWhile Char.isDigit)
        ((s.takeWhile Char.isDigit).foldlM pushDigit n) := by
  induction s generalizing n with
  | nil => exact stream_of_emit rfl ⟨nofun, nofun⟩
  | cons c s ih =>
    by_cases hc : c.isDigit = true
    · rw [List.takeWhile_cons_of_pos hc, List.dropWhile_cons_of_pos hc, List.foldlM_cons]
      cases hp : pushDigit n c with
      | some m =>
        have ht : turn ⟨lines, c :: s, k, b, .integer n⟩ = .again ⟨lines, s, k, b, .integer m⟩ := by
          simp [turn, pass, hc, hp]
        rw [stream_of_again ht, ih]
        rfl
      | none =>
        have ht : turn ⟨lines, c :: s, k, b, .integer n⟩ =
            refuse ⟨lines, c :: s, k, b, .integer n⟩ .overflow := by
          simp [turn, hc, hp]
        exact stream_of_refuse ht
    · have ht : turn ⟨lines, c :: s, k, b, .integer n⟩ =
          emit ⟨lines, c :: s, k, b, .integer n⟩ (.number n) := if_neg hc
      rw [stream_of_emit ht ⟨nofun, nofun⟩, List.takeWhile_cons_of_neg hc,
        List.dropWhile_cons_of_neg hc]
      rfl

/-- What is found if this is what stands up to the end of a text in quotation marks. -/
def resumeText (text : String) :
    Option (List Char × List Char) → List (Located (Except LexError Token))
  | some (more, rest) =>
    ⟨k, .ok (.text (text ++ String.ofList more))⟩ :: stream ⟨lines, rest, k, true, .start⟩
  | none => ⟨k, .error .unterminated⟩ :: stream ⟨lines, [], k, false, .start⟩

theorem resumeText_push (text : String) (c : Char) (found : Option (List Char × List Char)) :
    resumeText lines k (text.push c) found =
      resumeText lines k text (found.map fun (more, rest) => (c :: more, rest)) := by
  cases found with
  | none => rfl
  | some found =>
    have h : text.push c ++ String.ofList found.1 = text ++ String.ofList (c :: found.1) := by
      simp [← String.toList_inj]
    simp only [Option.map_some, resumeText, h]

theorem stream_quoted (text : String) (s : List Char) :
    stream ⟨lines, s, k, b, .quoted text false⟩ = resumeText lines k text (quoted s) := by
  fun_induction quoted s generalizing text with
  | case1 => exact stream_of_refuse rfl
  | case2 s =>
    have ht : turn ⟨lines, '"' :: s, k, b, .quoted text false⟩ =
        .again ⟨lines, s, k, b, .complete (.text text)⟩ := rfl
    rw [stream_of_again ht, stream_complete lines k b (isProper_text text)]
    simp [resumeText]
  | case3 =>
    have ht : turn ⟨lines, ['\\'], k, b, .quoted text false⟩ =
        .again ⟨lines, [], k, b, .quoted text true⟩ := rfl
    rw [stream_of_again ht]
    exact stream_of_refuse rfl
  | case4 d s _ ih =>
    have hb : turn ⟨lines, '\\' :: d :: s, k, b, .quoted text false⟩ =
        .again ⟨lines, d :: s, k, b, .quoted text true⟩ := rfl
    have he : turn ⟨lines, d :: s, k, b, .quoted text true⟩ =
        .again ⟨lines, s, k, b, .quoted (text.push (Text.escaped d)) false⟩ := rfl
    rw [stream_of_again hb, stream_of_again he, ih, resumeText_push]
  | case5 c s hq hb ih =>
    have ht : turn ⟨lines, c :: s, k, b, .quoted text false⟩ =
        .again ⟨lines, s, k, b, .quoted (text.push c) false⟩ := by
      unfold turn
      split <;> simp_all [pass]
    rw [stream_of_again ht, ih, resumeText_push]

/-- A lexer comes to another one by turns in which nothing is found. -/
inductive Passes : Lexer → Lexer → Prop
  | refl (lexer : Lexer) : Passes lexer lexer
  | again {lexer mid last : Lexer} (h : lexer.turn = .again mid) (hs : Passes mid last) :
      Passes lexer last

theorem passes_integer {w : List Char} {n m : UInt32} (hd : ∀ c ∈ w, c.isDigit = true)
    (h : w.foldlM pushDigit n = some m) (s : List Char) :
    Passes ⟨lines, w ++ s, k, b, .integer n⟩ ⟨lines, s, k, b, .integer m⟩ := by
  induction w generalizing n with
  | nil =>
    cases h
    exact .refl _
  | cons c w ih =>
    obtain ⟨hc, hd⟩ := List.forall_mem_cons.1 hd
    obtain ⟨next, hp, hm⟩ := Option.bind_eq_some_iff.1 h
    refine .again ?_ (ih hd hm)
    simp [turn, pass, hc, hp]

end States

section Lines

theorem begin_letter (h : isLetter c = true) :
    lexer.begin c = lexer.pass (.word (String.singleton c)) := by
  unfold begin
  split
  case h_11 => exact if_pos h
  all_goals exact absurd h (by decide)

theorem begin_digit (hl : ¬isLetter c = true) (h : c.isDigit = true) :
    lexer.begin c = .again { lexer with state := .integer 0 } := by
  unfold begin
  split
  case h_11 => rw [if_neg hl, if_pos h]
  all_goals exact absurd h (by decide)

theorem begin_blank (hl : ¬isLetter c = true) (hd : ¬c.isDigit = true) (h : isBlank c = true) :
    lexer.begin c = lexer.pass .start := by
  unfold begin
  split
  case h_11 => rw [if_neg hl, if_neg hd, if_pos h]
  all_goals exact absurd h (by decide)

theorem stream_sign (ht : IsProper token)
    (h : turn ⟨lines, c :: s, k, b, .start⟩ = .again ⟨lines, s, k, b, .complete token⟩) :
    stream ⟨lines, c :: s, k, b, .start⟩ = resume lines k b (.ok (some token, s)) := by
  rw [stream_of_again h, stream_complete lines k b ht]
  rfl

/-- An operator of one character has ended if no equals sign follows. -/
theorem turn_of_ne (h : ∀ rest, s ≠ '=' :: rest) :
    turn ⟨lines, s, k, b, .greater⟩ = emit ⟨lines, s, k, b, .greater⟩ .greater ∧
    turn ⟨lines, s, k, b, .less⟩ = emit ⟨lines, s, k, b, .less⟩ .less ∧
    turn ⟨lines, s, k, b, .bang⟩ = refuse ⟨lines, s, k, b, .bang⟩ (.unexpected '!') := by
  unfold turn
  refine ⟨?_, ?_, ?_⟩ <;> split <;> simp_all

theorem stream_operator {state : State} {short long : Token} (hs : IsProper short)
    (hl : IsProper long)
    (hlong : ∀ rest, turn ⟨lines, '=' :: rest, k, b, state⟩ =
      .again ⟨lines, rest, k, b, .complete long⟩)
    (hshort : (∀ rest, s ≠ '=' :: rest) →
      turn ⟨lines, s, k, b, state⟩ = emit ⟨lines, s, k, b, state⟩ short) :
    stream ⟨lines, s, k, b, state⟩ = resume lines k b
      (.ok (some (operator short long s).1, (operator short long s).2)) := by
  unfold operator
  split
  · next rest =>
    rw [stream_of_again (hlong rest), stream_complete lines k b hl]
    rfl
  · next hne => exact stream_of_emit (hshort hne) hs

/-- In front of digits the lexer takes one after the other, and holds what those that it has taken
come to. -/
theorem passes_accumulate {front back : List Char} {n : UInt32} (hn : front ++ back ≠ [])
    (hd : ∀ c ∈ front ++ back, c.isDigit = true) (h : accumulate front = some n) (s : List Char) :
    Passes ⟨lines, front ++ back ++ s, k, b, .start⟩ ⟨lines, back ++ s, k, b, .integer n⟩ := by
  have hf : ∀ c ∈ front, c.isDigit = true := fun c hc => hd c (List.mem_append_left back hc)
  have hi : Passes ⟨lines, front ++ back ++ s, k, b, .integer 0⟩
      ⟨lines, back ++ s, k, b, .integer n⟩ := by
    rw [List.append_assoc]
    exact passes_integer lines k b hf h (back ++ s)
  obtain ⟨c, digits, hc⟩ := List.exists_cons_of_ne_nil hn
  rw [hc] at hd hi ⊢
  obtain ⟨hc, -⟩ := List.forall_mem_cons.1 hd
  exact .again (begin_digit (not_isLetter_of_isDigit hc) hc) hi

/-- From the start of a lexeme on, the lexer finds what the line begins with. -/
theorem stream_lexeme (c : Char) (s : List Char) :
    stream ⟨lines, c :: s, k, b, .start⟩ = resume lines k b (lexeme c s) := by
  by_cases hl : isLetter c = true
  · have ht : turn ⟨lines, c :: s, k, b, .start⟩ =
        .again ⟨lines, s, k, b, .word (String.singleton c)⟩ := begin_letter hl
    rw [lexeme_letter hl, stream_of_again ht, stream_word, String.toList_singleton]
    rfl
  by_cases hd : c.isDigit = true
  · have ht : turn ⟨lines, c :: s, k, b, .start⟩ = .again ⟨lines, c :: s, k, b, .integer 0⟩ :=
      begin_digit hl hd
    rw [lexeme_digit hl hd, stream_of_again ht, stream_integer, List.takeWhile_cons_of_pos hd,
      List.dropWhile_cons_of_pos hd, number, accumulate]
    cases (c :: s.takeWhile Char.isDigit).foldlM pushDigit 0 <;> rfl
  by_cases hb : isBlank c = true
  · have ht : turn ⟨lines, c :: s, k, b, .start⟩ = .again ⟨lines, s, k, b, .start⟩ :=
      begin_blank hl hd hb
    rw [lexeme_blank hl hd hb, stream_of_again ht]
    rfl
  -- what is left are the signs, of which two need a look at the next character
  unfold lexeme
  rw [if_neg hl, if_neg hd, if_neg hb]
  split
  case h_6 =>
    have ht : turn ⟨lines, '>' :: s, k, b, .start⟩ = .again ⟨lines, s, k, b, .greater⟩ := rfl
    rw [stream_of_again ht]
    exact stream_operator lines k b ⟨nofun, nofun⟩ ⟨nofun, nofun⟩ (fun _ => rfl)
      fun h => (turn_of_ne lines k b h).1
  case h_7 =>
    have ht : turn ⟨lines, '<' :: s, k, b, .start⟩ = .again ⟨lines, s, k, b, .less⟩ := rfl
    rw [stream_of_again ht]
    exact stream_operator lines k b ⟨nofun, nofun⟩ ⟨nofun, nofun⟩ (fun _ => rfl)
      fun h => (turn_of_ne lines k b h).2.1
  case h_8 =>
    have ht : turn ⟨lines, '!' :: s, k, b, .start⟩ = .again ⟨lines, s, k, b, .bang⟩ := rfl
    rw [stream_of_again ht]
    split
    · next rest =>
      have he : turn ⟨lines, '=' :: rest, k, b, .bang⟩ =
          .again ⟨lines, rest, k, b, .complete .notEqual⟩ := rfl
      have hp : IsProper .notEqual := ⟨nofun, nofun⟩
      rw [stream_of_again he, stream_complete lines k b hp]
      rfl
    · next hne => exact stream_of_refuse (turn_of_ne lines k b hne).2.2
  case h_9 =>
    have ht : turn ⟨lines, '"' :: s, k, b, .start⟩ =
        .again ⟨lines, s, k, b, .quoted "" false⟩ := rfl
    rw [stream_of_again ht, stream_quoted]
    cases quoted s with
    | none => rfl
    | some found => rw [resumeText, String.empty_append, resume]
  case h_10 =>
    have ht : turn ⟨lines, ';' :: s, k, b, .start⟩ = .again ⟨lines, s, k, b, .comment⟩ := rfl
    rw [stream_of_again ht, stream_comment]
    rfl
  case h_11 =>
    have ht : turn ⟨lines, c :: s, k, b, .start⟩ =
        .found (.error (.unexpected c)) ⟨lines, s, k, b, .start⟩ := by
      change begin _ c = _
      unfold begin
      split <;> simp_all [refuse]
    exact stream_of_error ht
  all_goals exact stream_sign lines k b ⟨nofun, nofun⟩ rfl

/-- The end of a line without an error, where it is known whether there has been a token on it. -/
def ending : List (Located (Except LexError Token)) := if b then [⟨k, .ok .newline⟩] else []

theorem stream_ending :
    stream ⟨lines, [], k, b, .start⟩ = ending k b ++ stream ⟨lines, [], k, false, .start⟩ := by
  cases b with
  | false => rfl
  | true =>
    have ht : turn ⟨lines, [], k, true, .start⟩ =
        .found (.ok .newline) ⟨lines, [], k, false, .start⟩ := rfl
    exact stream_of_found ht

/-- From the start of a line on, or from behind any token of it, the lexer finds what is read of the
rest. At the end of the line it is at the start again, and no token of the line is remembered. -/
theorem stream_line (s : List Char) :
    stream ⟨lines, s, k, b, .start⟩ =
      ((lexLine s).1.map fun token => ⟨k, .ok token⟩) ++
        ((lexLine s).2.elim (ending k (b || !(lexLine s).1.isEmpty)) fun e => [⟨k, .error e⟩]) ++
        stream ⟨lines, [], k, false, .start⟩ := by
  fun_induction lexLine s generalizing b with
  | case1 => simpa using stream_ending lines k b
  | case2 c s e he =>
    rw [stream_lexeme, he]
    rfl
  | case3 c s token rest he =>
    rename_i ih
    rw [stream_lexeme, he]
    cases token with
    | none => exact ih b
    | some token => simpa [resume] using ih true

theorem stream_next (line : List Char) (index : Nat) :
    stream ⟨(line, index) :: lines, [], k, false, .start⟩ =
      lineItems (index + 1) line ++ stream ⟨lines, [], index + 1, false, .start⟩ := by
  have ht : turn ⟨(line, index) :: lines, [], k, false, .start⟩ =
      .again ⟨lines, Text.chomp line, index + 1, false, .start⟩ := rfl
  rw [stream_of_again ht, stream_line, lineItems]
  cases (lexLine (Text.chomp line)).2 with
  | some e => rfl
  | none => cases (lexLine (Text.chomp line)).1 <;> simp [ending]

/-- Line by line the lexer finds the items of the lines that are still to come, and at last the end
of the text. -/
theorem stream_lines (k : Nat) (lines : List (List Char)) :
    stream ⟨lines.zipIdx k, [], k, false, .start⟩ =
      itemsFrom (k + 1) lines ++ [⟨k + lines.length, .ok .eof⟩] := by
  induction lines generalizing k with
  | nil =>
    have ht : turn ⟨[], [], k, false, .start⟩ = .found (.ok .eof) ⟨[], [], k, false, .done⟩ := rfl
    have hd : stream ⟨[], [], k, false, .done⟩ = [] := stream_of_stop rfl
    exact (stream_of_found ht).trans (congrArg _ hd)
  | cons line lines ih =>
    have hn : k + 1 + lines.length = k + (lines.length + 1) := Nat.add_right_comm k 1 _
    rw [List.zipIdx_cons, stream_next, ih, itemsFrom, List.append_assoc, List.length_cons, hn]

end Lines

/-- The items of a text are those of its lines and one for its end. -/
theorem items_eq (source : String) : items source =
    itemsFrom 1 (Text.pieces source.toList) ++ [⟨source.toList.count '\n' + 1, .ok .eof⟩] := by
  rw [items, ofSource, stream_lines, Nat.zero_add, Nat.zero_add, Text.length_pieces]

end Octet.Lexer
