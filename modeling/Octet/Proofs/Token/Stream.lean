import Mathlib.Data.List.Forall2
import Octet.Proofs.Token.Turns

namespace Octet

/-- The same, a number of lines further down. -/
def Located.lower {α : Type} (lines : Nat) (a : Located α) : Located α := ⟨a.line + lines, a.val⟩

namespace Lexer

variable {c : Char} {s w v rest : List Char} {tokens : List Token} {e : LexError}

section Cut

variable {p : Char → Bool}

/-- A run of characters is read to its end, and no further. -/
theorem span_append (hw : ∀ a ∈ w, p a = true) (hs : ∀ a ∈ s.head?, p a = false) :
    (w ++ s).takeWhile p = w ∧ (w ++ s).dropWhile p = s := by
  rw [List.takeWhile_append_of_pos hw, List.dropWhile_append_of_pos hw]
  cases s with
  | nil => exact ⟨List.append_nil w, rfl⟩
  | cons a s => simp [hs a rfl]

theorem head?_of_prefix_dropWhile (h : v <+: s.dropWhile p) : ∀ a ∈ v.head?, p a = false := by
  intro a ha
  obtain ⟨t, ht⟩ := h
  have hh := List.head?_dropWhile_not p s
  rw [← ht, List.head?_append, ha] at hh
  simpa using hh

/-- What a run of characters ends at may be cut off anywhere behind the run. -/
theorem takeWhile_cut (h : v <+: s.dropWhile p) :
    (s.takeWhile p ++ v).takeWhile p = s.takeWhile p ∧ (s.takeWhile p ++ v).dropWhile p = v :=
  span_append (fun _ => List.mem_takeWhile_imp) (head?_of_prefix_dropWhile h)

theorem quoted_cut {text : List Char} (h : quoted s = some (text, rest)) :
    ∃ w, s = w ++ rest ∧ ∀ v, quoted (w ++ v) = some (text, v) := by
  fun_induction quoted s generalizing text rest with
  | case1 => cases h
  | case2 s =>
    cases h
    exact ⟨['"'], rfl, quoted_close⟩
  | case3 => cases h
  | case4 d s hq ih =>
    obtain ⟨⟨t, r⟩, hr, he⟩ := Option.map_eq_some_iff.1 h
    cases he
    obtain ⟨w, rfl, hw⟩ := ih hr
    exact ⟨'\\' :: d :: w, rfl, fun v => by simp [quoted_escape, hw]⟩
  | case5 c s hq hb ih =>
    obtain ⟨⟨t, r⟩, hr, he⟩ := Option.map_eq_some_iff.1 h
    cases he
    obtain ⟨w, rfl, hw⟩ := ih hr
    exact ⟨c :: w, rfl, fun v => by simp [quoted_cons hq hb, hw]⟩

theorem operator_cut (short long : Token) (s : List Char) :
    ∃ w, s = w ++ (operator short long s).2 ∧ ∀ v, v <+: (operator short long s).2 →
      operator short long (w ++ v) = ((operator short long s).1, v) := by
  unfold operator
  split
  · next s => exact ⟨['='], rfl, fun v _ => rfl⟩
  · next hs =>
    refine ⟨[], rfl, fun v hv => ?_⟩
    split
    · next v he =>
      obtain ⟨t, rfl⟩ := hv
      obtain rfl : _ = '=' :: v := he
      exact absurd rfl (hs (v ++ t))
    · rfl

/-- What a line begins with is read alike if the rest of the line is cut short. -/
theorem lexeme_cut {token : Option Token} (h : lexeme c s = .ok (token, rest)) :
    ∃ w, s = w ++ rest ∧ ∀ v, v <+: rest → lexeme c (w ++ v) = .ok (token, v) := by
  by_cases hl : isLetter c = true
  · rw [lexeme_letter hl] at h
    cases h
    refine ⟨_, List.takeWhile_append_dropWhile.symm, fun v hv => ?_⟩
    obtain ⟨ht, hd⟩ := takeWhile_cut hv
    rw [lexeme_letter hl, ht, hd]
  by_cases hd : c.isDigit = true
  · rw [lexeme_digit hl hd] at h
    cases hn : number (c :: s.takeWhile Char.isDigit) with
    | error e =>
      rw [hn] at h
      cases h
    | ok t =>
    rw [hn] at h
    cases h
    refine ⟨_, List.takeWhile_append_dropWhile.symm, fun v hv => ?_⟩
    obtain ⟨ht, hr⟩ := takeWhile_cut hv
    rw [lexeme_digit hl hd, ht, hr, hn]
    rfl
  by_cases hb : isBlank c = true
  · rw [lexeme_blank hl hd hb] at h
    cases h
    exact ⟨[], rfl, fun v _ => lexeme_blank hl hd hb v⟩
  unfold lexeme at h
  rw [if_neg hl, if_neg hd, if_neg hb] at h
  split at h
  case h_6 =>
    cases h
    obtain ⟨w, hw, hv⟩ := operator_cut .greater .greaterOrEqual s
    exact ⟨w, hw, fun v h => by rw [lexeme_greater, hv v h]; rfl⟩
  case h_7 =>
    cases h
    obtain ⟨w, hw, hv⟩ := operator_cut .less .lessOrEqual s
    exact ⟨w, hw, fun v h => by rw [lexeme_less, hv v h]; rfl⟩
  case h_8 =>
    split at h <;> cases h
    exact ⟨['='], rfl, fun v _ => rfl⟩
  case h_9 =>
    split at h <;> cases h
    obtain ⟨w, rfl, hw⟩ := quoted_cut ‹_›
    exact ⟨w, rfl, fun v _ => lexeme_quote (hw v)⟩
  case h_10 =>
    cases h
    refine ⟨s, (List.append_nil s).symm, fun v hv => ?_⟩
    obtain rfl := List.prefix_nil.1 hv
    rfl
  case h_11 => cases h
  all_goals
    cases h
    exact ⟨[], rfl, fun v _ => rfl⟩

end Cut

/-- A line with an error falls into what is read as if the line ended before the error, and what
begins with the error. -/
theorem lexLine_cut (h : lexLine s = (tokens, some e)) :
    ∃ before after, s = before ++ after ∧ lexLine before = (tokens, none) ∧
      lexLine after = ([], some e) := by
  fun_induction lexLine s generalizing tokens with
  | case1 => cases h
  | case2 c s e' he =>
    cases h
    exact ⟨[], c :: s, rfl, lexLine_nil, lexLine_error he⟩
  | case3 c s token rest he =>
    rename_i ih
    obtain ⟨w, rfl, hw⟩ := lexeme_cut he
    obtain ⟨rfl, hl⟩ := Prod.mk.inj h
    obtain ⟨before, after, rfl, hb, ha⟩ := ih (Prod.ext rfl hl)
    have hc := hw before (List.prefix_append before after)
    refine ⟨c :: (w ++ before), after, by simp, ?_, ha⟩
    rw [lexLine_ok hc, hb]

/-- What a line contributes under its number: nothing, or its tokens and its end, or the tokens of
the part before its error and the error that the rest of it begins with. -/
inductive Contributes (number : Nat) (line : List Char) :
    List (Located (Except LexError Token)) → Prop
  | blank (hl : lexLine line = ([], none)) : Contributes number line []
  | tokens {tokens : List Token} (hl : lexLine line = (tokens, none)) (hn : tokens ≠ [])
      (ht : ∀ token ∈ tokens, IsProper token) :
      Contributes number line (tokens.map (fun token => ⟨number, .ok token⟩) ++
        [⟨number, .ok .newline⟩])
  | broken {before after : List Char} {tokens : List Token} {e : LexError}
      (hl : line = before ++ after) (hb : lexLine before = (tokens, none))
      (ha : lexLine after = ([], some e))
      (ht : ∀ token ∈ tokens, IsProper token) :
      Contributes number line (tokens.map (fun token => ⟨number, .ok token⟩) ++
        [⟨number, .error e⟩])

theorem contributes_lineItems (number : Nat) (line : List Char) :
    Contributes number (Text.chomp line) (lineItems number line) := by
  have ht := isProper_lexLine (Text.chomp line)
  rcases hl : lexLine (Text.chomp line) with ⟨tokens, error⟩
  rw [hl] at ht
  unfold lineItems
  rw [hl]
  cases error with
  | some e =>
    obtain ⟨before, after, hc, hb, ha⟩ := lexLine_cut hl
    exact .broken hc hb ha ht
  | none =>
    cases tokens with
    | nil => exact .blank hl
    | cons token tokens => exact .tokens hl nofun ht

theorem ne_eof_of_contributes {number : Nat} {line : List Char}
    {part : List (Located (Except LexError Token))} (h : Contributes number line part) :
    ∀ item ∈ part, item.val ≠ .ok .eof := by
  intro item hi he
  cases h with
  | blank => cases hi
  | tokens hl hn ht | broken hl hb ha ht =>
    simp only [List.mem_append, List.mem_map, List.mem_singleton] at hi
    obtain ⟨token, hm, rfl⟩ | rfl := hi
    · exact (ht token hm).2 (Except.ok.inj he)
    · cases he

theorem itemsFrom_eq (number : Nat) (lines : List (List Char)) :
    itemsFrom number lines =
      ((lines.zipIdx number).map fun (line, number) => lineItems number line).flatten := by
  induction lines generalizing number with
  | nil => rfl
  | cons line lines ih => simp [itemsFrom, ih]

theorem itemsFrom_append (number : Nat) (lines more : List (List Char)) :
    itemsFrom number (lines ++ more) =
      itemsFrom number lines ++ itemsFrom (number + lines.length) more := by
  induction lines generalizing number with
  | nil => rfl
  | cons line lines ih =>
    rw [List.cons_append, itemsFrom, itemsFrom, ih, List.append_assoc, List.length_cons,
      Nat.add_right_comm, Nat.add_assoc]

theorem lineItems_lower (number lines : Nat) (line : List Char) :
    lineItems (number + lines) line = (lineItems number line).map (Located.lower lines) := by
  rcases hl : lexLine (Text.chomp line) with ⟨tokens, error⟩
  unfold lineItems
  rw [hl]
  cases error with
  | some e => simp [Located.lower]
  | none => cases tokens <;> simp [Located.lower]

theorem itemsFrom_lower (number count : Nat) (lines : List (List Char)) :
    itemsFrom (number + count) lines = (itemsFrom number lines).map (Located.lower count) := by
  induction lines generalizing number with
  | nil => rfl
  | cons line lines ih =>
    rw [itemsFrom, itemsFrom, Nat.add_right_comm, ih, lineItems_lower, List.map_append]

theorem items_append (a b : String) : items (a ++ "\n" ++ b) =
    (items a).dropLast ++ (items b).map (Located.lower (a.toList.count '\n' + 1)) := by
  have hs : (a ++ "\n" ++ b).toList = a.toList ++ '\n' :: b.toList := by simp
  rw [items_eq, items_eq, items_eq, hs, Text.pieces_append, itemsFrom_append, Text.length_pieces,
    itemsFrom_lower, List.dropLast_concat, List.map_append, List.append_assoc, List.count_append,
    List.count_cons_self]
  simp [Located.lower, Nat.add_comm, Nat.add_left_comm, Nat.add_assoc]

/-- A line contributes the same wherever it stands. -/
theorem items_of_line (number : Nat) {line : List Char} (h : '\n' ∉ line) :
    (lineItems number line).map Located.val =
      (items (String.ofList line)).dropLast.map Located.val := by
  have hi : items (String.ofList line) = lineItems 1 line ++ [⟨1, .ok .eof⟩] := by
    rw [items_eq, String.toList_ofList, Text.pieces_of_not_mem h, List.count_eq_zero_of_not_mem h,
      itemsFrom, itemsFrom, List.append_nil]
  have hl : ∀ number,
      (lineItems number line).map Located.val = (lineItems 0 line).map Located.val := by
    intro number
    have hn := lineItems_lower 0 number line
    rw [Nat.zero_add] at hn
    rw [hn, List.map_map]
    rfl
  rw [hi, List.dropLast_concat, hl number, hl 1]

theorem forall₂_contributes (number : Nat) {lines : List (List Char)}
    (hn : ∀ line ∈ lines, '\n' ∉ line) :
    List.Forall₂ (fun line part => Contributes line.2 (Text.chomp line.1) part ∧
        part.map Located.val = (items (String.ofList line.1)).dropLast.map Located.val)
      (lines.zipIdx number)
      ((lines.zipIdx number).map fun (line, number) => lineItems number line) := by
  rw [List.forall₂_map_right_iff, List.forall₂_same]
  intro line hl
  exact ⟨contributes_lineItems line.2 line.1,
    items_of_line line.2 (hn line.1 (List.fst_mem_of_mem_zipIdx hl))⟩

section Errors

variable {stream : List (Located (Except LexError Token))}

theorem collect_eq_ok_iff {before tokens : List (Located Token)} :
    collect before stream = .ok tokens ↔
      ∃ behind, tokens = before.reverse ++ behind ∧ stream = behind.map (Located.map .ok) := by
  induction stream generalizing before with
  | nil =>
    constructor
    · intro h
      cases h
      exact ⟨[], (List.append_nil _).symm, rfl⟩
    · rintro ⟨behind, rfl, h⟩
      obtain rfl := List.map_eq_nil_iff.1 h.symm
      rw [List.append_nil]
      rfl
  | cons item stream ih =>
    obtain ⟨line, val⟩ := item
    cases val with
    | error e =>
      refine ⟨nofun, ?_⟩
      rintro ⟨behind, -, h⟩
      cases behind with
      | nil => cases h
      | cons token behind => cases (List.cons.inj h).1
    | ok token =>
      rw [collect, ih]
      constructor
      · rintro ⟨behind, rfl, rfl⟩
        exact ⟨⟨line, token⟩ :: behind, by simp, rfl⟩
      · rintro ⟨behind, rfl, h⟩
        cases behind with
        | nil => cases h
        | cons found behind =>
          obtain ⟨hf, rfl⟩ := List.cons.inj h
          obtain rfl : found = ⟨line, token⟩ := by
            cases hf
            rfl
          exact ⟨behind, by simp, rfl⟩

theorem collect_eq_error_iff {before : List (Located Token)} {es : List (Located LexError)} :
    collect before stream = .error es ↔ es ≠ [] ∧ errors stream = es := by
  induction stream generalizing before with
  | nil =>
    refine ⟨nofun, ?_⟩
    rintro ⟨hn, rfl⟩
    exact absurd rfl hn
  | cons item stream ih =>
    obtain ⟨line, val⟩ := item
    cases val with
    | ok token => exact ih
    | error e =>
      constructor
      · intro h
        cases h
        exact ⟨nofun, rfl⟩
      · rintro ⟨-, rfl⟩
        rfl

theorem tokenize_eq_ok_iff {source : String} {tokens : List (Located Token)} :
    tokenize source = .ok tokens ↔ items source = tokens.map (Located.map .ok) := by
  rw [tokenize, collect_eq_ok_iff]
  constructor
  · rintro ⟨behind, rfl, h⟩
    exact h
  · intro h
    exact ⟨tokens, rfl, h⟩

theorem tokenize_eq_error_iff {source : String} {es : List (Located LexError)} :
    tokenize source = .error es ↔ es ≠ [] ∧ errors (items source) = es :=
  collect_eq_error_iff

/-- The tokens of a text end in the mark of its end. -/
theorem tokens_of_tokenize {source : String} {tokens : List (Located Token)}
    (h : tokenize source = .ok tokens) : ∃ front line, tokens = front ++ [⟨line, .eof⟩] := by
  have hi := tokenize_eq_ok_iff.1 h
  rw [items_eq] at hi
  obtain ⟨front, last, rfl, -, hl⟩ := List.map_eq_append_iff.1 hi.symm
  obtain ⟨token, more, rfl, ht, hn⟩ := List.map_eq_cons_iff.1 hl
  obtain rfl := List.map_eq_nil_iff.1 hn
  obtain ⟨line, val⟩ := token
  cases ht
  exact ⟨front, _, rfl⟩

end Errors

/-- Lines are read one by one, and at the end of each the lexer has forgotten it. A line between two
texts parts their items, each line of a text contributes its own, which it contributes alone as
well, and the end of the text comes once and last. -/
theorem items_by_line :
    (∀ a b : String, items (a ++ "\n" ++ b) =
      (items a).dropLast ++ (items b).map (Located.lower (a.toList.count '\n' + 1))) ∧
    (∀ source : String, ∃ parts,
      items source = parts.flatten ++ [⟨source.toList.count '\n' + 1, .ok .eof⟩] ∧
      (∀ item ∈ parts.flatten, item.val ≠ .ok .eof) ∧
      List.Forall₂ (fun line part => Contributes line.2 (Text.chomp line.1) part ∧
          part.map Located.val = (items (String.ofList line.1)).dropLast.map Located.val)
        ((Text.pieces source.toList).zipIdx 1) parts) ∧
    (∀ source tokens, tokenize source = .ok tokens ↔
      items source = tokens.map (Located.map .ok)) ∧
    ∀ source es, tokenize source = .error es ↔ es ≠ [] ∧ errors (items source) = es := by
  refine ⟨items_append, fun source => ?_, fun _ _ => tokenize_eq_ok_iff,
    fun _ _ => tokenize_eq_error_iff⟩
  have hf := forall₂_contributes 1 fun _ => Text.newline_notMem_of_mem_pieces (s := source.toList)
  refine ⟨_, by rw [items_eq, itemsFrom_eq], fun item hi => ?_, hf⟩
  obtain ⟨part, hp, hi⟩ := List.mem_flatten.1 hi
  obtain ⟨line, -, rfl⟩ := List.mem_map.1 hp
  exact ne_eof_of_contributes (contributes_lineItems line.2 line.1) item hi

end Lexer

end Octet
