import Octet.Token.Lexer

namespace Octet.Lexer

/-- The number that digits come to, one after another, as long as there is room for it. -/
def accumulate (digits : List Char) : Option UInt32 := digits.foldlM pushDigit 0

def number (digits : List Char) : Except LexError Token :=
  match accumulate digits with
  | some n => .ok (.number n)
  | none => .error .overflow

/-- The text up to the quotation mark that closes it, and what follows. -/
def quoted : List Char → Option (List Char × List Char)
  | [] => none
  | c :: s =>
    if c = '"' then some ([], s)
    else if c = '\\' then
      match s with
      | [] => none
      | d :: s => (quoted s).map fun (text, rest) => (Text.escaped d :: text, rest)
    else (quoted s).map fun (text, rest) => (c :: text, rest)

/-- An operator of one character, or of two if an equals sign follows. -/
def operator (short long : Token) : List Char → Token × List Char
  | '=' :: s => (long, s)
  | s => (short, s)

/-- What a line begins with, where a blank and a comment are no token, and the rest of the line. -/
def lexeme (c : Char) (s : List Char) : Except LexError (Option Token × List Char) :=
  if isLetter c then .ok (word (c :: s.takeWhile isWordChar), s.dropWhile isWordChar)
  else if c.isDigit then do
    let token ← number (c :: s.takeWhile Char.isDigit)
    return (token, s.dropWhile Char.isDigit)
  else if isBlank c then .ok (none, s)
  else
    match c with
    | '=' => .ok (some .equal, s)
    | '+' => .ok (some .plus, s)
    | '-' => .ok (some .minus, s)
    | '*' => .ok (some .times, s)
    | '/' => .ok (some .slash, s)
    | '>' => let (token, rest) := operator .greater .greaterOrEqual s; .ok (token, rest)
    | '<' => let (token, rest) := operator .less .lessOrEqual s; .ok (token, rest)
    | '!' =>
      match s with
      | '=' :: rest => .ok (some .notEqual, rest)
      | _ => .error (.unexpected '!')
    | '"' =>
      match quoted s with
      | some (text, rest) => .ok (some (.text (String.ofList text)), rest)
      | none => .error .unterminated
    | ';' => .ok (none, [])
    | c => .error (.unexpected c)

theorem length_dropWhile_le {α : Type} (p : α → Bool) (l : List α) :
    (l.dropWhile p).length ≤ l.length :=
  (List.dropWhile_suffix p).length_le

theorem length_of_quoted {s text rest : List Char} (h : quoted s = some (text, rest)) :
    rest.length ≤ s.length := by
  fun_induction quoted s generalizing text rest with
  | case1 => cases h
  | case2 s => cases h; simp
  | case3 => cases h
  | case4 d s _ ih =>
    obtain ⟨⟨t, r⟩, hr, he⟩ := Option.map_eq_some_iff.1 h
    cases he
    have := ih hr
    simp; omega
  | case5 c s _ _ ih =>
    obtain ⟨⟨t, r⟩, hr, he⟩ := Option.map_eq_some_iff.1 h
    cases he
    have := ih hr
    simp; omega

theorem length_operator_le (short long : Token) (s : List Char) :
    (operator short long s).2.length ≤ s.length := by
  unfold operator
  split <;> simp

theorem length_of_lexeme {c : Char} {s rest : List Char} {token : Option Token}
    (h : lexeme c s = .ok (token, rest)) : rest.length ≤ s.length := by
  unfold lexeme at h
  split at h
  · cases h; exact length_dropWhile_le ..
  split at h
  · cases hn : number (c :: s.takeWhile Char.isDigit) with
    | error e => simp [hn, bind, Except.bind] at h
    | ok t =>
      simp only [hn, bind, Except.bind, pure, Except.pure, Except.ok.injEq, Prod.mk.injEq] at h
      rw [← h.2]; exact length_dropWhile_le ..
  split at h
  · cases h; exact Nat.le_refl _
  split at h
  case h_9 => split at h <;> cases h; exact length_of_quoted ‹_›
  case h_8 => split at h <;> cases h; simp
  case h_6 | h_7 => cases h; exact length_operator_le ..
  all_goals cases h <;> simp

/-- The tokens of a line up to its end or its first error. -/
def lexLine : List Char → List Token × Option LexError
  | [] => ([], none)
  | c :: s =>
    match h : lexeme c s with
    | .error e => ([], some e)
    | .ok (token, rest) =>
      have := length_of_lexeme h
      let line := lexLine rest
      (token.toList ++ line.1, line.2)
termination_by s => s.length

/-- The items of one line. A line without an error ends in a token of its own unless it has none. -/
def lineItems (number : Nat) (s : List Char) : List (Located (Except LexError Token)) :=
  let line := lexLine (Text.chomp s)
  line.1.map (fun token => ⟨number, .ok token⟩) ++
    match line.2 with
    | some e => [⟨number, .error e⟩]
    | none => if line.1.isEmpty then [] else [⟨number, .ok .newline⟩]

def itemsFrom (number : Nat) : List (List Char) → List (Located (Except LexError Token))
  | [] => []
  | line :: lines => lineItems number line ++ itemsFrom (number + 1) lines

variable {c : Char} {s rest : List Char} {e : LexError}

section Equations

theorem quoted_close (s : List Char) : quoted ('"' :: s) = some ([], s) := by
  conv => lhs; unfold quoted
  exact if_pos rfl

theorem quoted_escape (d : Char) (s : List Char) :
    quoted ('\\' :: d :: s) =
      (quoted s).map fun (text, rest) => (Text.escaped d :: text, rest) := by
  conv => lhs; unfold quoted
  rw [if_neg (by decide), if_pos rfl]

theorem quoted_cons {c : Char} (hq : c ≠ '"') (hb : c ≠ '\\') (s : List Char) :
    quoted (c :: s) = (quoted s).map fun (text, rest) => (c :: text, rest) := by
  conv => lhs; unfold quoted
  rw [if_neg hq, if_neg hb]

theorem lexeme_letter (h : isLetter c = true) (s : List Char) :
    lexeme c s = .ok (word (c :: s.takeWhile isWordChar), s.dropWhile isWordChar) := by
  unfold lexeme
  exact if_pos h

theorem not_isLetter_of_isDigit (h : c.isDigit = true) : ¬isLetter c = true := by
  intro hl
  obtain ⟨hn, hm⟩ := Char.isDigit_iff_toNat.1 h
  change ((decide (65 ≤ c.val ∧ c.val ≤ 90) || (decide (97 ≤ c.val) && decide (c.val ≤ 122))) ||
    c == '_') = true at hl
  simp only [UInt32.le_iff_toNat_le, Bool.or_eq_true, Bool.and_eq_true, decide_eq_true_eq,
    beq_iff_eq, Char.toNat_val] at hl
  obtain hl | rfl := hl
  · simp at hn hm hl
    omega
  · exact absurd h (by decide)

theorem lexeme_digit (hl : ¬isLetter c = true) (h : c.isDigit = true) (s : List Char) :
    lexeme c s = (number (c :: s.takeWhile Char.isDigit)).map fun token =>
      (some token, s.dropWhile Char.isDigit) := by
  unfold lexeme
  rw [if_neg hl, if_pos h]
  cases number (c :: s.takeWhile Char.isDigit) <;> rfl

theorem lexeme_blank (hl : ¬isLetter c = true) (hd : ¬c.isDigit = true) (h : isBlank c = true)
    (s : List Char) : lexeme c s = .ok (none, s) := by
  unfold lexeme
  rw [if_neg hl, if_neg hd, if_pos h]

theorem lexeme_greater (s : List Char) : lexeme '>' s =
    .ok ((operator .greater .greaterOrEqual s).1, (operator .greater .greaterOrEqual s).2) := rfl

theorem lexeme_less (s : List Char) : lexeme '<' s =
    .ok ((operator .less .lessOrEqual s).1, (operator .less .lessOrEqual s).2) := rfl

theorem lexeme_quote {text : List Char} (h : quoted s = some (text, rest)) :
    lexeme '"' s = .ok (some (.text (String.ofList text)), rest) := by
  unfold lexeme
  rw [if_neg (by decide), if_neg (by decide), if_neg (by decide)]
  dsimp only
  rw [h]
  rfl

theorem lexLine_nil : lexLine [] = ([], none) := by
  rw [lexLine]

theorem lexLine_error (h : lexeme c s = .error e) : lexLine (c :: s) = ([], some e) := by
  rw [lexLine]
  split <;> simp_all

theorem lexLine_ok {token : Option Token} (h : lexeme c s = .ok (token, rest)) :
    lexLine (c :: s) = (token.toList ++ (lexLine rest).1, (lexLine rest).2) := by
  rw [lexLine]
  split <;> simp_all

end Equations

section Proper

/-- A token that a line is made of, and no mark of its end. -/
def IsProper (token : Token) : Prop := token ≠ .newline ∧ token ≠ .eof

theorem isProper_text (s : String) : IsProper (.text s) := ⟨nofun, nofun⟩

theorem isProper_word (w : List Char) : IsProper (word w) := by
  unfold word
  split <;> exact ⟨nofun, nofun⟩

theorem isProper_number {digits : List Char} {token : Token} (h : number digits = .ok token) :
    IsProper token := by
  unfold number at h
  split at h
  · cases h
    exact ⟨nofun, nofun⟩
  · cases h

theorem isProper_operator {short long : Token} (hs : IsProper short) (hl : IsProper long)
    (s : List Char) : IsProper (operator short long s).1 := by
  unfold operator
  split
  · exact hl
  · exact hs

theorem isProper_lexeme {token : Token} (h : lexeme c s = .ok (some token, rest)) :
    IsProper token := by
  by_cases hl : isLetter c = true
  · rw [lexeme_letter hl] at h
    cases h
    exact isProper_word _
  by_cases hd : c.isDigit = true
  · rw [lexeme_digit hl hd] at h
    cases hn : number (c :: s.takeWhile Char.isDigit) with
    | error e =>
      rw [hn] at h
      cases h
    | ok t =>
      rw [hn] at h
      cases h
      exact isProper_number hn
  by_cases hb : isBlank c = true
  · rw [lexeme_blank hl hd hb] at h
    cases h
  unfold lexeme at h
  rw [if_neg hl, if_neg hd, if_neg hb] at h
  split at h
  case h_6 =>
    cases h
    have hs : IsProper .greater := ⟨nofun, nofun⟩
    exact isProper_operator hs (show IsProper .greaterOrEqual from ⟨nofun, nofun⟩) s
  case h_7 =>
    cases h
    have hs : IsProper .less := ⟨nofun, nofun⟩
    exact isProper_operator hs (show IsProper .lessOrEqual from ⟨nofun, nofun⟩) s
  case h_8 | h_9 =>
    split at h <;> cases h
    exact ⟨nofun, nofun⟩
  all_goals
    cases h
    try exact ⟨nofun, nofun⟩

theorem isProper_lexLine (s : List Char) : ∀ token ∈ (lexLine s).1, IsProper token := by
  fun_induction lexLine s with
  | case1 => nofun
  | case2 => nofun
  | case3 c s token rest he =>
    rename_i ih
    intro t ht
    obtain ht | ht := List.mem_append.1 ht
    · obtain rfl : token = some t := by simpa using ht
      exact isProper_lexeme he
    · exact ih t ht

end Proper

end Octet.Lexer
