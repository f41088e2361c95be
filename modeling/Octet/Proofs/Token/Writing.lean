import Mathlib
import Octet.Proofs.Assembly.Forms
import Octet.Proofs.Text.Pieces
import Octet.Proofs.Token.Digits

namespace Octet

namespace Keyword

variable {w : List Char} {k : Keyword} {c : Char}

theorem named?_eq_some_iff : named? w = some k ↔ w.map Char.toUpper = k.name.toList := by
  constructor
  · intro h
    have hw := List.find?_some h
    exact (beq_iff_eq.1 hw).symm
  · intro h
    have hn : ∀ k : Keyword, k.name.toList.map Char.toUpper = k.name.toList := by
      intro k
      cases k <;> decide
    have hw : named? w = named? k.name.toList := by
      rw [named?, named?, h, hn]
    rw [hw, named?_name]

theorem isUpper_of_mem_name (h : c ∈ k.name.toList) : c.isUpper = true := by
  have ha : ∀ k : Keyword, k.name.toList.all Char.isUpper = true := by
    intro k
    cases k <;> decide
  exact List.all_eq_true.1 (ha k) c h

end Keyword

namespace Token

def sign? : Token → Option String
  | equal => some "="
  | notEqual => some "!="
  | greater => some ">"
  | less => some "<"
  | greaterOrEqual => some ">="
  | lessOrEqual => some "<="
  | plus => some "+"
  | minus => some "-"
  | times => some "*"
  | slash => some "/"
  | _ => none

/-- A token as it may be written: a keyword in capital or small letters, a number with any zeros in
front, a text in quotation marks or, if it is a word and no keyword, without them. -/
inductive Spells : Token → List Char → Prop
  | keyword {k : Keyword} {w : List Char} (h : w.map Char.toUpper = k.name.toList) :
      Spells (.keyword k) w
  | number (n : UInt32) (zeros : Nat) :
      Spells (.number n) (List.replicate zeros '0' ++ Nat.toDigits 10 n.toNat)
  | quoted (s : String) : Spells (.text s) ('"' :: (Text.escape s.toList ++ ['"']))
  | bare {c : Char} {w : List Char} (hc : c.isAlpha = true ∨ c = '_')
      (hw : ∀ d ∈ w, d.isAlphanum = true ∨ d = '_')
      (hk : ∀ k : Keyword, (c :: w).map Char.toUpper ≠ k.name.toList) :
      Spells (.text (String.ofList (c :: w))) (c :: w)
  | sign {token : Token} {sign : String} (h : token.sign? = some sign) : Spells token sign.toList

end Token

namespace Lexer

variable {s w gap rest : List Char} {token : Token} {tokens : List Token} {c : Char}

/-- Blanks inside a line. -/
def IsSpace (s : List Char) : Prop := ∀ c ∈ s, c = ' ' ∨ c = '\t' ∨ c = '\x0c' ∨ c = '\r'

/-- Tokens as they may be written, with blanks between any two of them, and a comment behind. -/
inductive Spaced : List Token → List Char → Prop
  | nil {s : List Char} (h : Text.IsComment s) : Spaced [] s
  | cons {token : Token} {w gap s : List Char} {tokens : List Token} (hw : token.Spells w)
      (hg : IsSpace gap) (hn : tokens ≠ [] → gap ≠ []) (h : Spaced tokens s) :
      Spaced (token :: tokens) (w ++ (gap ++ s))

/-- A line of tokens, in front of which there may be blanks, too. -/
def Written (tokens : List Token) (line : List Char) : Prop :=
  ∃ gap s, IsSpace gap ∧ Spaced tokens s ∧ line = gap ++ s

/-- What may stand behind a token. -/
def Parts (s : List Char) : Prop :=
  ∀ c ∈ s.head?, c = ' ' ∨ c = '\t' ∨ c = '\x0c' ∨ c = '\r' ∨ c = ';'

section Lexeme

theorem head?_of_parts {p : Char → Bool} (hp : [' ', '\t', '\x0c', '\r', ';'].any p = false)
    (hs : Parts s) : ∀ c ∈ s.head?, p c = false := by
  intro c hc
  have hm : c ∈ [' ', '\t', '\x0c', '\r', ';'] := by simpa using hs c hc
  exact Bool.eq_false_iff.2 (List.any_eq_false.1 hp c hm)

theorem lexeme_word (hc : isLetter c = true) (hw : ∀ d ∈ w, isWordChar d = true) (hs : Parts s) :
    lexeme c (w ++ s) = .ok (some (word (c :: w)), s) := by
  obtain ⟨ht, hd⟩ := span_append hw (head?_of_parts rfl hs)
  rw [lexeme_letter hc, ht, hd]

theorem quoted_of_escapes {body text : List Char} (h : Text.Escapes body text) (s : List Char) :
    quoted (body ++ '"' :: s) = some (text, s) := by
  induction h with
  | nil => exact quoted_close s
  | plain hq hb _ ih => rw [List.cons_append, quoted_cons hq hb, ih]; rfl
  | escaped c _ ih => rw [List.cons_append, List.cons_append, quoted_escape, ih]; rfl

theorem isLetter_of_or (h : c.isAlpha = true ∨ c = '_') : isLetter c = true := by
  simpa [isLetter] using h

theorem isWordChar_of_or (h : c.isAlphanum = true ∨ c = '_') : isWordChar c = true := by
  simpa [isWordChar] using h

/-- The letters of a keyword are letters in any spelling. -/
theorem isAlpha_of_spelling {k : Keyword} (h : w.map Char.toUpper = k.name.toList) :
    ∀ c ∈ w, c.isAlpha = true := by
  intro c hc
  have hm : c.toUpper ∈ k.name.toList := h ▸ List.mem_map_of_mem hc
  rw [← Char.isUpper_toUpper_eq_isAlpha]
  exact Keyword.isUpper_of_mem_name hm

theorem isDigit_of_mem_zeros {zeros n : Nat}
    (h : c ∈ List.replicate zeros '0' ++ Nat.toDigits 10 n) : c.isDigit = true := by
  obtain h | h := List.mem_append.1 h
  · rw [List.eq_of_mem_replicate h]
    rfl
  · exact Text.isDigit_of_mem_digits h

theorem decimal_zeros (zeros n : Nat) :
    Text.decimal (List.replicate zeros '0' ++ Nat.toDigits 10 n) = n := by
  rw [Text.decimal, Nat.ofDigitChars_append, Nat.ofDigitChars_replicate_zero, Nat.mul_zero,
    Nat.ofDigitChars_ten_toDigits]

theorem number_zeros (zeros : Nat) (n : UInt32) :
    number (List.replicate zeros '0' ++ Nat.toDigits 10 n.toNat) = .ok (.number n) :=
  (number_eq_ok_iff fun _ => isDigit_of_mem_zeros).2 (decimal_zeros zeros n.toNat).symm

theorem lexeme_number (hn : number (c :: w) = .ok token)
    (hd : ∀ d ∈ c :: w, d.isDigit = true) (hs : Parts s) :
    lexeme c (w ++ s) = .ok (some token, s) := by
  rw [lexeme_digits hd (head?_of_parts rfl hs), hn]
  rfl

theorem operator_of_parts (short long : Token) (hs : Parts s) :
    operator short long s = (short, s) := by
  unfold operator
  split
  · exact absurd (hs _ rfl) (by decide)
  · rfl

theorem lexeme_sign {sign : String} (h : token.sign? = some sign) (hs : Parts s) :
    ∃ c w, sign.toList = c :: w ∧ lexeme c (w ++ s) = .ok (some token, s) := by
  cases token with
  | greater =>
    cases h
    refine ⟨'>', [], rfl, ?_⟩
    rw [List.nil_append, lexeme_greater, operator_of_parts _ _ hs]
  | less =>
    cases h
    refine ⟨'<', [], rfl, ?_⟩
    rw [List.nil_append, lexeme_less, operator_of_parts _ _ hs]
  | keyword k | number n | text s | newline | eof => cases h
  | _ =>
    cases h
    exact ⟨_, _, rfl, rfl⟩

/-- A token is read as it was meant, whatever stands behind it, if that parts it from the rest. -/
theorem lexeme_spells (h : token.Spells w) (hs : Parts s) :
    ∃ c v, w = c :: v ∧ lexeme c (v ++ s) = .ok (some token, s) := by
  cases h with
  | @keyword k w h =>
    cases w with
    | nil => exact absurd h (by cases k <;> decide)
    | cons c w =>
      have ha := isAlpha_of_spelling h
      have hc := isLetter_of_or (.inl (ha c (by simp)))
      have hw : ∀ d ∈ w, isWordChar d = true := fun d hd =>
        isWordChar_of_or (.inl (by simp [Char.isAlphanum, ha d (by simp [hd])]))
      refine ⟨c, w, rfl, ?_⟩
      rw [lexeme_word hc hw hs, word, Keyword.named?_eq_some_iff.2 h]
  | number n zeros =>
    have hd : ∀ d ∈ List.replicate zeros '0' ++ Nat.toDigits 10 n.toNat, d.isDigit = true :=
      fun d => isDigit_of_mem_zeros
    have hv := number_zeros zeros n
    cases hw : List.replicate zeros '0' ++ Nat.toDigits 10 n.toNat with
    | nil => exact absurd (List.append_eq_nil_iff.1 hw).2 Nat.toDigits_ne_nil
    | cons c w =>
      rw [hw] at hd hv
      exact ⟨c, w, rfl, lexeme_number hv hd hs⟩
  | quoted text =>
    refine ⟨'"', _, rfl, ?_⟩
    have hq := quoted_of_escapes (Text.escapes_escape text.toList) s
    rw [List.append_assoc, List.singleton_append, lexeme_quote hq, String.ofList_toList]
  | @bare c w hc hw hk =>
    have hn : Keyword.named? (c :: w) = none :=
      Option.eq_none_iff_forall_ne_some.2 fun k hk' => hk k (Keyword.named?_eq_some_iff.1 hk')
    refine ⟨c, w, rfl, ?_⟩
    rw [lexeme_word (isLetter_of_or hc) (fun d hd => isWordChar_of_or (hw d hd)) hs, word, hn]
  | sign h => exact lexeme_sign h hs

end Lexeme

section Line

theorem lexLine_space (hg : IsSpace gap) (s : List Char) : lexLine (gap ++ s) = lexLine s := by
  induction gap with
  | nil => rfl
  | cons c gap ih =>
    obtain ⟨hc, hg⟩ := List.forall_mem_cons.1 hg
    have hb : lexeme c (gap ++ s) = .ok (none, gap ++ s) := by
      obtain rfl | rfl | rfl | rfl := hc <;> rfl
    rw [List.cons_append, lexLine_ok hb, ih hg]
    rfl

theorem lexLine_comment (h : Text.IsComment s) : lexLine s = ([], none) := by
  obtain rfl | ⟨rest, rfl, -⟩ := h
  · exact lexLine_nil
  · have hr : lexeme ';' rest = .ok (none, []) := rfl
    rw [lexLine_ok hr, lexLine_nil]
    rfl

theorem parts_comment (h : Text.IsComment s) : Parts s := by
  obtain rfl | ⟨rest, rfl, -⟩ := h
  · exact nofun
  · rintro _ ⟨⟩
    simp

theorem parts_space (hg : IsSpace gap) (hs : gap = [] → Parts s) : Parts (gap ++ s) := by
  cases gap with
  | nil => exact hs rfl
  | cons c gap =>
    rintro _ ⟨⟩
    have hc := hg c (by simp)
    tauto

theorem lexLine_spaced (h : Spaced tokens s) : lexLine s = (tokens, none) := by
  induction h with
  | nil h => exact lexLine_comment h
  | @cons token w gap s tokens hw hg hn h ih =>
    have hs : Parts (gap ++ s) := parts_space hg fun he => by
      cases h with
      | nil h => exact parts_comment h
      | cons => exact absurd he (hn (by simp))
    obtain ⟨c, v, rfl, hl⟩ := lexeme_spells hw hs
    rw [List.cons_append, lexLine_ok hl, lexLine_space hg, ih]
    rfl

/-- A line is read to the tokens that it was written for. -/
theorem lexLine_written (h : Written tokens s) : lexLine s = (tokens, none) := by
  obtain ⟨gap, s, hg, hs, rfl⟩ := h
  rw [lexLine_space hg, lexLine_spaced hs]

end Line

section End

theorem ne_of_isWordChar (h : isWordChar c = true) : c ≠ '\n' ∧ c ≠ '\r' := by
  constructor <;>
  · rintro rfl
    exact absurd h (by decide)

/-- No token is written over the end of a line, and none ends in a carriage return. -/
theorem notMem_of_spells (h : token.Spells w) : '\n' ∉ w ∧ ∀ c ∈ w.getLast?, c ≠ '\r' := by
  have hw (h : ∀ c ∈ w, c ≠ '\n' ∧ c ≠ '\r') : '\n' ∉ w ∧ ∀ c ∈ w.getLast?, c ≠ '\r' :=
    ⟨fun hm => (h _ hm).1 rfl, fun c hc => (h c (List.mem_of_getLast? hc)).2⟩
  cases h with
  | keyword h =>
    refine hw fun c hc => ne_of_isWordChar (isWordChar_of_or (.inl ?_))
    simp [Char.isAlphanum, isAlpha_of_spelling h c hc]
  | number n zeros =>
    refine hw fun c hc => ne_of_isWordChar (isWordChar_of_or (.inl ?_))
    simp [Char.isAlphanum, isDigit_of_mem_zeros hc]
  | quoted text =>
    refine ⟨by simp [Text.newline_notMem_escape], ?_⟩
    rw [← List.cons_append, List.getLast?_concat]
    rintro _ ⟨⟩
    decide
  | @bare c v hc hv hk =>
    refine hw fun d hd => ne_of_isWordChar (isWordChar_of_or ?_)
    obtain rfl | hd := List.mem_cons.1 hd
    · exact hc.imp_left fun h => by simp [Char.isAlphanum, h]
    · exact hv d hd
  | sign h =>
    cases token with
    | keyword k | number n | text s | newline | eof => cases h
    | _ =>
      cases h
      exact ⟨by decide, by rintro _ ⟨⟩; decide⟩

theorem newline_notMem_space (hg : IsSpace gap) : '\n' ∉ gap := by
  intro h
  exact absurd (hg _ h) (by decide)

theorem newline_notMem_written (h : Written tokens s) : '\n' ∉ s := by
  obtain ⟨gap, s, hg, hs, rfl⟩ := h
  have hn : '\n' ∉ s := by
    induction hs with
    | nil h => exact h.newline_notMem
    | cons hw hg _ _ ih =>
      simp [(notMem_of_spells hw).1, newline_notMem_space hg, ih]
  simp [newline_notMem_space hg, hn]

theorem spaced_nil_iff : Spaced tokens [] ↔ tokens = [] := by
  constructor
  · generalize hs : ([] : List Char) = s
    intro h
    cases h with
    | nil => rfl
    | @cons token w gap s tokens hw =>
      obtain ⟨c, v, rfl, -⟩ := lexeme_spells (s := []) hw nofun
      cases hs
  · rintro rfl
    exact .nil (.inl rfl)

/-- A carriage return at the end of a line is a blank or part of the comment. -/
theorem spaced_of_concat (h : Spaced tokens s) (hs : s = w ++ ['\r']) : Spaced tokens w := by
  induction h generalizing w with
  | nil h =>
    obtain rfl | ⟨rest, rfl, hr⟩ := h
    · simp at hs
    · cases w with
      | nil => cases hs
      | cons c w =>
        obtain ⟨rfl, rfl⟩ := List.cons.inj hs
        exact .nil (.inr ⟨w, rfl, fun hn => hr (by simp [hn])⟩)
  | @cons token v gap s tokens hw hg hn h ih =>
    obtain rfl | ⟨front, last, rfl⟩ := List.eq_nil_or_concat' s
    · obtain rfl := spaced_nil_iff.1 h
      obtain rfl | ⟨front, last, rfl⟩ := List.eq_nil_or_concat' gap
      · have hl : v.getLast? = some '\r' := by simpa using congrArg List.getLast? hs
        exact absurd rfl ((notMem_of_spells hw).2 _ hl)
      · have he : (v ++ front) ++ [last] = w ++ ['\r'] := by simpa using hs
        obtain ⟨rfl, -⟩ := List.append_inj' he rfl
        have hf : IsSpace front := fun c hc => hg c (by simp [hc])
        simpa using Spaced.cons hw hf (absurd rfl) h
    · have he : (v ++ (gap ++ front)) ++ [last] = w ++ ['\r'] := by simpa using hs
      obtain ⟨rfl, hl⟩ := List.append_inj' he rfl
      exact .cons hw hg hn (ih (by rw [hl]))

theorem written_chomp (h : Written tokens s) : Written tokens (Text.chomp s) := by
  rw [Text.chomp]
  split
  · next hl =>
    obtain ⟨w, rfl⟩ := List.getLast?_eq_some_iff.1 hl
    rw [List.dropLast_concat]
    obtain ⟨gap, s, hg, hs, he⟩ := h
    obtain rfl | ⟨front, last, rfl⟩ := List.eq_nil_or_concat' s
    · have hf : IsSpace w := fun c hc => hg c (by
        rw [← List.append_nil gap, ← he]
        simp [hc])
      exact ⟨w, [], hf, hs, (List.append_nil w).symm⟩
    · have he : w ++ ['\r'] = (gap ++ front) ++ [last] := by simpa using he
      obtain ⟨rfl, hlast⟩ := List.append_inj' he rfl
      exact ⟨gap, front, hg, spaced_of_concat hs (by rw [hlast]), rfl⟩
  · exact h

end End

section Writing

theorem exists_spells (h : IsProper token) : ∃ w, token.Spells w := by
  cases token with
  | keyword k =>
    exact ⟨_, .keyword (Keyword.named?_eq_some_iff.1 k.named?_name)⟩
  | number n => exact ⟨_, .number n 0⟩
  | text s => exact ⟨_, .quoted s⟩
  | newline => exact absurd rfl h.1
  | eof => exact absurd rfl h.2
  | _ => exact ⟨_, .sign rfl⟩

/-- Every list of tokens can be written on a line, if no token in it stands for the end of one. -/
theorem exists_written_iff : (∃ line, Written tokens line) ↔ ∀ token ∈ tokens, IsProper token := by
  constructor
  · rintro ⟨line, h⟩
    have hp := isProper_lexLine line
    rwa [lexLine_written h] at hp
  · intro h
    have hs : ∃ s, Spaced tokens s := by
      induction tokens with
      | nil => exact ⟨[], .nil (.inl rfl)⟩
      | cons token tokens ih =>
        obtain ⟨ht, h⟩ := List.forall_mem_cons.1 h
        obtain ⟨w, hw⟩ := exists_spells ht
        obtain ⟨s, hs⟩ := ih h
        have hg : IsSpace [' '] := by simp [IsSpace]
        exact ⟨_, .cons hw hg (fun _ => by simp) hs⟩
    obtain ⟨s, hs⟩ := hs
    exact ⟨s, [], s, nofun, hs, rfl⟩

theorem items_of_written {source : String} (h : Written tokens source.toList) :
    items source = ((tokens ++
      (if tokens = [] then [Token.eof] else [Token.newline, Token.eof])).map (Located.mk 1)).map
        (Located.map .ok) := by
  have hn := newline_notMem_written h
  have hl := lexLine_written (written_chomp h)
  have hc : source.toList.count '\n' = 0 := List.count_eq_zero_of_not_mem hn
  rw [items_eq, Text.pieces_of_not_mem hn, hc, itemsFrom, itemsFrom, lineItems, hl]
  cases tokens with
  | nil => rfl
  | cons token tokens => simp [Located.map, Function.comp_def]

/-- Lexing undoes writing, whatever the spelling of the tokens and the layout of the line. -/
theorem tokenize_written (tokens : List Token) :
    ((∃ line, Written tokens line) ↔ ∀ token ∈ tokens, IsProper token) ∧
    ∀ source : String, Written tokens source.toList →
      tokenize source = .ok ((tokens ++
        (if tokens = [] then [Token.eof] else [Token.newline, Token.eof])).map (Located.mk 1)) :=
  ⟨exists_written_iff, fun _ h => tokenize_eq_ok_iff.2 (items_of_written h)⟩

theorem tokenize_written_layout :
    let tokens : List Token :=
      [.keyword .wenn, .number 7, .greaterOrEqual, .text "a;\"b\\", .text "mods"]
    let source := "\twEnn  007\x0c>= \"a;\\\"b\\\\\" mods;\"rest\r"
    Written tokens source.toList ∧ tokenize source =
      .ok [⟨1, .keyword .wenn⟩, ⟨1, .number 7⟩, ⟨1, .greaterOrEqual⟩, ⟨1, .text "a;\"b\\"⟩,
        ⟨1, .text "mods"⟩, ⟨1, .newline⟩, ⟨1, .eof⟩] := by
  intro tokens source
  have hg : ∀ gap ∈ [['\t'], [' ', ' '], ['\x0c'], [' '], []], IsSpace gap := by simp [IsSpace]
  have hk : Token.Spells (.keyword .wenn) "wEnn".toList := .keyword (by decide)
  have hm : Token.Spells (.text "mods") "mods".toList :=
    .bare (c := 'm') (w := ['o', 'd', 's']) (by decide) (by simp)
      (fun k => by cases k <;> decide)
  have hs : Token.Spells .greaterOrEqual ">=".toList := .sign rfl
  have hc : Spaced [] ";\"rest\r".toList := .nil (.inr ⟨_, rfl, by decide⟩)
  have hm := Spaced.cons hm (hg [] (by decide)) (fun h => absurd rfl h) hc
  have ht := Spaced.cons (.quoted "a;\"b\\") (hg [' '] (by decide)) (fun _ => by simp) hm
  have ho := Spaced.cons hs (hg [' '] (by decide)) (fun _ => by simp) ht
  have hn := Spaced.cons (.number 7 2) (hg ['\x0c'] (by decide)) (fun _ => by simp) ho
  have hw := Spaced.cons hk (hg [' ', ' '] (by decide)) (fun _ => by simp) hn
  have h : Written tokens source.toList := ⟨['\t'], _, hg _ (by decide), hw, by decide⟩
  exact ⟨h, (tokenize_written tokens).2 source h⟩

end Writing

end Lexer

end Octet
