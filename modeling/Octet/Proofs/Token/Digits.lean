import Octet.Proofs.Token.Stream
import Octet.Text.Integer

namespace Octet.Lexer

variable {a b m n : UInt32} {c : Char} {digits : List Char}

section Accumulator

theorem guarded_eq_some_iff {v : Nat} (h : v < UInt32.size → a.toNat = v) :
    (if v < UInt32.size then some a else none) = some m ↔ m.toNat = v := by
  split
  · next hv => rw [Option.some.injEq, ← h hv, UInt32.toNat_inj, eq_comm]
  · next hv =>
    refine ⟨nofun, fun hm => absurd ?_ hv⟩
    rw [← hm]
    exact m.toNat_lt_size

theorem checkedMul_eq_some_iff : checkedMul a b = some m ↔ m.toNat = a.toNat * b.toNat :=
  guarded_eq_some_iff fun h => (UInt32.toNat_mul a b).trans (Nat.mod_eq_of_lt h)

theorem checkedAdd_eq_some_iff : checkedAdd a b = some m ↔ m.toNat = a.toNat + b.toNat :=
  guarded_eq_some_iff fun h => (UInt32.toNat_add a b).trans (Nat.mod_eq_of_lt h)

/-- A digit is pushed exactly if there is room for the number that it makes. The product has room
wherever the sum has. -/
theorem pushDigit_eq_some_iff (hc : c.isDigit = true) :
    pushDigit n c = some m ↔ m.toNat = 10 * n.toNat + (c.toNat - '0'.toNat) := by
  have hd : (c.val - '0'.val).toNat = c.toNat - '0'.toNat :=
    UInt32.toNat_sub_of_le _ _ (UInt32.le_iff_toNat_le.2 (Char.isDigit_iff_toNat.1 hc).1)
  rw [pushDigit, Option.bind_eq_bind, Option.bind_eq_some_iff]
  simp only [checkedMul_eq_some_iff, checkedAdd_eq_some_iff, hd]
  constructor
  · rintro ⟨k, hk, hm⟩
    rw [hm, hk, Nat.mul_comm]
    rfl
  · intro hm
    have hlt : n.toNat * 10 < UInt32.size := by
      have := m.toNat_lt_size
      omega
    have hk : (UInt32.ofNat (n.toNat * 10)).toNat = n.toNat * 10 := UInt32.toNat_ofNat_of_lt hlt
    exact ⟨_, hk, by rw [hk, hm, Nat.mul_comm]⟩

theorem le_ofDigitChars (digits : List Char) (v : Nat) : v ≤ Nat.ofDigitChars 10 digits v := by
  rw [Nat.ofDigitChars_eq_ofDigitChars_zero]
  have := Nat.le_mul_of_pos_left v (Nat.pow_pos (n := digits.length) (by decide : 0 < 10))
  omega

theorem foldlM_pushDigit_eq_some_iff (hd : ∀ c ∈ digits, c.isDigit = true) :
    digits.foldlM pushDigit n = some m ↔ m.toNat = Nat.ofDigitChars 10 digits n.toNat := by
  induction digits generalizing n with
  | nil => exact Option.some_inj.trans (eq_comm.trans UInt32.toNat_inj.symm)
  | cons c digits ih =>
    obtain ⟨hc, hd⟩ := List.forall_mem_cons.1 hd
    rw [List.foldlM_cons, Option.bind_eq_bind, Option.bind_eq_some_iff, Nat.ofDigitChars_cons]
    constructor
    · rintro ⟨k, hk, hm⟩
      rw [← (pushDigit_eq_some_iff hc).1 hk]
      exact (ih hd).1 hm
    · intro hm
      -- No digit makes a number smaller, so there is room for the first one if there is for all.
      have hle := le_ofDigitChars digits (10 * n.toNat + (c.toNat - '0'.toNat))
      have hlt : 10 * n.toNat + (c.toNat - '0'.toNat) < UInt32.size := by
        have := m.toNat_lt_size
        omega
      have hk := UInt32.toNat_ofNat_of_lt hlt
      exact ⟨_, (pushDigit_eq_some_iff hc).2 hk, (ih hd).2 (by rw [hk, hm])⟩

/-- The accumulator holds the number that the digits write, and never another one. -/
theorem accumulate_eq_some_iff (hd : ∀ c ∈ digits, c.isDigit = true) :
    accumulate digits = some n ↔ n.toNat = Text.decimal digits :=
  foldlM_pushDigit_eq_some_iff hd

theorem accumulate_eq_none_iff (hd : ∀ c ∈ digits, c.isDigit = true) :
    accumulate digits = none ↔ UInt32.size ≤ Text.decimal digits := by
  rw [Option.eq_none_iff_forall_ne_some]
  constructor
  · intro h
    by_contra hlt
    have hn := UInt32.toNat_ofNat_of_lt (Nat.lt_of_not_le hlt)
    exact h _ ((accumulate_eq_some_iff hd).2 hn)
  · intro h n hn
    have hlt := n.toNat_lt_size
    rw [(accumulate_eq_some_iff hd).1 hn] at hlt
    exact absurd hlt (Nat.not_lt_of_le h)

theorem number_eq_ok_iff (hd : ∀ c ∈ digits, c.isDigit = true) :
    number digits = .ok (.number n) ↔ n.toNat = Text.decimal digits := by
  rw [← accumulate_eq_some_iff hd, number]
  cases accumulate digits <;> simp

theorem number_eq_error_iff (hd : ∀ c ∈ digits, c.isDigit = true) :
    number digits = .error .overflow ↔ UInt32.size ≤ Text.decimal digits := by
  rw [← accumulate_eq_none_iff hd, number]
  cases accumulate digits <;> simp

end Accumulator

section Line

variable {line s w rest : List Char} {tokens : List Token} {source : String} {index : Nat}

/-- Digits are one token, up to the first character that is none. -/
theorem lexeme_digits (hd : ∀ d ∈ c :: w, d.isDigit = true)
    (hr : ∀ d ∈ rest.head?, d.isDigit = false) :
    lexeme c (w ++ rest) = (number (c :: w)).map fun token => (some token, rest) := by
  obtain ⟨hc, hw⟩ := List.forall_mem_cons.1 hd
  obtain ⟨ht, hs⟩ := span_append hw hr
  rw [lexeme_digit (not_isLetter_of_isDigit hc) hc, ht, hs]

/-- Where the lexer stands in a line, and the tokens that it has read: at first before the whole
line, and then before what is left behind a token, a blank or a comment. -/
inductive Stands (line : List Char) : List Token → List Char → Prop
  | start : Stands line [] line
  | next {tokens : List Token} {c : Char} {s rest : List Char} {token : Option Token}
      (h : Stands line tokens (c :: s)) (hl : lexeme c s = .ok (token, rest)) :
      Stands line (tokens ++ token.toList) rest

/-- A line is read to the tokens up to where the lexer stands and what it reads from there on. -/
theorem Stands.lexLine_eq (h : Stands line tokens s) :
    lexLine line = (tokens ++ (lexLine s).1, (lexLine s).2) := by
  induction h with
  | start => rfl
  | next _ hl ih => rw [ih, lexLine_ok hl, List.append_assoc]

theorem Stands.number (h : Stands line tokens (digits ++ rest)) (hn : digits ≠ [])
    (hd : ∀ c ∈ digits, c.isDigit = true) (hr : ∀ c ∈ rest.head?, c.isDigit = false)
    (hv : n.toNat = Text.decimal digits) : Stands line (tokens ++ [.number n]) rest := by
  cases digits with
  | nil => exact absurd rfl hn
  | cons c digits =>
    have hl : lexeme c (digits ++ rest) = .ok (some (.number n), rest) := by
      rw [lexeme_digits hd hr, (number_eq_ok_iff hd).2 hv]
      rfl
    exact h.next hl

theorem Stands.lexLine_of_overflow (h : Stands line tokens (digits ++ rest)) (hn : digits ≠ [])
    (hd : ∀ c ∈ digits, c.isDigit = true) (hr : ∀ c ∈ rest.head?, c.isDigit = false)
    (hv : UInt32.size ≤ Text.decimal digits) : lexLine line = (tokens, some .overflow) := by
  cases digits with
  | nil => exact absurd rfl hn
  | cons c digits =>
    have he : lexeme c (digits ++ rest) = .error .overflow := by
      rw [lexeme_digits hd hr, (number_eq_error_iff hd).2 hv]
      rfl
    rw [h.lexLine_eq, List.cons_append, lexLine_error he, List.append_nil]

def emitted (number : Nat) (tokens : List Token) : List (Located (Except LexError Token)) :=
  tokens.map fun token => ⟨number, .ok token⟩

theorem lineItems_of_error {number : Nat} {e : LexError}
    (h : lexLine (Text.chomp line) = (tokens, some e)) :
    lineItems number line = emitted number tokens ++ [⟨number, .error e⟩] := by
  rw [lineItems, h]
  rfl

/-- A line with a token in it ends in its first error, or in a token of its own. -/
theorem lineItems_of_ne_nil {number : Nat} {e : Option LexError}
    (h : lexLine (Text.chomp line) = (tokens, e)) (hn : tokens ≠ []) :
    lineItems number line =
      emitted number tokens ++ [⟨number, e.elim (.ok .newline) .error⟩] := by
  cases e with
  | some e => exact lineItems_of_error h
  | none =>
    rw [lineItems, h]
    simp [emitted, hn]

/-- The items of a text in front of one of its lines. -/
def itemsBefore (source : String) (index : Nat) : List (Located (Except LexError Token)) :=
  itemsFrom 1 ((Text.pieces source.toList).take index)

/-- The items of a text behind one of its lines, with the end of the text. -/
def itemsBehind (source : String) (index : Nat) : List (Located (Except LexError Token)) :=
  itemsFrom (index + 2) ((Text.pieces source.toList).drop (index + 1)) ++
    [⟨(Text.pieces source.toList).length, .ok .eof⟩]

theorem items_eq_of_line (h : (Text.pieces source.toList)[index]? = some line) :
    items source =
      itemsBefore source index ++ lineItems (index + 1) line ++ itemsBehind source index := by
  obtain ⟨hi, rfl⟩ := List.getElem?_eq_some_iff.1 h
  have hl : ((Text.pieces source.toList).take index).length = index :=
    List.length_take_of_le (Nat.le_of_lt hi)
  conv_lhs => rw [items_eq, ← Text.length_pieces,
    ← List.take_append_drop index (Text.pieces source.toList)]
  rw [itemsFrom_append, hl, Nat.add_comm 1 index, List.drop_eq_getElem_cons hi, itemsFrom]
  simp [itemsBefore, itemsBehind]

/-- A run of digits before which the lexer stands is one number with the value of all its digits if
there is room for it in 32 bits, and the line goes on behind the run. Otherwise the line ends there
in an error. On the way the lexer holds the value of the digits that it has taken. -/
theorem items_of_digits (hline : (Text.pieces source.toList)[index]? = some line)
    (hs : Stands (Text.chomp line) tokens (digits ++ rest)) (hn : digits ≠ [])
    (hd : ∀ c ∈ digits, c.isDigit = true) (hr : ∀ c ∈ rest.head?, c.isDigit = false) :
    (∀ front back, digits = front ++ back → ∀ n,
      (accumulate front = some n ↔ n.toNat = Text.decimal front) ∧
      (accumulate front = some n → ∀ lines k b,
        Passes ⟨lines, digits ++ rest, k, b, .start⟩ ⟨lines, back ++ rest, k, b, .integer n⟩)) ∧
    (Text.decimal digits < UInt32.size → ∃ n, n.toNat = Text.decimal digits ∧
      Stands (Text.chomp line) (tokens ++ [.number n]) rest ∧
      items source = itemsBefore source index ++
        (emitted (index + 1) (tokens ++ .number n :: (lexLine rest).1) ++
          [⟨index + 1, (lexLine rest).2.elim (.ok .newline) .error⟩]) ++
        itemsBehind source index) ∧
    (UInt32.size ≤ Text.decimal digits → items source = itemsBefore source index ++
      (emitted (index + 1) tokens ++ [⟨index + 1, .error .overflow⟩]) ++
      itemsBehind source index) := by
  refine ⟨?_, fun hlt => ?_, fun hle => ?_⟩
  · rintro front back rfl n
    constructor
    · exact accumulate_eq_some_iff fun c hc => hd c (List.mem_append_left back hc)
    · intro h lines k b
      exact passes_accumulate lines k b hn hd h rest
  · have hv := UInt32.toNat_ofNat_of_lt hlt
    have hafter := hs.number hn hd hr hv
    have hl := hafter.lexLine_eq
    rw [List.append_assoc, List.singleton_append] at hl
    refine ⟨_, hv, hafter, ?_⟩
    rw [items_eq_of_line hline, lineItems_of_ne_nil hl (by simp)]
  · rw [items_eq_of_line hline, lineItems_of_error (hs.lexLine_of_overflow hn hd hr hle)]

theorem items_of_digits_bounds :
    let source := "007=4294967295 004294967296 9"
    let tokens : List Token := [.number 7, .equal, .number 4294967295]
    Stands (Text.chomp source.toList) tokens " 004294967296 9".toList ∧
      items source = emitted 1 tokens ++ [⟨1, .error .overflow⟩, ⟨1, .ok .eof⟩] := by
  intro source tokens
  have hp : Text.pieces source.toList = [source.toList] := by decide
  have hline : (Text.pieces source.toList)[0]? = some source.toList := by rw [hp]; rfl
  have hbehind : itemsBehind source 0 = [⟨1, .ok .eof⟩] := by rw [itemsBehind, hp]; rfl
  have hc : Text.chomp source.toList = '0' :: "07=4294967295 004294967296 9".toList := by decide
  have hseven : lexeme '0' "07=4294967295 004294967296 9".toList =
      .ok (some (.number 7), "=4294967295 004294967296 9".toList) := rfl
  have hequal : lexeme '=' "4294967295 004294967296 9".toList =
      .ok (some .equal, "4294967295".toList ++ " 004294967296 9".toList) := rfl
  have hgap : lexeme ' ' "004294967296 9".toList =
      .ok (none, "004294967296".toList ++ " 9".toList) := rfl
  have hgood : Stands (Text.chomp source.toList) [.number 7, .equal]
      ("4294967295".toList ++ " 004294967296 9".toList) := by
    rw [hc]
    exact .next (.next .start hseven) hequal
  have hd : ∀ c ∈ "4294967295".toList, c.isDigit = true := List.all_eq_true.1 (by decide)
  have hz : ∀ c ∈ "004294967296".toList, c.isDigit = true := List.all_eq_true.1 (by decide)
  have hr : ∀ c ∈ some ' ', c.isDigit = false := by
    rintro _ ⟨⟩
    rfl
  obtain ⟨-, hnumber, -⟩ := items_of_digits hline hgood (by decide) hd hr
  obtain ⟨n, hv, hlast, -⟩ := hnumber (by decide)
  obtain rfl : n = 4294967295 := UInt32.toNat_inj.1 hv
  have hbad : Stands (Text.chomp source.toList) tokens
      ("004294967296".toList ++ " 9".toList) := .next hlast hgap
  obtain ⟨-, -, herror⟩ := items_of_digits hline hbad (by decide) hz hr
  have hitems := herror (by decide)
  rw [hbehind] at hitems
  exact ⟨hlast, hitems⟩

end Line

end Octet.Lexer
