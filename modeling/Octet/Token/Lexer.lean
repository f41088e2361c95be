import Octet.Located
import Octet.Text.Escaped
import Octet.Text.Line
import Octet.Token

namespace Octet

/-- What a line may hold that is no token. The rest of such a line is skipped. -/
inductive LexError
  | unexpected (c : Char)
  | unterminated
  | overflow
deriving DecidableEq

def LexError.message : LexError → String
  | unexpected c => "Unexpected character: " ++ Text.quoteChar c
  | unterminated => "Unterminated string"
  | overflow => "Integer literal overflow, valid range is [0, 4294967295]"

namespace Lexer

def isBlank (c : Char) : Bool :=
  c == ' ' || c == '\t' || c == '\n' || c == '\x0c' || c == '\r'

def isLetter (c : Char) : Bool := c.isAlpha || c == '_'

def isWordChar (c : Char) : Bool := c.isAlphanum || c == '_'

/-- A word that is no keyword is a text. -/
def word (w : List Char) : Token :=
  match Keyword.named? w with
  | some k => .keyword k
  | none => .text (String.ofList w)

/-- The product of two words of 32 bits, if it is one. -/
def checkedMul (a b : UInt32) : Option UInt32 :=
  if a.toNat * b.toNat < UInt32.size then some (a * b) else none

/-- The sum of two words of 32 bits, if it is one. -/
def checkedAdd (a b : UInt32) : Option UInt32 :=
  if a.toNat + b.toNat < UInt32.size then some (a + b) else none

/-- A number with one more digit behind it. -/
def pushDigit (n : UInt32) (digit : Char) : Option UInt32 := do
  checkedAdd (← checkedMul n 10) (digit.val - '0'.val)

/-- What has been read of a token, or of what is none. -/
inductive State
  | start
  | error
  | complete (token : Token)
  | comment
  | bang
  | greater
  | less
  | integer (n : UInt32)
  | word (w : String)
  | quoted (text : String) (escape : Bool)
  | done

end Lexer

/-- A lexer on its way through a text: the lines that are still to come, each with its index, what
is left of the current one, its number, and whether there has been a token on it. -/
structure Lexer where
  lines : List (List Char × Nat)
  line : List Char
  lineNumber : Nat
  hasTokens : Bool
  state : Lexer.State

namespace Lexer

/-- What one turn of the lexer comes to. -/
inductive Turn
  | again (lexer : Lexer)
  | found (item : Except LexError Token) (lexer : Lexer)
  | stop

def ofSource (source : String) : Lexer :=
  ⟨(Text.pieces source.toList).zipIdx, [], 0, false, .start⟩

section Turns

variable (lexer : Lexer)

/-- Goes on behind the next character of the line. -/
def pass (state : State) : Turn := .again { lexer with line := lexer.line.tail, state }

/-- A token that ends in front of the next character. -/
def emit (token : Token) : Turn := .found (.ok token) { lexer with state := .start }

def refuse (e : LexError) : Turn := .found (.error e) lexer

/-- What a character begins. A digit is only looked at. -/
def begin (c : Char) : Turn :=
  match c with
  | '=' => lexer.pass (.complete .equal)
  | '+' => lexer.pass (.complete .plus)
  | '-' => lexer.pass (.complete .minus)
  | '*' => lexer.pass (.complete .times)
  | '/' => lexer.pass (.complete .slash)
  | '!' => lexer.pass .bang
  | '>' => lexer.pass .greater
  | '<' => lexer.pass .less
  | ';' => lexer.pass .comment
  | '"' => lexer.pass (.quoted "" false)
  | c =>
    if isLetter c then lexer.pass (.word (String.singleton c))
    else if c.isDigit then .again { lexer with state := .integer 0 }
    else if isBlank c then lexer.pass .start
    else { lexer with line := lexer.line.tail }.refuse (.unexpected c)

/-- At the end of a line: the token that ends it if there has been one on it, and then the next
line. -/
def endLine : Turn :=
  if lexer.hasTokens then .found (.ok .newline) { lexer with hasTokens := false }
  else
    match lexer.lines with
    | [] => .found (.ok .eof) { lexer with state := .done }
    | (line, index) :: lines =>
      .again { lexer with lines, line := Text.chomp line, lineNumber := index + 1 }

/-- The next state and what is found, by the state and the next character of the line. -/
def turn : Turn :=
  match lexer.state, lexer.line with
  | .done, _ => .stop
  | .error, [] => lexer.pass .start
  | .error, _ :: _ => lexer.pass .error
  | .start, [] => lexer.endLine
  | .start, c :: _ => lexer.begin c
  | .complete token, _ => lexer.emit token
  | .comment, [] => lexer.pass .start
  | .comment, _ :: _ => lexer.pass .comment
  | .bang, '=' :: _ => lexer.pass (.complete .notEqual)
  | .bang, _ => lexer.refuse (.unexpected '!')
  | .greater, '=' :: _ => lexer.pass (.complete .greaterOrEqual)
  | .greater, _ => lexer.emit .greater
  | .less, '=' :: _ => lexer.pass (.complete .lessOrEqual)
  | .less, _ => lexer.emit .less
  | .integer n, [] => lexer.emit (.number n)
  | .integer n, c :: _ =>
    if c.isDigit then
      match pushDigit n c with
      | some n => lexer.pass (.integer n)
      | none => lexer.refuse .overflow
    else lexer.emit (.number n)
  | .word w, [] => lexer.emit (word w.toList)
  | .word w, c :: _ =>
    if isWordChar c then lexer.pass (.word (w.push c)) else lexer.emit (word w.toList)
  | .quoted _ _, [] => lexer.refuse .unterminated
  | .quoted text true, c :: _ => lexer.pass (.quoted (text.push (Text.escaped c)) false)
  | .quoted text false, '\\' :: _ => lexer.pass (.quoted text true)
  | .quoted text false, '"' :: _ => lexer.pass (.complete (.text text))
  | .quoted text false, c :: _ => lexer.pass (.quoted (text.push c) false)

/-- Keeps in mind that there is a token on the line. Behind an error the line counts as empty, and
the rest of it is skipped. -/
def settle : Except LexError Token → Lexer
  | .ok token =>
    { lexer with hasTokens := lexer.hasTokens || (token != .newline && token != .eof) }
  | .error _ => { lexer with state := .error, hasTokens := false }

end Turns

section Progress

/-- How long a lexer may stay in its state in front of the same character. -/
def rank (lexer : Lexer) : Nat :=
  match lexer.state, lexer.line with
  | .done, _ | .error, _ :: _ | .comment, _ :: _ => 0
  | .start, [] => if lexer.hasTokens then 2 else 1
  | .start, _ :: _ => 2
  | .integer _, c :: _ => if c.isDigit then 1 else 3
  | .bang, [] | .quoted _ _, [] => 4
  | _, _ => 3

/-- What is left to do. A character weighs more than any state in front of it. -/
def potential (lexer : Lexer) : Nat :=
  lexer.lines.foldr (fun line n => 5 * line.1.length + 2 + n) 0 + 5 * lexer.line.length + lexer.rank

variable {lexer next : Lexer} {item : Except LexError Token} {c : Char} {s : List Char}
  {state : State}

theorem rank_le (lexer : Lexer) : lexer.rank ≤ 4 := by
  unfold rank
  repeat' split
  all_goals omega

theorem rank_le_of_start (h : lexer.state = .start) : lexer.rank ≤ 2 := by
  cases hl : lexer.line with
  | nil =>
    simp only [rank, h, hl]
    split <;> omega
  | cons c s => simp [rank, h, hl]

theorem potential_pass (h : lexer.line = c :: s) (hn : lexer.pass state = .again next) :
    next.potential < lexer.potential := by
  cases hn
  have hr := rank_le { lexer with line := lexer.line.tail, state }
  simp only [potential, h, List.tail_cons, List.length_cons] at hr ⊢
  omega

theorem potential_begin_again (hs : lexer.state = .start) (h : lexer.line = c :: s)
    (hn : lexer.begin c = .again next) : next.potential < lexer.potential := by
  unfold begin at hn
  split at hn
  case h_11 =>
    split at hn
    · exact potential_pass h hn
    · split at hn
      · next hd =>
        cases hn
        simp [potential, rank, h, hs, hd]
      · split at hn
        · exact potential_pass h hn
        · cases hn
  all_goals exact potential_pass h hn

theorem potential_end_again (h : lexer.line = []) (hr : 2 < lexer.rank)
    (hn : lexer.pass .start = .again next) : next.potential < lexer.potential := by
  cases hn
  have hl : rank { lexer with line := lexer.line.tail, state := .start } ≤ 2 := rank_le_of_start rfl
  simp only [potential, h, List.tail_nil] at hl ⊢
  omega

theorem potential_endLine_again (hs : lexer.state = .start) (h : lexer.line = [])
    (hn : lexer.endLine = .again next) : next.potential < lexer.potential := by
  unfold endLine at hn
  split at hn
  · cases hn
  · next hb =>
    split at hn
    · cases hn
    · next line index lines hl =>
      cases hn
      have hr :
          rank { lexer with lines, line := Text.chomp line, lineNumber := index + 1 } ≤ 2 := by
        cases hc : Text.chomp line <;> simp [rank, hs, hb]
      have hc := Text.length_chomp_le line
      have ht : 0 < lexer.rank := by simp [rank, hs, h, hb]
      simp only [potential, hl, h, List.foldr_cons, List.length_nil] at hr ⊢
      omega

/-- Every turn brings the lexer on. -/
theorem potential_of_again (h : lexer.turn = .again next) : next.potential < lexer.potential := by
  unfold turn at h
  split at h
  case h_2 hs hl | h_7 hs hl => exact potential_end_again hl (by simp [rank, hs, hl]) h
  case h_4 hs hl => exact potential_endLine_again hs hl h
  case h_5 hs hl => exact potential_begin_again hs hl h
  case h_16 hs hl =>
    split at h
    · split at h
      · exact potential_pass hl h
      · cases h
    · cases h
  case h_18 hs hl =>
    split at h
    · exact potential_pass hl h
    · cases h
  all_goals
    first
    | exact potential_pass ‹_› h
    | cases h

theorem potential_emit {token : Token} (hr : 2 < lexer.rank)
    (h : lexer.emit token = .found item next) :
    (next.settle item).potential < lexer.potential := by
  cases h
  have hl : rank (settle { lexer with state := .start } (.ok token)) ≤ 2 := rank_le_of_start rfl
  simp only [potential, settle] at hl ⊢
  omega

theorem potential_refuse {e : LexError}
    (hr : rank { lexer with state := .error, hasTokens := false } < lexer.rank)
    (h : lexer.refuse e = .found item next) :
    (next.settle item).potential < lexer.potential := by
  cases h
  simp only [potential, settle]
  omega

theorem potential_begin_found (h : lexer.line = c :: s) (hn : lexer.begin c = .found item next) :
    (next.settle item).potential < lexer.potential := by
  unfold begin at hn
  split at hn
  case h_11 =>
    repeat' split at hn
    all_goals cases hn
    have hr := rank_le (settle { lexer with line := lexer.line.tail } (.error (.unexpected c)))
    simp only [potential, settle, h, List.tail_cons, List.length_cons] at hr ⊢
    omega
  all_goals cases hn

theorem potential_endLine_found (hs : lexer.state = .start) (h : lexer.line = [])
    (hn : lexer.endLine = .found item next) :
    (next.settle item).potential < lexer.potential := by
  unfold endLine at hn
  split at hn
  · next hb =>
    cases hn
    simp [potential, settle, rank, hs, h, hb]
  · next hb =>
    split at hn
    · cases hn
      simp [potential, settle, rank, hs, h, hb]
    · cases hn

/-- So does every token and every error. -/
theorem potential_of_found (h : lexer.turn = .found item next) :
    (next.settle item).potential < lexer.potential := by
  unfold turn at h
  split at h
  case h_4 hs hl => exact potential_endLine_found hs hl h
  case h_5 hs hl => exact potential_begin_found hl h
  case h_16 hs hl =>
    split at h
    · next hd =>
      split at h
      · cases h
      · exact potential_refuse (by simp [rank, hs, hl, hd]) h
    · next hd => exact potential_emit (by simp [rank, hs, hl, hd]) h
  case h_18 hs hl =>
    split at h
    · cases h
    · exact potential_emit (by simp [rank, hs, hl]) h
  case h_10 hs _ =>
    refine potential_refuse ?_ h
    cases hl : lexer.line <;> simp [rank, hs, hl]
  case h_19 hs hl => exact potential_refuse (by simp [rank, hs, hl]) h
  all_goals
    first
    | cases h; done
    | exact potential_emit (by cases hl : lexer.line <;> simp [rank, *]) h

end Progress

/-- Turns until something is found: that with its line, and the lexer behind it. -/
def next? (lexer : Lexer) : Option (Located (Except LexError Token) × Lexer) :=
  match h : lexer.turn with
  | .again next =>
    have := potential_of_again h
    next.next?
  | .found item next => some (⟨next.lineNumber, item⟩, next.settle item)
  | .stop => none
termination_by lexer.potential

theorem next?_of_again {lexer next : Lexer} (h : lexer.turn = .again next) :
    lexer.next? = next.next? := by
  rw [next?]
  split <;> simp_all

theorem next?_of_found {lexer next : Lexer} {item : Except LexError Token}
    (h : lexer.turn = .found item next) :
    lexer.next? = some (⟨next.lineNumber, item⟩, next.settle item) := by
  rw [next?]
  split <;> simp_all

theorem next?_of_stop {lexer : Lexer} (h : lexer.turn = .stop) : lexer.next? = none := by
  rw [next?]
  split <;> simp_all

theorem potential_of_next? {lexer next : Lexer} {item : Located (Except LexError Token)}
    (h : lexer.next? = some (item, next)) : next.potential < lexer.potential := by
  fun_induction next? lexer with
  | case1 lexer mid hm _ ih => exact Nat.lt_trans (ih h) (potential_of_again hm)
  | case2 lexer item mid hm =>
    cases h
    exact potential_of_found hm
  | case3 => cases h

/-- All that is found, an error as well as a token. -/
def stream (lexer : Lexer) : List (Located (Except LexError Token)) :=
  match h : lexer.next? with
  | some (item, next) =>
    have := potential_of_next? h
    item :: next.stream
  | none => []
termination_by lexer.potential

/-- The tokens and errors of a text. -/
def items (source : String) : List (Located (Except LexError Token)) := (ofSource source).stream

def errors (items : List (Located (Except LexError Token))) : List (Located LexError) :=
  items.filterMap fun item =>
    match item.val with
    | .ok _ => none
    | .error e => some ⟨item.line, e⟩

/-- Collects tokens up to the first error, and behind that the errors only. -/
def collect (tokens : List (Located Token)) :
    List (Located (Except LexError Token)) → Except (List (Located LexError)) (List (Located Token))
  | [] => .ok tokens.reverse
  | ⟨line, .ok token⟩ :: items => collect (⟨line, token⟩ :: tokens) items
  | ⟨line, .error e⟩ :: items => .error (⟨line, e⟩ :: errors items)

/-- The tokens of a text, or all its errors. -/
def tokenize (source : String) : Except (List (Located LexError)) (List (Located Token)) :=
  collect [] (items source)

end Lexer

end Octet
