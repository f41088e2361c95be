import Octet.Proofs.Assembly.Verdict
import Octet.Proofs.Report.Quotation
import Octet.Proofs.Toolchain.Stages
import Octet.Proofs.Walker.Lines

namespace Octet

namespace Assembly

variable {listing : String} {n : Nat} {p : List (List Char) → List Char → Prop}

theorem OnLine.pos {lines : List (List Char)} (h : OnLine lines n p) : 0 < n := by
  obtain ⟨earlier, line, -, rfl, -⟩ := h
  exact Nat.succ_pos _

theorem OnLine.hasPiece (h : OnLine (contents listing) n p) :
    Text.HasPiece listing.toList n := by
  have hn := h.le
  rw [contents, List.length_map] at hn
  exact ⟨h.pos, Nat.le_trans hn (Text.length_lines_le _)⟩

/-- A line of a listing is quoted wherever its number is shown. -/
theorem OnLine.quotes (h : OnLine (contents listing) n p) (name : String) :
    Report.Quotes ⟨name, listing⟩ n (Report.place (some ⟨name, listing⟩) n) := by
  have hn := h.le
  rw [contents, List.length_map] at hn
  exact Report.quotes_place h.pos hn

end Assembly

namespace Toolchain

open Report (Places Quotes Shows)

variable {text : String} {failure : Failure} {memory registers : Memory} {script : Script}

/-- A failure of the tokens of a text, of the program that it writes, or of a run of that. -/
inductive FailsAsSource (text : String) : Failure → Prop
  | lexing {errors : List (Located LexError)} (h : Lexer.tokenize text = .error errors) :
      FailsAsSource text (.lexing errors)
  | parsing {failure : Failure} (h : (parse text).result = .error failure) :
      FailsAsSource text failure
  | walking {failure : Failure} {memory : Memory} {script : Script}
      (h : (walk text memory script).result = .error failure) : FailsAsSource text failure

/-- A failure of a text as a listing, or of a run of it. -/
inductive FailsAsListing (text : String) : Failure → Prop
  | reading {e : Located AssemblyError} (h : Assembly.read text = .error e) :
      FailsAsListing text (.assembling e)
  | executing {failure : Failure} {registers : Memory} {script : Script}
      (h : (execute text registers script).result = .error failure) : FailsAsListing text failure

theorem exists_tokens_of_ok {program : Block} (h : (parse text).result = .ok program) :
    ∃ tokens, Lexer.tokenize text = .ok tokens ∧ Parser.parse tokens = .ok program := by
  obtain ⟨errors, -, hp⟩ | ⟨tokens, e, -, -, hp⟩ | ⟨tokens, found, ht, hb, hp⟩ := parse_cases text
  · rw [hp] at h
    cases h
  · rw [hp] at h
    cases h
  · rw [hp] at h
    cases h
    exact ⟨tokens, ht, hb⟩

/-- Where the errors of a source stand: on pieces whose reading ends in them, on the line of a
token, or on the line of a statement. -/
inductive StandsInSource (text : String) : Failure → Prop
  | lexing {errors : List (Located LexError)} (hn : errors ≠ [])
      (h : ∀ e ∈ errors, Lexer.BreaksOn text e) : StandsInSource text (.lexing errors)
  | parsing {tokens : List (Located Token)} {token : Located Token} {e : Located ParseError}
      (ht : Lexer.tokenize text = .ok tokens) (hm : token ∈ tokens) (hl : e.line = token.line) :
      StandsInSource text (.parsing e)
  | running {tokens : List (Located Token)} {program : Block} {e : Located Fault}
      (ht : Lexer.tokenize text = .ok tokens) (hp : Parser.parse tokens = .ok program)
      (hl : e.line ∈ program.lines) : StandsInSource text (.running e)

section Source

theorem standsInSource_of_lexing {errors : List (Located LexError)}
    (h : Lexer.tokenize text = .error errors) : StandsInSource text (.lexing errors) :=
  .lexing (Lexer.tokenize_eq_error_iff.1 h).1 fun _ he => Lexer.breaksOn_of_error h he

theorem standsInSource_of_parsing (h : (parse text).result = .error failure) :
    StandsInSource text failure := by
  obtain ⟨errors, ht, hp⟩ | ⟨tokens, e, ht, he, hp⟩ | ⟨tokens, program, -, -, hp⟩ :=
    parse_cases text
  · rw [hp] at h
    cases h
    exact standsInSource_of_lexing ht
  · rw [hp] at h
    cases h
    obtain ⟨token, hm, hl⟩ := Parser.exists_token_of_error ht he
    exact .parsing ht hm hl
  · rw [hp] at h
    cases h

theorem standsInSource_of_walking (h : (walk text memory script).result = .error failure) :
    StandsInSource text failure := by
  cases hp : (parse text).result with
  | error e =>
    have hw : walk text memory script = _ := Run.bind_of_error hp _
    rw [hw] at h
    cases h
    exact standsInSource_of_parsing hp
  | ok program =>
    obtain ⟨tokens, ht, hb⟩ := exists_tokens_of_ok hp
    have hf := Walker.failsOn_run program memory script
    rw [walk_of_ok hp] at h
    generalize Walker.run program memory script = run at h hf
    obtain ⟨signals, result⟩ := run
    cases result with
    | ok left => cases h
    | error e =>
      cases h
      exact .running ht hb hf

theorem FailsAsSource.stands (h : FailsAsSource text failure) : StandsInSource text failure := by
  cases h with
  | lexing h => exact standsInSource_of_lexing h
  | parsing h => exact standsInSource_of_parsing h
  | walking h => exact standsInSource_of_walking h

theorem StandsInSource.hasPiece (h : StandsInSource text failure) :
    ∀ e ∈ failure.errors, Text.HasPiece text.toList e.line := by
  cases h with
  | lexing hn h =>
    intro e he
    obtain ⟨error, hm, rfl⟩ := List.mem_map.1 he
    exact (h error hm).hasPiece
  | parsing ht hm hl =>
    refine List.forall_mem_singleton.2 ?_
    rw [Located.line_map, hl]
    exact Lexer.hasPiece_of_token ht hm
  | running ht hp hl => exact List.forall_mem_singleton.2 (Parser.hasPiece_of_parse ht hp _ hl)

theorem StandsInSource.errors_ne_nil (h : StandsInSource text failure) : failure.errors ≠ [] := by
  cases h with
  | lexing hn h => exact mt List.map_eq_nil_iff.1 hn
  | parsing | running => nofun

theorem StandsInSource.shows (h : StandsInSource text failure) (name : String) :
    Shows (Places ⟨name, text⟩) failure (failure.report (some ⟨name, text⟩)).render :=
  Report.shows_render h.errors_ne_nil fun e he => .inr (Report.places_place (h.hasPiece e he))

end Source

/-- Where the error of a listing stands: on a line that is wrong, on one that names a key without an
entry, or on that of the instruction that failed. Only a run whose budget is used up stands
nowhere. -/
inductive StandsInListing (text : String) : Failure → Prop
  | line {e : Located AssemblyError}
      (h : Assembly.Objects (Assembly.contents text) e.line e.val) :
      StandsInListing text (.assembling e)
  | key {n : Nat} {i : Instruction} {key : String}
      (h : Assembly.Says (Assembly.contents text) n (.instruction i))
      (hk : .data key ∈ i.operands) (hd : ¬Assembly.Defines (Assembly.contents text) key) :
      StandsInListing text (.assembling ⟨n, .undefinedData key⟩)
  | fault {program : Program} {i : Instruction} {state : Machine.State} {signals : List Signal}
      {e : Located Fault} (hr : Assembly.read text = .ok program)
      (h : Assembly.Says (Assembly.contents text) e.line (.instruction i))
      (hs : Machine.step program i state = ⟨signals, .error e.val⟩) :
      StandsInListing text (.running e)
  | budget : StandsInListing text (.running (.unplaced (.overheat stepLimit)))

section Listing

theorem standsInListing_of_reading {e : Located AssemblyError} (h : Assembly.read text = .error e) :
    StandsInListing text (.assembling e) := by
  obtain ⟨n, e⟩ := e
  obtain h | ⟨-, key, rfl, ⟨i, before, after, hs, ho, hd, -⟩, -⟩ := Assembly.read_eq_error_iff.1 h
  · exact .line h.1
  · exact .key hs (by simp [ho]) hd

theorem execute_of_read_error {e : Located AssemblyError} (h : Assembly.read text = .error e) :
    execute text registers script = ⟨[], .error (.assembling e)⟩ := by
  rw [execute, assemble, h]
  rfl

theorem standsInListing_of_executing (h : (execute text registers script).result = .error failure) :
    StandsInListing text failure := by
  cases hr : Assembly.read text with
  | error e =>
    rw [execute_of_read_error hr] at h
    cases h
    exact standsInListing_of_reading hr
  | ok program =>
    rw [execute_of_read hr] at h
    dsimp only at h
    cases hm : (Machine.run program registers script).result with
    | ok left =>
      rw [hm] at h
      cases h
    | error e =>
      rw [hm] at h
      cases h
      obtain rfl | ⟨_, i, _, _, fetched, executed, hl⟩ := Machine.exists_fetched_of_error hm
      · exact .budget
      · have hi : i ∈ program.instructions.toList := by simpa using Array.mem_of_getElem? fetched
        have hs := ((Assembly.describes_of_read hr).2.1.instruction i.line i.val).1 hi
        exact .fault hr (hl ▸ hs) executed

theorem FailsAsListing.stands (h : FailsAsListing text failure) : StandsInListing text failure := by
  cases h with
  | reading h => exact standsInListing_of_reading h
  | executing h => exact standsInListing_of_executing h

theorem StandsInListing.onLine (h : StandsInListing text failure) :
    failure = .running (.unplaced (.overheat stepLimit)) ∨
      ∃ e p, failure.errors = [e] ∧ Assembly.OnLine (Assembly.contents text) e.line p := by
  cases h with
  | line h => exact .inr ⟨_, _, rfl, h⟩
  | key h | fault _ h => exact .inr ⟨_, _, rfl, h⟩
  | budget => exact .inl rfl

theorem StandsInListing.shows (h : StandsInListing text failure) (name : String) :
    Shows (Quotes ⟨name, text⟩) failure (failure.report (some ⟨name, text⟩)).render := by
  obtain rfl | ⟨e, p, he, hl⟩ := h.onLine
  · exact Report.shows_render nofun (List.forall_mem_singleton.2 (.inl rfl))
  · refine Report.shows_render (he ▸ nofun) fun error hm => .inr ?_
    rw [he, List.mem_singleton] at hm
    exact hm ▸ hl.quotes name

end Listing

/-- The body of this condition is not closed where the text ends, on a piece with nothing in it. -/
example :
    let text := "ERWACHE\nWENN 1 DANN\n"
    let failure : Failure := .parsing ⟨3, .unclosed .wenn⟩
    (parse text).result = .error failure ∧ (failure.report (some ⟨"p", text⟩)).render =
      "Syntax error: Expected ENDE to close WENN block\n --> line 3\n\n1 error reported\n" := by
  decide +kernel

end Toolchain

end Octet
