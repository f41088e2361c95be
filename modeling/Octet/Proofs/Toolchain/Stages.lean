import Octet.Proofs.Compiler.Encoding
import Octet.Proofs.Tree.Descent
import Octet.Toolchain

namespace Octet

/-- Whether the lexer or the parser finds a failure. -/
def Failure.isSyntactic : Failure → Bool
  | lexing _ | parsing _ => true
  | assembling _ | running _ | io _ => false

namespace Toolchain

variable {source : String} {failure : Failure} {program : Block} {registers : Memory}
  {script : Script}

/-- A source has a failure for the lexer or for the parser, or it writes a program. -/
theorem parse_cases (source : String) :
    (∃ errors, Lexer.tokenize source = .error errors ∧
      parse source = ⟨[], .error (.lexing errors)⟩) ∨
    (∃ tokens e, Lexer.tokenize source = .ok tokens ∧ Parser.parse tokens = .error e ∧
      parse source = ⟨[.note (.lexed tokens.length)], .error (.parsing e)⟩) ∨
    ∃ tokens program, Lexer.tokenize source = .ok tokens ∧ Parser.parse tokens = .ok program ∧
      parse source =
        ⟨[.note (.lexed tokens.length), .note (.parsed program.length)], .ok program⟩ := by
  cases ht : Lexer.tokenize source with
  | error errors =>
    refine .inl ⟨errors, rfl, ?_⟩
    rw [parse, ht]
    rfl
  | ok tokens =>
    have hs : parse source = Run.send (.note (.lexed tokens.length)) >>= fun _ =>
        (liftM ((Parser.parse tokens).mapError Failure.parsing) : Run _ _) >>= fun program =>
          Run.send (.note (.parsed program.length)) >>= fun _ => pure program := by
      rw [parse, ht]
      rfl
    cases hp : Parser.parse tokens with
    | error e =>
      refine .inr (.inl ⟨tokens, e, rfl, hp, ?_⟩)
      rw [hs, hp]
      rfl
    | ok program =>
      refine .inr (.inr ⟨tokens, program, rfl, hp, ?_⟩)
      rw [hs, hp]
      rfl

/-- A source that writes no program has a failure of its own. -/
theorem isSyntactic_of_parse (h : (parse source).result = .error failure) :
    failure.isSyntactic = true := by
  obtain ⟨e, -, hp⟩ | ⟨tokens, e, -, -, hp⟩ | ⟨tokens, program, -, -, hp⟩ := parse_cases source
  · rw [hp] at h
    cases h
    rfl
  · rw [hp] at h
    cases h
    rfl
  · rw [hp] at h
    cases h

theorem every_normal_of_result (h : (parse source).result = .ok program) :
    program.Every Expr.Normal := by
  obtain ⟨e, -, hp⟩ | ⟨tokens, e, -, -, hp⟩ | ⟨tokens, read, -, hr, hp⟩ := parse_cases source
  · rw [hp] at h
    cases h
  · rw [hp] at h
    cases h
  · rw [hp] at h
    cases h
    exact Parser.every_normal_of_parse hr

theorem result_of_tokens {tokens : List (Located Token)} (ht : Lexer.tokenize source = .ok tokens)
    (hr : Parser.parse tokens = .ok program) : (parse source).result = .ok program := by
  obtain ⟨e, he, -⟩ | ⟨found, e, hf, he, -⟩ | ⟨found, read, hf, hp, h⟩ := parse_cases source
  · cases ht.symm.trans he
  · cases ht.symm.trans hf
    cases hr.symm.trans he
  · cases ht.symm.trans hf
    cases hr.symm.trans hp
    rw [h]

/-- Without a program there is nothing to run. -/
theorem compileAndExecute_of_error (h : (parse source).result = .error failure) :
    compileAndExecute source registers script = ⟨(parse source).signals, .error failure⟩ := by
  have hc : compile source none = ⟨(parse source).signals, .error failure⟩ := Run.bind_of_error h _
  rw [compileAndExecute, Run.bind_of_error (congrArg Run.result hc), hc]

/-- Notes of the phases that come before a program is run. -/
def IsPreface (signals : List Signal) : Prop :=
  ∃ notes : List Note, signals = notes.map .note ∧ ∀ e, .ring e ∉ notes

theorem IsPreface.append {signals more : List Signal} (h : IsPreface signals)
    (hm : IsPreface more) : IsPreface (signals ++ more) := by
  obtain ⟨notes, rfl, hn⟩ := h
  obtain ⟨rest, rfl, hr⟩ := hm
  exact ⟨notes ++ rest, List.map_append.symm, fun e he =>
    (List.mem_append.1 he).elim (hn e) (hr e)⟩

theorem isPreface_parse (source : String) : IsPreface (parse source).signals := by
  obtain ⟨e, -, hp⟩ | ⟨tokens, e, -, -, hp⟩ | ⟨tokens, program, -, -, hp⟩ := parse_cases source
  · rw [hp]
    exact ⟨[], rfl, nofun⟩
  · rw [hp]
    exact ⟨[.lexed tokens.length], rfl, by simp⟩
  · rw [hp]
    exact ⟨[.lexed tokens.length, .parsed program.length], rfl, by simp⟩

/-- A listing that can be read is executed as the program that it writes. -/
theorem execute_of_read {listing : String} {read : Program}
    (h : Assembly.read listing = .ok read) :
    execute listing registers script =
      ⟨[.note (.listed read.instructions.size read.labels.size read.data.size),
        .note (.assembled read.instructions.size)] ++ (Machine.run read registers script).signals,
        (Machine.run read registers script).result.mapError .running⟩ := by
  rw [execute, assemble, h]
  rfl

/-- A program is run as its own listing is read back, behind one preface for all its runs. -/
theorem exists_preface_of_ok (h : (parse source).result = .ok program) :
    ∃ preface, IsPreface preface ∧ ∀ registers script, compileAndExecute source registers script =
      ⟨preface ++ (Machine.run (program.compile.assembled none) registers script).signals,
        (Machine.run (program.compile.assembled none) registers script).result.mapError
          .running⟩ := by
  have hr : Assembly.read (program.compile.render none) = .ok (program.compile.assembled none) :=
    Assembly.read_render program.legible_compile nofun
  let listing := program.compile
  let assembled := listing.assembled none
  have hc : compile source none = ⟨(parse source).signals ++
      [.note (.emitted listing.labels listing.texts.length)], .ok (listing.render none)⟩ :=
    Run.bind_of_ok h _
  refine ⟨(parse source).signals ++
    ([.emitted listing.labels listing.texts.length,
      .listed assembled.instructions.size assembled.labels.size assembled.data.size,
      .assembled assembled.instructions.size].map .note), ?_, fun registers script => ?_⟩
  · exact (isPreface_parse source).append ⟨_, rfl, by simp⟩
  · rw [compileAndExecute, Run.bind_of_ok (congrArg Run.result hc), hc, execute_of_read hr]
    simp [assembled, listing]

theorem compileAndExecute_of_ok (h : (parse source).result = .ok program) (registers : Memory)
    (script : Script) :
    ∃ preface, IsPreface preface ∧ compileAndExecute source registers script =
      ⟨preface ++ (Machine.run (program.compile.assembled none) registers script).signals,
        (Machine.run (program.compile.assembled none) registers script).result.mapError
          .running⟩ := by
  obtain ⟨preface, hp, hr⟩ := exists_preface_of_ok h
  exact ⟨preface, hp, hr registers script⟩

/-- A program is run as it has been read. -/
theorem walk_of_ok (h : (parse source).result = .ok program) :
    walk source registers script =
      ⟨(parse source).signals ++ (Walker.run program registers script).signals,
        (Walker.run program registers script).result.mapError .running⟩ :=
  Run.bind_of_ok h _

end Toolchain

end Octet
