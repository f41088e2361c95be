import Mathlib.Order.Bounds.Basic
import Octet.Proofs.Token.Stream
import Octet.Proofs.Tree.Acceptance

namespace Octet

namespace Parser

variable {tokens more : List (Located Token)} {program : Block}

/-- Some program begins with the tokens. -/
def Viable (tokens : List (Located Token)) : Prop :=
  ∃ more program, parse (tokens ++ more) = .ok program

namespace State

variable {state next : State} {mode : Mode} {current : Block} {frames : List Frame} {line : Nat}
  {token : Token} {e : Located ParseError}

/-- Some tokens lead from a state to the end of a program. -/
def Viable (state : State) : Prop := ∃ more program, state.Completes more program

theorem Viable.of_step (h : state.step line token = .ok next) (hv : next.Viable) :
    state.Viable := by
  obtain ⟨more, program, hc⟩ := hv
  exact ⟨⟨line, token⟩ :: more, program, hc.of_step h⟩

/-- Every open block can be closed. -/
theorem viable_statement (current : Block) (frames : List Frame) :
    (State.mk .statement current frames).Viable := by
  induction frames generalizing current with
  | nil => exact ⟨[], current.reverse, _, rfl, rfl⟩
  | cons frame outer ih =>
    have hs : (State.mk .statement current (frame :: outer)).step 0 (.keyword .ende) =
        .ok ⟨.statement, frame.opener.close current.reverse frame.before, outer⟩ := rfl
    exact .of_step hs (ih _)

theorem viable_closing (current : Block) (frame : Frame) (outer : List Frame) :
    (State.mk .closing current (frame :: outer)).Viable := by
  have hs : (State.mk .closing current (frame :: outer)).step 0 (.keyword .ende) =
      .ok ⟨.statement, frame.opener.close current.reverse frame.before, outer⟩ := rfl
  exact .of_step hs (viable_statement _ outer)

/-- An expression can be ended: by a line end, or by what must come behind a condition. -/
theorem viable_operator (purpose : Purpose) (e : Expr) (current : Block) (frames : List Frame) :
    (State.mk (.operator purpose e) current frames).Viable := by
  cases purpose with
  | assign begun slot =>
    have hs : (State.mk (.operator (.assign begun slot) e) current frames).step 0 .newline =
        .ok ⟨.statement, .assign begun slot e current, frames⟩ := rfl
    exact .of_step hs (viable_statement _ frames)
  | output begun =>
    have hs : (State.mk (.operator (.output begun) e) current frames).step 0 .newline =
        .ok ⟨.statement, .output begun e current, frames⟩ := rfl
    exact .of_step hs (viable_statement _ frames)
  | branch begun =>
    have hs : (State.mk (.operator (.branch begun) e) current frames).step 0 (.keyword .dann) =
        .ok ⟨.statement, .done, ⟨.body begun e, current⟩ :: frames⟩ := rfl
    exact .of_step hs (viable_statement .done _)
  | loop begun =>
    have hs : (State.mk (.operator (.loop begun) e) current frames).step 0 .newline =
        .ok ⟨.statement, .done, ⟨.loop begun e, current⟩ :: frames⟩ := rfl
    exact .of_step hs (viable_statement .done _)

theorem viable_operand (due : Due) (current : Block) (frames : List Frame) :
    (State.mk (.operand due) current frames).Viable := by
  have hs : (State.mk (.operand due) current frames).step 0 (.number 0) =
      .ok ⟨.operator due.purpose (due.complete (.number 0)), current, frames⟩ := rfl
  exact .of_step hs (viable_operator ..)

theorem viable_equals (begun : Nat) (slot : Slot) (current : Block) (frames : List Frame) :
    (State.mk (.equals begun slot) current frames).Viable := by
  have hs : (State.mk (.equals begun slot) current frames).step 0 .equal =
      .ok ⟨.operand ⟨.assign begun slot, none⟩, current, frames⟩ := rfl
  exact .of_step hs (viable_operand ..)

/-- What has been read can be completed to a program, wherever the parser stands. -/
theorem viable_of_reads (hr : state.Reads tokens) : state.Viable := by
  cases hr with
  | start =>
    have hs : (State.mk .start .done []).step 0 (.keyword .erwache) = .ok ⟨.statement, .done, []⟩ :=
      rfl
    exact .of_step hs (viable_statement .done [])
  | closing => exact viable_closing ..
  | finished => exact ⟨[], _, _, rfl, rfl⟩
  | @going mode current frames first statements last ho hb hm =>
    -- Inside a statement one token, or one and what may follow it, completes the statement.
    cases mode with
    | start | closing | finished => cases hm
    | statement => exact viable_statement current frames
    | assignSlot begun => exact .of_step (step_assignSlot 0 0) (viable_equals ..)
    | inputSlot begun => exact .of_step (step_inputSlot 0 0) (viable_statement _ frames)
    | equals begun slot => exact viable_equals ..
    | operand due => exact viable_operand ..
    | operandSlot due =>
      have hs : (State.mk (.operandSlot due) current frames).step 0 (0 : Slot).token =
          .ok ⟨.operator due.purpose (due.complete (.slot 0)), current, frames⟩ :=
        step_operandSlot due 0
      exact .of_step hs (viable_operator ..)
    | operator purpose e => exact viable_operator ..

theorem run_append_of_ok (h : state.run tokens = .ok next) :
    state.run (tokens ++ more) = next.run more := by
  induction tokens generalizing state with
  | nil =>
    cases h
    rfl
  | cons token tokens ih =>
    rw [run] at h
    rw [List.cons_append, run]
    split at h
    · exact ih h
    · cases h

theorem run_append_of_error (h : state.run tokens = .error e) (more : List (Located Token)) :
    state.run (tokens ++ more) = .error e := by
  induction tokens generalizing state with
  | nil => cases h
  | cons token tokens ih =>
    rw [run] at h
    rw [List.cons_append, run]
    split at h
    · exact ih h
    · exact h

/-- A run fails at a token that the state before it does not take. -/
theorem exists_of_run_error (h : state.run tokens = .error e) :
    ∃ k, ∃ hk : k < tokens.length, ∃ last, state.run (tokens.take k) = .ok last ∧
      state.run (tokens.take (k + 1)) = .error e ∧ e.line = tokens[k].line := by
  induction tokens generalizing state with
  | nil => cases h
  | cons token tokens ih =>
    rw [run] at h
    split at h
    · next last hs =>
      obtain ⟨k, hk, final, hr, he, hl⟩ := ih h
      refine ⟨k + 1, Nat.succ_lt_succ hk, final, ?_, ?_, hl⟩
      · rw [List.take_succ_cons, run, hs]
        exact hr
      · rw [List.take_succ_cons, run, hs]
        exact he
    · next error hs =>
      cases h
      refine ⟨0, Nat.succ_pos _, state, rfl, ?_, rfl⟩
      rw [List.take_succ_cons, run, hs]

theorem mode_of_beginStatement_eof (line : Nat)
    (h : (State.mk mode current frames).beginStatement line .eof = .ok next) :
    next.mode = .finished := by
  cases frames with
  | nil =>
    cases h
    rfl
  | cons frame outer => cases h

/-- The end of the text is taken only where a program may end. -/
theorem mode_of_step_eof (h : state.step line .eof = .ok next) : next.mode = .finished := by
  obtain ⟨mode, current, frames⟩ := state
  cases mode with
  | start | assignSlot begun | inputSlot begun | equals begun slot | operand due
  | operandSlot due => cases h
  | statement => exact mode_of_beginStatement_eof line h
  | closing => cases frames <;> cases h
  | operator purpose e =>
    cases purpose with
    | assign begun slot | output begun => exact mode_of_beginStatement_eof line h
    | branch begun | loop begun => cases h
  | finished =>
    cases h
    rfl

/-- On tokens that end with the end of the text, the parser fails while it takes one of them. -/
theorem run_eq_error (h : parse (tokens ++ [⟨line, .eof⟩]) = .error e) :
    initial.run (tokens ++ [⟨line, .eof⟩]) = .error e := by
  cases hr : initial.run (tokens ++ [⟨line, .eof⟩]) with
  | error e' =>
    rw [parse_eq, finish, hr] at h
    cases h
    rfl
  | ok last =>
    cases hm : initial.run tokens with
    | error e' => cases hr.symm.trans (run_append_of_error hm _)
    | ok mid =>
      rw [run_append_of_ok hm, run] at hr
      split at hr
      -- The end of the text has been taken, so that the program has ended and is accepted.
      · next next hs =>
        cases hr
        have hv : last.result = .ok last.current.reverse := by
          rw [result, mode_of_step_eof hs]
        have hp : parse (tokens ++ [⟨line, .eof⟩]) = .ok last.current.reverse := by
          refine parse_eq_ok.2 ⟨last, ?_, hv⟩
          rw [run_append_of_ok hm, run, hs]
          rfl
        cases h.symm.trans hp
      · cases hr

end State

theorem not_viable_of_run_error {e : Located ParseError}
    (h : State.initial.run tokens = .error e) : ¬Viable tokens := by
  rintro ⟨more, program, hp⟩
  obtain ⟨last, hr, -⟩ := parse_eq_ok.1 hp
  rw [State.run_append_of_error h] at hr
  cases hr

theorem viable_of_run_ok {last : State} (h : State.initial.run tokens = .ok last) :
    Viable tokens := by
  obtain ⟨more, program, hc⟩ := State.viable_of_reads (State.reads_run State.reads_initial h)
  refine ⟨more, program, parse_eq_ok.2 ?_⟩
  obtain ⟨final, hr, hv⟩ := hc
  exact ⟨final, (State.run_append_of_ok h).trans hr, hv⟩

theorem parse_of_run_error {e : Located ParseError} (h : State.initial.run tokens = .error e) :
    parse tokens = .error e := by
  rw [parse_eq, State.finish, h]
  rfl

theorem viable_take {m n : Nat} (hmn : m ≤ n) (hv : Viable (tokens.take n)) :
    Viable (tokens.take m) := by
  have hpre : tokens.take m <+: tokens.take n := List.take_prefix_take_left hmn
  obtain ⟨between, hb⟩ := hpre
  obtain ⟨more, program, hp⟩ := hv
  rw [← hb, List.append_assoc] at hp
  exact ⟨between ++ more, program, hp⟩

/-- An error stands at the first token that no program has in that place, and what comes behind
that token makes no difference. -/
theorem isGreatest_viable_of_error {source : String} {e : Located ParseError}
    (ht : Lexer.tokenize source = .ok tokens) (hp : parse tokens = .error e) :
    ∃ k, ∃ hk : k < tokens.length, IsGreatest {n | Viable (tokens.take n)} k ∧
      e.line = tokens[k].line ∧ ∀ more, parse (tokens.take (k + 1) ++ more) = .error e := by
  obtain ⟨front, line, rfl⟩ := Lexer.tokens_of_tokenize ht
  obtain ⟨k, hk, last, hr, he, hl⟩ := State.exists_of_run_error (State.run_eq_error hp)
  refine ⟨k, hk, ⟨viable_of_run_ok hr, fun n hn => ?_⟩, hl,
    fun more => parse_of_run_error (State.run_append_of_error he more)⟩
  -- A longer beginning holds the token that the run fails at.
  by_contra hlt
  exact not_viable_of_run_error he (viable_take (Nat.lt_of_not_le hlt) hn)

/-- `WILLE` misses its slot, and the error stands on the line where it is missed. -/
theorem isGreatest_viable_of_error_slot :
    ∃ tokens, Lexer.tokenize "ERWACHE\nWENN 1 DANN WILLE\nENDE" = .ok tokens ∧
      parse tokens = .error ⟨2, .expectedSlot .wille⟩ ∧
      ∃ k, ∃ hk : k < tokens.length, IsGreatest {n | Viable (tokens.take n)} k ∧
        2 = tokens[k].line ∧
        ∀ more, parse (tokens.take (k + 1) ++ more) = .error ⟨2, .expectedSlot .wille⟩ := by
  let tokens : List (Located Token) := [⟨1, .keyword .erwache⟩, ⟨1, .newline⟩,
    ⟨2, .keyword .wenn⟩, ⟨2, .number 1⟩, ⟨2, .keyword .dann⟩, ⟨2, .keyword .wille⟩, ⟨2, .newline⟩,
    ⟨3, .keyword .ende⟩, ⟨3, .newline⟩, ⟨3, .eof⟩]
  have ht : Lexer.tokenize "ERWACHE\nWENN 1 DANN WILLE\nENDE" = .ok tokens := by decide +kernel
  have hp : parse tokens = .error ⟨2, .expectedSlot .wille⟩ := by decide +kernel
  exact ⟨tokens, ht, hp, isGreatest_viable_of_error ht hp⟩

end Parser

end Octet
