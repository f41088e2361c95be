import Octet.Proofs.Tree.Descent

namespace Octet

namespace Block

variable {a b : Block} {written after : List (Located Token)}

def append : Block → Block → Block
  | done, after => after
  | halt line rest, after => halt line (rest.append after)
  | assign line slot value rest, after => assign line slot value (rest.append after)
  | output line value rest, after => output line value (rest.append after)
  | input line slot rest, after => input line slot (rest.append after)
  | branch line condition body otherwise rest, after =>
    branch line condition body otherwise (rest.append after)
  | loop line condition body rest, after => loop line condition body (rest.append after)

theorem append_reverseOnto (a b c : Block) :
    (a.reverseOnto b).append c = a.reverseOnto (b.append c) := by
  induction a generalizing b with
  | done => rfl
  | halt line rest ih | assign line slot value rest ih | output line value rest ih
  | input line slot rest ih => exact ih _
  | branch line condition body otherwise rest _ _ ih => exact ih _
  | loop line condition body rest _ ih => exact ih _

theorem reverseOnto_eq (a b : Block) : a.reverseOnto b = a.reverse.append b :=
  (append_reverseOnto a .done b).symm

theorem reverse_halt (line : Nat) (b : Block) :
    (halt line b).reverse = b.reverse.append (halt line done) :=
  reverseOnto_eq b _

theorem Written.append (ha : a.Written written) (hb : b.Written after) :
    (a.append b).Written (written ++ after) := by
  induction ha with
  | done => exact hb
  | halt hp _ ih =>
    rw [List.append_assoc]
    exact .halt hp ih
  | assign hp _ ih =>
    rw [List.append_assoc]
    exact .assign hp ih
  | output hp _ ih =>
    rw [List.append_assoc]
    exact .output hp ih
  | input hp _ ih =>
    rw [List.append_assoc]
    exact .input hp ih
  | branch hp hb he _ _ ih =>
    simp only [List.append_assoc]
    exact .branch hp hb he ih
  | alternative hp hb hm ho he _ _ _ ih =>
    simp only [List.append_assoc]
    exact .alternative hp hb hm ho he ih
  | loop hp hb he _ _ ih =>
    simp only [List.append_assoc]
    exact .loop hp hb he ih

theorem endsInHalt_of_haltsLast {line : Nat} {rest : Block} (h : (halt line rest).HaltsLast) :
    (halt line rest).endsInHalt = true := by
  obtain rfl : rest = done := h
  rfl

theorem endsInHalt_append (ha : a.HaltsLast) (hg : a.endsInHalt = false) (b : Block) :
    (a.append b).endsInHalt = b.endsInHalt := by
  induction a with
  | done => rfl
  | halt line rest => cases (endsInHalt_of_haltsLast ha).symm.trans hg
  | assign line slot value rest ih | output line value rest ih | input line slot rest ih =>
    exact ih ha hg
  | branch line condition body otherwise rest _ _ ih => exact ih ha.2.2 hg
  | loop line condition body rest _ ih => exact ih ha.2 hg

theorem haltsLast_append (ha : a.HaltsLast) (hg : a.endsInHalt = false) (hb : b.HaltsLast) :
    (a.append b).HaltsLast := by
  induction a with
  | done => exact hb
  | halt line rest => cases (endsInHalt_of_haltsLast ha).symm.trans hg
  | assign line slot value rest ih | output line value rest ih | input line slot rest ih =>
    exact ih ha hg
  | branch line condition body otherwise rest _ _ ih => exact ⟨ha.1, ha.2.1, ih ha.2.2 hg⟩
  | loop line condition body rest _ ih => exact ⟨ha.1, ih ha.2 hg⟩

/-- A block has been read up to here, and another statement may follow. -/
structure Open (block : Block) (tokens : List (Located Token)) : Prop where
  written : block.Written tokens
  halts : block.HaltsLast
  goesOn : block.endsInHalt = false

theorem open_done : done.reverse.Open [] := ⟨.done, trivial, rfl⟩

theorem Open.append (ha : a.Open written) (hb : b.Open after) :
    (a.append b).Open (written ++ after) :=
  ⟨ha.written.append hb.written, haltsLast_append ha.halts ha.goesOn hb.halts,
    (endsInHalt_append ha.halts ha.goesOn b).trans hb.goesOn⟩

section Statement

variable {line : Nat} {slot : Slot} {value : Expr}

theorem Open.assign (ho : b.reverse.Open written)
    (hp : Phrase line .ding (slot.token :: .equal :: value.tokens) after) :
    (Block.assign line slot value b).reverse.Open (written ++ after) := by
  have hr : (Block.assign line slot value b).reverse =
      b.reverse.append (.assign line slot value .done) := reverseOnto_eq b _
  have hs : (Block.assign line slot value .done).Open (after ++ []) :=
    ⟨.assign hp .done, trivial, rfl⟩
  simpa [hr] using ho.append hs

theorem Open.output (ho : b.reverse.Open written)
    (hp : Phrase line .vorstellung value.tokens after) :
    (Block.output line value b).reverse.Open (written ++ after) := by
  have hr : (Block.output line value b).reverse = b.reverse.append (.output line value .done) :=
    reverseOnto_eq b _
  have hs : (Block.output line value .done).Open (after ++ []) := ⟨.output hp .done, trivial, rfl⟩
  simpa [hr] using ho.append hs

theorem Open.input (ho : b.reverse.Open written) (hp : Phrase line .wille [slot.token] after) :
    (Block.input line slot b).reverse.Open (written ++ after) := by
  have hr : (Block.input line slot b).reverse = b.reverse.append (.input line slot .done) :=
    reverseOnto_eq b _
  have hs : (Block.input line slot .done).Open (after ++ []) := ⟨.input hp .done, trivial, rfl⟩
  simpa [hr] using ho.append hs

end Statement

end Block

namespace Parser

variable {written before inner : List (Located Token)}

namespace Purpose

def line : Purpose → Nat
  | assign line _ | output line | branch line | loop line => line

def keyword : Purpose → Keyword
  | assign _ _ => .ding
  | output _ => .vorstellung
  | branch _ => .wenn
  | loop _ => .solange

/-- The tokens between the keyword and the expression. -/
def tokens : Purpose → List Token
  | assign _ slot => [slot.token, .equal]
  | _ => []

end Purpose

def Due.tokens (due : Due) : List Token :=
  due.purpose.tokens ++
    match due.before with
    | none => []
    | some (e, op) => e.tokens ++ [op.token]

theorem Due.tokens_complete (due : Due) (operand : Expr) :
    due.purpose.tokens ++ (due.complete operand).tokens = due.tokens ++ operand.tokens := by
  obtain ⟨purpose, before⟩ := due
  cases before with
  | none => simp [tokens, complete]
  | some x => simp [tokens, complete, Expr.tokens_extend]

/-- What has been read since the last statement that is complete, while an open block goes on. -/
def Mode.Written : Mode → List (Located Token) → Prop
  | statement, written => IsGap written
  | assignSlot line, written => Phrase line .ding [] written
  | inputSlot line, written => Phrase line .wille [] written
  | equals line slot, written => Phrase line .ding [slot.token] written
  | operand due, written => Phrase due.purpose.line due.purpose.keyword due.tokens written
  | operandSlot due, written =>
    Phrase due.purpose.line due.purpose.keyword (due.tokens ++ [.keyword .ding]) written
  | operator purpose e, written =>
    Phrase purpose.line purpose.keyword (purpose.tokens ++ e.tokens) written
  | start, _ | closing, _ | finished, _ => False

/-- A statement up to the block that is open in it. -/
inductive Opener.Written : Opener → List (Located Token) → Prop
  | body {line condition first}
      (hp : Phrase line .wenn (condition.tokens ++ [.keyword .dann]) first) :
      Written (.body line condition) first
  | otherwise {line condition body first inner parted middle}
      (hp : Phrase line .wenn (condition.tokens ++ [.keyword .dann]) first)
      (hb : body.Written inner) (hh : body.HaltsLast) (hm : Phrase parted .sonst [] middle) :
      Written (.otherwise line condition body) (first ++ (inner ++ middle))
  | loop {line condition first} (hp : Phrase line .solange condition.tokens first) :
      Written (.loop line condition) first

/-- A program up to the innermost block that is open. -/
inductive Opened : List Frame → List (Located Token) → Prop
  | program {line first} (hp : Phrase line .erwache [] first) : Opened [] first
  | frame {opener before outer first statements last} (ho : Opened outer first)
      (hb : before.reverse.Open statements) (hw : opener.Written last) :
      Opened (⟨opener, before⟩ :: outer) (first ++ (statements ++ last))

/-- What the tokens that have been taken say about the state that they have led to. -/
inductive State.Reads : State → List (Located Token) → Prop
  | start {gap} (hg : IsGap gap) : Reads ⟨.start, .done, []⟩ gap
  | going {mode current frames first statements last} (ho : Opened frames first)
      (hb : current.reverse.Open statements) (hm : mode.Written last) :
      Reads ⟨mode, current, frames⟩ (first ++ (statements ++ last))
  | closing {current frame outer first statements gap} (ho : Opened (frame :: outer) first)
      (hb : current.reverse.Written statements) (hh : current.reverse.HaltsLast)
      (hg : IsGap gap) :
      Reads ⟨.closing, current, frame :: outer⟩ (first ++ (statements ++ gap))
  | finished {current tokens} (hw : ∀ more, Writes (tokens ++ more) current.reverse)
      (hh : current.reverse.HaltsLast) : Reads ⟨.finished, current, []⟩ tokens

theorem Opener.reverse_close (opener : Opener) (block before : Block) :
    (opener.close block before).reverse = before.reverse.append (opener.close block .done) := by
  rw [← Block.reverseOnto_eq]
  cases opener <;> rfl

theorem Opener.Written.close {opener : Opener} {block : Block} {at_ : Nat}
    (ho : opener.Written before) (hb : block.Written inner) (hh : block.HaltsLast)
    (he : Phrase at_ .ende [] written) :
    (opener.close block .done).Open (before ++ (inner ++ written)) := by
  cases ho with
  | body hp =>
    refine ⟨?_, ⟨hh, trivial, trivial⟩, rfl⟩
    simpa [Opener.close] using Block.Written.branch hp hb he .done
  | otherwise hp hf hfh hm =>
    refine ⟨?_, ⟨hfh, hh, trivial⟩, rfl⟩
    simpa [Opener.close] using Block.Written.alternative hp hf hm hb he .done
  | loop hp =>
    refine ⟨?_, ⟨hh, trivial⟩, rfl⟩
    simpa [Opener.close] using Block.Written.loop hp hb he .done

namespace State

variable {state next : State} {mode : Mode} {current : Block} {frame : Frame}
  {frames outer : List Frame} {line : Nat} {token : Token}
  {first statements last : List (Located Token)}

theorem reads_statement (ho : Opened frames first) (hb : current.reverse.Open statements)
    (hg : IsGap last) :
    (State.mk .statement current frames).Reads (first ++ (statements ++ last)) :=
  .going ho hb hg

theorem reads_endBlock (ho : Opened (frame :: outer) first)
    (hb : current.reverse.Written statements) (hh : current.reverse.HaltsLast) (hg : IsGap last)
    (h : (State.mk mode current frames).endBlock frame outer token = .ok next) :
    next.Reads (first ++ (statements ++ (last ++ [⟨line, token⟩]))) := by
  cases ho with
  | @frame opener before outer start inner middle ho hi hw =>
    unfold endBlock at h
    split at h
    · cases h
      have hc := hi.append (hw.close hb hh (hg.phrase line .ende))
      rw [← Opener.reverse_close] at hc
      simpa using reads_statement ho hc isGap_nil
    · split at h
      · next begun condition hop =>
        cases h
        obtain rfl : opener = _ := hop
        cases hw with
        | body hp =>
          have hw := Opener.Written.otherwise hp hb hh (hg.phrase line .sonst)
          simpa using reads_statement (.frame ho hi hw) Block.open_done isGap_nil
      · cases h
    · cases h

theorem writes_of_halt (ho : Opened [] first) (hb : current.reverse.Open statements)
    (hp : Phrase line .verneinung [] last) (more : List (Located Token)) :
    Writes (first ++ (statements ++ last) ++ more) (Block.halt line current).reverse := by
  cases ho with
  | program hf =>
    rw [Block.reverse_halt]
    have he := Block.endsInHalt_append hb.halts hb.goesOn (.halt line .done)
    exact ⟨_, first, _, more, hf, hb.written.append (.halt hp .done), by simp, .inl he⟩

theorem reads_halt (ho : Opened frames first) (hb : current.reverse.Open statements)
    (hp : Phrase line .verneinung [] last) :
    (State.mk (if frames.isEmpty then .finished else .closing) (.halt line current) frames).Reads
      (first ++ (statements ++ last)) := by
  have hh : (Block.halt line current).reverse.HaltsLast := by
    rw [Block.reverse_halt]
    exact Block.haltsLast_append hb.halts hb.goesOn rfl
  cases frames with
  | nil => exact .finished (writes_of_halt ho hb hp) hh
  | cons frame outer =>
    have hw : (Block.halt line current).reverse.Written (statements ++ (last ++ [])) := by
      rw [Block.reverse_halt]
      exact hb.written.append (.halt hp .done)
    simpa using State.Reads.closing ho hw hh isGap_nil

theorem writes_of_eof (ho : Opened [] first) (hb : current.reverse.Open statements)
    (hg : IsGap last) (more : List (Located Token)) (he : ∀ token ∈ more.head?, token.val = .eof) :
    Writes (first ++ (statements ++ (last ++ more))) current.reverse := by
  cases ho with
  | program hf =>
    exact ⟨_, first, statements, _, hf, hb.written, rfl, .inr ⟨last, more, hg, he, rfl⟩⟩

theorem reads_beginStatement (ho : Opened frames first) (hb : current.reverse.Open statements)
    (hg : IsGap last) (h : (State.mk mode current frames).beginStatement line token = .ok next) :
    next.Reads (first ++ (statements ++ (last ++ [⟨line, token⟩]))) := by
  unfold beginStatement at h
  split at h
  · cases h
    exact reads_statement ho hb (hg.concat line)
  · cases h
    exact reads_halt ho hb (hg.phrase line .verneinung)
  · cases h
    exact .going ho hb (hg.phrase line .ding)
  · cases h
    exact .going ho hb (hg.phrase line .vorstellung)
  · cases h
    exact .going ho hb (hg.phrase line .wille)
  · cases h
    exact .going ho hb (hg.phrase line .wenn)
  · cases h
    exact .going ho hb (hg.phrase line .solange)
  · split at h
    · cases h
      obtain rfl : frames = [] := ‹_›
      refine .finished (fun more => ?_) hb.halts
      have hw := writes_of_eof ho hb hg (⟨line, .eof⟩ :: more) (by simp)
      simpa using hw
    · obtain rfl : frames = _ :: _ := ‹_›
      exact reads_endBlock ho hb.written hb.halts hg h
    · obtain rfl : frames = _ :: _ := ‹_›
      exact reads_endBlock ho hb.written hb.halts hg h
    · obtain rfl : frames = _ :: _ := ‹_›
      exact reads_endBlock ho hb.written hb.halts hg h
    · cases h

theorem reads_endExpr {purpose : Purpose} {e : Expr} (ho : Opened frames first)
    (hb : current.reverse.Open statements)
    (hp : Phrase purpose.line purpose.keyword (purpose.tokens ++ e.tokens) last)
    (h : (State.mk mode current frames).endExpr line purpose e token = .ok next) :
    next.Reads (first ++ (statements ++ (last ++ [⟨line, token⟩]))) := by
  unfold endExpr at h
  split at h
  · next begun slot => simpa using reads_beginStatement ho (hb.assign hp) isGap_nil h
  · next begun => simpa using reads_beginStatement ho (hb.output hp) isGap_nil h
  · next begun =>
    split at h
    · next ht =>
      cases h
      subst ht
      have hf := Opened.frame ho hb (.body (hp.concat line (.keyword .dann)))
      simpa [enter, Purpose.line] using reads_statement hf Block.open_done isGap_nil
    · cases h
  · next begun =>
    have hf := Opened.frame ho hb (.loop hp)
    simpa using reads_beginStatement hf Block.open_done isGap_nil h

/-- A token that is taken keeps what the tokens say about the state. -/
theorem reads_step {tokens : List (Located Token)} (hr : state.Reads tokens)
    (h : state.step line token = .ok next) : next.Reads (tokens ++ [⟨line, token⟩]) := by
  cases hr with
  | start hg =>
    unfold step at h
    dsimp only at h
    split at h
    · cases h
      exact .start (hg.concat line)
    · cases h
      simpa using reads_statement (.program (hg.phrase line .erwache)) Block.open_done isGap_nil
    · cases h
  | closing ho hb hh hg =>
    simp only [List.append_assoc]
    unfold step at h
    dsimp only at h
    split at h
    · cases h
      exact .closing ho hb hh (hg.concat line)
    · next hf =>
      cases hf
      exact reads_endBlock ho hb hh hg h
    · next hf => cases hf
  | finished hw hh =>
    cases h
    exact .finished (fun more => by simpa using hw (⟨line, token⟩ :: more)) hh
  | @going mode current frames first statements last ho hb hm =>
    simp only [List.append_assoc]
    cases mode with
    | start | closing | finished => cases hm
    | statement => exact reads_beginStatement ho hb hm h
    | assignSlot begun =>
      obtain ⟨i, hs, h⟩ := bind_ok h
      cases h
      obtain rfl := eq_token_of_slot hs
      exact .going ho hb (hm.concat line _)
    | inputSlot begun =>
      obtain ⟨i, hs, h⟩ := bind_ok h
      cases h
      obtain rfl := eq_token_of_slot hs
      have hc := hb.input (hm.concat line i.token)
      simpa [statement] using reads_statement ho hc isGap_nil
    | equals begun slot =>
      unfold step at h
      dsimp only at h
      split at h
      · next ht =>
        cases h
        exact .going ho hb (ht ▸ hm.concat line token)
      · cases h
    | operand due =>
      have hn {e : Expr} (he : e.tokens = [token]) :
          (State.mk (.operator due.purpose (due.complete e)) current frames).Reads
            (first ++ (statements ++ (last ++ [⟨line, token⟩]))) := by
        refine .going ho hb ?_
        rw [Mode.Written, due.tokens_complete, he]
        exact hm.concat line token
      cases token with
      | number n | text s =>
        cases h
        exact hn rfl
      | keyword k =>
        cases k with
        | ding =>
          cases h
          exact .going ho hb (hm.concat line _)
        | _ => cases h
      | _ => cases h
    | operandSlot due =>
      obtain ⟨i, hs, h⟩ := bind_ok h
      cases h
      obtain rfl := eq_token_of_slot hs
      refine .going ho hb ?_
      rw [Mode.Written, due.tokens_complete]
      simpa [Expr.tokens] using hm.concat line i.token
    | operator purpose e =>
      cases hop : operator? token with
      | some op =>
        obtain rfl := eq_token_of_operator? hop
        rw [step_operator] at h
        cases h
        refine .going ho hb ?_
        simpa [Mode.Written, Due.tokens] using Phrase.concat hm line op.token
      | none =>
        rw [step_operator_of_none purpose e hop] at h
        exact reads_endExpr ho hb hm h

theorem reads_run {tokens more : List (Located Token)} (hr : state.Reads tokens)
    (h : state.run more = .ok next) : next.Reads (tokens ++ more) := by
  induction more generalizing state tokens with
  | nil =>
    cases h
    simpa using hr
  | cons token more ih =>
    rw [run] at h
    split at h
    · next hs => simpa using ih (reads_step hr hs) h
    · cases h

theorem reads_initial : initial.Reads [] := .start isGap_nil

theorem writes_result {tokens : List (Located Token)} {program : Block} (hr : state.Reads tokens)
    (h : state.result = .ok program) : Writes tokens program ∧ program.HaltsLast := by
  cases hr with
  | start hg => cases h
  | closing ho hb hh hg => cases h
  | finished hw hh =>
    cases h
    exact ⟨by simpa using hw [], hh⟩
  | @going mode current frames first statements last ho hb hm =>
    -- Only outside all inner blocks may the tokens stop.
    have ended {written : List (Located Token)} {current : Block} {last : List (Located Token)}
        (hb : current.reverse.Open written) (hg : IsGap last)
        (h : (State.mk .statement current frames).result = .ok program) :
        Writes (first ++ (written ++ last)) program ∧ program.HaltsLast := by
      cases ho with
      | program hf =>
        cases h
        exact ⟨by simpa using writes_of_eof (.program hf) hb hg [] nofun, hb.halts⟩
      | frame => cases h
    cases mode with
    | start | closing | finished => cases hm
    | statement => exact ended hb hm h
    | assignSlot line | inputSlot line | equals line slot | operand due | operandSlot due => cases h
    | operator purpose e =>
      cases purpose with
      | assign line slot => simpa using ended (hb.assign hm) isGap_nil h
      | output line => simpa using ended (hb.output hm) isGap_nil h
      | branch line | loop line => cases h

end State

namespace State

variable {current : Block} {frames : List Frame} {program : Block}

theorem completes_finished (tokens : List (Located Token)) :
    (State.mk .finished (program.reverseOnto .done) []).Completes tokens program := by
  refine ⟨_, run_finished tokens, ?_⟩
  exact congrArg Except.ok program.reverse_reverse

theorem completes_after {after : List (Located Token)}
    (he : ∀ token ∈ after.head?, token.val = .eof) :
    (State.mk .statement (program.reverseOnto .done) []).Completes after program := by
  cases after with
  | nil => exact ⟨_, rfl, congrArg Except.ok program.reverse_reverse⟩
  | cons token after =>
    refine (completes_finished after).of_step ?_
    rw [he token rfl]
    rfl

end State

theorem noOperator_gap {gap after : List (Located Token)} (hg : IsGap gap)
    (he : ∀ token ∈ after.head?, token.val = .eof) : NoOperator (gap ++ after) := by
  intro token ht
  cases gap with
  | nil =>
    rw [he token ht]
    rfl
  | cons first gap =>
    obtain rfl : first = token := by simpa using ht
    rw [hg first (by simp)]
    rfl

/-- Tokens that write a normal program are read to it. -/
theorem completes_of_writes {tokens : List (Located Token)} {program : Block}
    (hw : Writes tokens program) (hn : program.Normal) :
    State.initial.Completes tokens program := by
  obtain ⟨line, first, statements, rest, hp, hs, rfl, he⟩ := hw
  refine .mark hp (fun _ => rfl) rfl ?_
  cases hh : program.endsInHalt with
  | true =>
    refine State.completes_written hs hn.expressions hn.halts (by simp [hh]) ?_
    rw [modeAfter, hh]
    exact State.completes_finished rest
  | false =>
    obtain ⟨gap, after, hg, ha, rfl⟩ := he.resolve_left (by simp [hh])
    refine State.completes_written hs hn.expressions hn.halts (fun _ => noOperator_gap hg ha) ?_
    rw [modeAfter, hh]
    exact .gap hg (fun _ => rfl) (State.completes_after ha)

/-- The parser accepts what its grammar writes, and reads it to the tree that is written. -/
theorem parse_eq_ok_iff {tokens : List (Located Token)} {program : Block} :
    parse tokens = .ok program ↔ Writes tokens program ∧ program.Normal := by
  constructor
  · intro h
    obtain ⟨last, hr, hv⟩ := parse_eq_ok.1 h
    obtain ⟨hw, hh⟩ := State.writes_result (State.reads_run State.reads_initial hr) hv
    exact ⟨hw, every_normal_of_parse h, hh⟩
  · rintro ⟨hw, hn⟩
    exact parse_eq_ok.2 (completes_of_writes hw hn)

end Parser

end Octet
