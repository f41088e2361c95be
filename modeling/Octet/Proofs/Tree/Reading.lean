import Octet.Proofs.Tree.Grammar

namespace Octet

namespace Parser

variable {program : Block} {tokens rest written : List (Located Token)}

/-- The tokens go on from a state to the end of a program. -/
def State.Completes (state : State) (tokens : List (Located Token)) (program : Block) : Prop :=
  ∃ last, state.run tokens = .ok last ∧ last.result = .ok program

/-- The next token is no operator, so that an expression has come to its end. -/
def NoOperator (tokens : List (Located Token)) : Prop :=
  ∀ token ∈ tokens.head?, operator? token.val = none

theorem noOperator_phrase {line : Nat} {k : Keyword} {words : List Token}
    (hp : Phrase line k words written) (hk : k ≠ .mod) (rest : List (Located Token)) :
    NoOperator (written ++ rest) := by
  obtain ⟨gap, words, hg, -, rfl⟩ := hp
  intro token ht
  cases gap with
  | nil =>
    obtain rfl : ⟨line, .keyword k⟩ = token := by simpa using ht
    cases k with
    | mod => exact absurd rfl hk
    | _ => rfl
  | cons first gap =>
    obtain rfl : first = token := by simpa using ht
    rw [hg first (by simp)]
    rfl

theorem noOperator_written {b : Block} (hw : b.Written written)
    (hr : b.endsInHalt = false → NoOperator rest) : NoOperator (written ++ rest) := by
  cases hw with
  | done => exact hr rfl
  | halt hp | assign hp | output hp | input hp | branch hp | alternative hp | loop hp =>
    rw [List.append_assoc]
    exact noOperator_phrase hp (by decide) _

/-- A tighter operator behind an operand goes into the operand. -/
theorem Due.extend_complete (due : Due) {left : Expr} {op : BinaryOp}
    (hb : ∀ x before, due.before = some (x, before) → before.level < op.level)
    (hl : op.level ≤ left.level) (right : Expr) :
    (due.complete left).extend op right = due.complete (.binary left op right) := by
  rw [Due.complete, Due.complete]
  split
  · exact Expr.extend_of_level_le hl right
  · next x before hx => rw [Expr.extend_extend (hb x before hx), Expr.extend_of_level_le hl]

namespace State

variable {state next : State} {current : Block} {frames outer : List Frame} {line : Nat}

theorem run_cons {token : Token} (h : state.step line token = .ok next) :
    state.run (⟨line, token⟩ :: tokens) = next.run tokens := by
  rw [run, h]

theorem run_finished (tokens : List (Located Token)) :
    (State.mk .finished current frames).run tokens = .ok ⟨.finished, current, frames⟩ := by
  induction tokens with
  | nil => rfl
  | cons token tokens ih => exact ih

theorem Completes.of_step {token : Token} (h : state.step line token = .ok next)
    (hc : next.Completes tokens program) : state.Completes (⟨line, token⟩ :: tokens) program := by
  obtain ⟨last, hr, hv⟩ := hc
  exact ⟨last, (run_cons h).trans hr, hv⟩

theorem Completes.gap {gap : List (Located Token)} (hg : IsGap gap)
    (hn : ∀ line, state.step line .newline = .ok state) (hc : state.Completes tokens program) :
    state.Completes (gap ++ tokens) program := by
  induction gap with
  | nil => exact hc
  | cons token gap ih =>
    obtain ⟨at_, val⟩ := token
    obtain rfl : val = .newline := hg ⟨at_, val⟩ (by simp)
    exact (ih fun t ht => hg t (by simp [ht])).of_step (hn at_)

/-- Takes line ends and a keyword, and goes on with what comes with it. -/
theorem Completes.phrase {k : Keyword} {words : List Token} (hp : Phrase line k words written)
    (hn : ∀ line, state.step line .newline = .ok state)
    (hk : state.step line (.keyword k) = .ok next)
    (hc : ∀ located : List (Located Token), located.map Located.val = words →
      next.Completes (located ++ rest) program) :
    state.Completes (written ++ rest) program := by
  obtain ⟨gap, located, hg, hw, rfl⟩ := hp
  rw [List.append_assoc, List.cons_append]
  exact .gap hg hn ((hc located hw).of_step hk)

theorem step_assignSlot (at_ : Nat) (i : Slot) :
    (State.mk (.assignSlot line) current frames).step at_ i.token =
      .ok ⟨.equals line i, current, frames⟩ := by
  change (slot .ding i.token >>= _) = _
  rw [slot_token]
  rfl

theorem step_inputSlot (at_ : Nat) (i : Slot) :
    (State.mk (.inputSlot line) current frames).step at_ i.token =
      .ok ⟨.statement, .input line i current, frames⟩ := by
  change (slot .wille i.token >>= _) = _
  rw [slot_token]
  rfl

theorem step_operandSlot (due : Due) (i : Slot) :
    (State.mk (.operandSlot due) current frames).step line i.token =
      .ok ⟨.operator due.purpose (due.complete (.slot i)), current, frames⟩ := by
  change (slot .ding i.token >>= _) = _
  rw [slot_token]
  rfl

theorem step_operator (purpose : Purpose) (e : Expr) (op : BinaryOp) :
    (State.mk (.operator purpose e) current frames).step line op.token =
      .ok ⟨.operand ⟨purpose, some (e, op)⟩, current, frames⟩ := by
  cases op with
  | arith op => cases op <;> rfl
  | compare op => cases op <;> rfl

theorem step_operator_of_none (purpose : Purpose) (e : Expr) {token : Token}
    (h : operator? token = none) :
    (State.mk (.operator purpose e) current frames).step line token =
      (State.mk (.operator purpose e) current frames).endExpr line purpose e token := by
  unfold step
  dsimp only
  rw [h]

theorem Completes.mark {k : Keyword} (hp : Phrase line k [] written)
    (hn : ∀ line, state.step line .newline = .ok state)
    (hk : state.step line (.keyword k) = .ok next) (hc : next.Completes rest program) :
    state.Completes (written ++ rest) program := by
  refine .phrase hp hn hk fun located hw => ?_
  obtain rfl := List.map_eq_nil_iff.1 hw
  exact hc

/-- The tokens of an expression are read to the same expression, if they bind tighter than an
operator that waits for its operand. -/
theorem run_operand {e : Expr} (he : e.Normal) {due : Due}
    (hl : ∀ x op, due.before = some (x, op) → op.level < e.level)
    {words : List (Located Token)} (hw : words.map Located.val = e.tokens)
    (rest : List (Located Token)) :
    (State.mk (.operand due) current frames).run (words ++ rest) =
      (State.mk (.operator due.purpose (due.complete e)) current frames).run rest := by
  induction e generalizing due words rest with
  | number n | text s =>
    obtain ⟨word, words, rfl, hv, hn⟩ := List.map_eq_cons_iff.1 hw
    obtain rfl := List.map_eq_nil_iff.1 hn
    exact run_cons (by rw [hv]; rfl)
  | slot i =>
    obtain ⟨word, words, rfl, hv, hn⟩ := List.map_eq_cons_iff.1 hw
    obtain ⟨index, words, rfl, hi, hn⟩ := List.map_eq_cons_iff.1 hn
    obtain rfl := List.map_eq_nil_iff.1 hn
    have hd : (State.mk (.operand due) current frames).step word.line word.val =
        .ok ⟨.operandSlot due, current, frames⟩ := by
      rw [hv]
      rfl
    exact (run_cons hd).trans (run_cons (by rw [hi, step_operandSlot]))
  | binary left op right ihl ihr =>
    obtain ⟨hln, hrn, hle, hlt⟩ := he
    obtain ⟨first, last, rfl, hf, hn⟩ := List.map_eq_append_iff.1 hw
    obtain ⟨word, last, rfl, hv, hr⟩ := List.map_eq_cons_iff.1 hn
    have ho : (State.mk (.operator due.purpose (due.complete left)) current frames).step word.line
        word.val = .ok ⟨.operand ⟨due.purpose, some (due.complete left, op)⟩, current, frames⟩ := by
      rw [hv, step_operator]
    have hd : (due.complete left).extend op right = due.complete (.binary left op right) :=
      due.extend_complete hl hle right
    rw [List.append_assoc, ihl hln (fun x before hb => Nat.lt_of_lt_of_le (hl x before hb) hle) hf,
      List.cons_append, run_cons ho, ihr hrn (by rintro x before ⟨⟩; exact hlt) hr, ← hd]
    rfl

theorem Completes.expr {e : Expr} (he : e.Normal) {purpose : Purpose}
    {words : List (Located Token)} (hw : words.map Located.val = e.tokens)
    (hc : (State.mk (.operator purpose e) current frames).Completes rest program) :
    (State.mk (.operand ⟨purpose, none⟩) current frames).Completes (words ++ rest) program := by
  have hl : ∀ x op, (Due.mk purpose none).before = some (x, op) → op.level < e.level := nofun
  obtain ⟨last, hr, hv⟩ := hc
  exact ⟨last, (run_operand he hl hw rest).trans hr, hv⟩

/-- The token behind an expression is taken as if the expression had been ended before it. -/
theorem step_of_ended {purpose : Purpose} {e : Expr} {token : Token} (hs : operator? token = none)
    (hm : next.mode = .statement)
    (he : (State.mk (.operator purpose e) current frames).endExpr line purpose e token =
      next.beginStatement line token) :
    (State.mk (.operator purpose e) current frames).step line token = next.step line token := by
  obtain ⟨mode, current, frames⟩ := next
  obtain rfl : mode = .statement := hm
  exact (step_operator_of_none purpose e hs).trans he

theorem Completes.of_ended {purpose : Purpose} {e : Expr} (hs : NoOperator tokens)
    (hm : next.mode = .statement)
    (he : ∀ line token,
      (State.mk (.operator purpose e) current frames).endExpr line purpose e token =
        next.beginStatement line token)
    (hr : next.result = .ok program →
      (State.mk (.operator purpose e) current frames).result = .ok program)
    (hc : next.Completes tokens program) :
    (State.mk (.operator purpose e) current frames).Completes tokens program := by
  obtain ⟨last, hl, hv⟩ := hc
  cases tokens with
  | nil =>
    cases hl
    exact ⟨_, rfl, hr hv⟩
  | cons token tokens =>
    rw [run] at hl
    exact ⟨last, by rw [run, step_of_ended (hs token rfl) hm (he ..)]; exact hl, hv⟩

end State

/-- What may come behind a block. -/
def modeAfter (b : Block) (frames : List Frame) : Mode :=
  if b.endsInHalt then if frames.isEmpty then .finished else .closing else .statement

namespace State

variable {current : Block} {frames outer : List Frame} {line : Nat} {b : Block} {frame : Frame}

theorem step_modeAfter_newline (line : Nat) :
    (State.mk (modeAfter b (frame :: outer)) current (frame :: outer)).step line .newline =
      .ok ⟨modeAfter b (frame :: outer), current, frame :: outer⟩ := by
  cases h : b.endsInHalt <;> simp only [modeAfter, h] <;> rfl

theorem step_modeAfter {k : Keyword} (hk : k = .ende ∨ k = .sonst) (line : Nat) :
    (State.mk (modeAfter b (frame :: outer)) current (frame :: outer)).step line (.keyword k) =
      (State.mk (modeAfter b (frame :: outer)) current (frame :: outer)).endBlock frame outer
        (.keyword k) := by
  obtain rfl | rfl := hk <;> cases h : b.endsInHalt <;> simp only [modeAfter, h] <;> rfl

/-- A block inside a statement is followed by the mark that closes it. -/
theorem Completes.close (opener : Opener) {ended : Nat} (he : Phrase ended .ende [] written)
    (hc : (State.mk .statement (opener.close b current) frames).Completes rest program) :
    (State.mk (modeAfter b (⟨opener, current⟩ :: frames)) (b.reverseOnto .done)
      (⟨opener, current⟩ :: frames)).Completes (written ++ rest) program := by
  refine .mark he step_modeAfter_newline (step_modeAfter (.inl rfl) ended) ?_
  have hb : (b.reverseOnto .done).reverse = b := b.reverse_reverse
  simpa only [hb] using hc

theorem Completes.condition {condition : Expr} (hn : condition.Normal)
    {first : List (Located Token)}
    (hp : Phrase line .wenn (condition.tokens ++ [.keyword .dann]) first)
    (hc : (State.mk .statement .done (⟨.body line condition, current⟩ :: frames)).Completes rest
      program) :
    (State.mk .statement current frames).Completes (first ++ rest) program := by
  refine .phrase hp (fun _ => rfl) rfl fun located hw => ?_
  obtain ⟨words, last, rfl, he, hl⟩ := List.map_eq_append_iff.1 hw
  obtain ⟨dann, last, rfl, hd, hl⟩ := List.map_eq_cons_iff.1 hl
  obtain rfl := List.map_eq_nil_iff.1 hl
  rw [List.append_assoc]
  refine .expr hn he (hc.of_step ?_)
  rw [hd]
  rfl

/-- The tokens that write a block are read to this block. -/
theorem completes_written (hw : b.Written written) (hn : b.Every Expr.Normal) (hh : b.HaltsLast)
    (hr : b.endsInHalt = false → NoOperator rest)
    (hc : (State.mk (modeAfter b frames) (b.reverseOnto current) frames).Completes rest program) :
    (State.mk .statement current frames).Completes (written ++ rest) program := by
  induction hw generalizing current frames rest with
  | done => exact hc
  | halt hp hw =>
    obtain rfl : _ = Block.done := hh
    cases hw
    rw [List.append_nil]
    exact .mark hp (fun _ => rfl) rfl hc
  | @assign line slot value rest first after hp hw ih =>
    rw [List.append_assoc]
    refine .phrase hp (fun _ => rfl) rfl fun located hl => ?_
    obtain ⟨index, located, rfl, hi, hl⟩ := List.map_eq_cons_iff.1 hl
    obtain ⟨equals, located, rfl, he, hl⟩ := List.map_eq_cons_iff.1 hl
    refine Completes.of_step (by rw [hi, step_assignSlot]) (.of_step (by rw [he]; rfl) ?_)
    refine .expr hn.1 hl (.of_ended (noOperator_written hw hr) rfl (fun _ _ => rfl) id ?_)
    exact ih hn.2 hh hr hc
  | @output line value rest first after hp hw ih =>
    rw [List.append_assoc]
    refine .phrase hp (fun _ => rfl) rfl fun located hl => ?_
    refine .expr hn.1 hl (.of_ended (noOperator_written hw hr) rfl (fun _ _ => rfl) id ?_)
    exact ih hn.2 hh hr hc
  | @input line slot rest first after hp hw ih =>
    rw [List.append_assoc]
    refine .phrase hp (fun _ => rfl) rfl fun located hl => ?_
    obtain ⟨index, located, rfl, hi, hl⟩ := List.map_eq_cons_iff.1 hl
    obtain rfl := List.map_eq_nil_iff.1 hl
    exact (ih hn hh hr hc).of_step (by rw [hi, step_inputSlot])
  | branch hp hb he hw ihb ihr =>
    obtain ⟨hcn, hbn, -, hrn⟩ := hn
    obtain ⟨hbh, -, hrh⟩ := hh
    simp only [List.append_assoc]
    refine .condition hcn hp (ihb hbn hbh (fun _ => noOperator_phrase he (by decide) _) ?_)
    exact .close (.body _ _) he (ihr hrn hrh hr hc)
  | alternative hp hb hm ho he hw ihb iho ihr =>
    obtain ⟨hcn, hbn, hon, hrn⟩ := hn
    obtain ⟨hbh, hoh, hrh⟩ := hh
    simp only [List.append_assoc]
    refine .condition hcn hp (ihb hbn hbh (fun _ => noOperator_phrase hm (by decide) _) ?_)
    refine .mark hm step_modeAfter_newline (step_modeAfter (.inr rfl) _) ?_
    have hc := Completes.close (.otherwise _ _ _) he (ihr hrn hrh hr hc)
    refine iho hon hoh (fun _ => noOperator_phrase he (by decide) _) ?_
    simpa only [Block.reverse_reverseOnto, Block.reverseOnto] using hc
  | @loop line condition body rest first inner ended last after hp hb he hw ihb ihr =>
    obtain ⟨hcn, hbn, hrn⟩ := hn
    obtain ⟨hbh, hrh⟩ := hh
    simp only [List.append_assoc]
    refine .phrase hp (fun _ => rfl) rfl fun located hl => ?_
    have hm : body.endsInHalt = false → _ := fun _ =>
      noOperator_phrase he (by decide) (after ++ rest)
    refine .expr hcn hl (.of_ended (noOperator_written hb hm) rfl (fun _ _ => rfl) ?_ ?_)
    · intro h
      cases h
    exact ihb hbn hbh hm (.close (.loop line condition) he (ihr hrn hrh hr hc))

end State

end Parser

end Octet
