import Octet.Proofs.Tree.Levels

namespace Octet

namespace Parser

section Statements

variable {β : Type} {current : Block} {frames outer : List Frame} {frame : Frame}

/-- What comes behind an expression is taken as if the expression had been ended before it. -/
theorem finish_of_ended {purpose : Purpose} {e : Expr} {next : State} {s : Cursor}
    (hs : NoOperator s.tokens) (hm : next.mode = .statement)
    (he : ∀ line token,
      (State.mk (.operator purpose e) current frames).endExpr line purpose e token =
        next.beginStatement line token)
    (hr : (State.mk (.operator purpose e) current frames).result = next.result) :
    (State.mk (.operator purpose e) current frames).finish s = next.finish s := by
  obtain ⟨tokens, line⟩ := s
  cases tokens with
  | nil =>
    change Except.mapError _ _ = Except.mapError _ _
    rw [hr]
  | cons token tokens =>
    have ht := State.step_of_ended (hs token rfl) hm (he token.line token.val)
    rw [State.finish, State.finish, State.run, State.run, ht]

/-- Where a block ends, it makes no difference whether another statement could have followed. -/
theorem finish_closing {s : Cursor} (h : s.EndsBlock) :
    (State.mk .statement current (frame :: outer)).finish s =
      (State.mk .closing current (frame :: outer)).finish s := by
  obtain ⟨tokens, line⟩ := s
  cases tokens with
  | nil => rfl
  | cons token tokens =>
    obtain ⟨at_, val⟩ := token
    have hv : val = .eof ∨ val = .keyword .ende ∨ val = .keyword .sonst := by
      simpa [Cursor.EndsBlock, Cursor.peek] using h
    obtain rfl | rfl | rfl := hv <;> rfl

theorem close_bind (k : Keyword) (s : Cursor) (f : Cursor → Except (Located ParseError) β) :
    (s.close k >>= fun r => f r.rest) =
      if s.skipNewlines.peek = some (.keyword .ende) then
        s.skipNewlines.next >>= fun r => f r.rest
      else s.skipNewlines.fail (.unclosed k) := by
  rw [Cursor.close]
  split
  · rw [bind_assoc]
    rfl
  · rfl

theorem otherwise_bind (s : Cursor) (f : Block → Cursor → Except (Located ParseError) β) :
    (s.otherwise >>= fun r => f r.value r.rest) =
      if s.skipNewlines.peek = some (.keyword .sonst) then
        s.skipNewlines.next >>= fun r => r.rest.block .done >>= fun r => f r.value r.rest
      else f .done s.skipNewlines := by
  rw [Cursor.otherwise]
  dsimp only
  split
  · rw [bind_assoc]
    refine bind_congr_ok fun r _ => ?_
    rw [map_bind]
    rfl
  · rfl

theorem block_bind (read : Block) (s : Cursor)
    (f : Block → Cursor → Except (Located ParseError) β) :
    (s.block read >>= fun r => f r.value r.rest) =
      if s.skipNewlines.EndsBlock then f read.reverse s.skipNewlines
      else s.skipNewlines.statement >>= fun r =>
        if r.value.val = .halt then f (Block.cons r.value read).reverse r.rest
        else r.rest.block (.cons r.value read) >>= fun r => f r.value r.rest := by
  rw [Cursor.block]
  split
  · next h => simp [Cursor.EndsBlock, h]
  · next h => simp [Cursor.EndsBlock, h]
  · next h => simp [Cursor.EndsBlock, h]
  · next h => simp [Cursor.EndsBlock, h]
  · next hn he hd hs =>
    rw [if_neg (fun h => h.elim hn (·.elim he (·.elim hd hs))), bind_assoc]
    refine bind_congr_ok fun r _ => ?_
    dsimp only
    split
    · rfl
    · rw [map_bind]
      rfl

/-- The mode behind a statement. -/
def modeBehind (statement : Statement) (frames : List Frame) : Mode :=
  if statement = .halt then if frames.isEmpty then .finished else .closing else .statement

theorem finish_close {s : Cursor}
    (hb : (∃ line condition, frame.opener = .body line condition) →
      s.skipNewlines.peek ≠ some (.keyword .sonst)) :
    (State.mk .closing current (frame :: outer)).finish s =
      s.close frame.opener.keyword >>= fun r =>
        (State.mk .statement (frame.opener.close current.reverse frame.before) outer).finish
          r.rest := by
  rw [← State.finish_skipNewlines (fun _ => rfl) s, close_bind _ _ (State.finish _)]
  generalize hs : s.skipNewlines = s₁ at hb ⊢
  have hn := s.peek_skipNewlines_ne
  rw [hs] at hn
  obtain ⟨tokens, line⟩ := s₁
  cases tokens with
  | nil => rfl
  | cons token tokens =>
    obtain ⟨at_, val⟩ := token
    obtain ⟨opener, before⟩ := frame
    cases val with
    | newline => exact absurd rfl hn
    | keyword k =>
      cases k with
      | ende => exact State.finish_cons_of_ne nofun rfl
      | sonst =>
        cases opener with
        | body line condition => exact absurd rfl (hb ⟨line, condition, rfl⟩)
        | _ => exact State.finish_cons_error rfl
      | _ => exact State.finish_cons_error rfl
    | _ => exact State.finish_cons_error rfl

theorem finish_expr (purpose : Purpose) (current : Block) (frames : List Frame) (s : Cursor) :
    (State.mk (.operand ⟨purpose, none⟩) current frames).finish s =
      s.expr >>= fun r => (State.mk (.operator purpose r.value) current frames).finish r.rest := by
  have hb : ∀ x op, (Due.mk purpose none).before = some (x, op) → op.level < 0 := nofun
  exact readsLevel_expr.finish hb ..

theorem noOperator_of_expr {s : Cursor} {r : Reading Expr s.size} (h : s.expr = .ok r) :
    NoOperator r.rest.tokens := (readsLevel_expr.level h).2.noOperator

theorem finish_equals (line : Nat) (slot : Slot) (current : Block) (frames : List Frame)
    (s : Cursor) :
    (State.mk (.equals line slot) current frames).finish s =
      s.expect .equal >>= fun r =>
        (State.mk (.operand ⟨.assign line slot, none⟩) current frames).finish r.rest :=
  State.finish_expect (by decide) (by decide) (fun _ _ => rfl) rfl

theorem finish_condition (line : Nat) (condition : Expr) (current : Block) (frames : List Frame)
    {s : Cursor} (hs : NoOperator s.tokens) :
    (State.mk (.operator (.branch line) condition) current frames).finish s =
      s.keyword .dann >>= fun r =>
        (State.mk .statement .done (⟨.body line condition, current⟩ :: frames)).finish r.rest :=
  State.finish_expect (by decide) (by decide)
    (fun token ht => State.step_operator_of_none _ _ (hs token ht)) rfl

/-- Inner blocks of less than so many tokens are read as the automaton reads them: what the
procedure leaves is where the automaton waits for the mark that closes the block. -/
def ReadsBlocks (n : Nat) : Prop :=
  ∀ current frame outer s, s.size < n →
    (State.mk .statement current (frame :: outer)).finish s =
      s.block current >>= fun r =>
        (State.mk .closing r.value.reverse (frame :: outer)).finish r.rest

theorem finish_otherwise {n : Nat} (hr : ReadsBlocks n) (current : Block) (line : Nat)
    (condition : Expr) (before : Block) (outer : List Frame) {s : Cursor} (hs : s.size ≤ n) :
    (State.mk .closing current (⟨.body line condition, before⟩ :: outer)).finish s =
      s.otherwise >>= fun r => r.rest.close .wenn >>= fun a =>
        (State.mk .statement (.branch line condition current.reverse r.value before)
          outer).finish a.rest := by
  replace hs := Nat.le_trans s.size_skipNewlines_le hs
  rw [← State.finish_skipNewlines (fun _ => rfl) s, otherwise_bind s fun otherwise rest =>
    rest.close .wenn >>= fun a =>
      (State.mk .statement (.branch line condition current.reverse otherwise before) outer).finish
        a.rest]
  split
  · next hp =>
    obtain ⟨at_, tokens, last, hc⟩ := Cursor.exists_of_peek hp
    have hv : (Located.mk at_ (Token.keyword .sonst)).val ≠ .eof := nofun
    rw [hc] at hs
    rw [hc, Cursor.next_cons hv]
    refine .trans (State.finish_cons_of_ne nofun rfl) ?_
    refine .trans (hr .done _ outer ⟨tokens, at_⟩ hs) ?_
    refine bind_congr_ok fun r _ => ?_
    refine .trans (finish_close ?_) ?_
    · rintro ⟨_, _, h⟩
      cases h
    · rw [Block.reverse_reverse]
      rfl
  · next hp =>
    refine finish_close fun _ => ?_
    rwa [Cursor.skipNewlines_of_peek_ne s.peek_skipNewlines_ne]

/-- A statement at the cursor is read as the automaton reads it. -/
def ReadsStatement (frames : List Frame) (s : Cursor) : Prop :=
  ∀ current, (State.mk .statement current frames).finish s =
    s.statement >>= fun r => (State.mk (modeBehind r.value.val frames) (.cons r.value current)
      frames).finish r.rest

section Kinds

variable {at_ line n : Nat} {tokens : List (Located Token)}

theorem readsStatement_halt :
    ReadsStatement frames ⟨⟨at_, .keyword .verneinung⟩ :: tokens, line⟩ := by
  intro current
  have hv : (Located.mk at_ (Token.keyword .verneinung)).val ≠ .eof := nofun
  rw [Cursor.statement, Cursor.next_cons hv]
  exact State.finish_cons_of_ne nofun rfl

theorem readsStatement_assign : ReadsStatement frames ⟨⟨at_, .keyword .ding⟩ :: tokens, line⟩ := by
  intro current
  have hv : (Located.mk at_ (Token.keyword .ding)).val ≠ .eof := nofun
  rw [Cursor.statement, Cursor.next_cons hv]
  refine .trans (State.finish_cons_of_ne nofun rfl) ?_
  refine .trans (State.finish_slot (fun _ _ => rfl) rfl _) ?_
  change _ = (Cursor.slot .ding ⟨tokens, at_⟩ >>= _) >>= _
  refine bind_bind_congr_ok fun slot _ => ?_
  refine .trans (finish_equals ..) ?_
  refine bind_bind_congr_ok fun equal _ => ?_
  refine .trans (finish_expr ..) ?_
  refine bind_bind_congr_ok fun value hr => ?_
  exact finish_of_ended (noOperator_of_expr hr) rfl (fun _ _ => rfl) rfl

theorem readsStatement_output :
    ReadsStatement frames ⟨⟨at_, .keyword .vorstellung⟩ :: tokens, line⟩ := by
  intro current
  have hv : (Located.mk at_ (Token.keyword .vorstellung)).val ≠ .eof := nofun
  rw [Cursor.statement, Cursor.next_cons hv]
  refine .trans (State.finish_cons_of_ne nofun rfl) ?_
  refine .trans (finish_expr ..) ?_
  change _ = (Cursor.expr ⟨tokens, at_⟩ >>= _) >>= _
  refine bind_bind_congr_ok fun value hr => ?_
  exact finish_of_ended (noOperator_of_expr hr) rfl (fun _ _ => rfl) rfl

theorem readsStatement_input : ReadsStatement frames ⟨⟨at_, .keyword .wille⟩ :: tokens, line⟩ := by
  intro current
  have hv : (Located.mk at_ (Token.keyword .wille)).val ≠ .eof := nofun
  rw [Cursor.statement, Cursor.next_cons hv]
  refine .trans (State.finish_cons_of_ne nofun rfl) ?_
  refine .trans (State.finish_slot (fun _ _ => rfl) rfl _) ?_
  change _ = (Cursor.slot .wille ⟨tokens, at_⟩ >>= _) >>= _
  exact bind_bind_congr_ok fun slot _ => rfl

theorem readsStatement_branch (hr : ReadsBlocks n) (hs : (Cursor.mk tokens at_).size < n) :
    ReadsStatement frames ⟨⟨at_, .keyword .wenn⟩ :: tokens, line⟩ := by
  intro current
  have hv : (Located.mk at_ (Token.keyword .wenn)).val ≠ .eof := nofun
  rw [Cursor.statement, Cursor.next_cons hv]
  refine .trans (State.finish_cons_of_ne nofun rfl) ?_
  refine .trans (finish_expr ..) ?_
  change _ = (Cursor.expr ⟨tokens, at_⟩ >>= _) >>= _
  refine bind_bind_congr_ok fun condition hc => ?_
  refine .trans (finish_condition _ _ _ _ (noOperator_of_expr hc)) ?_
  refine bind_bind_congr_ok fun dann _ => ?_
  have hd := Nat.lt_trans (Nat.lt_trans dann.size_lt condition.size_lt) hs
  refine .trans (hr _ _ _ _ hd) ?_
  refine bind_bind_congr_ok fun body _ => ?_
  have hb : body.rest.size ≤ n := by
    have := body.size_lt
    omega
  refine .trans (finish_otherwise hr _ _ _ _ _ hb) ?_
  refine bind_bind_congr_ok fun otherwise _ => ?_
  refine bind_bind_congr_ok fun ende _ => ?_
  rw [Block.reverse_reverse]
  rfl

theorem readsStatement_loop (hr : ReadsBlocks n) (hs : (Cursor.mk tokens at_).size < n) :
    ReadsStatement frames ⟨⟨at_, .keyword .solange⟩ :: tokens, line⟩ := by
  intro current
  have hv : (Located.mk at_ (Token.keyword .solange)).val ≠ .eof := nofun
  rw [Cursor.statement, Cursor.next_cons hv]
  refine .trans (State.finish_cons_of_ne nofun rfl) ?_
  refine .trans (finish_expr ..) ?_
  change _ = (Cursor.expr ⟨tokens, at_⟩ >>= _) >>= _
  refine bind_bind_congr_ok fun condition hc => ?_
  refine .trans (finish_of_ended (noOperator_of_expr hc) rfl (fun _ _ => rfl) rfl) ?_
  refine .trans (hr _ _ _ _ (Nat.lt_trans condition.size_lt hs)) ?_
  refine bind_bind_congr_ok fun body _ => ?_
  refine .trans (finish_close ?_) ?_
  · rintro ⟨_, _, h⟩
    cases h
  refine bind_bind_congr_ok fun ende _ => ?_
  rw [Block.reverse_reverse]
  rfl

end Kinds

theorem readsStatement {n : Nat} (hr : ReadsBlocks n) {s : Cursor} (hs : s.size ≤ n)
    (hn : s.peek ≠ none) (hl : s.peek ≠ some .newline) (he : s.peek ≠ some .eof)
    (hb : frames = [] ∨ ¬s.EndsBlock) : ReadsStatement frames s := by
  obtain ⟨tokens, line⟩ := s
  cases tokens with
  | nil => exact absurd rfl hn
  | cons token tokens =>
    obtain ⟨at_, val⟩ := token
    have hv : (Located.mk at_ val).val ≠ .eof := fun h => he (congrArg some h)
    cases val with
    | newline => exact absurd rfl hl
    | eof => exact absurd rfl hv
    | keyword k =>
      cases k with
      | verneinung => exact readsStatement_halt
      | ding => exact readsStatement_assign
      | vorstellung => exact readsStatement_output
      | wille => exact readsStatement_input
      | wenn => exact readsStatement_branch hr hs
      | solange => exact readsStatement_loop hr hs
      -- A block would have ended before these two, so that no block is open.
      | ende =>
        obtain rfl : frames = [] := hb.resolve_right (not_not_intro (.inr (.inr (.inl rfl))))
        intro current
        rw [Cursor.statement, Cursor.next_cons hv]
        exact State.finish_cons_error rfl
      | sonst =>
        obtain rfl : frames = [] := hb.resolve_right (not_not_intro (.inr (.inr (.inr rfl))))
        intro current
        rw [Cursor.statement, Cursor.next_cons hv]
        exact State.finish_cons_error rfl
      | _ =>
        intro current
        rw [Cursor.statement, Cursor.next_cons hv]
        exact State.finish_cons_error rfl
    | _ =>
      intro current
      rw [Cursor.statement, Cursor.next_cons hv]
      exact State.finish_cons_error rfl

/-- By induction on the tokens that are left: a statement takes one at least, and the blocks inside
it are read from what it leaves. -/
theorem readsBlocks (n : Nat) : ReadsBlocks n := by
  induction n with
  | zero => nofun
  | succ n ih =>
    intro current frame outer s hs
    replace hs := Nat.le_trans s.size_skipNewlines_le (Nat.le_of_lt_succ hs)
    rw [← State.finish_skipNewlines (fun _ => rfl) s, block_bind current s fun read rest =>
      (State.mk .closing read.reverse (frame :: outer)).finish rest]
    split
    · next he =>
      rw [Block.reverse_reverse]
      exact finish_closing he
    · next he =>
      rw [readsStatement ih hs (fun h => he (.inl h)) s.peek_skipNewlines_ne
        (fun h => he (.inr (.inl h))) (.inr he) current]
      refine bind_congr_ok fun r _ => ?_
      rw [modeBehind]
      split
      · rw [Block.reverse_reverse]
        rfl
      · exact ih _ frame outer r.rest (Nat.lt_of_lt_of_le r.size_lt hs)

theorem ne_halt_of_statement {s : Cursor} {r : Reading (Located Statement) s.size}
    (h : s.statement = .ok r) (hp : s.peek ≠ some (.keyword .verneinung)) :
    r.value.val ≠ .halt := by
  rw [Cursor.statement] at h
  obtain ⟨first, hf, h⟩ := bind_ok h
  dsimp only at h
  split at h
  · next hv => exact absurd ((Cursor.peek_of_next hf).trans (congrArg some hv)) hp
  · obtain ⟨_, -, h⟩ := bind_ok h
    obtain ⟨_, -, h⟩ := bind_ok h
    obtain ⟨_, -, h⟩ := bind_ok h
    cases h
    exact Statement.noConfusion
  · obtain ⟨_, -, h⟩ := bind_ok h
    cases h
    exact Statement.noConfusion
  · obtain ⟨_, -, h⟩ := bind_ok h
    cases h
    exact Statement.noConfusion
  · obtain ⟨_, -, h⟩ := bind_ok h
    obtain ⟨_, -, h⟩ := bind_ok h
    obtain ⟨_, -, h⟩ := bind_ok h
    obtain ⟨_, -, h⟩ := bind_ok h
    obtain ⟨_, -, h⟩ := bind_ok h
    cases h
    exact Statement.noConfusion
  · obtain ⟨_, -, h⟩ := bind_ok h
    obtain ⟨_, -, h⟩ := bind_ok h
    obtain ⟨_, -, h⟩ := bind_ok h
    cases h
    exact Statement.noConfusion
  · cases h

theorem finish_finished (current : Block) (frames : List Frame) (s : Cursor) :
    (State.mk .finished current frames).finish s = .ok current.reverse := by
  rw [State.finish, State.run_finished]
  rfl

theorem statements_eq (read : Block) (s : Cursor) :
    s.statements read =
      if s.skipNewlines.peek = none ∨ s.skipNewlines.peek = some .eof then .ok read.reverse
      else if s.skipNewlines.peek = some (.keyword .verneinung) then
        s.skipNewlines.statement >>= fun r => .ok (Block.cons r.value read).reverse
      else s.skipNewlines.statement >>= fun r => r.rest.statements (.cons r.value read) := by
  rw [Cursor.statements]
  split
  · next h => simp only [h, true_or, if_pos]; rfl
  · next h => simp only [h, or_true, if_pos]; rfl
  · next h => simp [h]; rfl
  · next hn he hh => rw [if_neg (fun h => h.elim hn he), if_neg hh]

/-- The end of a program, or a halt behind which nothing is read. -/
theorem finish_ended {s : Cursor} (h : s.peek = none ∨ s.peek = some .eof) :
    (State.mk .statement current []).finish s = .ok current.reverse := by
  obtain h | h := h
  · obtain ⟨tokens, line⟩ := s
    cases tokens with
    | nil => rfl
    | cons token tokens => cases h
  · obtain ⟨at_, tokens, line, rfl⟩ := Cursor.exists_of_peek h
    refine .trans (State.finish_cons_of_ne nofun rfl) ?_
    exact finish_finished ..

theorem finish_statements (current : Block) (s : Cursor) :
    (State.mk .statement current []).finish s = s.statements current := by
  induction hn : s.size using Nat.strongRecOn generalizing current s with
  | ind n ih =>
    have hs := s.size_skipNewlines_le
    rw [← State.finish_skipNewlines (fun _ => rfl) s, statements_eq]
    split
    · next he => exact finish_ended he
    · next he =>
      have hl := s.peek_skipNewlines_ne
      split
      · next hh =>
        obtain ⟨at_, tokens, line, hc⟩ := Cursor.exists_of_peek hh
        have hv : (Located.mk at_ (Token.keyword .verneinung)).val ≠ .eof := nofun
        rw [hc, Cursor.statement, Cursor.next_cons hv]
        refine .trans (State.finish_cons_of_ne nofun rfl) ?_
        exact finish_finished ..
      · next hh =>
        rw [readsStatement (readsBlocks _) (Nat.le_refl _) (fun h => he (.inl h)) hl
          (fun h => he (.inr h)) (.inl rfl) current]
        refine bind_congr_ok fun r hr => ?_
        rw [modeBehind, if_neg (ne_halt_of_statement hr hh)]
        exact ih _ (hn ▸ Nat.lt_of_lt_of_le r.size_lt hs) _ _ rfl

theorem finish_program (s : Cursor) : State.initial.finish s = s.program := by
  rw [← State.finish_skipNewlines (fun _ => rfl) s, Cursor.program]
  dsimp only
  have hn := s.peek_skipNewlines_ne
  generalize s.skipNewlines = s₁ at hn ⊢
  split
  · next h =>
    obtain ⟨at_, tokens, line, rfl⟩ := Cursor.exists_of_peek h
    have hv : (Located.mk at_ (Token.keyword .erwache)).val ≠ .eof := nofun
    rw [Cursor.next_cons hv]
    refine .trans (State.finish_cons_of_ne nofun rfl) ?_
    exact finish_statements ..
  · next h =>
    obtain ⟨tokens, line⟩ := s₁
    cases tokens with
    | nil => rfl
    | cons token tokens =>
      obtain ⟨at_, val⟩ := token
      cases val with
      | newline => exact absurd rfl hn
      | keyword k =>
        cases k with
        | erwache => exact absurd rfl h
        | _ => exact State.finish_cons_error rfl
      | _ => exact State.finish_cons_error rfl

end Statements

/-- The parser reads what the automaton reads, and fails where it fails: what it looks ahead, takes
and leaves comes to the same as one token after the other. -/
theorem parse_eq (tokens : List (Located Token)) :
    parse tokens = State.initial.finish ⟨tokens, 0⟩ :=
  (finish_program _).symm

theorem parse_eq_ok {tokens : List (Located Token)} {program : Block} :
    parse tokens = .ok program ↔ State.initial.Completes tokens program := by
  rw [parse_eq]
  constructor
  · intro h
    obtain ⟨last, hr, hv⟩ := bind_ok h
    exact ⟨last, hr, mapError_ok.1 hv⟩
  · rintro ⟨last, hr, hv⟩
    rw [State.finish, hr]
    exact mapError_ok.2 hv

/-- All expressions of a program that has been read are normal. -/
theorem every_normal_of_parse {tokens : List (Located Token)} {program : Block}
    (h : parse tokens = .ok program) : program.Every Expr.Normal := by
  obtain ⟨last, hr, hv⟩ := parse_eq_ok.1 h
  exact State.every_result (State.normal_run State.normal_initial hr) hv

end Parser

end Octet
