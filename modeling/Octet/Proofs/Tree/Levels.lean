import Octet.Proofs.Tree.Reading

namespace Octet

namespace Parser

section Bind

variable {ε α β γ : Type}

theorem bind_congr_ok {x : Except ε α} {f g : α → Except ε β}
    (h : ∀ a, x = .ok a → f a = g a) : x >>= f = x >>= g := by
  cases x with
  | error e => rfl
  | ok a => exact h a rfl

theorem map_bind (x : Except ε α) (w : α → β) (f : β → Except ε γ) :
    x.map w >>= f = x >>= fun a => f (w a) := by
  cases x <;> rfl

theorem bind_bind_congr_ok {x : Except ε α} {f : α → Except ε γ} {g : α → Except ε β}
    {k : β → Except ε γ} (h : ∀ a, x = .ok a → f a = g a >>= k) : x >>= f = (x >>= g) >>= k := by
  rw [bind_assoc]
  exact bind_congr_ok h

theorem mapError_ok {δ : Type} {x : Except ε α} {w : ε → δ} {a : α} :
    x.mapError w = .ok a ↔ x = .ok a := by
  cases x with
  | error e => constructor <;> intro h <;> cases h
  | ok b => constructor <;> intro h <;> cases h <;> rfl

theorem map_ok {x : Except ε α} {w : α → β} {b : β} (h : x.map w = .ok b) :
    ∃ a, x = .ok a ∧ w a = b := by
  cases x with
  | error e => cases h
  | ok a =>
    cases h
    exact ⟨a, rfl, rfl⟩

end Bind

namespace Cursor

variable {token : Located Token} {tokens : List (Located Token)} {line : Nat}

theorem exists_of_peek {s : Cursor} {val : Token} (h : s.peek = some val) :
    ∃ at_ tokens line, s = ⟨⟨at_, val⟩ :: tokens, line⟩ := by
  obtain ⟨tokens, line⟩ := s
  cases tokens with
  | nil => cases h
  | cons first tokens =>
    obtain ⟨at_, found⟩ := first
    obtain rfl : found = val := Option.some.inj h
    exact ⟨at_, tokens, line, rfl⟩

theorem peek_of_next {s : Cursor} {r : Reading (Located Token) s.size} (h : s.next = .ok r) :
    s.peek = some r.value.val := by
  obtain ⟨tokens, line⟩ := s
  cases tokens with
  | nil => cases h
  | cons token tokens =>
    simp only [next] at h
    split at h
    · cases h
    · cases h
      rfl

theorem size_lt_cons (token : Located Token) (tokens : List (Located Token)) (line before : Nat) :
    (Cursor.mk tokens line).size < (Cursor.mk (token :: tokens) before).size :=
  Nat.lt_succ_self _

theorem next_cons (h : token.val ≠ .eof) :
    (Cursor.mk (token :: tokens) line).next =
      .ok ⟨token, ⟨tokens, token.line⟩, size_lt_cons ..⟩ := by
  simp only [next, if_neg h]
  rfl

theorem peek_skipNewlines_ne (s : Cursor) : s.skipNewlines.peek ≠ some .newline := by
  obtain ⟨tokens, line⟩ := s
  induction tokens with
  | nil => nofun
  | cons token tokens ih =>
    by_cases h : token.val = .newline
    · simpa [skipNewlines, peek, h] using ih
    · simp [skipNewlines, peek, h]

theorem skipNewlines_of_peek_ne {s : Cursor} (h : s.peek ≠ some .newline) : s.skipNewlines = s := by
  obtain ⟨tokens, line⟩ := s
  cases tokens with
  | nil => rfl
  | cons token tokens =>
    have hn : token.val ≠ .newline := fun hv => h (congrArg some hv)
    simp [skipNewlines, hn]

/-- A block ends here, unless a halt has ended it before. -/
def EndsBlock (s : Cursor) : Prop :=
  s.peek = none ∨ s.peek = some .eof ∨ s.peek = some (.keyword .ende) ∨
    s.peek = some (.keyword .sonst)

instance (s : Cursor) : Decidable s.EndsBlock := inferInstanceAs (Decidable (_ ∨ _))

end Cursor

namespace State

variable {state next : State} {token : Located Token} {tokens : List (Located Token)} {line : Nat}

theorem finish_cons (h : state.step token.line token.val = .ok next) :
    state.finish ⟨token :: tokens, line⟩ =
      next.finish ⟨tokens, if token.val = .newline then line else token.line⟩ := by
  rw [finish, finish, run, h, lastLine]

theorem finish_cons_of_ne (hn : token.val ≠ .newline)
    (h : state.step token.line token.val = .ok next) :
    state.finish ⟨token :: tokens, line⟩ = next.finish ⟨tokens, token.line⟩ := by
  rw [finish_cons h, if_neg hn]

theorem finish_cons_error {e : ParseError} (h : state.step token.line token.val = .error e) :
    state.finish ⟨token :: tokens, line⟩ = .error ⟨token.line, e⟩ := by
  rw [finish, run, h]
  rfl

theorem finish_skipNewlines (hn : ∀ line, state.step line .newline = .ok state) (s : Cursor) :
    state.finish s.skipNewlines = state.finish s := by
  obtain ⟨tokens, line⟩ := s
  induction tokens with
  | nil => rfl
  | cons token tokens ih =>
    obtain ⟨at_, val⟩ := token
    by_cases h : val = .newline
    · subst h
      rw [finish_cons (hn at_)]
      exact ih
    · simp [Cursor.skipNewlines, h]

theorem finish_expect {expected : Token} (hn : expected ≠ .newline) (he : expected ≠ .eof)
    {s : Cursor} (hs : ∀ token ∈ s.tokens.head?, state.step token.line token.val =
      if token.val = expected then .ok next else .error (.unexpectedToken expected token.val))
    (hr : state.result = .error .unexpectedEnd) :
    state.finish s = s.expect expected >>= fun r => next.finish r.rest := by
  obtain ⟨tokens, line⟩ := s
  cases tokens with
  | nil =>
    change state.result.mapError _ = _
    rw [hr]
    rfl
  | cons token tokens =>
    have ht := hs token rfl
    by_cases h : token.val = expected
    · rw [if_pos h] at ht
      rw [finish_cons_of_ne (h ▸ hn) ht]
      simp only [Cursor.expect, Cursor.peek, List.head?_cons, Option.map_some, if_pos h,
        Cursor.next_cons (h ▸ he)]
      rfl
    · rw [if_neg h] at ht
      rw [finish_cons_error ht]
      simp only [Cursor.expect, Cursor.peek, List.head?_cons, Option.map_some, if_neg h]
      rfl

theorem finish_slot {after : Keyword} {f : Slot → State}
    (hs : ∀ line token, state.step line token = slot after token >>= fun i => .ok (f i))
    (hr : state.result = .error (.expectedSlot after)) (s : Cursor) :
    state.finish s = s.slot after >>= fun r => (f r.value).finish r.rest := by
  obtain ⟨tokens, line⟩ := s
  cases tokens with
  | nil =>
    change state.result.mapError _ = _
    rw [hr]
    rfl
  | cons token tokens =>
    obtain ⟨at_, val⟩ := token
    have ht := hs at_ val
    cases val with
    | number n =>
      have hl : (Located.mk at_ (Token.number n)).val ≠ .newline := Token.noConfusion
      have hv : (Located.mk at_ (Token.number n)).val ≠ .eof := Token.noConfusion
      simp only [Cursor.slot, Cursor.peek, List.head?_cons, Option.map_some, Cursor.next_cons hv]
      cases hi : Slot.ofNat? n.toNat with
      | some i =>
        rw [slot, hi] at ht
        exact finish_cons_of_ne hl ht
      | none =>
        rw [slot, hi] at ht
        exact finish_cons_error ht
    | _ => exact finish_cons_error ht

end State

section Levels

variable {k : Nat} {current : Block} {frames : List Frame} {due : Due}

/-- The operator that comes next, if one does, binds less tightly than a level. -/
def Looser (k : Nat) (s : Cursor) : Prop :=
  ∀ token ∈ s.tokens.head?, ∀ op, operator? token.val = some op → op.level < k

theorem Looser.noOperator {s : Cursor} (h : Looser 0 s) : NoOperator s.tokens := by
  intro token ht
  cases ho : operator? token.val with
  | none => rfl
  | some op => cases h token ht op ho

theorem NoOperator.looser {s : Cursor} (h : NoOperator s.tokens) : Looser 0 s := by
  intro token ht op ho
  cases (h token ht).symm.trans ho

/-- A procedure reads the expressions whose operators bind at least as tightly as a level: it takes
what the automaton takes, and stops before an operator that binds less tightly. -/
structure ReadsLevel (k : Nat) (procedure : (s : Cursor) → Parse Expr s.size) : Prop where
  finish : ∀ {due : Due}, (∀ x op, due.before = some (x, op) → op.level < k) →
    ∀ current frames s, (State.mk (.operand due) current frames).finish s =
      procedure s >>= fun r =>
        (State.mk (.operator due.purpose (due.complete r.value)) current frames).finish r.rest
  level : ∀ {s r}, procedure s = .ok r → k ≤ r.value.level ∧ Looser k r.rest

theorem readsLevel_primary : ReadsLevel 3 Cursor.primary where
  finish := by
    intro due _ current frames s
    obtain ⟨tokens, line⟩ := s
    cases tokens with
    | nil => rfl
    | cons token tokens =>
      obtain ⟨at_, val⟩ := token
      cases val with
      | number n | text s => exact State.finish_cons_of_ne nofun rfl
      | keyword k =>
        cases k with
        | ding =>
          have hd : (Located.mk at_ (Token.keyword .ding)).val ≠ .eof := nofun
          refine .trans (State.finish_cons_of_ne nofun rfl) ?_
          refine .trans (State.finish_slot (fun _ _ => rfl) rfl _) ?_
          simp only [Cursor.primary, Cursor.peek, List.head?_cons, Option.map_some,
            Cursor.next_cons hd]
          change _ = (Cursor.slot .ding ⟨tokens, at_⟩ >>= _) >>= _
          rw [bind_assoc]
          rfl
        | _ => exact State.finish_cons_error rfl
      | _ => exact State.finish_cons_error rfl
  level := by
    intro s r h
    have ho : Looser 3 r.rest := fun _ _ op _ => Nat.lt_succ_of_le (Expr.level_op_le op)
    refine ⟨?_, ho⟩
    obtain ⟨tokens, line⟩ := s
    cases tokens with
    | nil => cases h
    | cons token tokens =>
      obtain ⟨at_, val⟩ := token
      cases val with
      | number n | text s =>
        cases h
        exact Nat.le_refl 3
      | keyword k =>
        cases k with
        | ding =>
          obtain ⟨_, -, h⟩ := bind_ok h
          obtain ⟨_, -, h⟩ := bind_ok h
          cases h
          exact Nat.le_refl 3
        | _ => cases h
      | _ => cases h

variable {operand : (s : Cursor) → Parse Expr s.size} {operator : Token → Option BinaryOp}

/-- The operators of one level. -/
def IsLevel (k : Nat) (operator : Token → Option BinaryOp) : Prop :=
  ∀ token op, operator token = some op ↔ operator? token = some op ∧ op.level = k

theorem peek_bind_eq_some {s : Cursor} {op : BinaryOp}
    (ho : IsLevel k operator) (h : s.peek.bind operator = some op) :
    op.level = k ∧ ∃ at_ tokens line, s = ⟨⟨at_, op.token⟩ :: tokens, line⟩ := by
  obtain ⟨tokens, line⟩ := s
  cases tokens with
  | nil => cases h
  | cons token tokens =>
    obtain ⟨at_, val⟩ := token
    obtain ⟨hv, hl⟩ := (ho val op).1 h
    exact ⟨hl, at_, tokens, line, by rw [eq_token_of_operator? hv]⟩

theorem looser_of_peek_bind {s : Cursor} (ho : IsLevel k operator)
    (h : s.peek.bind operator = none) (hs : Looser (k + 1) s) : Looser k s := by
  intro token ht op hop
  have hlt := hs token ht op hop
  by_cases hk : op.level = k
  · rw [Cursor.peek, ht] at h
    cases ((ho _ _).2 ⟨hop, hk⟩).symm.trans h
  · omega

theorem token_ne_eof (op : BinaryOp) : op.token ≠ .eof := by
  cases op with
  | arith op => cases op <;> nofun
  | compare op => cases op <;> nofun

theorem token_ne_newline (op : BinaryOp) : op.token ≠ .newline := by
  cases op with
  | arith op => cases op <;> nofun
  | compare op => cases op <;> nofun

theorem binaryFrom_of_some {at_ line : Nat} {tokens : List (Located Token)} {op : BinaryOp}
    (h : (Cursor.mk (⟨at_, op.token⟩ :: tokens) line).peek.bind operator = some op) (left : Expr) :
    (Cursor.mk (⟨at_, op.token⟩ :: tokens) line).binaryFrom operand operator left =
      operand ⟨tokens, at_⟩ >>= fun r =>
        have h := Nat.lt_trans r.size_lt (Cursor.size_lt_cons ⟨at_, op.token⟩ ..)
        (r.rest.binaryFrom operand operator (.binary left op r.value)).map
          (.weaken (Nat.succ_le_succ (Nat.le_of_lt h))) := by
  have hn : (Located.mk at_ op.token).val ≠ .eof := token_ne_eof op
  rw [Cursor.binaryFrom]
  simp only [h, Cursor.next_cons hn]
  rfl

theorem finish_binaryFrom (hr : ReadsLevel (k + 1) operand) (ho : IsLevel k operator)
    (hb : ∀ x op, due.before = some (x, op) → op.level < k) {left : Expr} (hl : k ≤ left.level)
    (s : Cursor) :
    (State.mk (.operator due.purpose (due.complete left)) current frames).finish s =
      s.binaryFrom operand operator left >>= fun r =>
        (State.mk (.operator due.purpose (due.complete r.value)) current frames).finish r.rest := by
  induction left, s using Cursor.binaryFrom.induct operator with
  | case1 left s op h ih =>
    obtain ⟨hk, at_, tokens, line, rfl⟩ := peek_bind_eq_some ho h
    have hd (right : Expr) : (Due.mk due.purpose (some (due.complete left, op))).complete right =
        due.complete (.binary left op right) :=
      due.extend_complete (fun x before hx => hk ▸ hb x before hx) (hk ▸ hl) right
    have hn : (Located.mk at_ op.token).val ≠ .newline := token_ne_newline op
    have hw : ∀ x next, (Due.mk due.purpose (some (due.complete left, op))).before =
        some (x, next) → next.level < k + 1 := by
      rintro _ _ ⟨⟩
      omega
    rw [State.finish_cons_of_ne hn (State.step_operator _ _ op),
      hr.finish hw, binaryFrom_of_some h, bind_assoc]
    refine bind_congr_ok fun right hv => ?_
    rw [map_bind, hd]
    exact ih _ (Cursor.size_lt_cons ..) _ _ right.size_lt (Nat.le_of_eq hk.symm)
  | case2 left s h =>
    rw [Cursor.binaryFrom]
    simp only [h]
    rfl

theorem level_binaryFrom (hr : ReadsLevel (k + 1) operand) (ho : IsLevel k operator)
    {left : Expr} {s : Cursor} (hl : k ≤ left.level) (hs : Looser (k + 1) s)
    {r : Reading Expr (s.size + 1)} (h : s.binaryFrom operand operator left = .ok r) :
    k ≤ r.value.level ∧ Looser k r.rest := by
  induction left, s using Cursor.binaryFrom.induct operator with
  | case1 left s op hp ih =>
    obtain ⟨hk, at_, tokens, line, rfl⟩ := peek_bind_eq_some ho hp
    rw [binaryFrom_of_some hp] at h
    obtain ⟨right, hv, h⟩ := bind_ok h
    obtain ⟨found, hf, rfl⟩ := map_ok h
    exact ih _ (Cursor.size_lt_cons ..) _ _ right.size_lt (Nat.le_of_eq hk.symm) (hr.level hv).2 hf
  | case2 left s hp =>
    rw [Cursor.binaryFrom] at h
    simp only [hp] at h
    cases h
    exact ⟨hl, looser_of_peek_bind ho hp hs⟩

/-- A loop over one level, on top of the next one. -/
theorem readsLevel_binary (hr : ReadsLevel (k + 1) operand) (ho : IsLevel k operator) :
    ReadsLevel k fun s => s.binary operand operator where
  finish := by
    intro due hb current frames s
    rw [hr.finish (fun x op hx => Nat.lt_succ_of_lt (hb x op hx)), Cursor.binary, bind_assoc]
    refine bind_congr_ok fun left hv => ?_
    rw [map_bind]
    exact finish_binaryFrom hr ho hb (Nat.le_of_succ_le (hr.level hv).1) left.rest
  level := by
    intro s r h
    obtain ⟨left, hv, h⟩ := bind_ok h
    obtain ⟨found, hf, rfl⟩ := map_ok h
    obtain ⟨hl, hs⟩ := hr.level hv
    exact level_binaryFrom hr ho (Nat.le_of_succ_le hl) hs hf

theorem isLevel_comparison : IsLevel 0 comparison? := by
  intro token op
  constructor
  · intro h
    unfold comparison? at h
    split at h <;> cases h <;> exact ⟨rfl, rfl⟩
  · rintro ⟨h, hl⟩
    obtain rfl := eq_token_of_operator? h
    cases op with
    | arith op => cases op <;> cases hl
    | compare op => cases op <;> rfl

theorem isLevel_additive : IsLevel 1 additive? := by
  intro token op
  constructor
  · intro h
    unfold additive? at h
    split at h <;> cases h <;> exact ⟨rfl, rfl⟩
  · rintro ⟨h, hl⟩
    obtain rfl := eq_token_of_operator? h
    cases op with
    | arith op => cases op <;> first | rfl | cases hl
    | compare op => cases hl

theorem isLevel_multiplicative : IsLevel 2 multiplicative? := by
  intro token op
  constructor
  · intro h
    unfold multiplicative? at h
    split at h <;> cases h <;> exact ⟨rfl, rfl⟩
  · rintro ⟨h, hl⟩
    obtain rfl := eq_token_of_operator? h
    cases op with
    | arith op => cases op <;> first | rfl | cases hl
    | compare op => cases hl

/-- The levels stand on each other: comparisons on sums, sums on products, products on operands. -/
theorem readsLevel_expr : ReadsLevel 0 Cursor.expr := by
  have hm : ReadsLevel 2 Cursor.multiplicative :=
    readsLevel_binary readsLevel_primary isLevel_multiplicative
  have ha : ReadsLevel 1 Cursor.additive := readsLevel_binary hm isLevel_additive
  exact readsLevel_binary ha isLevel_comparison

/-- A procedure reads the tokens of every expression that binds at least as tightly as a level, and
leaves what comes behind them. -/
def ReadsTokens (k : Nat) (procedure : (s : Cursor) → Parse Expr s.size) : Prop :=
  ∀ e : Expr, e.Normal → k ≤ e.level → ∀ words, words.map Located.val = e.tokens →
    ∀ rest line, Looser k ⟨rest, line⟩ →
      ∃ r, procedure ⟨words ++ rest, line⟩ = .ok r ∧ r.value = e ∧ r.rest.tokens = rest

theorem cursor_slot_token (after : Keyword) (line before : Nat) (i : Slot)
    (rest : List (Located Token)) :
    (Cursor.mk (⟨line, i.token⟩ :: rest) before).slot after =
      .ok ⟨i, ⟨rest, line⟩, Cursor.size_lt_cons ..⟩ := by
  simp only [Cursor.slot, Cursor.peek, Slot.token, List.head?_cons, Option.map_some, ofNat?_toNat]
  rfl

theorem readsTokens_primary : ReadsTokens 3 Cursor.primary := by
  intro e _ hl words hw rest line _
  cases e with
  | number n | text s =>
    obtain ⟨word, words, rfl, hv, hn⟩ := List.map_eq_cons_iff.1 hw
    obtain rfl := List.map_eq_nil_iff.1 hn
    obtain ⟨at_, val⟩ := word
    obtain rfl : val = _ := hv
    exact ⟨_, rfl, rfl, rfl⟩
  | slot i =>
    obtain ⟨word, words, rfl, hv, hn⟩ := List.map_eq_cons_iff.1 hw
    obtain ⟨index, words, rfl, hi, hn⟩ := List.map_eq_cons_iff.1 hn
    obtain rfl := List.map_eq_nil_iff.1 hn
    obtain ⟨at_, val⟩ := word
    obtain rfl : val = _ := hv
    obtain ⟨last, val⟩ := index
    obtain rfl : val = _ := hi
    have hp : (Cursor.mk (⟨at_, .keyword .ding⟩ :: ⟨last, i.token⟩ :: rest) line).primary =
        (Cursor.mk (⟨last, i.token⟩ :: rest) at_).slot .ding >>= fun r =>
          .ok ⟨.slot r.value, r.rest, Nat.lt_trans r.size_lt (Cursor.size_lt_cons ..)⟩ := rfl
    rw [cursor_slot_token] at hp
    exact ⟨_, hp, rfl, rfl⟩
  | binary left op right => exact absurd (Nat.le_trans hl (Expr.level_op_le op)) (by decide)

/-- Begun at a cursor, the loop comes to an expression, in front of what is left. -/
def Reaches (operand : (s : Cursor) → Parse Expr s.size) (operator : Token → Option BinaryOp)
    (s : Cursor) (e : Expr) (rest : List (Located Token)) : Prop :=
  ∃ line, ∀ {β : Type} (f : Expr → Cursor → Except (Located ParseError) β),
    (s.binary operand operator >>= fun r => f r.value r.rest) =
      (Cursor.mk rest line).binaryFrom operand operator e >>= fun r => f r.value r.rest

section

variable {e : Expr} {words rest : List (Located Token)} {line : Nat}

theorem reaches_of_tighter (hr : ReadsTokens (k + 1) operand) (hn : e.Normal)
    (hl : k + 1 ≤ e.level) (hw : words.map Located.val = e.tokens)
    (hs : Looser (k + 1) ⟨rest, line⟩) : Reaches operand operator ⟨words ++ rest, line⟩ e rest := by
  obtain ⟨⟨value, ⟨tokens, last⟩, hlt⟩, hp, hv, ht⟩ := hr _ hn hl _ hw _ line hs
  obtain rfl : value = e := hv
  obtain rfl : tokens = rest := ht
  refine ⟨last, fun f => ?_⟩
  rw [Cursor.binary, hp, bind_assoc]
  exact map_bind ..

/-- The loop takes the tokens of an expression from the left: first those of its left operand,
which the loop has come to before it takes the operator. -/
theorem reaches_of_normal (hr : ReadsTokens (k + 1) operand) (ho : IsLevel k operator) (hk : k < 3)
    (hn : e.Normal) (hl : k ≤ e.level) (hw : words.map Located.val = e.tokens)
    (hs : Looser (k + 1) ⟨rest, line⟩) : Reaches operand operator ⟨words ++ rest, line⟩ e rest := by
  induction e generalizing words rest with
  | number n | text s | slot i => exact reaches_of_tighter hr hn hk hw hs
  | binary left op right ihl ihr =>
    by_cases ht : k + 1 ≤ op.level
    · exact reaches_of_tighter hr hn ht hw hs
    · have hl : k ≤ op.level := hl
      have hop : op.level = k := by omega
      obtain ⟨hln, hrn, hle, hlt⟩ := hn
      obtain ⟨first, last, rfl, hf, hm⟩ := List.map_eq_append_iff.1 hw
      obtain ⟨⟨at_, val⟩, last, rfl, hv, ha⟩ := List.map_eq_cons_iff.1 hm
      obtain rfl : val = op.token := hv
      have hb : Looser (k + 1) ⟨⟨at_, op.token⟩ :: (last ++ rest), line⟩ := by
        rintro _ ⟨⟩ next hnext
        rw [operator?_token] at hnext
        cases hnext
        omega
      obtain ⟨before, hbind⟩ := ihl hln (hop ▸ hle) hf hb
      obtain ⟨⟨value, ⟨tokens, behind⟩, hlt⟩, hp, hv, ht⟩ := hr _ hrn (hop ▸ hlt) _ ha _ at_ hs
      obtain rfl : value = right := hv
      obtain rfl : tokens = rest := ht
      have hpeek : (Cursor.mk (⟨at_, op.token⟩ :: (last ++ tokens)) before).peek.bind operator =
          some op := (ho _ _).2 ⟨operator?_token op, hop⟩
      refine ⟨behind, fun f => ?_⟩
      rw [List.append_assoc, List.cons_append, hbind f, binaryFrom_of_some hpeek, bind_assoc, hp]
      exact map_bind ..

end

/-- The loop takes the tokens of an expression and no more. -/
theorem readsTokens_binary (hr : ReadsTokens (k + 1) operand) (ho : IsLevel k operator)
    (hk : k < 3) : ReadsTokens k fun s => s.binary operand operator := by
  intro e hn hl words hw rest line hs
  have hnext : Looser (k + 1) ⟨rest, line⟩ := fun token ht op hop =>
    Nat.lt_succ_of_lt (hs token ht op hop)
  obtain ⟨last, hb⟩ := reaches_of_normal hr ho hk hn hl hw hnext
  have hd : (Cursor.mk rest last).binaryFrom operand operator e =
      .ok ⟨e, ⟨rest, last⟩, Nat.lt_succ_self _⟩ := by
    rw [Cursor.binaryFrom]
    split
    · next op hop =>
      obtain ⟨hk, at_, tokens, line, hc⟩ := peek_bind_eq_some ho hop
      cases hc
      exact absurd (hs _ rfl op (operator?_token op)) (hk ▸ Nat.lt_irrefl _)
    · rfl
  have h := hb fun value rest => .ok (value, rest.tokens)
  rw [hd] at h
  obtain ⟨r, hp, h⟩ := bind_ok h
  obtain ⟨hv, ht⟩ := Prod.mk.inj (Except.ok.inj h)
  exact ⟨r, hp, hv, ht⟩

theorem readsTokens_expr : ReadsTokens 0 Cursor.expr := by
  have hm : ReadsTokens 2 Cursor.multiplicative :=
    readsTokens_binary readsTokens_primary isLevel_multiplicative (by decide)
  have ha : ReadsTokens 1 Cursor.additive :=
    readsTokens_binary hm isLevel_additive (by decide)
  exact readsTokens_binary ha isLevel_comparison (by decide)

end Levels

end Parser

end Octet
