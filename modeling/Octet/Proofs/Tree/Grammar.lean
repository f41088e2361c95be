import Octet.Proofs.Tree.Normal

namespace Octet

def BinaryOp.token : BinaryOp → Token
  | arith .add => .plus
  | arith .sub => .minus
  | arith .mul => .times
  | arith .div => .slash
  | arith .mod => .keyword .mod
  | compare .equal => .equal
  | compare .notEqual => .notEqual
  | compare .less => .less
  | compare .lessOrEqual => .lessOrEqual
  | compare .greater => .greater
  | compare .greaterOrEqual => .greaterOrEqual

def Slot.token (slot : Slot) : Token := .number (UInt32.ofNat slot.val)

/-- An expression as tokens, without parentheses. -/
def Expr.tokens : Expr → List Token
  | number n => [.number n]
  | text s => [.text s]
  | slot i => [.keyword .ding, i.token]
  | binary left op right => left.tokens ++ op.token :: right.tokens

theorem Expr.tokens_extend (e : Expr) (op : BinaryOp) (operand : Expr) :
    (e.extend op operand).tokens = e.tokens ++ op.token :: operand.tokens := by
  induction e with
  | binary left root right _ ih =>
    rw [extend]
    split
    · simp [tokens, ih]
    · simp [tokens]
  | _ => rfl

/-- An operand that binds tighter goes on inside the expression that it is an operand of. -/
theorem Expr.extend_extend {op next : BinaryOp} (h : op.level < next.level)
    (e operand last : Expr) :
    (e.extend op operand).extend next last = e.extend op (operand.extend next last) := by
  induction e with
  | binary left root right _ ih =>
    by_cases hr : root.level < op.level
    · simp [extend, hr, ih, Nat.lt_trans hr h]
    · simp [extend, hr, h]
  | _ => simp [extend, h]

theorem Expr.extend_of_level_le {e : Expr} {op : BinaryOp} (h : op.level ≤ e.level)
    (operand : Expr) : e.extend op operand = .binary e op operand := by
  cases e with
  | binary left root right =>
    have hr : ¬root.level < op.level := Nat.not_lt.2 h
    rw [extend, if_neg hr]
  | _ => rfl

/-- Nothing but line ends. -/
def IsGap (tokens : List (Located Token)) : Prop := ∀ token ∈ tokens, token.val = .newline

theorem isGap_nil : IsGap [] := nofun

theorem IsGap.concat {tokens : List (Located Token)} (h : IsGap tokens) (line : Nat) :
    IsGap (tokens ++ [⟨line, .newline⟩]) := by
  intro token ht
  obtain ht | ht := List.mem_append.1 ht
  · exact h token ht
  · rw [List.mem_singleton.1 ht]

/-- Line ends, a keyword on a line, and further tokens, of which each may stand on any line. -/
def Phrase (line : Nat) (keyword : Keyword) (tokens : List Token)
    (written : List (Located Token)) : Prop :=
  ∃ gap words, IsGap gap ∧ words.map Located.val = tokens ∧
    written = gap ++ ⟨line, .keyword keyword⟩ :: words

section Phrase

variable {line : Nat} {k : Keyword} {tokens : List Token} {written : List (Located Token)}

theorem IsGap.phrase (h : IsGap written) (line : Nat) (k : Keyword) :
    Phrase line k [] (written ++ [⟨line, .keyword k⟩]) :=
  ⟨written, [], h, rfl, rfl⟩

theorem Phrase.concat (h : Phrase line k tokens written) (at_ : Nat) (token : Token) :
    Phrase line k (tokens ++ [token]) (written ++ [⟨at_, token⟩]) := by
  obtain ⟨gap, words, hg, rfl, rfl⟩ := h
  exact ⟨gap, words ++ [⟨at_, token⟩], hg, by simp, by simp⟩

end Phrase

namespace Block

/-- The statements of a block as tokens. Each has the line of its first token. Line ends may come
before a statement and before the keywords that go on with it or close it. -/
inductive Written : Block → List (Located Token) → Prop
  | done : Written .done []
  | halt {line rest first after} (hp : Phrase line .verneinung [] first)
      (hr : Written rest after) : Written (.halt line rest) (first ++ after)
  | assign {line slot value rest first after}
      (hp : Phrase line .ding (slot.token :: .equal :: value.tokens) first)
      (hr : Written rest after) : Written (.assign line slot value rest) (first ++ after)
  | output {line value rest first after} (hp : Phrase line .vorstellung value.tokens first)
      (hr : Written rest after) : Written (.output line value rest) (first ++ after)
  | input {line slot rest first after} (hp : Phrase line .wille [slot.token] first)
      (hr : Written rest after) : Written (.input line slot rest) (first ++ after)
  | branch {line condition body rest first inner ended last after}
      (hp : Phrase line .wenn (condition.tokens ++ [.keyword .dann]) first)
      (hb : Written body inner) (he : Phrase ended .ende [] last) (hr : Written rest after) :
      Written (.branch line condition body .done rest) (first ++ (inner ++ (last ++ after)))
  | alternative {line condition body otherwise rest first inner parted middle other ended last
        after}
      (hp : Phrase line .wenn (condition.tokens ++ [.keyword .dann]) first)
      (hb : Written body inner) (hm : Phrase parted .sonst [] middle)
      (ho : Written otherwise other) (he : Phrase ended .ende [] last)
      (hr : Written rest after) :
      Written (.branch line condition body otherwise rest)
        (first ++ (inner ++ (middle ++ (other ++ (last ++ after)))))
  | loop {line condition body rest first inner ended last after}
      (hp : Phrase line .solange condition.tokens first)
      (hb : Written body inner) (he : Phrase ended .ende [] last) (hr : Written rest after) :
      Written (.loop line condition body rest) (first ++ (inner ++ (last ++ after)))

/-- A halt is the last statement of its block. -/
def HaltsLast : Block → Prop
  | done => True
  | halt _ rest => rest = done
  | assign _ _ _ rest | output _ _ rest | input _ _ rest => rest.HaltsLast
  | branch _ _ body otherwise rest => body.HaltsLast ∧ otherwise.HaltsLast ∧ rest.HaltsLast
  | loop _ _ body rest => body.HaltsLast ∧ rest.HaltsLast

def endsInHalt : Block → Bool
  | done => false
  | halt _ rest => rest.isEmpty || rest.endsInHalt
  | assign _ _ _ rest | output _ _ rest | input _ _ rest | branch _ _ _ _ rest
  | loop _ _ _ rest => rest.endsInHalt

/-- What the syntax can say: comparisons of sums of products, each read from the left, and nothing
behind a halt. -/
structure Normal (block : Block) : Prop where
  expressions : block.Every Expr.Normal
  halts : block.HaltsLast

end Block

namespace Parser

/-- Tokens that write a program. They may stop at its end or go on behind a token for the end of
the text; behind a halt of the program itself they may go on in any way. -/
def Writes (tokens : List (Located Token)) (program : Block) : Prop :=
  ∃ line first statements rest, Phrase line .erwache [] first ∧ program.Written statements ∧
    tokens = first ++ (statements ++ rest) ∧
    (program.endsInHalt = true ∨
      ∃ gap after, IsGap gap ∧ (∀ token ∈ after.head?, token.val = .eof) ∧ rest = gap ++ after)

theorem eq_token_of_operator? {token : Token} {op : BinaryOp} (h : operator? token = some op) :
    token = op.token := by
  cases token with
  | keyword k =>
    cases k with
    | mod => cases h; rfl
    | _ => cases h
  | _ => cases h <;> rfl

theorem operator?_token (op : BinaryOp) : operator? op.token = some op := by
  cases op with
  | arith op => cases op <;> rfl
  | compare op => cases op <;> rfl

theorem ofNat?_toNat (i : Slot) : Slot.ofNat? (UInt32.ofNat i.val).toNat = some i := by
  have hi : (UInt32.ofNat i.val).toNat = i.val :=
    UInt32.toNat_ofNat_of_lt' (Nat.lt_trans i.isLt (by decide))
  simp [Slot.ofNat?, hi]

theorem slot_token (after : Keyword) (i : Slot) : slot after i.token = .ok i := by
  rw [Slot.token, slot, ofNat?_toNat]

theorem eq_token_of_slot {after : Keyword} {token : Token} {i : Slot}
    (h : slot after token = .ok i) : token = i.token := by
  unfold slot at h
  split at h
  · next n =>
    split at h
    · next j hj =>
      cases h
      unfold Slot.ofNat? at hj
      split at hj
      · cases hj
        simp [Slot.token]
      · cases hj
    · cases h
  · cases h

end Parser

end Octet
