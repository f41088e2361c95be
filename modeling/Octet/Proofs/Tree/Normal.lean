import Octet.Proofs.Tree.Automaton

namespace Octet

namespace Expr

/-- How tightly an expression holds together: an operation as its operator, and all else more. -/
def level : Expr → Nat
  | binary _ op _ => op.level
  | _ => 3

/-- Written without parentheses, an expression is read back as it is: its operators bind to the
left, and tighter ones before looser ones. -/
def Normal : Expr → Prop
  | binary left op right =>
    left.Normal ∧ right.Normal ∧ op.level ≤ left.level ∧ op.level < right.level
  | _ => True

/-- An expression that another one is made of, or this one itself. -/
inductive IsPart : Expr → Expr → Prop
  | self (e : Expr) : IsPart e e
  | left {e left right : Expr} {op : BinaryOp} (h : IsPart e left) : IsPart e (binary left op right)
  | right {e left right : Expr} {op : BinaryOp} (h : IsPart e right) :
      IsPart e (binary left op right)

theorem IsPart.normal {part whole : Expr} (h : part.IsPart whole) (hn : whole.Normal) :
    part.Normal := by
  induction h with
  | self => exact hn
  | left _ ih => exact ih hn.1
  | right _ ih => exact ih hn.2.1

theorem level_op_le (op : BinaryOp) : op.level ≤ 2 := by
  cases op with
  | arith op => cases op <;> decide
  | compare op => exact Nat.zero_le 2

theorem level_le_of_isBinary {e : Expr} (h : e.isBinary = true) : e.level ≤ 2 := by
  cases e with
  | binary left op right => exact level_op_le op
  | _ => cases h

theorem normal_of_not_isBinary {e : Expr} (h : e.isBinary = false) : e.Normal ∧ e.level = 3 := by
  cases e with
  | binary left op right => cases h
  | _ => exact ⟨trivial, rfl⟩

/-- Going on with an operator and an operand keeps an expression normal. -/
theorem extend_normal {e operand : Expr} (he : e.Normal) (op : BinaryOp)
    (ho : operand.isBinary = false) :
    (e.extend op operand).Normal ∧ (e.extend op operand).level = min e.level op.level := by
  have hop := level_op_le op
  obtain ⟨hn, hl⟩ := normal_of_not_isBinary ho
  induction e with
  | number n | text s | slot i =>
    have hlt : op.level < operand.level := by omega
    refine ⟨⟨trivial, hn, Nat.le_succ_of_le hop, hlt⟩, ?_⟩
    exact (Nat.min_eq_right (Nat.le_succ_of_le hop)).symm
  | binary left root right _ ih =>
    obtain ⟨hln, hrn, hle, hlt⟩ := he
    rw [extend]
    split
    -- A tighter operator goes to the right operand, and the root stays.
    · next h =>
      obtain ⟨hx, hv⟩ := ih hrn
      refine ⟨⟨hln, hx, hle, ?_⟩, ?_⟩
      · rw [hv]
        exact Nat.lt_min.2 ⟨hlt, h⟩
      · simp only [level]
        omega
    · next h =>
      refine ⟨⟨⟨hln, hrn, hle, hlt⟩, hn, Nat.le_of_not_lt h, ?_⟩, ?_⟩
      · omega
      · simp only [level]
        omega

end Expr

namespace Block

variable {p : Expr → Prop} {b after : Block}

/-- All expressions of a block have a property. -/
def Every (p : Expr → Prop) : Block → Prop
  | done => True
  | halt _ rest | input _ _ rest => rest.Every p
  | assign _ _ value rest | output _ value rest => p value ∧ rest.Every p
  | branch _ condition body otherwise rest =>
    p condition ∧ body.Every p ∧ otherwise.Every p ∧ rest.Every p
  | loop _ condition body rest => p condition ∧ body.Every p ∧ rest.Every p

theorem Every.imp₂ {q r : Expr → Prop} (hp : b.Every p) (hq : b.Every q)
    (h : ∀ e, p e → q e → r e) : b.Every r := by
  induction b with
  | done => trivial
  | halt line rest ih | input line slot rest ih => exact ih hp hq
  | assign line slot value rest ih | output line value rest ih =>
    exact ⟨h _ hp.1 hq.1, ih hp.2 hq.2⟩
  | branch line condition body otherwise rest ihb iho ihr =>
    obtain ⟨hpc, hpb, hpo, hpr⟩ := hp
    obtain ⟨hqc, hqb, hqo, hqr⟩ := hq
    exact ⟨h _ hpc hqc, ihb hpb hqb, iho hpo hqo, ihr hpr hqr⟩
  | loop line condition body rest ihb ihr =>
    obtain ⟨hpc, hpb, hpr⟩ := hp
    obtain ⟨hqc, hqb, hqr⟩ := hq
    exact ⟨h _ hpc hqc, ihb hpb hqb, ihr hpr hqr⟩

theorem Every.imp {r : Expr → Prop} (hp : b.Every p) (h : ∀ e, p e → r e) : b.Every r :=
  hp.imp₂ hp fun e he _ => h e he

theorem every_reverseOnto (hb : b.Every p) (ha : after.Every p) :
    (b.reverseOnto after).Every p := by
  induction b generalizing after with
  | done => exact ha
  | halt line rest ih | input line slot rest ih => exact ih hb ha
  | assign line slot value rest ih | output line value rest ih => exact ih hb.2 ⟨hb.1, ha⟩
  | branch line condition body otherwise rest _ _ ih =>
    exact ih hb.2.2.2 ⟨hb.1, hb.2.1, hb.2.2.1, ha⟩
  | loop line condition body rest _ ih => exact ih hb.2.2 ⟨hb.1, hb.2.1, ha⟩

theorem every_reverse (hb : b.Every p) : b.reverse.Every p := every_reverseOnto hb trivial

end Block

namespace Parser

/-- What has been read of an expression is normal. -/
def Mode.Normal : Mode → Prop
  | operand due | operandSlot due => ∀ e op, due.before = some (e, op) → e.Normal
  | operator _ e => e.Normal
  | _ => True

def Opener.Normal : Opener → Prop
  | body _ condition | loop _ condition => condition.Normal
  | otherwise _ condition first => condition.Normal ∧ first.Every Expr.Normal

/-- All that the parser holds is normal. -/
structure State.Normal (state : State) : Prop where
  mode : state.mode.Normal
  current : state.current.Every Expr.Normal
  frames : ∀ frame ∈ state.frames, frame.opener.Normal ∧ frame.before.Every Expr.Normal

theorem normal_complete {due : Due} {operand : Expr}
    (h : ∀ e op, due.before = some (e, op) → e.Normal) (ho : operand.isBinary = false) :
    (due.complete operand).Normal := by
  rw [Due.complete]
  split
  · exact (Expr.normal_of_not_isBinary ho).1
  · next e op hb => exact (Expr.extend_normal (h e op hb) op ho).1

theorem bind_ok {ε α β : Type} {result : Except ε α} {f : α → Except ε β} {b : β}
    (h : result >>= f = .ok b) : ∃ a, result = .ok a ∧ f a = .ok b := by
  cases result with
  | error e => cases h
  | ok a => exact ⟨a, rfl, h⟩

namespace State

variable {state next : State} {line : Nat} {token : Token}

theorem normal_endBlock {frame : Frame} {outer : List Frame} (hs : state.Normal)
    (hf : state.frames = frame :: outer) (h : state.endBlock frame outer token = .ok next) :
    next.Normal := by
  have hframe := hs.frames frame (by simp [hf])
  have houter : ∀ frame ∈ outer, frame.opener.Normal ∧ frame.before.Every Expr.Normal :=
    fun frame hm => hs.frames frame (by simp [hf, hm])
  have hblock := Block.every_reverse hs.current
  unfold endBlock at h
  split at h
  · cases h
    refine ⟨trivial, ?_, houter⟩
    obtain ⟨ho, hb⟩ := hframe
    cases hop : frame.opener with
    | body line condition =>
      rw [hop] at ho
      exact ⟨ho, hblock, trivial, hb⟩
    | otherwise line condition first =>
      rw [hop] at ho
      exact ⟨ho.1, ho.2, hblock, hb⟩
    | loop line condition =>
      rw [hop] at ho
      exact ⟨ho, hblock, hb⟩
  · split at h
    · next line condition hop =>
      cases h
      rw [hop] at hframe
      refine ⟨trivial, trivial, fun frame hm => ?_⟩
      obtain rfl | hm := List.mem_cons.1 hm
      · exact ⟨⟨hframe.1, hblock⟩, hframe.2⟩
      · exact houter frame hm
    · cases h
  · cases h

theorem normal_beginStatement (hs : state.Normal)
    (h : state.beginStatement line token = .ok next) : next.Normal := by
  unfold beginStatement at h
  split at h
  · cases h
    exact ⟨trivial, hs.current, hs.frames⟩
  · cases h
    refine ⟨?_, hs.current, hs.frames⟩
    dsimp only
    split <;> trivial
  · cases h
    exact ⟨trivial, hs.current, hs.frames⟩
  · cases h
    exact ⟨nofun, hs.current, hs.frames⟩
  · cases h
    exact ⟨trivial, hs.current, hs.frames⟩
  · cases h
    exact ⟨nofun, hs.current, hs.frames⟩
  · cases h
    exact ⟨nofun, hs.current, hs.frames⟩
  · split at h
    · cases h
      exact ⟨trivial, hs.current, hs.frames⟩
    · exact normal_endBlock hs ‹_› h
    · exact normal_endBlock hs ‹_› h
    · exact normal_endBlock hs ‹_› h
    · cases h

theorem normal_enter (opener : Opener) (hs : state.Normal) (ho : opener.Normal) :
    (state.enter opener).Normal := by
  refine ⟨trivial, trivial, fun frame hm => ?_⟩
  obtain rfl | hm := List.mem_cons.1 hm
  · exact ⟨ho, hs.current⟩
  · exact hs.frames frame hm

theorem normal_endExpr {purpose : Purpose} {e : Expr} (hs : state.Normal) (he : e.Normal)
    (h : state.endExpr line purpose e token = .ok next) : next.Normal := by
  unfold endExpr at h
  split at h
  · refine normal_beginStatement ?_ h
    exact ⟨trivial, ⟨he, hs.current⟩, hs.frames⟩
  · refine normal_beginStatement ?_ h
    exact ⟨trivial, ⟨he, hs.current⟩, hs.frames⟩
  · split at h
    · cases h
      exact normal_enter _ hs he
    · cases h
  · next begun => exact normal_beginStatement (normal_enter (.loop begun e) hs he) h

/-- A token leaves a parser normal. -/
theorem normal_step (hs : state.Normal) (h : state.step line token = .ok next) : next.Normal := by
  have hm := hs.mode
  unfold step at h
  cases hmode : state.mode with
  | start =>
    simp only [hmode] at h
    split at h
    · cases h
      exact hs
    · cases h
      exact ⟨trivial, hs.current, hs.frames⟩
    · cases h
  | statement =>
    simp only [hmode] at h
    exact normal_beginStatement hs h
  | closing =>
    simp only [hmode] at h
    split at h
    · cases h
      exact hs
    · exact normal_endBlock hs ‹_› h
    · cases h
  | assignSlot begun | inputSlot begun =>
    simp only [hmode] at h
    obtain ⟨slot, -, h⟩ := bind_ok h
    cases h
    exact ⟨trivial, hs.current, hs.frames⟩
  | equals begun slot =>
    simp only [hmode] at h
    split at h
    · cases h
      exact ⟨nofun, hs.current, hs.frames⟩
    · cases h
  | operand due =>
    rw [hmode] at hm h
    cases token with
    | number n | text s =>
      cases h
      exact ⟨normal_complete hm rfl, hs.current, hs.frames⟩
    | keyword k =>
      cases k with
      | ding =>
        cases h
        exact ⟨hm, hs.current, hs.frames⟩
      | _ => cases h
    | _ => cases h
  | operandSlot due =>
    rw [hmode] at hm
    simp only [hmode] at h
    obtain ⟨slot, -, h⟩ := bind_ok h
    cases h
    exact ⟨normal_complete hm rfl, hs.current, hs.frames⟩
  | operator purpose e =>
    rw [hmode] at hm
    simp only [hmode] at h
    split at h
    · cases h
      refine ⟨?_, hs.current, hs.frames⟩
      rintro e op ⟨⟩
      exact hm
    · exact normal_endExpr hs hm h
  | finished =>
    simp only [hmode] at h
    cases h
    exact hs

theorem normal_run {tokens : List (Located Token)} (hs : state.Normal)
    (h : state.run tokens = .ok next) : next.Normal := by
  induction tokens generalizing state with
  | nil =>
    cases h
    exact hs
  | cons token tokens ih =>
    rw [run] at h
    split at h
    · next hstep => exact ih (normal_step hs hstep) h
    · cases h

theorem normal_initial : initial.Normal := ⟨trivial, trivial, nofun⟩

theorem every_result {b : Block} (hs : state.Normal) (h : state.result = .ok b) :
    b.Every Expr.Normal := by
  have hm := hs.mode
  cases hmode : state.mode with
  | start | assignSlot line | inputSlot line | equals line slot | operand due | operandSlot due =>
    simp only [result, hmode] at h
    cases h
  | statement | closing =>
    simp only [result, hmode] at h
    split at h
    · cases h
      exact Block.every_reverse hs.current
    · cases h
  | operator purpose e =>
    rw [hmode] at hm
    simp only [result, hmode] at h
    cases purpose with
    | assign line slot | output line =>
      dsimp only at h
      split at h
      · cases h
        exact Block.every_reverse ⟨hm, hs.current⟩
      · cases h
    | branch line | loop line => cases h
  | finished =>
    simp only [result, hmode] at h
    cases h
    exact Block.every_reverse hs.current

end State

end Parser

end Octet
