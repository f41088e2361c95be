import Octet.Proofs.Walker.Flow

namespace Octet

/-- How often a loop has checked its condition, and how often it has begun its body. -/
structure Tally where
  checks : Nat
  bodies : Nat
deriving DecidableEq

def Tally.add (tally more : Tally) : Tally :=
  ⟨tally.checks + more.checks, tally.bodies + more.bodies⟩

/-- A computation that keeps a tally. -/
structure Tallied (ε α : Type) where
  run : Run ε α
  tally : Tally

namespace Tallied

variable {ε α β : Type}

def pure (a : α) : Tallied ε α := ⟨Pure.pure a, ⟨0, 0⟩⟩

def bind (tallied : Tallied ε α) (f : α → Tallied ε β) : Tallied ε β :=
  match tallied.run.result with
  | .ok a =>
    let next := f a
    ⟨⟨tallied.run.signals ++ next.run.signals, next.run.result⟩, tallied.tally.add next.tally⟩
  | .error e => ⟨⟨tallied.run.signals, .error e⟩, tallied.tally⟩

instance : Monad (Tallied ε) where
  pure := pure
  bind := bind

/-- A check of the condition. -/
def check (run : Run ε α) : Tallied ε α := ⟨run, ⟨1, 0⟩⟩

/-- A run of the body. -/
def body (run : Run ε α) : Tallied ε α := ⟨run, ⟨0, 1⟩⟩

/-- Neither of the two. -/
def ofRun (run : Run ε α) : Tallied ε α := ⟨run, ⟨0, 0⟩⟩

theorem run_bind (tallied : Tallied ε α) (f : α → Tallied ε β) :
    (tallied >>= f).run = tallied.run >>= fun a => (f a).run := by
  obtain ⟨⟨signals, result⟩, tally⟩ := tallied
  cases result <;> rfl

theorem run_bind_eq {tallied : Tallied ε α} {run : Run ε α} {f : α → Tallied ε β}
    {g : α → Run ε β} (h : tallied.run = run) (hf : ∀ a, (f a).run = g a) :
    (tallied >>= f).run = run >>= g := by
  rw [run_bind, h]
  exact congrArg _ (funext hf)

end Tallied

namespace Walker

/-- A loop as it stands in a program. -/
structure Loop where
  line : Nat
  condition : Expr
  body : Block

/-- What a check of a condition comes to, and the state behind it. -/
def State.test (state : State) (condition : Expr) : Except Fault (Bool × State) :=
  (condition.eval state.memory state.flags).map fun (v, flags) =>
    (v.isTruthy, { state with flags })

section Test

variable {state begun : State} {condition : Expr} {holds : Bool} {fault : Fault}

theorem eval_of_test (h : state.test condition = .ok (holds, begun)) (line : Nat) :
    ∃ v, state.eval line condition = ⟨[], .ok (v, begun)⟩ ∧ v.isTruthy = holds := by
  rw [State.test] at h
  cases he : condition.eval state.memory state.flags with
  | error fault =>
    rw [he] at h
    cases h
  | ok p =>
    obtain ⟨v, flags⟩ := p
    rw [he] at h
    cases h
    exact ⟨v, eval_of_ok he, rfl⟩

theorem eval_of_test_error (h : state.test condition = .error fault) (line : Nat) :
    state.eval line condition = ⟨[], .error ⟨line, fault⟩⟩ := by
  rw [State.test] at h
  cases he : condition.eval state.memory state.flags with
  | error other =>
    rw [he] at h
    cases h
    exact eval_of_error he
  | ok p =>
    rw [he] at h
    cases h

end Test

/-- A result behind which nothing else is run: a fault or a halt. -/
def Stopped (result : Except (Located Fault) (Flow × State)) : Prop :=
  ∀ state, result ≠ .ok (.next, state)

theorem next_or_stopped (run : Run (Located Fault) (Flow × State)) :
    (∃ state, run = ⟨run.signals, .ok (.next, state)⟩) ∨ Stopped run.result := by
  obtain ⟨signals, e | ⟨flow, state⟩⟩ := run
  · exact .inr nofun
  cases flow with
  | next => exact .inl ⟨state, rfl⟩
  | halt => exact .inr nofun

namespace Loop

/-- A run of the loop, wherever it stands and whatever has been run before. -/
def run (loop : Loop) (state : State) : Run (Located Fault) (Flow × State) :=
  iterate loop.line loop.condition (exec loop.body) loopLimit state

/-- A run of the loop with so many bodies left, which keeps a tally. -/
def tallied (loop : Loop) : Nat → State → Tallied (Located Fault) (Flow × State)
  | 0, state => do
    let (v, state) ← Tallied.check (state.eval loop.line loop.condition)
    if v.isTruthy then
      Tallied.ofRun (Run.send (.note (.loopOverheated loop.line)))
      Tallied.ofRun (Run.fail ⟨loop.line, .overheat loopLimit⟩)
    else return (.next, state)
  | left + 1, state => do
    let (v, state) ← Tallied.check (state.eval loop.line loop.condition)
    if v.isTruthy then
      Tallied.ofRun (Run.send .tick)
      let (flow, state) ← Tallied.body (exec loop.body state)
      match flow with
      | .next => loop.tallied left state
      | .halt => return (.halt, state)
    else return (.next, state)

/-- The tally does not tell on the run. -/
theorem run_tallied (loop : Loop) (left : Nat) (state : State) :
    (loop.tallied left state).run =
      iterate loop.line loop.condition (exec loop.body) left state := by
  induction left generalizing state with
  | zero =>
    rw [tallied, iterate]
    apply Tallied.run_bind_eq rfl
    rintro ⟨v, state⟩
    by_cases hz : v.isTruthy = true
    · simp only [if_pos hz]
      rfl
    · simp only [if_neg hz]
      rfl
  | succ left ih =>
    rw [tallied, iterate]
    apply Tallied.run_bind_eq rfl
    rintro ⟨v, state⟩
    by_cases hz : v.isTruthy = true
    · simp only [if_pos hz]
      apply Tallied.run_bind_eq rfl
      intro
      apply Tallied.run_bind_eq rfl
      rintro ⟨flow, state⟩
      cases flow with
      | next => exact ih state
      | halt => rfl
    · simp only [if_neg hz]
      rfl

/-- What a loop does in some rounds: each time its condition holds and its body runs through. -/
inductive Rounds (loop : Loop) : Nat → State → List Signal → State → Prop
  | none {state : State} : Rounds loop 0 state [] state
  | round {n : Nat} {state begun next last : State} {signals more : List Signal}
      (check : state.test loop.condition = .ok (true, begun))
      (runs : exec loop.body begun = ⟨signals, .ok (.next, next)⟩)
      (rounds : Rounds loop n next more last) :
      Rounds loop (n + 1) state (.tick :: signals ++ more) last

/-- How a loop ends that has no limit, and with which tally: behind some rounds its condition fails
to hold or cannot be evaluated, or its body stops it. -/
inductive Ends (loop : Loop) (state : State) : Tally → Run (Located Fault) (Flow × State) → Prop
  | done {k : Nat} {signals : List Signal} {last final : State}
      (rounds : Rounds loop k state signals last)
      (check : last.test loop.condition = .ok (false, final)) :
      Ends loop state ⟨k + 1, k⟩ ⟨signals, .ok (.next, final)⟩
  | failed {k : Nat} {signals : List Signal} {last : State} {fault : Fault}
      (rounds : Rounds loop k state signals last)
      (check : last.test loop.condition = .error fault) :
      Ends loop state ⟨k + 1, k⟩ ⟨signals, .error ⟨loop.line, fault⟩⟩
  | stopped {k : Nat} {signals more : List Signal} {last begun : State}
      {result : Except (Located Fault) (Flow × State)} (rounds : Rounds loop k state signals last)
      (check : last.test loop.condition = .ok (true, begun))
      (runs : exec loop.body begun = ⟨more, result⟩) (stops : Stopped result) :
      Ends loop state ⟨k + 1, k + 1⟩ ⟨signals ++ .tick :: more, result⟩

section Tallied

variable {loop : Loop} {n k left : Nat} {state begun next last final : State}
  {signals more : List Signal} {fault : Fault} {result : Except (Located Fault) (Flow × State)}
  {tally : Tally} {outcome : Run (Located Fault) (Flow × State)}

theorem tallied_of_error (check : state.test loop.condition = .error fault) (left : Nat) :
    loop.tallied left state = ⟨⟨[], .error ⟨loop.line, fault⟩⟩, ⟨1, 0⟩⟩ := by
  cases left with
  | zero | succ left =>
    rw [tallied, eval_of_test_error check]
    rfl

theorem tallied_of_false (check : state.test loop.condition = .ok (false, final)) (left : Nat) :
    loop.tallied left state = ⟨⟨[], .ok (.next, final)⟩, ⟨1, 0⟩⟩ := by
  obtain ⟨v, he, hv⟩ := eval_of_test check loop.line
  cases left with
  | zero | succ left =>
    rw [tallied, he]
    simp only [bind, Tallied.bind, Tallied.check, hv]
    rfl

theorem tallied_zero (check : state.test loop.condition = .ok (true, begun)) :
    loop.tallied 0 state = ⟨⟨[.note (.loopOverheated loop.line)],
      .error ⟨loop.line, .overheat loopLimit⟩⟩, ⟨1, 0⟩⟩ := by
  obtain ⟨v, he, hv⟩ := eval_of_test check loop.line
  rw [tallied, he]
  simp only [bind, Tallied.bind, Tallied.check, hv]
  rfl

theorem tallied_of_stopped (check : state.test loop.condition = .ok (true, begun))
    (runs : exec loop.body begun = ⟨signals, result⟩) (stops : Stopped result) (left : Nat) :
    loop.tallied (left + 1) state = ⟨⟨.tick :: signals, result⟩, ⟨1, 1⟩⟩ := by
  obtain ⟨v, he, hv⟩ := eval_of_test check loop.line
  rw [tallied, he]
  simp only [bind, Tallied.bind, Tallied.check, Tallied.body, Tallied.ofRun, hv, runs]
  obtain e | ⟨flow, next⟩ := result
  · rfl
  cases flow with
  | next => exact absurd rfl (stops next)
  | halt => simp [Run.send, Run.pure, Tally.add, pure, Tallied.pure]

theorem tallied_succ (check : state.test loop.condition = .ok (true, begun))
    (runs : exec loop.body begun = ⟨signals, .ok (.next, next)⟩) (left : Nat) :
    loop.tallied (left + 1) state =
      let rest := loop.tallied left next
      ⟨⟨.tick :: signals ++ rest.run.signals, rest.run.result⟩, .add ⟨1, 1⟩ rest.tally⟩ := by
  obtain ⟨v, he, hv⟩ := eval_of_test check loop.line
  rw [tallied, he]
  simp [bind, Tallied.bind, Tallied.check, Tallied.body, Tallied.ofRun, hv, runs, Run.send,
    Tally.add]

/-- Behind some rounds a loop goes on with as many bodies less. -/
theorem tallied_of_rounds (h : loop.Rounds n state signals last) (left : Nat) :
    loop.tallied (n + left) state =
      let rest := loop.tallied left last
      ⟨⟨signals ++ rest.run.signals, rest.run.result⟩, .add ⟨n, n⟩ rest.tally⟩ := by
  induction h with
  | none => simp [Tally.add]
  | @round n state begun next last signals more check runs _ ih =>
    have htally (tally : Tally) :
        Tally.add ⟨1, 1⟩ (.add ⟨n, n⟩ tally) = .add ⟨n + 1, n + 1⟩ tally := by
      simp only [Tally.add, Tally.mk.injEq]
      omega
    rw [Nat.add_right_comm, tallied_succ check runs, ih]
    simp only [htally, List.append_assoc]

/-- A loop that ends within its limit does so as it would without one. -/
theorem tallied_of_ends (h : loop.Ends state tally outcome) (hn : tally.bodies ≤ left) :
    loop.tallied left state = ⟨outcome, tally⟩ := by
  obtain ⟨more, rfl⟩ := Nat.exists_eq_add_of_le hn
  cases h with
  | done rounds check =>
    rw [tallied_of_rounds rounds, tallied_of_false check]
    simp [Tally.add]
  | failed rounds check =>
    rw [tallied_of_rounds rounds, tallied_of_error check]
    simp [Tally.add]
  | stopped rounds check runs stops =>
    rw [Nat.add_assoc, Nat.add_comm 1, tallied_of_rounds rounds,
      tallied_of_stopped check runs stops]
    simp [Tally.add]

theorem run_of_ends (h : loop.Ends state tally outcome) (hn : tally.bodies ≤ loopLimit) :
    loop.run state = outcome := by
  rw [run, ← run_tallied, tallied_of_ends h hn]

/-- A loop whose condition still holds behind its last body overheats. -/
theorem tallied_of_beyond (h : loop.Rounds n state signals last)
    (check : last.test loop.condition = .ok (true, begun)) :
    loop.tallied n state = ⟨⟨signals ++ [.note (.loopOverheated loop.line)],
      .error ⟨loop.line, .overheat loopLimit⟩⟩, ⟨n + 1, n⟩⟩ := by
  have hrun := tallied_of_rounds h 0
  rwa [tallied_zero check] at hrun

/-- More rounds than the limit begin with as many as the limit, and one more check that holds. -/
theorem Rounds.exists_beyond (h : loop.Rounds k state signals last) (hk : n < k) :
    ∃ seen mid begun, loop.Rounds n state seen mid ∧
      mid.test loop.condition = .ok (true, begun) := by
  induction h generalizing n with
  | none => exact absurd hk (Nat.not_lt_zero n)
  | round check runs rounds ih =>
    cases n with
    | zero => exact ⟨[], _, _, .none, check⟩
    | succ n =>
      obtain ⟨seen, mid, begun, hr, hc⟩ := ih (Nat.lt_of_succ_lt_succ hk)
      exact ⟨_, mid, begun, .round check runs hr, hc⟩

/-- A body that is begun within the limit is run as a part of the loop. -/
theorem isPrefix_run (h : loop.Rounds k state signals last) (hk : k < loopLimit)
    (check : last.test loop.condition = .ok (true, begun)) :
    signals ++ .tick :: (exec loop.body begun).signals <+: (loop.run state).signals := by
  obtain ⟨left, hleft⟩ := Nat.exists_eq_add_of_lt hk
  rw [run, ← run_tallied, hleft, Nat.add_assoc, tallied_of_rounds h]
  refine (List.prefix_append_right_inj _).2 ?_
  obtain ⟨next, hb⟩ | stops := next_or_stopped (exec loop.body begun)
  · rw [tallied_succ check hb, hb]
    exact List.prefix_append ..
  · have hrest := tallied_of_stopped check rfl stops left
    exact ⟨[], (List.append_nil _).trans (congrArg (·.run.signals) hrest).symm⟩

theorem Ends.round (check : state.test loop.condition = .ok (true, begun))
    (runs : exec loop.body begun = ⟨more, .ok (.next, next)⟩) (h : loop.Ends next tally outcome) :
    loop.Ends state ⟨tally.checks + 1, tally.bodies + 1⟩
      ⟨.tick :: more ++ outcome.signals, outcome.result⟩ := by
  cases h with
  | done rounds last => exact .done (.round check runs rounds) last
  | failed rounds last => exact .failed (.round check runs rounds) last
  | stopped rounds last body stops =>
    rw [← List.append_assoc]
    exact .stopped (.round check runs rounds) last body stops

/-- The first check ends a loop, or it holds. -/
theorem ends_or_holds (loop : Loop) (state : State) :
    (∃ outcome, loop.Ends state ⟨1, 0⟩ outcome) ∨
      ∃ begun, state.test loop.condition = .ok (true, begun) := by
  cases h : state.test loop.condition with
  | error fault => exact .inl ⟨_, .failed .none h⟩
  | ok checked =>
    obtain ⟨holds, begun⟩ := checked
    cases holds with
    | false => exact .inl ⟨_, .done .none h⟩
    | true => exact .inr ⟨begun, rfl⟩

/-- A loop ends with as many bodies as it is given, or its condition still holds behind them. -/
theorem ends_or_beyond (loop : Loop) (left : Nat) (state : State) :
    (∃ tally outcome, tally.bodies ≤ left ∧ loop.Ends state tally outcome) ∨
      ∃ signals last begun, loop.Rounds left state signals last ∧
        last.test loop.condition = .ok (true, begun) := by
  induction left generalizing state with
  | zero =>
    obtain ⟨outcome, h⟩ | ⟨begun, h⟩ := loop.ends_or_holds state
    · exact .inl ⟨_, outcome, Nat.zero_le _, h⟩
    · exact .inr ⟨_, _, begun, .none, h⟩
  | succ left ih =>
    obtain ⟨outcome, h⟩ | ⟨begun, h⟩ := loop.ends_or_holds state
    · exact .inl ⟨_, outcome, Nat.zero_le _, h⟩
    obtain ⟨next, hb⟩ | stops := next_or_stopped (exec loop.body begun)
    · obtain ⟨tally, outcome, hn, he⟩ | ⟨signals, last, final, hr, hc⟩ := ih next
      · exact .inl ⟨_, _, Nat.succ_le_succ hn, he.round h hb⟩
      · exact .inr ⟨_, last, final, .round h hb hr, hc⟩
    · exact .inl ⟨_, _, Nat.succ_le_succ (Nat.zero_le left), .stopped .none h rfl stops⟩

end Tallied

end Loop

end Walker

end Octet
