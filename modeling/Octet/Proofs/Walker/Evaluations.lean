import Octet.Proofs.Flags.Calls
import Octet.Proofs.Walker.Flow

namespace Octet.Walker

/-- An evaluation from a state, and what is evaluated behind it unless it fails. -/
def State.evaluating (state : State) (e : Expr) (rest : Value → State → List (State × Expr)) :
    List (State × Expr) :=
  (state, e) ::
    match e.eval state.memory state.flags with
    | .ok (v, flags) => rest v { state with flags }
    | .error _ => []

/-- What is evaluated behind a part of a block, unless a fault or a halt leaves it out. -/
def behind (run : Run (Located Fault) (Flow × State)) (rest : State → List (State × Expr)) :
    List (State × Expr) :=
  match run.result with
  | .ok (.next, state) => rest state
  | _ => []

/-- What a loop evaluates, by what its body does and evaluates. -/
def iterateEvaluations (condition : Expr) (body : State → Run (Located Fault) (Flow × State))
    (bodyEvaluations : State → List (State × Expr)) : Nat → State → List (State × Expr)
  | 0, state => state.evaluating condition fun _ _ => []
  | left + 1, state => state.evaluating condition fun v state =>
    if v.isTruthy then
      bodyEvaluations state ++
        behind (body state) (iterateEvaluations condition body bodyEvaluations left)
    else []

/-- The expressions that are evaluated while a block is run from a state, each with the state that
it is evaluated in. -/
def evaluations : Block → State → List (State × Expr)
  | .done, _ | .halt _ _, _ => []
  | .assign _ slot value rest, state =>
    state.evaluating value fun v state => evaluations rest (state.set slot v)
  | .output _ value rest, state => state.evaluating value fun _ state => evaluations rest state
  | .input _ slot rest, state =>
    match state.script.read.result with
    | .ok (v, script) => evaluations rest ({ state with script }.set slot v)
    | .error _ => []
  | .branch _ condition body otherwise rest, state => state.evaluating condition fun v state =>
    (if v.isTruthy then evaluations body state else evaluations otherwise state) ++
      behind (if v.isTruthy then exec body state else exec otherwise state) (evaluations rest)
  | .loop line condition body rest, state =>
    iterateEvaluations condition (exec body) (evaluations body) loopLimit state ++
      behind (iterate line condition (exec body) loopLimit state) (evaluations rest)

/-- The calls of the arithmetic unit for some evaluations. -/
def calls (evaluations : List (State × Expr)) : List Call :=
  evaluations.flatMap fun (state, e) => e.calls state.memory state.flags

theorem isInt64_of_mem_calls {evaluations : List (State × Expr)} {call : Call}
    (h : call ∈ calls evaluations) :
    Text.isInt64 call.left = true ∧ Text.isInt64 call.right = true := by
  obtain ⟨⟨state, e⟩, -, hc⟩ := List.mem_flatMap.1 h
  exact e.isInt64_of_mem_calls hc

/-- A run that has a result hands the carry from one call to the next and on to its last state. -/
def Chains (carry : Bool) (evaluations : List (State × Expr))
    (run : Run (Located Fault) (Flow × State)) : Prop :=
  ∀ flow next, run.result = .ok (flow, next) → Chained carry (calls evaluations) next.flags.carry

section Chains

variable {carry : Bool} {state : State} {seen more : List (State × Expr)}
  {run : Run (Located Fault) (Flow × State)} {rest : State → Run (Located Fault) (Flow × State)}

theorem chains_pure (flow : Flow) (state : State) :
    Chains state.flags.carry [] (pure (flow, state)) := by
  intro flow next hr
  cases hr
  exact .nil

theorem Chains.evaluating {rest : Value × State → Run (Located Fault) (Flow × State)}
    {more : Value → State → List (State × Expr)} (line : Nat) (e : Expr)
    (h : ∀ v next, Chains next.flags.carry (more v next) (rest (v, next))) :
    Chains state.flags.carry (state.evaluating e more) (state.eval line e >>= rest) := by
  intro flow next hr
  rw [State.evaluating]
  cases he : e.eval state.memory state.flags with
  | error fault =>
    rw [eval_of_error he] at hr
    cases hr
  | ok p =>
    obtain ⟨v, flags⟩ := p
    rw [eval_of_ok he] at hr
    exact (e.chained_eval he).append (h v _ flow next hr)

theorem Chains.behind {more : State → List (State × Expr)} (h : Chains carry seen run)
    (hr : ∀ state, Chains state.flags.carry (more state) (rest state)) :
    Chains carry (seen ++ behind run more) (run >>= andThen rest) := by
  intro flow next hb
  rw [calls, List.flatMap_append]
  obtain ⟨signals, fault | ⟨reached, middle⟩⟩ := run
  · cases hb
  cases reached with
  | next => exact (h .next middle rfl).append (hr middle flow next hb)
  | halt =>
    cases hb
    exact (h .halt next rfl).append .nil

theorem chains_iterate (line : Nat) (condition : Expr)
    {body : State → Run (Located Fault) (Flow × State)}
    {bodyEvaluations : State → List (State × Expr)}
    (h : ∀ state, Chains state.flags.carry (bodyEvaluations state) (body state)) (left : Nat)
    (state : State) :
    Chains state.flags.carry (iterateEvaluations condition body bodyEvaluations left state)
      (iterate line condition body left state) := by
  induction left generalizing state with
  | zero =>
    rw [iterate, iterateEvaluations]
    refine .evaluating line condition fun v state flow next hr => ?_
    by_cases hz : v.isTruthy = true
    · simp only [if_pos hz] at hr
      cases hr
    · simp only [if_neg hz] at hr
      cases hr
      exact .nil
  | succ left ih =>
    rw [iterate_succ, iterateEvaluations]
    refine .evaluating line condition fun v state => ?_
    by_cases hz : v.isTruthy = true
    · simp only [if_pos hz]
      exact (h state).behind ih
    · simp only [if_neg hz]
      exact chains_pure .next state

/-- A block that comes to its end hands the carry through all calls of the arithmetic unit. -/
theorem chains_exec (b : Block) (state : State) :
    Chains state.flags.carry (evaluations b state) (exec b state) := by
  induction b generalizing state with
  | done => exact chains_pure .next state
  | halt => exact chains_pure .halt state
  | assign line slot value rest ih => exact .evaluating line value fun v state => ih _
  | output line value rest ih => exact .evaluating line value fun v state => ih state
  | input line slot rest ih =>
    intro flow next hr
    cases hs : state.script.next.1 with
    | none =>
      rw [exec_input_none slot rest hs] at hr
      cases hr
    | some text =>
      have hread : state.script.read.result = .ok (.ofInput text, state.script.next.2) := by
        rw [Script.read, hs]
        rfl
      rw [exec_input_some slot rest hs] at hr
      simp only [evaluations, hread]
      exact ih _ flow next hr
  | branch line condition body otherwise rest ihb iho ihr =>
    rw [exec_branch, evaluations]
    refine .evaluating line condition fun v state => ?_
    by_cases hz : v.isTruthy = true
    · simp only [if_pos hz]
      exact (ihb state).behind ihr
    · simp only [if_neg hz]
      exact (iho state).behind ihr
  | loop line condition body rest ihb ihr =>
    rw [exec_loop, evaluations]
    exact (chains_iterate line condition ihb loopLimit state).behind ihr

end Chains

end Octet.Walker
