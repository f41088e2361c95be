import Octet.Proofs.Console.Dialogue
import Octet.Walker

namespace Octet.Walker

section Flow

/-- How a part of a block goes on: a halt leaves out the rest. -/
def andThen (rest : State → Run (Located Fault) (Flow × State)) :
    Flow × State → Run (Located Fault) (Flow × State)
  | (.next, state) => rest state
  | (.halt, state) => pure (.halt, state)

theorem exec_branch (line : Nat) (condition : Expr) (body otherwise rest : Block) (state : State) :
    exec (.branch line condition body otherwise rest) state =
      state.eval line condition >>= fun (v, state) =>
        (if v.isTruthy then exec body state else exec otherwise state) >>=
          andThen (exec rest) := by
  rw [exec]
  refine congrArg _ (funext fun (v, state) => ?_)
  by_cases hz : v.isTruthy = true
  · simp only [if_pos hz]
    refine congrArg _ (funext fun (flow, state) => ?_)
    cases flow <;> rfl
  · simp only [if_neg hz]
    refine congrArg _ (funext fun (flow, state) => ?_)
    cases flow <;> rfl

theorem exec_loop (line : Nat) (condition : Expr) (body rest : Block) (state : State) :
    exec (.loop line condition body rest) state =
      iterate line condition (exec body) loopLimit state >>= andThen (exec rest) := by
  rw [exec]
  refine congrArg _ (funext fun (flow, state) => ?_)
  cases flow <;> rfl

theorem iterate_succ (line : Nat) (condition : Expr)
    (body : State → Run (Located Fault) (Flow × State)) (left : Nat) (state : State) :
    iterate line condition body (left + 1) state =
      state.eval line condition >>= fun (v, state) =>
        if v.isTruthy then
          Run.send .tick >>= fun _ => body state >>= andThen (iterate line condition body left)
        else pure (.next, state) := by
  rw [iterate]
  refine congrArg _ (funext fun (v, state) => ?_)
  by_cases hz : v.isTruthy = true
  · simp only [if_pos hz]
    refine congrArg _ (funext fun _ => congrArg _ (funext fun (flow, state) => ?_))
    cases flow <;> rfl
  · simp only [if_neg hz]

variable {state : State} {line : Nat} {e : Expr} {v : Value} {flags : Flags} {fault : Fault}

theorem eval_of_ok (h : e.eval state.memory state.flags = .ok (v, flags)) :
    state.eval line e = ⟨[], .ok (v, { state with flags })⟩ := by
  rw [State.eval, h]
  rfl

theorem eval_of_error (h : e.eval state.memory state.flags = .error fault) :
    state.eval line e = ⟨[], .error ⟨line, fault⟩⟩ := by
  rw [State.eval, h]
  rfl

theorem exec_input_none (slot : Slot) (rest : Block) (h : state.script.next.1 = none) :
    exec (.input line slot rest) state = ⟨[.read none], .error ⟨line, .input⟩⟩ := by
  rw [exec, Script.read, h]
  rfl

theorem exec_input_some (slot : Slot) (rest : Block) {text : String}
    (h : state.script.next.1 = some text) :
    exec (.input line slot rest) state =
      let after := { state with script := state.script.next.2 }.set slot (.ofInput text)
      ⟨[.read (some text)] ++ (exec rest after).signals, (exec rest after).result⟩ := by
  rw [exec, Script.read, h]
  rfl

end Flow

section Calm

variable {α β : Type}

theorem calm_bind {run : Run (Located Fault) α} {f : α → Run (Located Fault) β}
    (h : Calm run.signals) (hf : ∀ a, Calm (f a).signals) : Calm (run >>= f).signals :=
  Run.Sends.bind h hf

theorem calm_send {signal : Signal} (h : signal.isCalm = true) :
    Calm (Run.send signal : Run (Located Fault) Unit).signals :=
  calm_cons.2 ⟨h, calm_nil⟩

theorem calm_eval (state : State) (line : Nat) (e : Expr) : Calm (state.eval line e).signals :=
  calm_bind calm_nil fun _ => calm_nil

theorem calm_andThen {rest : State → Run (Located Fault) (Flow × State)}
    (h : ∀ state, Calm (rest state).signals) (flow : Flow × State) :
    Calm (andThen rest flow).signals := by
  obtain ⟨flow, state⟩ := flow
  cases flow with
  | next => exact h state
  | halt => exact calm_nil

theorem calm_iterate (line : Nat) (condition : Expr)
    {body : State → Run (Located Fault) (Flow × State)} (h : ∀ state, Calm (body state).signals)
    (left : Nat) (state : State) : Calm (iterate line condition body left state).signals := by
  induction left generalizing state with
  | zero =>
    rw [iterate]
    refine calm_bind (calm_eval _ _ _) fun (v, state) => ?_
    by_cases hz : v.isTruthy = true
    · simp only [if_pos hz]
      exact calm_bind (calm_send rfl) fun _ => calm_nil
    · simp only [if_neg hz]
      exact calm_nil
  | succ left ih =>
    rw [iterate_succ]
    refine calm_bind (calm_eval _ _ _) fun (v, state) => ?_
    by_cases hz : v.isTruthy = true
    · simp only [if_pos hz]
      exact calm_bind (calm_send rfl) fun _ =>
        calm_bind (h state) (calm_andThen ih)
    · simp only [if_neg hz]
      exact calm_nil

/-- A run of the language raises no event. -/
theorem calm_exec (b : Block) (state : State) : Calm (exec b state).signals := by
  induction b generalizing state with
  | done | halt line rest _ => exact calm_nil
  | assign line slot value rest ih =>
    exact calm_bind (calm_eval _ _ _) fun _ => ih _
  | output line value rest ih =>
    exact calm_bind (calm_eval _ _ _) fun _ =>
      calm_bind (calm_send rfl) fun _ => ih _
  | input line slot rest ih =>
    have hr : Calm (state.script.read.atLine line).signals := by
      rw [Script.read]
      cases state.script.next.1 <;> exact calm_send rfl
    exact calm_bind hr fun _ => ih _
  | branch line condition body otherwise rest ihb iho ihr =>
    rw [exec_branch]
    refine calm_bind (calm_eval _ _ _) fun (v, state) => calm_bind ?_ (calm_andThen ihr)
    split
    · exact ihb state
    · exact iho state
  | loop line condition body rest ihb ihr =>
    rw [exec_loop]
    exact calm_bind (calm_iterate line condition ihb loopLimit state) (calm_andThen ihr)

theorem calm_run (program : Block) (memory : Memory) (script : Script) :
    Calm (run program memory script).signals := by
  refine calm_bind (calm_exec _ _) fun (flow, state) => ?_
  cases flow with
  | next => exact calm_bind (calm_send rfl) fun _ => calm_bind (calm_send rfl) fun _ => calm_nil
  | halt => exact calm_bind (calm_send rfl) fun _ => calm_nil

end Calm

end Octet.Walker
