import Octet.Proofs.Machine.Course
import Octet.Proofs.Tree.Lines
import Octet.Proofs.Walker.Flow

namespace Octet

namespace Walker

variable {α β : Type} {lines more : List Nat} {line : Nat} {state : State}
  {run : Run (Located Fault) α}

/-- If a run fails, then on one of some lines. -/
def FailsOn (lines : List Nat) (run : Run (Located Fault) α) : Prop :=
  run.EndsIn (fun _ => True) fun e => e.line ∈ lines

theorem FailsOn.mono (h : FailsOn lines run) (hs : lines ⊆ more) : FailsOn more run := by
  obtain ⟨signals, result⟩ := run
  cases result with
  | ok a => trivial
  | error e => exact hs h

theorem FailsOn.bind {f : α → Run (Located Fault) β} (h : FailsOn lines run)
    (hf : ∀ a, FailsOn lines (f a)) : FailsOn lines (run >>= f) :=
  Run.EndsIn.bind h fun a _ => hf a

theorem failsOn_pure (a : α) : FailsOn lines (pure a : Run (Located Fault) α) := trivial

theorem failsOn_send (signal : Signal) : FailsOn lines (Run.send signal) := trivial

theorem failsOn_atLine (run : Run Fault α) (h : line ∈ lines) :
    FailsOn lines (run.atLine line) := by
  obtain ⟨signals, result⟩ := run
  cases result with
  | ok a => trivial
  | error fault => exact h

theorem failsOn_eval (e : Expr) (state : State) (h : line ∈ lines) :
    FailsOn lines (state.eval line e) :=
  (failsOn_atLine _ h).bind fun _ => failsOn_pure _

theorem failsOn_andThen {rest : State → Run (Located Fault) (Flow × State)}
    (h : ∀ state, FailsOn lines (rest state)) (flow : Flow × State) :
    FailsOn lines (andThen rest flow) := by
  obtain ⟨flow, state⟩ := flow
  cases flow with
  | next => exact h state
  | halt => exact failsOn_pure _

theorem failsOn_iterate (condition : Expr) {body : State → Run (Located Fault) (Flow × State)}
    (hl : line ∈ lines) (hb : ∀ state, FailsOn lines (body state)) (left : Nat) (state : State) :
    FailsOn lines (iterate line condition body left state) := by
  induction left generalizing state with
  | zero =>
    rw [iterate]
    refine (failsOn_eval _ _ hl).bind ?_
    rintro ⟨v, state⟩
    by_cases hz : v.isTruthy = true
    · simp only [if_pos hz]
      exact (failsOn_send _).bind fun _ => hl
    · simp only [if_neg hz]
      exact failsOn_pure _
  | succ left ih =>
    rw [iterate_succ]
    refine (failsOn_eval _ _ hl).bind ?_
    rintro ⟨v, state⟩
    by_cases hz : v.isTruthy = true
    · simp only [if_pos hz]
      exact (failsOn_send _).bind fun _ => (hb state).bind (failsOn_andThen ih)
    · simp only [if_neg hz]
      exact failsOn_pure _

/-- A block fails on the line of one of its statements. -/
theorem failsOn_exec (b : Block) (state : State) : FailsOn b.lines (exec b state) := by
  induction b generalizing state with
  | done | halt line rest _ => exact failsOn_pure _
  | assign line slot value rest ih =>
    exact (failsOn_eval _ _ List.mem_cons_self).bind fun _ =>
      (ih _).mono (List.subset_cons_self ..)
  | output line value rest ih =>
    exact (failsOn_eval _ _ List.mem_cons_self).bind fun _ => (failsOn_send _).bind fun _ =>
      (ih _).mono (List.subset_cons_self ..)
  | input line slot rest ih =>
    exact (failsOn_atLine _ List.mem_cons_self).bind fun _ =>
      (ih _).mono (List.subset_cons_self ..)
  | branch line condition body otherwise rest ihb iho ihr =>
    rw [exec_branch]
    refine (failsOn_eval _ _ List.mem_cons_self).bind fun (v, state) => ?_
    refine FailsOn.bind ?_ (failsOn_andThen fun state => (ihr state).mono ?_)
    · split
      · exact (ihb state).mono fun _ h => by simp [h]
      · exact (iho state).mono fun _ h => by simp [h]
    · exact fun _ h => by simp [h]
  | loop line condition body rest ihb ihr =>
    rw [exec_loop]
    refine (failsOn_iterate condition List.mem_cons_self (fun state => (ihb state).mono ?_)
      loopLimit state).bind (failsOn_andThen fun state => (ihr state).mono ?_)
    · exact fun _ h => by simp [h]
    · exact fun _ h => by simp [h]

/-- A program fails on the line of one of its statements. -/
theorem failsOn_run (program : Block) (memory : Memory) (script : Script) :
    FailsOn program.lines (Walker.run program memory script) := by
  refine (failsOn_exec _ _).bind fun (flow, state) => ?_
  cases flow with
  | next => exact (failsOn_send _).bind fun _ => (failsOn_send _).bind fun _ => failsOn_pure _
  | halt => exact (failsOn_send _).bind fun _ => failsOn_pure _

end Walker

end Octet
