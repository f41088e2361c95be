import Octet.Proofs.Walker.Rounds

namespace Octet.Walker

/-- The run of a block from a state comes to a loop, at any depth: what has been signalled by then,
and the state in which the loop is begun. -/
inductive Invokes : Block → State → List Signal → Loop → State → Prop
  | here {line : Nat} {condition : Expr} {body rest : Block} {state : State} :
      Invokes (.loop line condition body rest) state [] ⟨line, condition, body⟩ state
  | assign {line : Nat} {slot : Slot} {value : Expr} {rest : Block} {state entry : State}
      {v : Value} {flags : Flags} {before : List Signal} {loop : Loop}
      (eval : value.eval state.memory state.flags = .ok (v, flags))
      (h : Invokes rest ({ state with flags }.set slot v) before loop entry) :
      Invokes (.assign line slot value rest) state before loop entry
  | output {line : Nat} {value : Expr} {rest : Block} {state entry : State} {v : Value}
      {flags : Flags} {before : List Signal} {loop : Loop}
      (eval : value.eval state.memory state.flags = .ok (v, flags))
      (h : Invokes rest { state with flags } before loop entry) :
      Invokes (.output line value rest) state (.display v.display :: before) loop entry
  | input {line : Nat} {slot : Slot} {rest : Block} {state entry : State} {text : String}
      {before : List Signal} {loop : Loop} (read : state.script.next.1 = some text)
      (h : Invokes rest ({ state with script := state.script.next.2 }.set slot (.ofInput text))
        before loop entry) :
      Invokes (.input line slot rest) state (.read (some text) :: before) loop entry
  | branch {line : Nat} {condition : Expr} {body otherwise rest : Block} {holds : Bool}
      {state begun entry : State} {before : List Signal} {loop : Loop}
      (check : state.test condition = .ok (holds, begun))
      (h : Invokes (if holds then body else otherwise) begun before loop entry) :
      Invokes (.branch line condition body otherwise rest) state before loop entry
  | afterBranch {line : Nat} {condition : Expr} {body otherwise rest : Block} {holds : Bool}
      {state begun next entry : State} {signals before : List Signal} {loop : Loop}
      (check : state.test condition = .ok (holds, begun))
      (runs : exec (if holds then body else otherwise) begun = ⟨signals, .ok (.next, next)⟩)
      (h : Invokes rest next before loop entry) :
      Invokes (.branch line condition body otherwise rest) state (signals ++ before) loop entry
  | inside {line k : Nat} {condition : Expr} {body rest : Block} {state last begun entry : State}
      {signals before : List Signal} {loop : Loop}
      (rounds : Loop.Rounds ⟨line, condition, body⟩ k state signals last) (hk : k < loopLimit)
      (check : last.test condition = .ok (true, begun))
      (h : Invokes body begun before loop entry) :
      Invokes (.loop line condition body rest) state (signals ++ .tick :: before) loop entry
  | afterLoop {line : Nat} {condition : Expr} {body rest : Block} {state next entry : State}
      {signals before : List Signal} {loop : Loop}
      (runs : Loop.run ⟨line, condition, body⟩ state = ⟨signals, .ok (.next, next)⟩)
      (h : Invokes rest next before loop entry) :
      Invokes (.loop line condition body rest) state (signals ++ before) loop entry

/-- What stops a part stops the whole. -/
theorem bind_andThen_of_stopped {run : Run (Located Fault) (Flow × State)}
    (stops : Stopped run.result) (rest : State → Run (Located Fault) (Flow × State)) :
    run >>= andThen rest = run := by
  obtain ⟨signals, e | ⟨flow, state⟩⟩ := run
  · rfl
  cases flow with
  | next => exact absurd rfl (stops state)
  | halt => exact congrArg (Run.mk · _) (List.append_nil signals)

theorem exec_branch_of_test {line : Nat} {condition : Expr} {body otherwise rest : Block}
    {holds : Bool} {state begun : State} (check : state.test condition = .ok (holds, begun)) :
    exec (.branch line condition body otherwise rest) state =
      exec (if holds then body else otherwise) begun >>= andThen (exec rest) := by
  obtain ⟨v, he, rfl⟩ := eval_of_test check line
  rw [exec_branch, he, Run.bind_of_ok rfl]
  by_cases hz : v.isTruthy = true
  · simp only [if_pos hz, List.nil_append]
  · simp only [if_neg hz, List.nil_append]

/-- Where a loop that is come to is stopped, the whole run is, and signals nothing more. -/
theorem Invokes.exec_of_stopped {b : Block} {state entry : State} {before : List Signal}
    {loop : Loop} (h : Invokes b state before loop entry)
    (stops : Stopped (loop.run entry).result) :
    exec b state = ⟨before ++ (loop.run entry).signals, (loop.run entry).result⟩ := by
  induction h with
  | @here line condition body rest state =>
    rw [exec_loop]
    exact bind_andThen_of_stopped stops (exec rest)
  | assign eval _ ih =>
    rw [exec, eval_of_ok eval, Run.bind_of_ok rfl]
    simp only [ih stops, List.nil_append]
  | output eval _ ih =>
    rw [exec, eval_of_ok eval, Run.bind_of_ok rfl]
    simp only [Run.send, bind, Run.bind, ih stops]
    rfl
  | input read _ ih =>
    rw [exec_input_some _ _ read]
    simp only [ih stops]
    rfl
  | branch check _ ih =>
    rw [exec_branch_of_test check, ih stops]
    apply bind_andThen_of_stopped
    exact stops
  | afterBranch check runs _ ih =>
    rw [exec_branch_of_test check, runs, Run.bind_of_ok rfl]
    simp only [andThen, ih stops, List.append_assoc]
  | inside rounds hk check _ ih =>
    have hrun := Loop.run_of_ends (.stopped rounds check (ih stops) stops) hk
    rw [Loop.run] at hrun
    rw [exec_loop, hrun, List.append_assoc, List.cons_append]
    apply bind_andThen_of_stopped
    exact stops
  | afterLoop runs _ ih =>
    rw [Loop.run] at runs
    rw [exec_loop, runs, Run.bind_of_ok rfl]
    simp only [andThen, ih stops, List.append_assoc]

/-- What a loop that is come to signals, the whole run signals. -/
theorem Invokes.isPrefix_exec {b : Block} {state entry : State} {before : List Signal} {loop : Loop}
    (h : Invokes b state before loop entry) :
    before ++ (loop.run entry).signals <+: (exec b state).signals := by
  induction h with
  | @here line condition body rest state =>
    rw [exec_loop]
    exact Run.isPrefix_bind ..
  | assign eval _ ih =>
    rw [exec, eval_of_ok eval, Run.bind_of_ok rfl]
    exact ih
  | output eval _ ih =>
    rw [exec, eval_of_ok eval, Run.bind_of_ok rfl]
    exact (List.prefix_cons_inj _).2 ih
  | input read _ ih =>
    rw [exec_input_some _ _ read]
    exact (List.prefix_cons_inj _).2 ih
  | branch check _ ih =>
    rw [exec_branch_of_test check]
    exact ih.trans (Run.isPrefix_bind ..)
  | afterBranch check runs _ ih =>
    rw [exec_branch_of_test check, runs, Run.bind_of_ok rfl, List.append_assoc]
    exact (List.prefix_append_right_inj _).2 ih
  | inside rounds hk check _ ih =>
    rw [exec_loop, List.append_assoc, List.cons_append]
    refine .trans ?_ ((Loop.isPrefix_run rounds hk check).trans (Run.isPrefix_bind ..))
    exact (List.prefix_append_right_inj _).2 ((List.prefix_cons_inj _).2 ih)
  | afterLoop runs _ ih =>
    rw [Loop.run] at runs
    rw [exec_loop, runs, Run.bind_of_ok rfl, List.append_assoc]
    exact (List.prefix_append_right_inj _).2 ih

theorem run_of_error {program : Block} {memory : Memory} {script : Script} {signals : List Signal}
    {e : Located Fault} (h : exec program ⟨memory, .clear, script⟩ = ⟨signals, .error e⟩) :
    Walker.run program memory script = ⟨signals, .error e⟩ := by
  rw [Walker.run, h]
  rfl

/-- The limit of a loop is exact, and it is the loop's own each time it is come to, in any state.
A loop that ends in so many bodies, if nothing limits it, ends so. If its condition would hold once
more, it overheats. There is nothing else that it can do. All that it signals, the program signals
behind what has been signalled before, and where it fails, the program fails. -/
theorem Loop.tallied_loopLimit (loop : Loop) (entry : State) :
    let tallied := loop.tallied loopLimit entry
    let overheated (signals : List Signal) : Run (Located Fault) (Flow × State) :=
      ⟨signals ++ [.note (.loopOverheated loop.line)], .error ⟨loop.line, .overheat loopLimit⟩⟩
    tallied.run = loop.run entry ∧
    (∀ tally outcome, loop.Ends entry tally outcome → tally.bodies ≤ loopLimit →
      tallied = ⟨outcome, tally⟩) ∧
    (∀ signals last begun, loop.Rounds loopLimit entry signals last →
      last.test loop.condition = .ok (true, begun) →
      tallied = ⟨overheated signals, ⟨loopLimit + 1, loopLimit⟩⟩) ∧
    (∀ k signals last, loop.Rounds k entry signals last → loopLimit < k →
      ∃ seen, tallied = ⟨overheated seen, ⟨loopLimit + 1, loopLimit⟩⟩) ∧
    ((∃ tally outcome, tally.bodies ≤ loopLimit ∧ loop.Ends entry tally outcome) ∨
      ∃ signals last begun, loop.Rounds loopLimit entry signals last ∧
        last.test loop.condition = .ok (true, begun)) ∧
    (∀ program start before, Invokes program start before loop entry →
      before ++ (loop.run entry).signals <+: (exec program start).signals) ∧
    ∀ program memory script before e,
      Invokes program ⟨memory, .clear, script⟩ before loop entry →
      (loop.run entry).result = .error e →
      Walker.run program memory script = ⟨before ++ (loop.run entry).signals, .error e⟩ := by
  intro tallied overheated
  refine ⟨loop.run_tallied loopLimit entry, fun _ _ => tallied_of_ends,
    fun _ _ _ => tallied_of_beyond, ?_, loop.ends_or_beyond loopLimit entry,
    fun _ _ _ h => h.isPrefix_exec, ?_⟩
  · intro k signals last h hk
    obtain ⟨seen, mid, begun, hr, hc⟩ := h.exists_beyond hk
    exact ⟨seen, tallied_of_beyond hr hc⟩
  · intro program memory script before e h he
    have stops : Stopped (loop.run entry).result := by
      rw [he]
      nofun
    apply run_of_error
    rw [h.exec_of_stopped stops, he]

end Octet.Walker
