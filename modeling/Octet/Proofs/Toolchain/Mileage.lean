import Octet.Proofs.Console.Pace
import Octet.Proofs.Machine.Course
import Octet.Proofs.Walker.Flow

namespace Octet

namespace Walker

/-- Runs a body like `iterate`, and counts each time that the body begins instead of turning an
odometer. -/
def pacedIterate (line : Nat) (condition : Expr)
    (body : State → Paced (Located Fault) (Flow × State)) :
    Nat → State → Paced (Located Fault) (Flow × State)
  | 0, state => do
    let (v, state) ← state.eval line condition
    if v.isTruthy then
      Paced.send (.note (.loopOverheated line))
      Paced.fail ⟨line, .overheat loopLimit⟩
    else return (.next, state)
  | left + 1, state => do
    let (v, state) ← state.eval line condition
    if v.isTruthy then
      Paced.count
      let (flow, state) ← body state
      match flow with
      | .next => pacedIterate line condition body left state
      | .halt => return (.halt, state)
    else return (.next, state)

def pacedExec : Block → State → Paced (Located Fault) (Flow × State)
  | .done, state => return (.next, state)
  | .halt _ _, state => return (.halt, state)
  | .assign line slot value rest, state => do
    let (v, state) ← state.eval line value
    pacedExec rest (state.set slot v)
  | .output line value rest, state => do
    let (v, state) ← state.eval line value
    Paced.send (.display v.display)
    pacedExec rest state
  | .input line slot rest, state => do
    let (v, script) ← state.script.read.atLine line
    pacedExec rest ({ state with script }.set slot v)
  | .branch line condition body otherwise rest, state => do
    let (v, state) ← state.eval line condition
    let (flow, state) ← if v.isTruthy then pacedExec body state else pacedExec otherwise state
    match flow with
    | .next => pacedExec rest state
    | .halt => return (.halt, state)
  | .loop line condition body rest, state => do
    let (flow, state) ← pacedIterate line condition (pacedExec body) loopLimit state
    match flow with
    | .next => pacedExec rest state
    | .halt => return (.halt, state)

/-- Runs a program without an odometer. -/
def paced (program : Block) (memory : Memory) (script : Script) :
    Paced (Located Fault) Memory := do
  let (flow, state) ← pacedExec program ⟨memory, .clear, script⟩
  match flow with
  | .halt => Paced.send (.note .halted)
  | .next =>
    Paced.send (.note .ended)
    Paced.send (.print endNotice)
  return state.memory

theorem paced_eval (state : State) (line : Nat) (e : Expr) :
    (state.eval line e).paced = liftM (state.eval line e) := by
  have hs : (state.eval line e).Sends (· ≠ .tick) :=
    Run.Sends.bind nofun fun _ => Run.sends_pure _
  apply paced_of_notMem
  intro h
  exact hs _ h rfl

theorem paced_iterate (line : Nat) (condition : Expr)
    {body : State → Run (Located Fault) (Flow × State)}
    {other : State → Paced (Located Fault) (Flow × State)}
    (h : ∀ state, (body state).paced = other state) (left : Nat) (state : State) :
    (iterate line condition body left state).paced =
      pacedIterate line condition other left state := by
  induction left generalizing state with
  | zero =>
    rw [iterate, pacedIterate]
    apply paced_bind_eq (paced_eval ..)
    rintro ⟨v, state⟩
    by_cases hz : v.isTruthy = true
    · simp only [if_pos hz]
      rfl
    · simp only [if_neg hz]
      rfl
  | succ left ih =>
    rw [iterate, pacedIterate]
    apply paced_bind_eq (paced_eval ..)
    rintro ⟨v, state⟩
    by_cases hz : v.isTruthy = true
    · simp only [if_pos hz]
      apply paced_bind_eq paced_tick
      intro
      apply paced_bind_eq (h state)
      rintro ⟨flow, state⟩
      cases flow with
      | next => exact ih state
      | halt => rfl
    · simp only [if_neg hz]
      rfl

theorem paced_exec (b : Block) (state : State) : (exec b state).paced = pacedExec b state := by
  induction b generalizing state with
  | done | halt line rest _ => rfl
  | assign line slot value rest ih =>
    apply paced_bind_eq (paced_eval ..)
    rintro ⟨v, state⟩
    exact ih _
  | output line value rest ih =>
    apply paced_bind_eq (paced_eval ..)
    rintro ⟨v, state⟩
    apply paced_bind_eq rfl
    intro
    exact ih _
  | input line slot rest ih =>
    have hr : (state.script.read.atLine line).Sends (· ≠ .tick) := by
      unfold Script.read
      cases state.script.next.1 <;> exact List.forall_mem_singleton.2 nofun
    apply paced_bind_eq (paced_of_notMem fun h => hr _ h rfl)
    rintro ⟨v, script⟩
    exact ih _
  | branch line condition body otherwise rest ihb iho ihr =>
    rw [exec, pacedExec]
    apply paced_bind_eq (paced_eval ..)
    rintro ⟨v, state⟩
    by_cases hz : v.isTruthy = true
    · simp only [if_pos hz]
      apply paced_bind_eq (ihb state)
      rintro ⟨flow, state⟩
      cases flow with
      | next => exact ihr state
      | halt => rfl
    · simp only [if_neg hz]
      apply paced_bind_eq (iho state)
      rintro ⟨flow, state⟩
      cases flow with
      | next => exact ihr state
      | halt => rfl
  | loop line condition body rest ihb ihr =>
    rw [exec, pacedExec]
    apply paced_bind_eq (paced_iterate line condition ihb loopLimit state)
    rintro ⟨flow, state⟩
    cases flow with
    | next => exact ihr state
    | halt => rfl

theorem paced_run (program : Block) (memory : Memory) (script : Script) :
    (run program memory script).paced = paced program memory script := by
  apply paced_bind_eq (paced_exec _ _)
  rintro ⟨flow, state⟩
  cases flow <;> rfl

end Walker

namespace Machine

/-- Runs on like `runFrom`, and counts each instruction that is fetched instead of turning an
odometer. -/
def pacedFrom (program : Program) : Nat → Nat → State → Paced (Located Fault) Memory
  | left, pc, state =>
    match program.instructions[pc]? with
    | none => do
      Paced.send (.note (.machineEnded (stepLimit - left)))
      Paced.send (.print endNotice)
      return state.registers
    | some instruction => do
      Paced.count
      match left with
      | 0 =>
        Paced.send (.note (.machineOverheated pc))
        Paced.fail (.unplaced (.overheat stepLimit))
      | left + 1 =>
        Paced.send (.note (.fetched pc instruction.val))
        let (control, state) ← (step program instruction.val state).atLine instruction.line
        match control with
        | .next => pacedFrom program left (pc + 1) state
        | .jump target => pacedFrom program left target state
        | .halt =>
          Paced.send (.note (.machineHalted (stepLimit - left)))
          return state.registers

/-- Runs a program without an odometer. -/
def paced (program : Program) (registers : Memory) (script : Script) :
    Paced (Located Fault) Memory :=
  pacedFrom program stepLimit 0 ⟨registers, .empty, .clear, script⟩

theorem sends_runFrom (program : Program) {e : Event} (he : e = .restless ∨ e = .suffering)
    (left pc : Nat) (state : State) : (runFrom program left pc state).Sends (· ≠ .event e) := by
  have hstep : ∀ (instruction : Located Instruction) (state : State),
      ((step program instruction.val state).atLine instruction.line).Sends (· ≠ .event e) := by
    rintro instruction state signal hs rfl
    obtain ⟨hr, hf⟩ := sends_step program instruction.val state _ hs
    obtain rfl | rfl := he
    · exact hr rfl
    · exact hf rfl
  have htick : (Run.send .tick : Run (Located Fault) Unit).Sends (· ≠ .event e) :=
    Run.sends_send (by simp)
  have hnote : ∀ n, (Run.send (.note n) : Run (Located Fault) Unit).Sends (· ≠ .event e) :=
    fun n => Run.sends_send (by simp)
  have hended : (Run.send (.print endNotice) : Run (Located Fault) Unit).Sends (· ≠ .event e) :=
    Run.sends_send (by simp)
  induction left generalizing pc state with
  | zero =>
    rw [runFrom]
    split
    · exact .bind (hnote _) fun _ => .bind hended fun _ => Run.sends_pure _
    · exact .bind htick fun _ => .bind (hnote _) fun _ => List.forall_mem_nil _
  | succ left ih =>
    rw [runFrom]
    split
    · exact .bind (hnote _) fun _ => .bind hended fun _ => Run.sends_pure _
    · next instruction _ =>
      refine .bind htick fun _ => .bind (hnote _) fun _ =>
        .bind (hstep instruction state) ?_
      rintro ⟨control, state⟩
      cases control with
      | next => exact ih (pc + 1) state
      | jump target => exact ih target state
      | halt => exact .bind (hnote _) fun _ => Run.sends_pure _

theorem paced_runFrom (program : Program) (left pc : Nat) (state : State) :
    (runFrom program left pc state).paced = pacedFrom program left pc state := by
  have hstep : ∀ (instruction : Located Instruction) (state : State),
      ((step program instruction.val state).atLine instruction.line).paced =
        liftM ((step program instruction.val state).atLine instruction.line) := by
    intro instruction state
    apply paced_of_notMem
    intro h
    exact sends_step program instruction.val state _ h
  induction left generalizing pc state with
  | zero =>
    rw [runFrom, pacedFrom]
    cases program.instructions[pc]? with
    | none => rfl
    | some instruction => rfl
  | succ left ih =>
    rw [runFrom, pacedFrom]
    cases program.instructions[pc]? with
    | none => rfl
    | some instruction =>
      apply paced_bind_eq paced_tick
      intro
      apply paced_bind_eq rfl
      intro
      apply paced_bind_eq (hstep instruction state)
      rintro ⟨control, state⟩
      cases control with
      | next => exact ih (pc + 1) state
      | jump target => exact ih target state
      | halt => rfl

end Machine

/-- One of the two engines with a program for it. -/
inductive Engine
  | walker (program : Block)
  | machine (program : Program)

namespace Engine

def run : Engine → Memory → Script → Run (Located Fault) Memory
  | walker program => Walker.run program
  | machine program => Machine.run program

/-- The same run without an odometer. It counts the bodies of loops that are begun, or the
instructions that are fetched. -/
def pace : Engine → Memory → Script → Pace (Located Fault) Memory
  | walker program, memory, script => Walker.paced program memory script 0
  | machine program, memory, script => Machine.paced program memory script 0

theorem pace_eq (engine : Engine) (memory : Memory) (script : Script) :
    engine.pace memory script = (engine.run memory script).paced 0 := by
  cases engine with
  | walker program => exact (congrFun (Walker.paced_run program memory script) 0).symm
  | machine program => exact (congrFun (Machine.paced_runFrom program _ _ _) 0).symm

/-- No engine says on its own what the odometer says. -/
theorem sends_run (engine : Engine) (memory : Memory) (script : Script) {e : Event}
    (he : e = .restless ∨ e = .suffering) : (engine.run memory script).Sends (· ≠ .event e) := by
  cases engine with
  | walker program =>
    rintro _ hs rfl
    exact absurd (Walker.calm_run program memory script _ hs) nofun
  | machine program => exact Machine.sends_runFrom program he _ _ _

/-- A run tells of the odometer as it comes to 1024 and to 4096, each time once, before anything
that is done there. Without these entries its log is that of the run without an odometer. -/
theorem log_of_pace (engine : Engine) (memory : Memory) (script : Script) :
    let run := engine.run memory script
    let pace := engine.pace memory script
    run.result = pace.result ∧
    run.log = pace.during (· < 1024) ++ (if 1024 ≤ pace.total then restless else []) ++
      pace.during (fun n => 1024 ≤ n && n < 4096) ++
      (if 4096 ≤ pace.total then suffering else []) ++ pace.during (4096 ≤ ·) ∧
    pace.log = pace.during (· < 1024) ++ pace.during (fun n => 1024 ≤ n && n < 4096) ++
      pace.during (4096 ≤ ·) ∧
    run.log.count (.event .restless) = (if 1024 ≤ pace.total then 1 else 0) ∧
    run.log.count (.event .suffering) = (if 4096 ≤ pace.total then 1 else 0) := by
  intro run pace
  have hpace : pace = run.paced 0 := pace_eq engine memory script
  have htotal : pace.total = 0 + ticks run.signals := congrArg Pace.total hpace
  have hentries : pace.entries = Screen.blank.entries (stamps 0 run.signals) :=
    congrArg Pace.entries hpace
  have hlog : run.log = interject 0 pace.total pace.entries := by
    rw [hentries, htotal]
    exact transcript_eq .blank 0 run.signals
  have hplain : pace.log = interject 0 0 pace.entries := by
    rw [Pace.log, hentries]
    exact map_entries_eq .blank 0 run.signals
  have hcount : ∀ e : Event, e = .restless ∨ e = .suffering → ∀ p,
      (pace.during p).count (.event e) = 0 := by
    intro e he p
    apply List.count_eq_zero.2
    intro hm
    obtain ⟨⟨n, entry⟩, hm, rfl⟩ := List.mem_map.1 hm
    rw [hentries] at hm
    have hs := event_mem_of_mem_entries (List.mem_filter.1 hm).1
    exact sends_run engine memory script he _ (le_of_mem_stamps hs).2 rfl
  have hparts : run.log = pace.during (· < 1024) ++ (if 1024 ≤ pace.total then restless else []) ++
      pace.during (fun n => 1024 ≤ n && n < 4096) ++
      (if 4096 ≤ pace.total then suffering else []) ++ pace.during (4096 ≤ ·) := by
    rw [hlog]
    simp [interject, Pace.during]
  refine ⟨congrArg Pace.result hpace.symm, hparts, hplain.trans (interject_self ..), ?_, ?_⟩
  · rw [hparts]
    simp only [List.count_append, hcount _ (.inl rfl)]
    split <;> split <;> rfl
  · rw [hparts]
    simp only [List.count_append, hcount _ (.inr rfl)]
    split <;> split <;> rfl

end Engine

end Octet
