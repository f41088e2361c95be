import Octet.Machine

namespace Octet

/-- The same on the line that a new count gives to its line. -/
def Located.renumber {α : Type} (count : Nat → Nat) (a : Located α) : Located α :=
  ⟨count a.line, a.val⟩

/-- The same program with its lines counted anew. -/
def Program.renumber (count : Nat → Nat) (program : Program) : Program :=
  { program with instructions := program.instructions.map (Located.renumber count) }

namespace Run

variable {ε δ α β : Type}

theorem mapError_bind (f : ε → δ) (run : Run ε α) (next : α → Run ε β) :
    (run >>= next).mapError f = run.mapError f >>= fun a => (next a).mapError f := by
  obtain ⟨signals, result⟩ := run
  cases result <;> rfl

theorem atLine_renumber (count : Nat → Nat) (line : Nat) (run : Run ε α) :
    run.atLine (count line) = (run.atLine line).mapError (Located.renumber count) := by
  obtain ⟨signals, result⟩ := run
  cases result <;> rfl

end Run

namespace Machine

variable (count : Nat → Nat) (program : Program)

/-- No step looks at a line. -/
theorem step_renumber (instruction : Instruction) (state : State) :
    step (program.renumber count) instruction state = step program instruction state :=
  rfl

theorem fetch_renumber (pc : Nat) : (program.renumber count).instructions[pc]? =
    program.instructions[pc]?.map (Located.renumber count) :=
  Array.getElem?_map

/-- Lines are only told in faults, so a machine whose lines are counted anew runs alike. -/
theorem runFrom_renumber (h : count 0 = 0) (left pc : Nat) (state : State) :
    runFrom (program.renumber count) left pc state =
      (runFrom program left pc state).mapError (Located.renumber count) := by
  induction left generalizing pc state with
  | zero =>
    unfold runFrom
    rw [fetch_renumber]
    cases program.instructions[pc]? with
    | none => rfl
    | some instruction =>
      have hf : (Run.fail (.unplaced (.overheat stepLimit)) : Run (Located Fault) Memory) =
          (Run.fail (.unplaced (.overheat stepLimit))).mapError (Located.renumber count) := by
        change _ = (⟨[], .error ⟨count 0, _⟩⟩ : Run (Located Fault) Memory)
        rw [h]
        rfl
      simp only [Option.map_some, Run.mapError_bind]
      rw [← hf]
      rfl
  | succ left ih =>
    unfold runFrom
    rw [fetch_renumber]
    cases program.instructions[pc]? with
    | none => rfl
    | some instruction =>
      simp only [Option.map_some, Run.mapError_bind, step_renumber, Located.renumber,
        ← Run.atLine_renumber]
      refine bind_congr fun _ => bind_congr fun _ => bind_congr fun executed => ?_
      obtain ⟨control, next⟩ := executed
      cases control with
      | next | jump target => exact ih ..
      | halt => rfl

theorem run_renumber (h : count 0 = 0) (registers : Memory) (script : Script) :
    run (program.renumber count) registers script =
      (run program registers script).mapError (Located.renumber count) :=
  runFrom_renumber count program h ..

end Machine

end Octet
