import Octet.Proofs.Console.Pace
import Octet.Proofs.Machine.Course

namespace Octet.Machine

/-- How the machine stops if nothing limits its steps: behind its last instruction, at a halt or at
an instruction that fails. -/
inductive Stop
  | ended (registers : Memory)
  | halted (registers : Memory)
  | failed (line : Nat) (fault : Fault)

namespace Stop

def result : Stop → Except (Located Fault) Memory
  | ended registers | halted registers => .ok registers
  | failed line fault => .error ⟨line, fault⟩

/-- What is left in the log at the end, behind what the instructions have left there. -/
def remarks (executed : Nat) : Stop → List Entry
  | ended _ => [.note (.machineEnded executed), .output endNotice]
  | halted _ => [.note (.machineHalted executed)]
  | failed _ _ => []

end Stop

/-- From a position on, the machine executes so many instructions if nothing limits them. The one
that halts or fails counts. -/
inductive Stops (program : Program) (pc : Nat) (state : State) : Nat → List Signal → Stop → Prop
  | ended {n last : Nat} {final : State} {signals : List Signal}
      (steps : Steps program n pc state signals last final)
      (fetched : program.instructions[last]? = none) :
      Stops program pc state n signals (.ended final.registers)
  | halted {n last : Nat} {final next : State} {signals more : List Signal}
      {instruction : Located Instruction} (steps : Steps program n pc state signals last final)
      (fetched : program.instructions[last]? = some instruction)
      (executed : step program instruction.val final = ⟨more, .ok (.halt, next)⟩) :
      Stops program pc state (n + 1)
        (signals ++ .tick :: .note (.fetched last instruction.val) :: more)
        (.halted next.registers)
  | failed {n last : Nat} {final : State} {signals more : List Signal}
      {instruction : Located Instruction} {fault : Fault}
      (steps : Steps program n pc state signals last final)
      (fetched : program.instructions[last]? = some instruction)
      (executed : step program instruction.val final = ⟨more, .error fault⟩) :
      Stops program pc state (n + 1)
        (signals ++ .tick :: .note (.fetched last instruction.val) :: more)
        (.failed instruction.line fault)

section Stops

variable {program : Program} {n left pc target last : Nat} {state next final : State}
  {instruction : Located Instruction} {control : Control} {signals more : List Signal} {stop : Stop}

/-- Where the machine goes on, it stops as it does from there. -/
theorem Stops.head (fetched : program.instructions[pc]? = some instruction)
    (executed : step program instruction.val state = ⟨more, .ok (control, next)⟩)
    (goes : control.target? pc = some target) (h : Stops program target next n signals stop) :
    Stops program pc state (n + 1)
      (.tick :: .note (.fetched pc instruction.val) :: more ++ signals) stop := by
  cases h with
  | ended steps hlast => exact .ended (.head fetched executed goes steps) hlast
  | halted steps hlast hstep =>
    rw [← List.append_assoc]
    exact .halted (.head fetched executed goes steps) hlast hstep
  | failed steps hlast hstep =>
    rw [← List.append_assoc]
    exact .failed (.head fetched executed goes steps) hlast hstep

/-- Within any number of steps the machine stops, or it takes them all and finds an instruction. -/
theorem stops_or_steps (program : Program) (left pc : Nat) (state : State) :
    (∃ n signals stop, n ≤ left ∧ Stops program pc state n signals stop) ∨
      ∃ signals last final instruction, Steps program left pc state signals last final ∧
        program.instructions[last]? = some instruction := by
  induction left generalizing pc state with
  | zero =>
    cases hf : program.instructions[pc]? with
    | none => exact .inl ⟨0, _, _, Nat.le_refl 0, .ended .refl hf⟩
    | some instruction => exact .inr ⟨_, _, _, instruction, .refl, hf⟩
  | succ left ih =>
    cases hf : program.instructions[pc]? with
    | none => exact .inl ⟨0, _, _, Nat.zero_le _, .ended .refl hf⟩
    | some instruction =>
      generalize hv : step program instruction.val state = run
      obtain ⟨signals, fault | ⟨control, next⟩⟩ := run
      · exact .inl ⟨1, _, _, Nat.succ_le_succ (Nat.zero_le _), .failed .refl hf hv⟩
      cases ht : control.target? pc with
      | none =>
        cases control with
        | halt => exact .inl ⟨1, _, _, Nat.succ_le_succ (Nat.zero_le _), .halted .refl hf hv⟩
        | next | jump target => cases ht
      | some target =>
        obtain ⟨n, more, stop, hn, hs⟩ | ⟨more, last, final, found, hs, hl⟩ := ih target next
        · exact .inl ⟨n + 1, _, _, Nat.succ_le_succ hn, hs.head hf hv ht⟩
        · exact .inr ⟨_, last, final, found, .head hf hv ht hs, hl⟩

/-- A limit that the machine stays within changes nothing. -/
theorem runFrom_of_stops (h : Stops program pc state n signals stop) (hn : n ≤ stepLimit) :
    (runFrom program stepLimit pc state).result = stop.result ∧
      (runFrom program stepLimit pc state).log = transcript signals ++ stop.remarks n := by
  obtain ⟨left, hleft⟩ := Nat.exists_eq_add_of_le hn
  have hspent : stepLimit - left = n := by omega
  cases h with
  | ended steps fetched =>
    have hrun := runFrom_of_steps steps left
    rw [← hleft, runFrom_end fetched, hspent] at hrun
    rw [hrun]
    exact ⟨rfl, Console.transcript_append ..⟩
  | @halted n last final next signals more instruction steps fetched executed =>
    have hrun := runFrom_of_steps steps (left + 1)
    rw [← Nat.add_assoc, Nat.add_right_comm, ← hleft, runFrom_halt fetched executed, hspent,
      ← List.append_assoc] at hrun
    rw [hrun]
    exact ⟨rfl, Console.transcript_append ..⟩
  | @failed n last final signals more instruction fault steps fetched executed =>
    have hrun := runFrom_of_steps steps (left + 1)
    rw [← Nat.add_assoc, Nat.add_right_comm, ← hleft, runFrom_fault fetched executed] at hrun
    rw [hrun]
    exact ⟨rfl, (List.append_nil _).symm⟩

/-- The odometer turns once for each instruction. -/
theorem Steps.ticks_eq (h : Steps program n pc state signals target next) : ticks signals = n := by
  induction h with
  | refl => rfl
  | @head n pc _ _ state next _ instruction control signals more _ executed _ _ ih =>
    have hstep : ticks signals = 0 := by
      have hs := sends_step program instruction.val state
      rw [executed] at hs
      exact List.count_eq_zero.2 fun hm => hs _ hm
    have hfetch : ticks (.note (.fetched pc instruction.val) :: signals) = 0 :=
      (ticks_cons (by simp) signals).trans hstep
    rw [ticks_append, ticks_tick, hfetch, ih]
    omega

/-- At the limit the odometer turns once more, and says nothing. -/
theorem runFrom_of_steps_stepLimit (h : Steps program stepLimit pc state signals last final)
    (fetched : program.instructions[last]? = some instruction) :
    (runFrom program stepLimit pc state).result = .error (.unplaced (.overheat stepLimit)) ∧
      (runFrom program stepLimit pc state).log =
        transcript signals ++ [.note (.machineOverheated last)] := by
  have hrun := runFrom_of_steps h 0
  rw [runFrom_zero fetched, Nat.add_zero] at hrun
  rw [hrun]
  refine ⟨rfl, (Console.transcript_append ..).trans (congrArg (transcript signals ++ ·) ?_)⟩
  have htotal : (Console.new.after signals).odometer.total = stepLimit :=
    (Console.total_after ..).trans (by rw [h.ticks_eq]; rfl)
  have hsilent : Odometer.remark (stepLimit + 1) = [] := by decide
  rw [Console.transcript_cons, Console.receive, Odometer.tick, htotal, hsilent]
  rfl

end Stops

/-- The machine does what its steps do, and they are cut off at the limit. Within the limit a run
ends in what they end in, and what they signal is in its log, with the notice behind the last
instruction if there is no halt. Beyond it the run overheats, and its log is that of as many
instructions as the limit allows. -/
theorem run_eq_cut (program : Program) (registers : Memory) (script : Script) :
    let start : State := ⟨registers, .empty, .clear, script⟩
    let run := run program registers script
    (∀ n signals stop, Stops program 0 start n signals stop → n ≤ stepLimit →
      run.result = stop.result ∧ run.log = transcript signals ++ stop.remarks n) ∧
    ((∀ n signals stop, Stops program 0 start n signals stop → stepLimit < n) →
      ∃ signals last final, Steps program stepLimit 0 start signals last final ∧
        run.result = .error (.unplaced (.overheat stepLimit)) ∧
        run.log = transcript signals ++ [.note (.machineOverheated last)]) := by
  intro start run
  refine ⟨fun n signals stop h hn => runFrom_of_stops h hn, fun hlong => ?_⟩
  obtain ⟨n, signals, stop, hn, hs⟩ | ⟨signals, last, final, instruction, hs, hl⟩ :=
    stops_or_steps program stepLimit 0 start
  · exact absurd hn (Nat.not_le_of_lt (hlong n signals stop hs))
  · exact ⟨signals, last, final, hs, runFrom_of_steps_stepLimit hs hl⟩

end Octet.Machine
