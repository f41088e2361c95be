import Octet.Machine
import Octet.Proofs.Console.Dialogue

namespace Octet

section AtLine

variable {ε α : Type} (signals : List Signal) (line : Nat)

theorem Run.atLine_ok (a : α) :
    (⟨signals, .ok a⟩ : Run ε α).atLine line = ⟨signals, .ok a⟩ := rfl

theorem Run.atLine_error (e : ε) :
    (⟨signals, .error e⟩ : Run ε α).atLine line = ⟨signals, .error ⟨line, e⟩⟩ := rfl

end AtLine

namespace Machine

/-- Where an instruction at a position leads, unless it halts the machine. -/
def Control.target? (pc : Nat) : Control → Option Nat
  | next => some (pc + 1)
  | jump target => some target
  | halt => none

/-- The machine executes some instructions, one after another, and leaves signals. -/
inductive Steps (program : Program) : Nat → Nat → State → List Signal → Nat → State → Prop
  | refl {pc : Nat} {state : State} : Steps program 0 pc state [] pc state
  | head {n pc target last : Nat} {state next final : State} {instruction : Located Instruction}
      {control : Control} {signals more : List Signal}
      (fetched : program.instructions[pc]? = some instruction)
      (executed : step program instruction.val state = ⟨signals, .ok (control, next)⟩)
      (goes : control.target? pc = some target)
      (rest : Steps program n target next more last final) :
      Steps program (n + 1) pc state
        (.tick :: .note (.fetched pc instruction.val) :: signals ++ more) last final

section Run

variable {program : Program} {n m left pc target last : Nat} {state next final : State}
  {instruction : Located Instruction} {control : Control} {signals more : List Signal}
  {fault : Fault}

theorem Steps.trans (h : Steps program n pc state signals target next)
    (hr : Steps program m target next more last final) :
    Steps program (n + m) pc state (signals ++ more) last final := by
  induction h with
  | refl => simpa using hr
  | @head n pc _ _ state _ _ instruction control signals _ fetched executed goes _ ih =>
    have hs := Steps.head fetched executed goes (ih hr)
    rw [Nat.add_right_comm]
    simpa using hs

theorem runFrom_succ (fetched : program.instructions[pc]? = some instruction)
    (executed : step program instruction.val state = ⟨signals, .ok (control, next)⟩)
    (goes : control.target? pc = some target) (left : Nat) :
    runFrom program (left + 1) pc state =
      ⟨.tick :: .note (.fetched pc instruction.val) :: signals ++
        (runFrom program left target next).signals, (runFrom program left target next).result⟩ := by
  cases control with
  | halt => cases goes
  | next =>
    cases goes
    rw [runFrom, fetched]
    simp [bind, Run.bind, Run.send, Run.atLine_ok, executed]
  | jump target =>
    cases goes
    rw [runFrom, fetched]
    simp [bind, Run.bind, Run.send, Run.atLine_ok, executed]

/-- A run goes through the steps that it has the budget for. -/
theorem runFrom_of_steps (h : Steps program n pc state signals target next) (left : Nat) :
    runFrom program (n + left) pc state =
      ⟨signals ++ (runFrom program left target next).signals,
        (runFrom program left target next).result⟩ := by
  induction h with
  | refl => simp
  | @head n pc _ _ state _ _ instruction control signals _ fetched executed goes _ ih =>
    rw [Nat.add_right_comm, runFrom_succ fetched executed goes, ih]
    simp

/-- A run whose budget is used up stops at the next instruction. -/
theorem runFrom_zero (fetched : program.instructions[pc]? = some instruction) (state : State) :
    runFrom program 0 pc state = ⟨[.tick, .note (.machineOverheated pc)],
      .error (.unplaced (.overheat stepLimit))⟩ := by
  rw [runFrom, fetched]
  rfl

/-- A run that would go on for longer than its budget stops among the steps. -/
theorem runFrom_of_lt (h : Steps program n pc state signals target next) (hl : left < n) :
    ∃ first stop, first <+: signals ∧ runFrom program left pc state =
      ⟨first ++ [.tick, .note (.machineOverheated stop)],
        .error (.unplaced (.overheat stepLimit))⟩ := by
  induction h generalizing left with
  | refl => exact absurd hl left.not_lt_zero
  | @head n pc _ _ state _ _ instruction control signals more fetched executed goes _ ih =>
    cases left with
    | zero => exact ⟨[], pc, List.nil_prefix, runFrom_zero fetched state⟩
    | succ left =>
      obtain ⟨first, stop, hf, hr⟩ := ih (Nat.lt_of_succ_lt_succ hl)
      refine ⟨.tick :: .note (.fetched pc instruction.val) :: signals ++ first, stop, ?_, ?_⟩
      · exact (List.prefix_append_right_inj _).2 hf
      · rw [runFrom_succ fetched executed goes, hr]
        simp

theorem runFrom_end (h : program.instructions[pc]? = none) (left : Nat) (state : State) :
    runFrom program left pc state =
      ⟨[.note (.machineEnded (stepLimit - left)), .print endNotice], .ok state.registers⟩ := by
  rw [runFrom, h]
  rfl

theorem runFrom_halt (fetched : program.instructions[pc]? = some instruction)
    (executed : step program instruction.val state = ⟨signals, .ok (.halt, next)⟩) (left : Nat) :
    runFrom program (left + 1) pc state =
      ⟨.tick :: .note (.fetched pc instruction.val) :: signals ++
        [.note (.machineHalted (stepLimit - left))], .ok next.registers⟩ := by
  rw [runFrom, fetched]
  simp [bind, Run.bind, Run.send, Run.atLine_ok, executed]

theorem runFrom_fault (fetched : program.instructions[pc]? = some instruction)
    (executed : step program instruction.val state = ⟨signals, .error fault⟩) (left : Nat) :
    runFrom program (left + 1) pc state =
      ⟨.tick :: .note (.fetched pc instruction.val) :: signals,
        .error ⟨instruction.line, fault⟩⟩ := by
  rw [runFrom, fetched]
  simp [bind, Run.bind, Run.send, Run.atLine_error, executed]

/-- What a run can be: it is over behind the last instruction, its budget is used up, its first
instruction fails or halts, or it goes on behind that. -/
inductive Runs (program : Program) : Nat → Nat → State → Run (Located Fault) Memory → Prop
  | ended {left pc : Nat} {state : State} (fetched : program.instructions[pc]? = none) :
      Runs program left pc state
        ⟨[.note (.machineEnded (stepLimit - left)), .print endNotice], .ok state.registers⟩
  | overheated {pc : Nat} {state : State} {instruction : Located Instruction}
      (fetched : program.instructions[pc]? = some instruction) :
      Runs program 0 pc state ⟨[.tick, .note (.machineOverheated pc)],
        .error (.unplaced (.overheat stepLimit))⟩
  | faulted {left pc : Nat} {state : State} {instruction : Located Instruction}
      {signals : List Signal} {fault : Fault}
      (fetched : program.instructions[pc]? = some instruction)
      (executed : step program instruction.val state = ⟨signals, .error fault⟩) :
      Runs program (left + 1) pc state ⟨.tick :: .note (.fetched pc instruction.val) :: signals,
        .error ⟨instruction.line, fault⟩⟩
  | halted {left pc : Nat} {state next : State} {instruction : Located Instruction}
      {signals : List Signal} (fetched : program.instructions[pc]? = some instruction)
      (executed : step program instruction.val state = ⟨signals, .ok (.halt, next)⟩) :
      Runs program (left + 1) pc state ⟨.tick :: .note (.fetched pc instruction.val) :: signals ++
        [.note (.machineHalted (stepLimit - left))], .ok next.registers⟩
  | goes {left pc target : Nat} {state next : State} {instruction : Located Instruction}
      {control : Control} {signals : List Signal} {rest : Run (Located Fault) Memory}
      (fetched : program.instructions[pc]? = some instruction)
      (executed : step program instruction.val state = ⟨signals, .ok (control, next)⟩)
      (goes : control.target? pc = some target) (runs : Runs program left target next rest) :
      Runs program (left + 1) pc state
        ⟨.tick :: .note (.fetched pc instruction.val) :: signals ++ rest.signals, rest.result⟩

theorem runs_runFrom (program : Program) (left pc : Nat) (state : State) :
    Runs program left pc state (runFrom program left pc state) := by
  induction left generalizing pc state with
  | zero =>
    cases hf : program.instructions[pc]? with
    | none =>
      rw [runFrom_end hf]
      exact .ended hf
    | some instruction =>
      rw [runFrom_zero hf]
      exact .overheated hf
  | succ left ih =>
    cases hf : program.instructions[pc]? with
    | none =>
      rw [runFrom_end hf]
      exact .ended hf
    | some instruction =>
      generalize hv : step program instruction.val state = run
      obtain ⟨signals, fault | ⟨control, next⟩⟩ := run
      · rw [runFrom_fault hf hv]
        exact .faulted hf hv
      cases ht : control.target? pc with
      | none =>
        cases control with
        | halt =>
          rw [runFrom_halt hf hv]
          exact .halted hf hv
        | next => cases ht
        | jump target => cases ht
      | some target =>
        rw [runFrom_succ hf hv ht]
        exact .goes hf hv ht (ih target next)

/-- A run that fails has used up its budget, or it fails at an instruction and on the line of it. -/
theorem exists_fetched_of_error {e : Located Fault}
    (h : (runFrom program left pc state).result = .error e) :
    e = .unplaced (.overheat stepLimit) ∨ ∃ (stop : Nat) (i : Located Instruction) (last : State)
      (signals : List Signal), program.instructions[stop]? = some i ∧
        step program i.val last = ⟨signals, .error e.val⟩ ∧ e.line = i.line := by
  have hr := runs_runFrom program left pc state
  generalize runFrom program left pc state = run at h hr
  induction hr with
  | ended | halted => cases h
  | overheated =>
    cases h
    exact .inl rfl
  | faulted fetched executed =>
    cases h
    exact .inr ⟨_, _, _, _, fetched, executed, rfl⟩
  | goes _ _ _ _ ih => exact ih h

end Run

variable {program : Program} {pc target last : Nat} {state next final : State}
  {instruction : Instruction} {control : Control} {signals seen more : List Signal} {fault : Fault}

/-- The machine comes from one place to another, and shows and reads this on its way. -/
def Reaches (program : Program) (pc : Nat) (state : State) (seen : List Signal) (target : Nat)
    (next : State) : Prop :=
  ∃ n signals, Steps program n pc state signals target next ∧ exchanges signals = seen

theorem Reaches.refl : Reaches program pc state [] pc state := ⟨0, [], .refl, rfl⟩

theorem Reaches.trans (h : Reaches program pc state seen target next)
    (hr : Reaches program target next more last final) :
    Reaches program pc state (seen ++ more) last final := by
  obtain ⟨n, signals, hs, rfl⟩ := h
  obtain ⟨m, rest, hm, rfl⟩ := hr
  exact ⟨n + m, signals ++ rest, hs.trans hm, by simp⟩

/-- The instruction at a position of a program. -/
def At (program : Program) (pc : Nat) (instruction : Instruction) : Prop :=
  program.instructions[pc]?.map Located.val = some instruction

theorem at_of_fetched {located : Located Instruction}
    (fetched : program.instructions[pc]? = some located) : At program pc located.val := by
  rw [At, fetched]
  rfl

theorem reaches_of_step (h : At program pc instruction)
    (executed : step program instruction state = ⟨signals, .ok (control, next)⟩)
    (goes : control.target? pc = some target) :
    Reaches program pc state (exchanges signals) target next := by
  obtain ⟨located, hl, rfl⟩ := Option.map_eq_some_iff.1 h
  exact ⟨1, _, .head hl executed goes .refl, by simp⟩

/-- The instruction at a position fails, after it has shown and read this. -/
def FaultsAt (program : Program) (pc : Nat) (state : State) (seen : List Signal) (fault : Fault) :
    Prop :=
  ∃ instruction signals, At program pc instruction ∧
    step program instruction state = ⟨signals, .error fault⟩ ∧ exchanges signals = seen

/-- The machine comes from a place to an instruction that fails. -/
def Breaks (program : Program) (pc : Nat) (state : State) (seen : List Signal) (fault : Fault) :
    Prop :=
  ∃ first second target next, Reaches program pc state first target next ∧
    FaultsAt program target next second fault ∧ seen = first ++ second

theorem breaks_of_step (h : At program pc instruction)
    (executed : step program instruction state = ⟨signals, .error fault⟩) :
    Breaks program pc state (exchanges signals) fault :=
  ⟨[], _, pc, state, .refl, ⟨instruction, signals, h, executed, rfl⟩, rfl⟩

theorem Reaches.breaks (h : Reaches program pc state seen target next)
    (hb : Breaks program target next more fault) :
    Breaks program pc state (seen ++ more) fault := by
  obtain ⟨first, second, last, final, hr, hf, rfl⟩ := hb
  exact ⟨seen ++ first, second, last, final, h.trans hr, hf, (List.append_assoc ..).symm⟩

section Yields

variable {α β : Type} {result : Except Fault α} {exit : α → Nat} {post : α → State → Prop}

/-- The machine works out a result, and shows and reads nothing: it comes to where the result leads
it, in a state that answers to the result, or it fails as the result does. -/
def Yields (program : Program) (pc : Nat) (state : State) (result : Except Fault α)
    (exit : α → Nat) (post : α → State → Prop) : Prop :=
  match result with
  | .ok a => ∃ next, Reaches program pc state [] (exit a) next ∧ post a next
  | .error fault => Breaks program pc state [] fault

theorem Yields.of_reaches (h : Yields program target next result exit post)
    (hr : Reaches program pc state [] target next) : Yields program pc state result exit post := by
  cases result with
  | error fault => exact hr.breaks h
  | ok a =>
    obtain ⟨final, hf, hp⟩ := h
    exact ⟨final, hr.trans hf, hp⟩

/-- What comes behind a result may go on from wherever it leads the machine. -/
theorem Yields.bind {f : α → Except Fault β} {exit' : β → Nat} {post' : β → State → Prop}
    (h : Yields program pc state result exit post)
    (hf : ∀ a next, post a next → Yields program (exit a) next (f a) exit' post') :
    Yields program pc state (result >>= f) exit' post' := by
  cases result with
  | error fault => exact h
  | ok a =>
    obtain ⟨next, hr, hp⟩ := h
    exact (hf a next hp).of_reaches hr

/-- From where a result leads it, the machine may go on without a fault. -/
theorem Yields.trans {exit' : α → Nat} {post' : α → State → Prop}
    (h : Yields program pc state result exit post)
    (hf : ∀ a next, post a next →
      ∃ final, Reaches program (exit a) next [] (exit' a) final ∧ post' a final) :
    Yields program pc state result exit' post' := by
  cases result with
  | error fault => exact h
  | ok a =>
    obtain ⟨next, hr, hp⟩ := h
    obtain ⟨final, hn, hp⟩ := hf a next hp
    exact ⟨final, hr.trans hn, hp⟩

theorem Yields.imp {post' : α → State → Prop} (h : Yields program pc state result exit post)
    (hi : ∀ a next, post a next → post' a next) :
    Yields program pc state result exit post' :=
  h.trans fun a next hp => ⟨next, .refl, hi a next hp⟩

theorem yields_map {f : α → β} {exit : β → Nat} {post : β → State → Prop} :
    Yields program pc state (result.map f) exit post ↔
      Yields program pc state result (fun a => exit (f a)) fun a => post (f a) := by
  cases result with
  | error fault => rfl
  | ok a => rfl

end Yields

section Budget

/-- A run of the machine comes to a place that it reaches and goes on from there, unless its budget
is used up before. -/
theorem Reaches.overheats_or (h : Reaches program pc state seen target next) (left : Nat) :
    (exchanges (runFrom program left pc state).signals <+: seen ∧
      (runFrom program left pc state).result = .error (.unplaced (.overheat stepLimit))) ∨
    ∃ rest, exchanges (runFrom program left pc state).signals =
        seen ++ exchanges (runFrom program rest target next).signals ∧
      (runFrom program left pc state).result =
        (runFrom program rest target next).result := by
  obtain ⟨n, signals, hs, rfl⟩ := h
  by_cases hl : left < n
  · obtain ⟨first, stop, ⟨more, rfl⟩, hr⟩ := runFrom_of_lt hs hl
    rw [hr]
    refine .inl ⟨?_, rfl⟩
    rw [exchanges_append, exchanges_append]
    exact (List.prefix_append_right_inj _).2 List.nil_prefix
  · obtain ⟨rest, rfl⟩ := Nat.exists_eq_add_of_le (Nat.le_of_not_lt hl)
    rw [runFrom_of_steps hs]
    exact .inr ⟨rest, exchanges_append .., rfl⟩

end Budget

section Cut

/-- A program without the instructions from a position on. -/
def cut (program : Program) (last : Nat) : Program :=
  { program with instructions := program.instructions.take last }

theorem fetch_cut (program : Program) (last pc : Nat) : (cut program last).instructions[pc]? =
    if pc < last then program.instructions[pc]? else none := by
  by_cases h : pc < min last program.instructions.size
  · simp [cut, h, (Nat.lt_min.1 h).1]
  · rw [Nat.lt_min] at h
    have hm : min last program.instructions.size ≤ pc := by omega
    rw [cut, Array.getElem?_eq_none (by simpa using hm)]
    split
    · exact (Array.getElem?_eq_none (by omega)).symm
    · rfl

theorem step_cut (program : Program) (last : Nat) (instruction : Instruction) (state : State) :
    step (cut program last) instruction state = step program instruction state :=
  rfl

/-- Code that fails before its end never comes there, nor to what is behind it. -/
theorem Breaks.not_steps (h : Breaks (cut program last) pc state seen fault) (ht : last ≤ target)
    (n : Nat) (signals : List Signal) (final : State) :
    ¬Steps program n pc state signals target final := by
  obtain ⟨first, second, stop, next, ⟨m, more, hs, -⟩, ⟨i, rest, ha, hf, -⟩, -⟩ := h
  obtain ⟨located, hl, rfl⟩ := Option.map_eq_some_iff.1 ha
  clear ha
  intro hn
  -- The steps before the fault are the same in both programs, so the other run takes them too.
  induction hs generalizing n signals with
  | refl =>
    rw [fetch_cut] at hl
    cases hn with
    | refl => simp [Nat.not_lt_of_le ht] at hl
    | head fetched executed =>
      split at hl
      · rw [Option.some.inj (hl.symm.trans fetched), step_cut, executed] at hf
        cases hf
      · cases hl
  | head fetched executed goes _ ih =>
    rw [fetch_cut] at fetched
    cases hn with
    | refl => simp [Nat.not_lt_of_le ht] at fetched
    | head fetched' executed' goes' rest =>
      split at fetched
      · cases Option.some.inj (fetched.symm.trans fetched')
        rw [step_cut, executed'] at executed
        cases executed
        cases Option.some.inj (goes.symm.trans goes')
        exact ih _ _ hl hf rest
      · cases fetched

end Cut

end Machine

end Octet
