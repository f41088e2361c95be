import Octet.Proofs.Machine.Instructions

namespace Octet

/-- A fault that a program may end in by what it computes, reads or how long it runs. -/
def Fault.isOrdinary : Fault → Bool
  | input | overheat _ | divisionByZero | moduloByZero | notANumber _ => true
  | _ => false

namespace Machine

/-- How much an instruction adds to the ring. -/
def weight (op : Opcode) : Int :=
  match op with
  | .tin => 1
  | .tab => -1
  | _ => 0

/-- What a straight run would have left in the ring in front of a position. -/
def height (program : Program) (pc : Nat) : Int :=
  (program.instructions.toList.take pc).foldl (fun h i => h + weight i.val.opcode) 0

variable {program : Program} {pc last target n : Nat} {state next : State}
  {instruction : Instruction} {signals : List Signal}

theorem height_zero (program : Program) : height program 0 = 0 := rfl

theorem height_succ (h : At program pc instruction) :
    height program (pc + 1) = height program pc + weight instruction.opcode := by
  obtain ⟨located, hl, rfl⟩ := Option.map_eq_some_iff.1 h
  have hl : program.instructions.toList[pc]? = some located := by simpa using hl
  simp [height, List.take_add_one, hl]

/-- The ring holds as many values as a height says, at most two of them, and it has been balanced
since it was new. -/
structure Level (h : Int) (ring : Ring) : Prop where
  live : (ring.live : Int) = h
  pointer : ring.pointer.val = ring.live
  bound : ring.live ≤ 2

theorem level_empty : Level 0 .empty := ⟨rfl, rfl, by decide⟩

theorem level_push {h : Int} {ring : Ring} (hl : Level h ring) (hh : h ≤ 1) (v : Value) :
    Level (h + 1) (ring.push v).1 ∧ (ring.push v).2 = [] := by
  have hlive := hl.live
  have hp := hl.pointer
  have hn : ring.live ≤ 1 := by omega
  have hfull : (ring.live == 4) = false := by simp; omega
  have hnext : (ring.pointer + 1).val = ring.live + 1 := by
    rw [Fin.val_add_one_of_lt, hp]
    rw [Fin.lt_def, hp]
    exact Nat.lt_of_le_of_lt hn (by decide)
  -- With one value at most, the pointer does not come round to where it began.
  have hz : ring.pointer + 1 ≠ 0 := fun hz => by simp [hz] at hnext
  refine ⟨⟨?_, ?_, ?_⟩, ?_⟩
  · simp only [Ring.push]
    omega
  · simp only [Ring.push, hnext]
    omega
  · simp only [Ring.push]
    omega
  · simp [Ring.push, hfull, hz]

theorem level_pop {h : Int} {ring : Ring} (hl : Level h ring) (hh : 1 ≤ h) :
    ∃ v popped, ring.pop = .ok (v, popped) ∧ Level (h - 1) popped := by
  have hlive := hl.live
  have hp := hl.pointer
  have hb := hl.bound
  have hpos : 0 < ring.live := by omega
  have hlast : (ring.pointer - 1).val = ring.live - 1 := by
    rw [Fin.sub_val_of_le, hp]
    · rfl
    · rw [Fin.le_def, hp]
      exact hpos
  refine ⟨_, _, by rw [Ring.pop, if_pos hpos], ?_, hlast, ?_⟩
  · dsimp only
    omega
  · dsimp only
    omega

/-- An instruction that keeps the ring at the heights, raises no event and has no fault but an
ordinary one. -/
def Sound (program : Program) (pc : Nat) : Prop :=
  ∃ instruction, At program pc instruction ∧ ∀ state : State,
    Level (height program pc) state.ring →
    Calm (step program instruction state).signals ∧
    match (step program instruction state).result with
    | .ok (control, next) =>
      ∀ target, control.target? pc = some target → Level (height program target) next.ring
    | .error fault => fault.isOrdinary = true

/-- An instruction that has no eye for the ring. -/
theorem sound_of_ring_eq (h : At program pc instruction) (hw : weight instruction.opcode = 0)
    (hs : ∀ state, Calm (step program instruction state).signals)
    (hr : ∀ state, match (step program instruction state).result with
      | .ok (control, next) => control = .next ∧ next.ring = state.ring
      | .error fault => fault.isOrdinary = true) : Sound program pc := by
  refine ⟨instruction, h, fun state hl => ⟨hs state, ?_⟩⟩
  have hr := hr state
  split at hr
  · next control next he =>
    obtain ⟨rfl, hr⟩ := hr
    rintro target ⟨⟩
    rw [height_succ h, hw, Int.add_zero, hr]
    exact hl
  · exact hr

/-- A jump between positions of one height. -/
theorem sound_of_jump (h : At program pc instruction) (hw : weight instruction.opcode = 0)
    (ht : height program target = height program pc)
    (hs : ∀ state, ∃ taken : Bool, step program instruction state =
      ⟨[], .ok (if taken then .jump target else .next, state)⟩) : Sound program pc := by
  refine ⟨instruction, h, fun state hl => ?_⟩
  obtain ⟨taken, he⟩ := hs state
  rw [he]
  refine ⟨calm_nil, fun next hn => ?_⟩
  cases taken with
  | true =>
    cases hn
    rw [ht]
    exact hl
  | false =>
    cases hn
    rw [height_succ h, hw, Int.add_zero]
    exact hl

theorem sound_nov (h : At program pc ⟨.nov, []⟩) : Sound program pc :=
  ⟨_, h, fun _ _ => ⟨calm_nil, nofun⟩⟩

theorem sound_tin {r : Slot} (h : At program pc ⟨.tin, [.register r]⟩)
    (hh : height program pc ≤ 1) : Sound program pc := by
  refine ⟨_, h, fun state hl => ?_⟩
  obtain ⟨hl, he⟩ := level_push hl hh (state.registers.read r)
  rw [step_tin, he]
  refine ⟨calm_nil, ?_⟩
  rintro target ⟨⟩
  rw [height_succ h]
  exact hl

theorem sound_tab {r : Slot} (h : At program pc ⟨.tab, [.register r]⟩)
    (hh : 1 ≤ height program pc) : Sound program pc := by
  refine ⟨_, h, fun state hl => ?_⟩
  obtain ⟨v, popped, hp, hl⟩ := level_pop hl hh
  rw [step_tab, hp]
  refine ⟨calm_nil, ?_⟩
  rintro target ⟨⟩
  rw [height_succ h]
  exact hl

section Flat

variable {r l t : Slot}

theorem sound_tar_register (h : At program pc ⟨.tar, [.register t, .register r]⟩) :
    Sound program pc :=
  sound_of_ring_eq h rfl (fun _ => calm_nil) fun _ => ⟨rfl, rfl⟩

theorem sound_tar_immediate {i : Int} (h : At program pc ⟨.tar, [.register t, .immediate i]⟩) :
    Sound program pc :=
  sound_of_ring_eq h rfl (fun _ => calm_nil) fun _ => ⟨rfl, rfl⟩

theorem sound_tar_data {key text : String} (h : At program pc ⟨.tar, [.register t, .data key]⟩)
    (hk : program.data.get? key = some text) : Sound program pc := by
  refine sound_of_ring_eq h rfl (fun state => ?_) fun state => ?_
  · rw [step_tar_data hk]
    exact calm_nil
  · rw [step_tar_data hk]
    exact ⟨rfl, rfl⟩

theorem sound_mav (h : At program pc ⟨.mav, [.register r]⟩) : Sound program pc :=
  sound_of_ring_eq h rfl (fun _ => calm_cons.2 ⟨rfl, calm_nil⟩) fun _ => ⟨rfl, rfl⟩

theorem sound_vir (h : At program pc ⟨.vir, [.register r]⟩) : Sound program pc := by
  refine sound_of_ring_eq h rfl (fun state => ?_) fun state => ?_
  · cases hn : state.script.next.1 with
    | none =>
      rw [step_vir_none hn]
      exact calm_cons.2 ⟨rfl, calm_nil⟩
    | some line =>
      rw [step_vir_some hn]
      exact calm_cons.2 ⟨rfl, calm_nil⟩
  · cases hn : state.script.next.1 with
    | none =>
      rw [step_vir_none hn]
      rfl
    | some line =>
      rw [step_vir_some hn]
      exact ⟨rfl, rfl⟩

theorem sound_pav (h : At program pc ⟨.pav, [.register l, .register r]⟩) : Sound program pc :=
  sound_of_ring_eq h rfl (fun _ => calm_nil) fun _ => ⟨rfl, rfl⟩

theorem sound_pav_immediate {i : Int} (h : At program pc ⟨.pav, [.register l, .immediate i]⟩) :
    Sound program pc :=
  sound_of_ring_eq h rfl (fun _ => calm_nil) fun _ => ⟨rfl, rfl⟩

theorem isOrdinary_of_operate {flags : Flags} {op : Arith} {left right : Value} {fault : Fault}
    (h : flags.operate op left right = .error fault) : fault.isOrdinary = true := by
  have hn : ∀ {v : Value} {f : Fault}, v.toNumber = .error f → f.isOrdinary = true := by
    intro v f hv
    rw [Value.toNumber] at hv
    split at hv
    · cases hv
    · cases hv
      rfl
  rw [Flags.operate] at h
  split at h
  · cases h
  · cases hl : left.toNumber with
    | error f =>
      rw [hl] at h
      cases h
      exact hn hl
    | ok i =>
      rw [hl] at h
      cases hr : right.toNumber with
      | error f =>
        rw [hr] at h
        cases h
        exact hn hr
      | ok j =>
        rw [hr] at h
        cases op with
        | add | sub | mul => cases h
        | div | mod =>
          by_cases hj : j = 0
          · simp [Flags.calculate, Arith.exact, hj, bind, Except.bind] at h
            rw [← h]
            rfl
          · simp [Flags.calculate, Arith.exact, hj, bind, Except.bind, pure, Except.pure] at h

theorem sound_arith {op : Arith}
    (h : At program pc ⟨Compiler.arithOpcode op, [.register t, .register l, .register r]⟩) :
    Sound program pc := by
  refine sound_of_ring_eq h (by cases op <;> rfl) (fun state => ?_) fun state => ?_
  · rw [step_arith]
    exact calm_nil
  · rw [step_arith]
    cases ho : state.flags.operate op (state.registers.read l) (state.registers.read r) with
    | error fault => exact isOrdinary_of_operate ho
    | ok p => exact ⟨rfl, rfl⟩

variable {name : String}

theorem sound_rav (h : At program pc ⟨.rav, [.label name]⟩)
    (hl : program.labels.get? name = some target)
    (ht : height program target = height program pc) : Sound program pc :=
  sound_of_jump h rfl ht fun _ => ⟨true, step_rav hl⟩

theorem sound_rev (h : At program pc ⟨.rev, [.label name]⟩)
    (hl : program.labels.get? name = some target)
    (ht : height program target = height program pc) : Sound program pc :=
  sound_of_jump h rfl ht fun _ => ⟨_, step_rev hl⟩

theorem sound_rgv (h : At program pc ⟨.rgv, [.label name]⟩)
    (hl : program.labels.get? name = some target)
    (ht : height program target = height program pc) : Sound program pc :=
  sound_of_jump h rfl ht fun _ => ⟨_, step_rgv hl⟩

end Flat

section Run

/-- All instructions of a program are sound. -/
def AllSound (program : Program) : Prop :=
  ∀ pc instruction, At program pc instruction → Sound program pc

/-- What one sound instruction does. -/
theorem AllSound.step (hs : AllSound program) {located : Located Instruction}
    (fetched : program.instructions[pc]? = some located)
    (hl : Level (height program pc) state.ring) :
    Calm (step program located.val state).signals ∧
    match (Machine.step program located.val state).result with
    | .ok (control, next) =>
      ∀ target, control.target? pc = some target → Level (height program target) next.ring
    | .error fault => fault.isOrdinary = true := by
  have ha : At program pc located.val := at_of_fetched fetched
  obtain ⟨i, hi, hsound⟩ := hs pc _ ha
  cases Option.some.inj (ha.symm.trans hi)
  exact hsound state hl

/-- The ring stays at the heights, and no event is raised, however far the machine goes. -/
theorem Steps.level (h : Steps program n pc state signals target next) (hs : AllSound program)
    (hl : Level (height program pc) state.ring) :
    Level (height program target) next.ring ∧ Calm signals := by
  induction h with
  | refl => exact ⟨hl, calm_nil⟩
  | @head n pc _ _ _ _ _ instruction control _ _ fetched executed goes _ ih =>
    have hstep := hs.step fetched hl
    rw [executed] at hstep
    obtain ⟨hc, hresult⟩ := hstep
    obtain ⟨hl, hcr⟩ := ih (hresult _ goes)
    exact ⟨hl, calm_append.2 ⟨calm_cons.2 ⟨rfl, calm_cons.2 ⟨rfl, hc⟩⟩, hcr⟩⟩

/-- A run raises no event and ends in no fault but an ordinary one. -/
theorem runFrom_safe (hs : AllSound program) (left : Nat)
    (hl : Level (height program pc) state.ring) :
    Calm (runFrom program left pc state).signals ∧
      ∀ fault, (runFrom program left pc state).result = .error fault →
        fault.val.isOrdinary = true := by
  have hr := runs_runFrom program left pc state
  generalize runFrom program left pc state = run at hr
  induction hr with
  | ended => exact ⟨by simp [Signal.isCalm], nofun⟩
  | overheated =>
    refine ⟨by simp [Signal.isCalm], ?_⟩
    rintro fault ⟨⟩
    rfl
  | faulted fetched executed =>
    have hstep := hs.step fetched hl
    rw [executed] at hstep
    refine ⟨by simpa [Signal.isCalm] using hstep.1, ?_⟩
    rintro fault ⟨⟩
    exact hstep.2
  | halted fetched executed =>
    have hstep := hs.step fetched hl
    rw [executed] at hstep
    exact ⟨by simpa [Signal.isCalm] using hstep.1, nofun⟩
  | goes fetched executed goes _ ih =>
    have hstep := hs.step fetched hl
    rw [executed] at hstep
    obtain ⟨hc, hresult⟩ := hstep
    obtain ⟨hcr, her⟩ := ih (hresult _ goes)
    exact ⟨by simpa [Signal.isCalm] using ⟨hc, hcr⟩, her⟩

end Run

end Machine

end Octet
