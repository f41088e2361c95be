import Octet.Proofs.Machine.Course

namespace Octet

section Parallel

variable {ε δ α β : Type} {post : α → α → Prop} {post' : β → β → Prop} {run other : Run ε α}

/-- Two runs leave the same signals, and end in results that belong together or in one failure. -/
inductive Run.Parallel (post : α → α → Prop) : Run ε α → Run ε α → Prop
  | ok {a b : α} (signals : List Signal) (h : post a b) :
      Parallel post ⟨signals, .ok a⟩ ⟨signals, .ok b⟩
  | error (signals : List Signal) (e : ε) :
      Parallel post ⟨signals, .error e⟩ ⟨signals, .error e⟩

theorem Run.Parallel.bind {f g : α → Run ε β} (h : Run.Parallel post run other)
    (hf : ∀ a b, post a b → Run.Parallel post' (f a) (g b)) :
    Run.Parallel post' (run >>= f) (other >>= g) := by
  cases h with
  | error signals e => exact .error signals e
  | @ok a b signals h =>
    have hf := hf a b h
    rw [Run.bind_of_ok (a := a) rfl, Run.bind_of_ok (a := b) rfl]
    generalize f a = x at hf ⊢
    generalize g b = y at hf ⊢
    cases hf with
    | ok more h => exact .ok _ h
    | error more e => exact .error _ e

/-- Two runs that begin with one computation may go on from its result. -/
theorem Run.parallel_lift_bind {result : Except ε α} {f g : α → Run ε β}
    (hf : ∀ a, result = .ok a → Run.Parallel post' (f a) (g a)) :
    Run.Parallel post' ((liftM result : Run ε α) >>= f) (liftM result >>= g) := by
  cases result with
  | ok a =>
    rw [Run.bind_of_ok (a := a) rfl, Run.bind_of_ok (a := a) rfl]
    exact hf a rfl
  | error e => exact .error [] e

theorem Run.Parallel.mapError (h : Run.Parallel post run other) (f : ε → δ) :
    Run.Parallel post (run.mapError f) (other.mapError f) := by
  cases h with
  | ok signals h => exact .ok signals h
  | error signals e => exact .error signals (f e)

theorem Run.Parallel.append (h : Run.Parallel post run other) (before : List Signal) :
    Run.Parallel post ⟨before ++ run.signals, run.result⟩
      ⟨before ++ other.signals, other.result⟩ := by
  cases h with
  | ok signals h => exact .ok _ h
  | error signals e => exact .error _ e

end Parallel

/-- The registers whose values an instruction has a use for. -/
def Instruction.Reads (instruction : Instruction) (r : Slot) : Prop :=
  let names (position : Nat) := instruction.operands[position]? = some (.register r)
  match instruction.opcode with
  | .tin | .mav => names 0
  | .tar | .tir => names 1
  | .pav => names 0 ∨ names 1
  | .kur | .sur | .mur | .dur | .rur => names 1 ∨ names 2
  | .tab | .vir | .mak | .rav | .rev | .rgv | .nov => False

/-- The register that an instruction puts a new value into. -/
def Instruction.Writes (instruction : Instruction) (r : Slot) : Prop :=
  match instruction.opcode with
  | .tar | .tir | .tab | .vir | .kur | .sur | .mur | .dur | .rur =>
    instruction.operands[0]? = some (.register r)
  | .tin | .mav | .mak | .pav | .rav | .rev | .rgv | .nov => False

namespace Machine

variable {program : Program} {instruction : Instruction} {operands : List Operand}
  {keep final : Slot → Prop} {state other : State} {r target : Slot} {pc n m : Nat}

/-- Two states differ only in registers that do not have to be kept. -/
structure State.Shares (keep : Slot → Prop) (state other : State) : Prop where
  registers : ∀ r, keep r → state.registers.read r = other.registers.read r
  ring : state.ring = other.ring
  flags : state.flags = other.flags
  script : state.script = other.script

section Step

theorem State.Shares.imp {keep' : Slot → Prop} (h : State.Shares keep state other)
    (hk : ∀ r, keep' r → keep r) : State.Shares keep' state other :=
  ⟨fun r hr => h.registers r (hk r hr), h.ring, h.flags, h.script⟩

theorem registerAt_eq_ok {position : Nat} (h : registerAt operands position = .ok r) :
    operands[position]? = some (.register r) := by
  unfold registerAt at h
  split at h
  · next hr =>
    cases h
    exact hr
  · cases h

theorem valueAt_congr {registers registers' : Memory} {position : Nat}
    (h : ∀ r, operands[position]? = some (.register r) → registers.read r = registers'.read r) :
    valueAt program registers operands position = valueAt program registers' operands position := by
  unfold valueAt
  split <;> try rfl
  next r hr => rw [h r hr]

/-- A value that is put into a register of both states need not be kept before. -/
theorem State.Shares.set (h : State.Shares keep state other)
    (ht : registerAt operands 0 = .ok target) (v : Value) :
    State.Shares (fun r => keep r ∨ operands[0]? = some (.register r)) (state.set target v)
      (other.set target v) := by
  refine ⟨fun r hr => ?_, h.ring, h.flags, h.script⟩
  simp only [registers_set, Memory.read_put]
  split
  · rfl
  · next hne =>
    refine h.registers r (hr.resolve_right fun ho => hne ?_)
    cases (registerAt_eq_ok ht).symm.trans ho
    rfl

/-- The arithmetic of two states that share its operands. -/
theorem calculate_parallel (h : State.Shares keep state other)
    (hr : ∀ r, operands[1]? = some (.register r) ∨ operands[2]? = some (.register r) → keep r)
    (op : Arith) :
    Run.Parallel (State.Shares fun r => keep r ∨ operands[0]? = some (.register r))
      (liftM (calculate operands op state) : Run Fault State)
      (liftM (calculate operands op other)) := by
  simp only [calculate, Run.lift_bind]
  refine Run.parallel_lift_bind fun target hx => ?_
  refine Run.parallel_lift_bind fun left hleft => ?_
  refine Run.parallel_lift_bind fun right hright => ?_
  rw [h.flags, h.registers left (hr _ (.inl (registerAt_eq_ok hleft))),
    h.registers right (hr _ (.inr (registerAt_eq_ok hright)))]
  refine Run.parallel_lift_bind fun p _ => ?_
  have hs : State.Shares keep { state with flags := p.2 } { other with flags := p.2 } :=
    ⟨h.registers, h.ring, rfl, h.script⟩
  exact .ok [] (hs.set hx p.1)

/-- States that share what an instruction reads show the same under it, go to the same place and
share what it writes. -/
theorem step_parallel (h : State.Shares keep state other)
    (hr : ∀ r, instruction.Reads r → keep r) :
    Run.Parallel
      (fun p q => p.1 = q.1 ∧ State.Shares (fun r => keep r ∨ instruction.Writes r) p.2 q.2)
      (step program instruction state) (step program instruction other) := by
  obtain ⟨opcode, operands⟩ := instruction
  cases opcode with
  | nov => exact .ok [] ⟨rfl, h.imp fun r hr => hr.resolve_right id⟩
  | tar | tir =>
    refine Run.parallel_lift_bind fun target hx => ?_
    rw [valueAt_congr fun r hp => h.registers r (hr r hp)]
    refine Run.parallel_lift_bind fun v _ => ?_
    exact .ok [] ⟨rfl, h.set hx v⟩
  | tin =>
    refine Run.parallel_lift_bind fun source hx => ?_
    rw [h.ring, h.registers source (hr _ (registerAt_eq_ok hx))]
    exact .ok _ ⟨rfl, fun r hr => h.registers r (hr.resolve_right id), rfl, h.flags, h.script⟩
  | tab =>
    refine Run.parallel_lift_bind fun target hx => ?_
    rw [h.ring]
    refine Run.parallel_lift_bind fun p _ => ?_
    have hs : State.Shares keep { state with ring := p.2 } { other with ring := p.2 } :=
      ⟨h.registers, rfl, h.flags, h.script⟩
    exact .ok [] ⟨rfl, hs.set hx p.1⟩
  | mav =>
    refine Run.parallel_lift_bind fun source hx => ?_
    rw [h.registers source (hr _ (registerAt_eq_ok hx))]
    exact .ok _ ⟨rfl, h.imp fun r hr => hr.resolve_right id⟩
  | vir =>
    refine Run.parallel_lift_bind fun target hx => ?_
    rw [h.script]
    have hp : Run.Parallel Eq other.script.read other.script.read := by
      obtain ⟨signals, result⟩ := other.script.read
      cases result with
      | ok p => exact .ok signals rfl
      | error e => exact .error signals e
    refine hp.bind fun p _ hp => ?_
    subst hp
    have hs : State.Shares keep { state with script := p.2 } { other with script := p.2 } :=
      ⟨h.registers, h.ring, h.flags, rfl⟩
    exact .ok [] ⟨rfl, hs.set hx p.1⟩
  | mak =>
    rw [step, step, h.flags]
    exact .ok _ ⟨rfl, h.imp fun r hr => hr.resolve_right id⟩
  | pav =>
    simp only [step]
    rw [valueAt_congr fun r hp => h.registers r (hr r (.inl hp)),
      valueAt_congr fun r hp => h.registers r (hr r (.inr hp)), h.flags]
    refine Run.parallel_lift_bind fun left _ => ?_
    refine Run.parallel_lift_bind fun right _ => ?_
    exact .ok [] ⟨rfl, fun r hr => h.registers r (hr.resolve_right id), h.ring, rfl, h.script⟩
  | kur | sur | mur | dur | rur =>
    exact (calculate_parallel h hr _).bind fun s t hs => .ok [] ⟨rfl, hs⟩
  | rav | rev | rgv =>
    simp only [step, h.flags]
    refine Run.parallel_lift_bind fun control _ => ?_
    exact .ok [] ⟨rfl, h.imp fun r hr => hr.resolve_right id⟩

end Step

section Exposed

variable {name : String} {target : Nat}

/-- Within some steps from a position, an instruction may read what a register holds there. -/
def Exposed (program : Program) (r : Slot) : Nat → Nat → Prop
  | 0, _ => False
  | n + 1, pc => ∃ instruction, At program pc instruction ∧
      (instruction.Reads r ∨ ¬instruction.Writes r ∧ ∃ control target,
        Goes program instruction control ∧ control.target? pc = some target ∧
          Exposed program r n target)

theorem Exposed.mono (h : Exposed program r n pc) (hm : n ≤ m) : Exposed program r m pc := by
  induction n generalizing m pc with
  | zero => exact h.elim
  | succ n ih =>
    obtain ⟨k, rfl⟩ := Nat.exists_eq_add_of_le' hm
    obtain ⟨instruction, ha, hr | ⟨hw, control, target, hg, ht, he⟩⟩ := h
    · exact ⟨instruction, ha, .inl hr⟩
    · exact ⟨instruction, ha,
        .inr ⟨hw, control, target, hg, ht, ih he (Nat.le_of_succ_le_succ hm)⟩⟩

theorem not_exposed_of_none (h : program.instructions[pc]? = none) : ¬Exposed program r n pc := by
  cases n with
  | zero => exact id
  | succ n =>
    rintro ⟨instruction, ha, -⟩
    rw [At, h] at ha
    cases ha

/-- The same instruction in states that share the exposed registers. -/
theorem exists_step_parallel {located : Located Instruction} {run : Run Fault (Control × State)}
    (fetched : program.instructions[pc]? = some located)
    (executed : step program located.val state = run)
    (h : State.Shares (fun r => final r ∨ Exposed program r (n + 1) pc) state other) :
    ∃ run', step program located.val other = run' ∧ Run.Parallel
      (fun p q => p.1 = q.1 ∧ State.Shares
        (fun r => (final r ∨ Exposed program r (n + 1) pc) ∨ located.val.Writes r) p.2 q.2)
      run run' :=
  ⟨_, rfl, executed ▸ step_parallel h fun _ hr =>
    .inr ⟨located.val, at_of_fetched fetched, .inl hr⟩⟩

/-- Two runs from states that share the exposed registers show the same and end alike. -/
theorem runFrom_parallel
    (h : State.Shares (fun r => final r ∨ Exposed program r n pc) state other) :
    Run.Parallel (fun memory memory' => ∀ r, final r → memory.read r = memory'.read r)
      (runFrom program n pc state) (runFrom program n pc other) := by
  have hr := runs_runFrom program n pc state
  generalize runFrom program n pc state = run at hr
  induction hr generalizing other with
  | ended fetched =>
    rw [runFrom_end fetched]
    exact .ok _ fun r hr => h.registers r (.inl hr)
  | overheated fetched =>
    rw [runFrom_zero fetched]
    exact .error _ _
  | faulted fetched executed =>
    obtain ⟨_, hy, hstep⟩ := exists_step_parallel fetched executed h
    cases hstep
    rw [runFrom_fault fetched hy]
    exact .error _ _
  | halted fetched executed =>
    obtain ⟨_, hy, hstep⟩ := exists_step_parallel fetched executed h
    obtain @⟨_, ⟨control, next⟩, _, hs⟩ := hstep
    obtain ⟨rfl, hs⟩ : Control.halt = control ∧ _ := hs
    rw [runFrom_halt fetched hy]
    exact .ok _ fun r hr => hs.registers r (.inl (.inl hr))
  | @goes _ _ target state _ located control _ _ fetched executed goes _ ih =>
    have hgoes := endsIn_step program located.val state
    rw [executed] at hgoes
    obtain ⟨_, hy, hstep⟩ := exists_step_parallel fetched executed h
    obtain @⟨_, ⟨control', next⟩, _, hs⟩ := hstep
    obtain ⟨rfl, hs⟩ : control = control' ∧ _ := hs
    rw [runFrom_succ fetched hy goes]
    refine (ih (hs.imp fun r hr => ?_)).append _
    by_cases hw : located.val.Writes r
    · exact .inr hw
    · exact .inl (hr.imp_right fun hr => ⟨located.val, at_of_fetched fetched,
        .inr ⟨hw, control, target, hgoes.1, goes, hr⟩⟩)

theorem Exposed.cases (h : Exposed program r n pc) (ha : At program pc instruction) :
    instruction.Reads r ∨ ¬instruction.Writes r ∧
      ∃ m control target, m < n ∧ Goes program instruction control ∧
        control.target? pc = some target ∧ Exposed program r m target := by
  cases n with
  | zero => exact h.elim
  | succ n =>
    obtain ⟨_, ha', hr | ⟨hw, control, target, hg, ht, he⟩⟩ := h
    · cases Option.some.inj (ha.symm.trans ha')
      exact .inl hr
    · cases Option.some.inj (ha.symm.trans ha')
      exact .inr ⟨hw, n, control, target, n.lt_succ_self, hg, ht, he⟩

/-- An instruction that is no jump exposes what it reads, and what is exposed behind it and not
written by it. -/
theorem exposed_next (ha : At program pc instruction)
    (hj : instruction.opcode ∉ [.rav, .rev, .rgv]) (h : Exposed program r n pc) :
    instruction.Reads r ∨ ¬instruction.Writes r ∧ Exposed program r n (pc + 1) := by
  refine (h.cases ha).imp_right fun ⟨hw, m, control, target, hm, hg, ht, he⟩ => ⟨hw, ?_⟩
  cases hg with
  | halt => cases ht
  | next =>
    cases ht
    exact he.mono (Nat.le_of_lt hm)
  | jump h => exact absurd h hj

/-- A jump exposes what is exposed at its label, in fewer steps. -/
theorem exposed_rav (ha : At program pc ⟨.rav, [.label name]⟩)
    (hl : program.labels.get? name = some target) (h : Exposed program r n pc) :
    ∃ m < n, Exposed program r m target := by
  obtain hr | ⟨-, m, control, _, hm, hg, ht, he⟩ := h.cases ha
  · exact hr.elim
  · cases hg with
    | halt h => cases h
    | next _ hr => exact absurd rfl hr
    | jump _ hn hb =>
      cases hn
      cases hl.symm.trans hb
      cases ht
      exact ⟨m, hm, he⟩

/-- A jump on a flag exposes what is exposed behind it or at its label. -/
theorem exposed_jump {op : Opcode} (hop : op = .rev ∨ op = .rgv)
    (ha : At program pc ⟨op, [.label name]⟩) (hl : program.labels.get? name = some target)
    (h : Exposed program r n pc) : Exposed program r n (pc + 1) ∨ Exposed program r n target := by
  have hn : ¬Instruction.Reads ⟨op, [.label name]⟩ r := by
    obtain rfl | rfl := hop <;> exact id
  obtain hr | ⟨-, m, control, _, hm, hg, ht, he⟩ := h.cases ha
  · exact absurd hr hn
  · cases hg with
    | halt h => obtain rfl | rfl := hop <;> cases h
    | next =>
      cases ht
      exact .inl (he.mono (Nat.le_of_lt hm))
    | jump _ hn hb =>
      cases hn
      cases hl.symm.trans hb
      cases ht
      exact .inr (he.mono (Nat.le_of_lt hm))

theorem not_exposed_nov (ha : At program pc ⟨.nov, []⟩) : ¬Exposed program r n pc := by
  intro h
  obtain hr | ⟨-, m, control, _, -, hg, ht, -⟩ := h.cases ha
  · exact hr
  · cases hg with
    | halt => cases ht
    | next hn => exact hn rfl
    | jump hm => simp at hm

end Exposed

end Machine

end Octet
