import Octet.Proofs.Machine.Heights

namespace Octet

section EndsIn

variable {ε α β : Type} {post : α → Prop} {post' : β → Prop} {fault : ε → Prop} {run : Run ε α}

/-- What a computation ends in, as a result or as a failure. -/
def Run.EndsIn (post : α → Prop) (fault : ε → Prop) (run : Run ε α) : Prop :=
  match run.result with
  | .ok a => post a
  | .error e => fault e

theorem Run.EndsIn.bind {f : α → Run ε β} (h : run.EndsIn post fault)
    (hf : ∀ a, post a → (f a).EndsIn post' fault) : (run >>= f).EndsIn post' fault := by
  obtain ⟨signals, result⟩ := run
  cases result with
  | ok a => exact hf a h
  | error e => exact h

theorem Run.endsIn_lift {result : Except ε α} (hp : ∀ a, result = .ok a → post a)
    (hf : ∀ e, result = .error e → fault e) : (liftM result : Run ε α).EndsIn post fault := by
  cases result with
  | ok a => exact hp a rfl
  | error e => exact hf e rfl

theorem Run.lift_bind (result : Except ε α) (f : α → Except ε β) :
    (liftM (result >>= f) : Run ε β) = (liftM result : Run ε α) >>= fun a => liftM (f a) := by
  cases result with
  | ok a => rfl
  | error e => rfl

end EndsIn

/-- Where a ring points and how many values it holds. -/
def Ring.gauge (ring : Ring) : Nat × Nat := (ring.pointer.val, ring.live)

namespace Machine

variable {program : Program} {operands : List Operand} {fault : Fault}

/-- Where an instruction may lead the machine. -/
inductive Goes (program : Program) (instruction : Instruction) : Control → Prop
  | halt (h : instruction.opcode = .nov) : Goes program instruction .halt
  | next (hn : instruction.opcode ≠ .nov) (hr : instruction.opcode ≠ .rav) :
      Goes program instruction .next
  | jump {name : String} {target : Nat} (h : instruction.opcode ∈ [.rav, .rev, .rgv])
      (names : instruction.operands.head? = some (.label name))
      (bound : program.labels.get? name = some target) : Goes program instruction (.jump target)

/-- The pointer of the ring and the number of its values in plain numbers, behind an instruction: a
value that is put there turns the pointer on, one that is taken turns it back. -/
def turn (gauge : Nat × Nat) : Opcode → Nat × Nat
  | .tin => ((gauge.1 + 1) % 4, min (gauge.2 + 1) 4)
  | .tab => ((gauge.1 + 3) % 4, gauge.2 - 1)
  | _ => gauge

theorem gauge_push (ring : Ring) (v : Value) :
    (ring.push v).1.gauge = turn ring.gauge .tin := rfl

theorem gauge_of_pop {ring rest : Ring} {v : Value} (h : ring.pop = .ok (v, rest)) :
    rest.gauge = turn ring.gauge .tab := by
  unfold Ring.pop at h
  split at h
  · cases h
    have hp : (ring.pointer - 1).val = (ring.pointer.val + 3) % 4 := by
      rw [Fin.sub_def, Nat.add_comm]
      rfl
    exact Prod.ext hp rfl
  · cases h

/-- A fault for want of a text is one for a key of the operands that no entry defines. -/
def Grounds (program : Program) (operands : List Operand) : Fault → Prop
  | .undefinedData key => .data key ∈ operands ∧ program.data.get? key = none
  | _ => True

theorem grounds_of_isOrdinary (h : fault.isOrdinary = true) : Grounds program operands fault := by
  cases fault with
  | undefinedData key => cases h
  | _ => trivial

section Parts

variable (program : Program) (operands : List Operand) (position : Nat)

theorem registerAt_endsIn : (liftM (registerAt operands position) : Run Fault Slot).EndsIn
    (fun _ => True) (Grounds program operands) := by
  unfold registerAt
  split <;> trivial

theorem valueAt_endsIn (registers : Memory) :
    (liftM (valueAt program registers operands position) : Run Fault Value).EndsIn
      (fun _ => True) (Grounds program operands) := by
  unfold valueAt
  split
  · trivial
  · trivial
  · trivial
  · trivial
  · next key hk =>
    split
    · trivial
    · next hd => exact ⟨List.mem_of_getElem? hk, hd⟩

theorem calculate_endsIn (op : Arith) (state : State) :
    (liftM (calculate operands op state) : Run Fault State).EndsIn
      (fun next => next.ring = state.ring) (Grounds program operands) := by
  simp only [calculate, Run.lift_bind]
  refine (registerAt_endsIn program operands 0).bind fun target _ =>
    (registerAt_endsIn program operands 1).bind fun left _ =>
      (registerAt_endsIn program operands 2).bind fun right _ => ?_
  exact (Run.endsIn_lift (fun _ _ => trivial) fun _ ho =>
    grounds_of_isOrdinary (isOrdinary_of_operate ho)).bind fun p _ => rfl

theorem pop_endsIn (ring : Ring) : (liftM ring.pop : Run Fault (Value × Ring)).EndsIn
    (fun p => p.2.gauge = turn ring.gauge .tab) (Grounds program operands) := by
  refine Run.endsIn_lift (fun _ => gauge_of_pop) fun e he => ?_
  unfold Ring.pop at he
  split at he
  · cases he
  · cases he
    trivial

theorem read_endsIn (script : Script) :
    script.read.EndsIn (fun _ => True) (Grounds program operands) := by
  rw [Script.read]
  cases script.next.1 with
  | some line => trivial
  | none => trivial

/-- A jump leads to its label if it is taken, and to the next instruction if not. -/
theorem destination_endsIn (taken : Bool) :
    (liftM (destination program operands taken) : Run Fault Control).EndsIn
      (fun control => taken = false ∧ control = .next ∨
        ∃ name target, operands.head? = some (.label name) ∧
          program.labels.get? name = some target ∧ control = .jump target)
      (Grounds program operands) := by
  unfold destination
  cases taken with
  | false => exact .inl ⟨rfl, rfl⟩
  | true =>
    rw [if_pos rfl]
    split
    · next name hn =>
      split
      · next target hl => exact .inr ⟨name, target, hn, hl, rfl⟩
      · trivial
    · trivial

end Parts

/-- A jump goes where its instruction may, and leaves the state as it is. -/
theorem jump_endsIn (opcode : Opcode) (h : opcode ∈ [.rav, .rev, .rgv]) (taken : Bool)
    (hr : opcode = .rav → taken = true) (state : State) :
    (do return (← liftM (destination program operands taken), state) : Run Fault _).EndsIn
      (fun p => Goes program ⟨opcode, operands⟩ p.1 ∧
        p.2.ring.gauge = turn state.ring.gauge opcode) (Grounds program operands) := by
  have hturn : turn state.ring.gauge opcode = state.ring.gauge := by
    simp only [List.mem_cons, List.not_mem_nil, or_false] at h
    obtain rfl | rfl | rfl := h <;> rfl
  refine (destination_endsIn program operands taken).bind fun control hc => ⟨?_, hturn.symm⟩
  obtain ⟨rfl, rfl⟩ | ⟨name, target, hn, hl, rfl⟩ := hc
  · exact .next (by rintro rfl; simp at h) fun h => nomatch hr h
  · exact .jump h hn hl

/-- What a step can do: it leads where its instruction may and turns the ring as its opcode says,
and where it lacks a text, the text is one of its operands and has no entry. -/
theorem endsIn_step (program : Program) (instruction : Instruction) (state : State) :
    (step program instruction state).EndsIn
      (fun p => Goes program instruction p.1 ∧
        p.2.ring.gauge = turn state.ring.gauge instruction.opcode)
      (Grounds program instruction.operands) := by
  obtain ⟨opcode, operands⟩ := instruction
  have hregister := registerAt_endsIn program operands
  have hvalue := valueAt_endsIn program operands
  cases opcode with
  | nov => exact ⟨.halt rfl, rfl⟩
  | tar | tir =>
    exact (hregister 0).bind fun _ _ => (hvalue 1 _).bind fun _ _ => ⟨.next nofun nofun, rfl⟩
  | tin => exact (hregister 0).bind fun _ _ => ⟨.next nofun nofun, gauge_push ..⟩
  | tab =>
    exact (hregister 0).bind fun _ _ => (pop_endsIn ..).bind fun _ hp => ⟨.next nofun nofun, hp⟩
  | mav => exact (hregister 0).bind fun _ _ => ⟨.next nofun nofun, rfl⟩
  | vir =>
    exact (hregister 0).bind fun _ _ => (read_endsIn ..).bind fun _ _ => ⟨.next nofun nofun, rfl⟩
  | mak => exact ⟨.next nofun nofun, rfl⟩
  | pav =>
    exact (hvalue 0 _).bind fun _ _ => (hvalue 1 _).bind fun _ _ => ⟨.next nofun nofun, rfl⟩
  | kur | sur | mur | dur | rur =>
    exact (calculate_endsIn ..).bind fun _ hs => ⟨.next nofun nofun, congrArg Ring.gauge hs⟩
  | rav => exact jump_endsIn .rav (by decide) true (fun _ => rfl) state
  | rev => exact jump_endsIn .rev (by decide) _ nofun state
  | rgv => exact jump_endsIn .rgv (by decide) _ nofun state

section Signals

/-- What a step can signal: texts, readings and the events of the ring. -/
def IsStepSignal : Signal → Prop
  | .display _ | .print _ | .read _ | .note (.ring _) => True
  | .event e => e ≠ .restless ∧ e ≠ .suffering
  | .note _ | .tick => False

theorem sends_announce (ring : Ring) (v : Value) :
    (Run.sendAll (announce (ring.push v).2) : Run Fault Unit).Sends IsStepSignal := by
  have he : ∀ e ∈ (ring.push v).2, e ≠ .restless ∧ e ≠ .suffering := by
    intro e he
    simp only [Ring.push, List.mem_append] at he
    obtain (he | he) | he := he <;> split at he <;> simp at he <;> simp [he]
  intro signal hs
  obtain ⟨e, hm, hs⟩ := List.mem_flatMap.1 hs
  simp only [List.mem_cons, List.not_mem_nil, or_false] at hs
  obtain rfl | rfl := hs
  · trivial
  · exact he e hm

theorem sends_step (program : Program) (instruction : Instruction) (state : State) :
    (step program instruction state).Sends IsStepSignal := by
  obtain ⟨opcode, operands⟩ := instruction
  cases opcode with
  | nov => nofun
  | mak => exact .bind (Run.sends_send trivial) nofun
  | tar | tir | tab | pav =>
    exact .bind (Run.sends_lift _) fun _ => .bind (Run.sends_lift _) fun _ => Run.sends_pure _
  | tin =>
    exact .bind (Run.sends_lift _) fun source =>
      .bind (sends_announce state.ring (state.registers.read source)) nofun
  | mav => exact .bind (Run.sends_lift _) fun source => .bind (Run.sends_send trivial) nofun
  | vir =>
    have hr : state.script.read.Sends IsStepSignal := by
      unfold Script.read
      cases state.script.next.1 <;> exact List.forall_mem_singleton.2 trivial
    exact .bind (Run.sends_lift _) fun target => .bind hr nofun
  | kur | sur | mur | dur | rur | rav | rev | rgv =>
    exact .bind (Run.sends_lift _) fun _ => Run.sends_pure _

end Signals

section Trace

variable {signals : List Signal} {n pc target : Nat} {state next : State}

/-- The opcodes of the instructions that a run fetches, as its trace tells them. -/
def fetches (signals : List Signal) : List Opcode :=
  signals.filterMap fun
    | .note (.fetched _ instruction) => some instruction.opcode
    | _ => none

@[simp] theorem fetches_append (signals more : List Signal) :
    fetches (signals ++ more) = fetches signals ++ fetches more :=
  List.filterMap_append ..

@[simp] theorem fetches_fetch (pc : Nat) (instruction : Instruction) (signals : List Signal) :
    fetches (.tick :: .note (.fetched pc instruction) :: signals) =
      instruction.opcode :: fetches signals := rfl

/-- No instruction fetches another one. -/
theorem fetches_step (program : Program) (instruction : Instruction) (state : State) :
    fetches (step program instruction state).signals = [] := by
  apply List.filterMap_eq_nil_iff.2
  intro signal hs
  have h := sends_step program instruction state signal hs
  cases signal with
  | note n =>
    cases n with
    | fetched pc other => cases h
    | _ => rfl
  | _ => rfl

/-- The counters of the ring are those that count the trace, however far the machine goes. -/
theorem Steps.gauge_eq (h : Steps program n pc state signals target next) :
    next.ring.gauge = (fetches signals).foldl turn state.ring.gauge := by
  induction h with
  | refl => rfl
  | @head n pc _ _ state next _ instruction control signals more fetched executed goes _ ih =>
    have hring := endsIn_step program instruction.val state
    have hsignals := fetches_step program instruction.val state
    rw [executed] at hring hsignals
    have hnext : next.ring.gauge = turn state.ring.gauge instruction.val.opcode := hring.2
    rw [ih, hnext, fetches_append, fetches_fetch, hsignals]
    rfl

/-- Counters that count anything stay within the ring. -/
theorem foldl_turn_bounds (opcodes : List Opcode) {gauge : Nat × Nat} (hp : gauge.1 < 4)
    (hl : gauge.2 ≤ 4) : (opcodes.foldl turn gauge).1 < 4 ∧ (opcodes.foldl turn gauge).2 ≤ 4 := by
  induction opcodes generalizing gauge with
  | nil => exact ⟨hp, hl⟩
  | cons op opcodes ih =>
    refine ih ?_ ?_
    · cases op with
      | tin | tab => exact Nat.mod_lt _ (by decide)
      | _ => exact hp
    · cases op with
      | tin => exact Nat.min_le_right ..
      | tab => exact Nat.le_trans (Nat.sub_le ..) hl
      | _ => exact hl

end Trace

end Machine

end Octet
