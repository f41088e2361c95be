import Octet.Proofs.Flags.Calls
import Octet.Proofs.Machine.Course

namespace Octet.Machine

open Octet.Parser (bind_ok)

/-- An operation comes to the arithmetic unit once its registers are known. -/
def operandCalls (operands : List Operand) (op : Arith) (state : State) : List Call :=
  match registerAt operands 0, registerAt operands 1, registerAt operands 2 with
  | .ok _, .ok left, .ok right =>
    state.flags.calls op (state.registers.read left) (state.registers.read right)
  | _, _, _ => []

def stepCalls (instruction : Instruction) (state : State) : List Call :=
  match instruction.opcode with
  | .kur => operandCalls instruction.operands .add state
  | .sur => operandCalls instruction.operands .sub state
  | .mur => operandCalls instruction.operands .mul state
  | .dur => operandCalls instruction.operands .div state
  | .rur => operandCalls instruction.operands .mod state
  | _ => []

/-- The calls of the arithmetic unit in a run with some steps left, as far as the run comes. -/
def callsFrom (program : Program) : Nat → Nat → State → List Call
  | 0, _, _ => []
  | left + 1, pc, state =>
    match program.instructions[pc]? with
    | none => []
    | some instruction =>
      stepCalls instruction.val state ++
        match (step program instruction.val state).result with
        | .error _ => []
        | .ok (control, next) =>
          match control.target? pc with
          | none => []
          | some target => callsFrom program left target next

section Calls

variable {program : Program} {operands : List Operand} {op : Arith} {instruction : Instruction}
  {n left pc target : Nat} {state next : State} {signals : List Signal} {call : Call}

theorem isInt64_of_mem_operandCalls (h : call ∈ operandCalls operands op state) :
    Text.isInt64 call.left = true ∧ Text.isInt64 call.right = true := by
  unfold operandCalls at h
  split at h
  · exact isInt64_of_mem_calls h
  · cases h

theorem isInt64_of_mem_stepCalls (h : call ∈ stepCalls instruction state) :
    Text.isInt64 call.left = true ∧ Text.isInt64 call.right = true := by
  unfold stepCalls at h
  split at h
  all_goals first
    | exact isInt64_of_mem_operandCalls h
    | cases h

theorem isInt64_of_mem_callsFrom (h : call ∈ callsFrom program left pc state) :
    Text.isInt64 call.left = true ∧ Text.isInt64 call.right = true := by
  induction left generalizing pc state with
  | zero => cases h
  | succ left ih =>
    rw [callsFrom] at h
    split at h
    · cases h
    · obtain h | h := List.mem_append.1 h
      · exact isInt64_of_mem_stepCalls h
      · split at h
        · cases h
        · split at h
          · cases h
          · exact ih h

theorem chained_calculate (h : calculate operands op state = .ok next) :
    Chained state.flags.carry (operandCalls operands op state) next.flags.carry := by
  obtain ⟨target, ht, h⟩ := bind_ok h
  obtain ⟨left, hl, h⟩ := bind_ok h
  obtain ⟨right, hr, h⟩ := bind_ok h
  obtain ⟨⟨v, after⟩, ho, h⟩ := bind_ok h
  rw [operandCalls, ht, hl, hr]
  cases h
  exact chained_operate ho

/-- A step hands the carry through its call, if it has one, and leaves it alone if not. -/
theorem chained_step (program : Program) (instruction : Instruction) (state : State) :
    (step program instruction state).EndsIn
      (fun p => Chained state.flags.carry (stepCalls instruction state) p.2.flags.carry)
      fun _ => True := by
  obtain ⟨opcode, operands⟩ := instruction
  have hany {α : Type} (run : Run Fault α) : run.EndsIn (fun _ => True) fun _ => True := by
    obtain ⟨signals, fault | a⟩ := run <;> trivial
  cases opcode with
  | nov | mak => exact .nil
  | tin | mav | rav | rev | rgv => exact (hany _).bind fun _ _ => .nil
  | tar | tir | tab | vir => exact (hany _).bind fun _ _ => (hany _).bind fun _ _ => .nil
  | pav =>
    exact (hany _).bind fun left _ => (hany _).bind fun right _ =>
      .of_eq (state.flags.carry_compare left right).symm
  | kur | sur | mur | dur | rur =>
    exact (Run.endsIn_lift (fun _ h => chained_calculate h) fun _ _ => trivial).bind fun _ h => h

/-- Steps of the machine hand the carry through all calls of the arithmetic unit. -/
theorem Steps.chained (h : Steps program n pc state signals target next) :
    Chained state.flags.carry (callsFrom program n pc state) next.flags.carry := by
  induction h with
  | refl => exact .nil
  | @head n pc _ _ state next _ instruction control signals more fetched executed goes _ ih =>
    have hstep := chained_step program instruction.val state
    rw [executed] at hstep
    simp only [callsFrom, fetched, executed, goes]
    exact hstep.append ih

end Calls

end Octet.Machine
