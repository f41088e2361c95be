import Octet.Compiler
import Octet.Proofs.Machine.Steps

namespace Octet.Machine

variable {program : Program} {state : State} {target left right : Slot}

@[simp] theorem registers_set (r : Slot) (v : Value) :
    (state.set r v).registers = state.registers.put r v := rfl

@[simp] theorem ring_set (r : Slot) (v : Value) : (state.set r v).ring = state.ring := rfl

@[simp] theorem flags_set (r : Slot) (v : Value) : (state.set r v).flags = state.flags := rfl

@[simp] theorem script_set (r : Slot) (v : Value) : (state.set r v).script = state.script := rfl

@[simp] theorem exchanges_announce (events : List Event) : exchanges (announce events) = [] := by
  induction events with
  | nil => rfl
  | cons e events ih => exact ih

theorem step_tar_register : step program ⟨.tar, [.register target, .register left]⟩ state =
    ⟨[], .ok (.next, state.set target (state.registers.read left))⟩ := rfl

theorem step_tar_immediate (i : Int) :
    step program ⟨.tar, [.register target, .immediate i]⟩ state =
      ⟨[], .ok (.next, state.set target (.ofInt i))⟩ := rfl

theorem step_tar_data {key text : String} (h : program.data.get? key = some text) :
    step program ⟨.tar, [.register target, .data key]⟩ state =
      ⟨[], .ok (.next, state.set target (.text text))⟩ := by
  have hv : valueAt program state.registers [.register target, .data key] 1 = .ok (.text text) := by
    simp [valueAt, h]
  simp only [step]
  rw [hv]
  rfl

theorem step_tin (source : Slot) : step program ⟨.tin, [.register source]⟩ state =
    ⟨announce (state.ring.push (state.registers.read source)).2,
      .ok (.next, { state with ring := (state.ring.push (state.registers.read source)).1 })⟩ := by
  let pushed := state.ring.push (state.registers.read source)
  have h : step program ⟨.tin, [.register source]⟩ state =
    ⟨announce pushed.2 ++ [], .ok (.next, { state with ring := pushed.1 })⟩ := rfl
  rw [h, List.append_nil]

theorem step_tab : step program ⟨.tab, [.register target]⟩ state =
    ⟨[], state.ring.pop.map fun (v, ring) => (.next, { state with ring }.set target v)⟩ := by
  simp only [step]
  cases state.ring.pop <;> rfl

theorem step_arith (op : Arith) :
    step program ⟨Compiler.arithOpcode op, [.register target, .register left, .register right]⟩
      state =
    ⟨[], (state.flags.operate op (state.registers.read left) (state.registers.read right)).map
      fun (v, flags) => (.next, { state with flags }.set target v)⟩ := by
  have hc : calculate [.register target, .register left, .register right] op state =
      (state.flags.operate op (state.registers.read left) (state.registers.read right)).map
        fun (v, flags) => { state with flags }.set target v := by
    simp only [calculate, registerAt, List.getElem?_cons_zero, List.getElem?_cons_succ, bind,
      Except.bind]
    cases state.flags.operate op (state.registers.read left) (state.registers.read right) <;> rfl
  cases op <;>
    simp only [Compiler.arithOpcode, step, hc] <;>
    cases state.flags.operate _ (state.registers.read left) (state.registers.read right) <;> rfl

theorem step_pav : step program ⟨.pav, [.register left, .register right]⟩ state =
    ⟨[], .ok (.next, { state with
      flags := state.flags.compare (state.registers.read left) (state.registers.read right) })⟩ :=
  rfl

theorem step_pav_immediate (i : Int) :
    step program ⟨.pav, [.register left, .immediate i]⟩ state =
      ⟨[], .ok (.next, { state with
        flags := state.flags.compare (state.registers.read left) (.ofInt i) })⟩ := rfl

theorem step_mav (source : Slot) : step program ⟨.mav, [.register source]⟩ state =
    ⟨[.display (state.registers.read source).display], .ok (.next, state)⟩ := rfl

theorem step_vir_some {line : String} (h : state.script.next.1 = some line) :
    step program ⟨.vir, [.register target]⟩ state =
      ⟨[.read (some line)], .ok (.next,
        { state with script := state.script.next.2 }.set target (.ofInput line))⟩ := by
  have hr : state.script.read =
      ⟨[.read (some line)], .ok (.ofInput line, state.script.next.2)⟩ := by
    rw [Script.read, h]
    rfl
  simp only [step]
  rw [hr]
  rfl

theorem step_vir_none (h : state.script.next.1 = none) :
    step program ⟨.vir, [.register target]⟩ state = ⟨[.read none], .error .input⟩ := by
  have hr : state.script.read = ⟨[.read none], .error .input⟩ := by
    rw [Script.read, h]
    rfl
  simp only [step]
  rw [hr]
  rfl

theorem destination_label {name : String} {pc : Nat} (h : program.labels.get? name = some pc)
    (taken : Bool) : destination program [.label name] taken =
      .ok (if taken then .jump pc else .next) := by
  cases taken <;> simp [destination, h]

theorem step_rav {name : String} {pc : Nat} (h : program.labels.get? name = some pc) :
    step program ⟨.rav, [.label name]⟩ state = ⟨[], .ok (.jump pc, state)⟩ := by
  simp only [step, destination_label h]
  rfl

theorem step_rev {name : String} {pc : Nat} (h : program.labels.get? name = some pc) :
    step program ⟨.rev, [.label name]⟩ state =
      ⟨[], .ok (if state.flags.equal then .jump pc else .next, state)⟩ := by
  simp only [step, destination_label h]
  rfl

theorem step_rgv {name : String} {pc : Nat} (h : program.labels.get? name = some pc) :
    step program ⟨.rgv, [.label name]⟩ state =
      ⟨[], .ok (if state.flags.greater then .jump pc else .next, state)⟩ := by
  simp only [step, destination_label h]
  rfl

end Octet.Machine
