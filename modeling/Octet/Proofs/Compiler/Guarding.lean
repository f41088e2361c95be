import Octet.Proofs.Compiler.Evaluation

namespace Octet.Compiler

open Machine

variable {program : Program} {pc last otherwise miss : Nat} {state : State} {left right : Expr}
  {condition : Expr} {scope after : Scope} {carry : Bool}

/-- A condition has been worked out, and the slots are as they were. -/
structure Guarded (condition : Expr) (carry : Bool) (state next : State) : Prop where
  slots : ∀ i, ¬IsWork i → next.registers.read i = state.registers.read i
  carry : next.flags.carry = carry
  ring : next.ring.toList = state.ring.toList.take (4 - condition.depth)
  script : next.script = state.script

/-- The machine goes on behind a guard or at the label for a miss, or fails as the condition
does. -/
def WorksGuard (program : Program) (pc : Nat) (condition : Expr) (state : State)
    (last miss : Nat) : Prop :=
  Yields program pc state (condition.reckonGuard state.registers state.flags.carry)
    (fun p => if p.1 then last else miss) fun p next => Guarded condition p.2 state next

theorem reckonGuard_plain (hc : isPlain condition) (memory : Memory) (carry : Bool) :
    condition.reckonGuard memory carry = (do
      let (v, carry) ← condition.reckon memory carry
      return (v.isNonzero, carry)) := by
  match condition, hc with
  | .number _, _ | .text _, _ | .slot _, _ | .binary _ (.arith _) _, _ => rfl

theorem worksGuard_plain (hc : isPlain condition) (ha : condition.Avoids IsWork)
    (hdepth : condition.depth ≤ 4)
    (h : Installed program (guard condition otherwise) scope after pc last)
    (hm : program.labels.get? (Listing.labelName otherwise) = some miss) (state : State) :
    WorksGuard program pc condition state last miss := by
  obtain ⟨p, hf, ht, hj, rfl⟩ := installed_guard_plain hc h
  have hw := works_fill (by decide) (correct_of_depth_le ha hdepth) hf state
  rw [WorksGuard, reckonGuard_plain hc]
  refine hw.bind fun q one hf => ?_
  obtain ⟨v, carry⟩ := q
  let two : State := { one with
    flags := one.flags.compare (one.registers.read (home leftWork condition)) (.ofInt 0) }
  have htwo : two.flags.equal = !v.isNonzero := by
    have hv : one.registers.read (home leftWork condition) = v := hf.value
    rw [Value.isNonzero, Bool.not_not, ← hv]
    exact Flags.equal_compare ..
  have hlast : Reaches program (p + 1) two [] (if two.flags.equal then miss else p + 2) two :=
    reaches_of_step hj (step_rev hm) (by cases two.flags.equal <;> rfl)
  have hr := (reaches_next ht (step_pav_immediate 0) rfl).trans hlast
  refine ⟨two, ?_, hf.slots, (Flags.carry_compare ..).trans hf.carry, hf.ring, hf.script⟩
  rw [htwo] at hr
  cases hz : v.isNonzero with
  | true =>
    rw [hz] at hr
    exact hr
  | false =>
    rw [hz] at hr
    exact hr

/-- Behind two operands that are at home, the machine goes on or misses as they compare. -/
theorem reaches_comparison {op : Comparison} {l r : Slot}
    (ht : Listing.Placed program pc [test op l r])
    (hj : if op = .notEqual then
        Listing.Placed program (pc + 1) (jumps op otherwise) ∧
          last = pc + 1 + Listing.size (jumps op otherwise)
      else
        ∃ skip q, Listing.Placed program (pc + 1) (jumps op skip) ∧
          q = pc + 1 + Listing.size (jumps op skip) ∧
          At program q ⟨.rav, [.label (Listing.labelName otherwise)]⟩ ∧ last = q + 1 ∧
          program.labels.get? (Listing.labelName skip) = some last)
    (hm : program.labels.get? (Listing.labelName otherwise) = some miss) (state : State) :
    Reaches program pc state []
      (if op.passes (state.registers.read l) (state.registers.read r) then last else miss)
      (compared op l r state) := by
  have hv : op.passes _ _ = (taken op (compared op l r state).flags == _) := passes_eq ..
  rw [hv]
  split at hj
  · next hop =>
    obtain ⟨hj, rfl⟩ := hj
    have hr := (reaches_test ht state).trans (reaches_jumps hj hm)
    have hn : decide (op ≠ .notEqual) = false := by simp [hop]
    rw [hn]
    cases hv : taken op (compared op l r state).flags with
    | true => simpa [hv] using hr
    | false => simpa [hv] using hr
  · next hop =>
    obtain ⟨skip, q, hj, rfl, hrav, rfl, hl⟩ := hj
    have hr := (reaches_test ht state).trans (reaches_jumps hj hl)
    have hn : decide (op ≠ .notEqual) = true := by simp [hop]
    rw [hn]
    cases hv : taken op (compared op l r state).flags with
    | true => simpa [hv] using hr
    | false =>
      rw [hv] at hr
      exact hr.trans (reaches_of_step hrav (step_rav hm) rfl)

theorem worksGuard_compare {op : Comparison} (hl : left.Avoids IsWork) (hr : right.Avoids IsWork)
    (hdepth : depthBoth left right ≤ 4)
    (h : Installed program (guard (.binary left (.compare op) right) otherwise) scope after
      pc last)
    (hm : program.labels.get? (Listing.labelName otherwise) = some miss) (state : State) :
    WorksGuard program pc (.binary left (.compare op) right) state last miss := by
  obtain ⟨_, p, hb, ht, hj⟩ := installed_guard_compare h
  obtain ⟨hdl, hdr⟩ := depth_le_depthBoth left right
  have hw := works_operands (correct_of_depth_le hr (hdr.trans hdepth)) hl hr
    (correct_of_depth_le hl (hdl.trans hdepth)) hdepth hb state
  rw [WorksGuard, Expr.reckonGuard]
  refine hw.bind fun q one hf => ?_
  obtain ⟨l, r, carry⟩ := q
  have hr := reaches_comparison ht hj hm one
  rw [hf.leftHome, hf.rightHome] at hr
  exact ⟨_, hr, hf.slots, (carry_tested ..).trans hf.carry,
    hf.ring.trans (by rw [depth_binary (folded?_compare left right op)]), hf.script⟩

/-- The code of a guard leads the machine as its condition does. -/
theorem works_guard (ha : condition.Avoids IsWork) (hdepth : condition.depth ≤ 4)
    (h : Installed program (guard condition otherwise) scope after pc last)
    (hm : program.labels.get? (Listing.labelName otherwise) = some miss) (state : State) :
    WorksGuard program pc condition state last miss := by
  obtain hc | ⟨left, op, right, rfl⟩ := isPlain_or condition
  · exact worksGuard_plain hc ha hdepth h hm state
  · rw [depth_binary (folded?_compare left right op)] at hdepth
    exact worksGuard_compare ha.1 ha.2 hdepth h hm state

theorem reckon_compare (memory : Memory) (left right : Expr) (op : Comparison) (carry : Bool) :
    (Expr.binary left (.compare op) right).reckon memory carry =
      ((Expr.binary left (.compare op) right).reckonGuard memory carry).map
        fun (go, carry) => (.ofBool go, carry) := by
  rw [Expr.reckon_binary, Expr.reckonGuard]
  cases Expr.reckonBoth memory left right carry <;> rfl

theorem isTruthy_ofBool (b : Bool) : (Value.ofBool b).isTruthy = b := by
  cases b <;> rfl

end Octet.Compiler
