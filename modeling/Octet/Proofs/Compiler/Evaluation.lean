import Octet.Proofs.Compiler.Comparing

namespace Octet

def Expr.isSlot : Expr → Bool
  | slot _ => true
  | _ => false

/-- How many values wait in the ring at once, at most, while an expression is worked out. -/
def Expr.depth : Expr → Nat
  | binary left op right =>
    if (binary left op right).folded?.isSome then 0
    else if !left.isSlot && right.isBinary then max left.depth (right.depth + 1)
    else max left.depth right.depth
  | _ => 0

namespace Ring

theorem pop_of_toList {ring : Ring} {v : Value} {rest : List Value} (h : ring.toList = v :: rest) :
    ∃ popped, ring.pop = .ok (v, popped) ∧ popped.toList = rest := by
  cases hp : ring.pop with
  | error f =>
    have hf : f = .ringUnderflow := by
      rw [pop] at hp
      split at hp
      · cases hp
      · exact (Except.error.inj hp).symm
    rw [(pop_eq_error_iff ring).1 (hf ▸ hp)] at h
    cases h
  | ok p =>
    obtain ⟨w, popped⟩ := p
    have ht := toList_of_pop hp
    rw [h] at ht
    obtain ⟨rfl, rfl⟩ := List.cons.inj ht
    exact ⟨popped, rfl, rfl⟩

theorem take_toList (ring : Ring) : ring.toList.take 4 = ring.toList :=
  List.take_of_length_le (by rw [length_toList]; exact ring.live_le)

theorem live_of_toList {ring other : Ring} {n : Nat} (h0 : other.live = 0)
    (h : ring.toList = other.toList.take n) : ring.live = 0 := by
  have ho : other.toList = [] := List.length_eq_zero_iff.1 (by rw [length_toList, h0])
  rw [← length_toList, h, ho, List.take_nil, List.length_nil]

end Ring

namespace Compiler

open Machine

/-- The registers that expressions are worked out in. -/
def IsWork (r : Slot) : Prop := 6 ≤ r.val

instance : DecidablePred IsWork := fun r => inferInstanceAs (Decidable (6 ≤ r.val))

/-- The machine has worked out an expression into a register. Only an operation uses the work
registers beside its target. -/
structure Evaluated (e : Expr) (target : Slot) (v : Value) (carry : Bool) (state next : State) :
    Prop where
  value : next.registers.read target = v
  others : ∀ r, r ≠ target → (e.isBinary = true → ¬IsWork r) →
    next.registers.read r = state.registers.read r
  carry : next.flags.carry = carry
  ring : next.ring.toList = state.ring.toList.take (4 - e.depth)
  script : next.script = state.script

/-- The machine comes to the end of some code with an expression worked out into a register, or
fails on its way as the expression does. -/
def Works (program : Program) (pc : Nat) (state : State) (e : Expr) (target : Slot) (last : Nat) :
    Prop :=
  Yields program pc state (e.reckon state.registers state.flags.carry) (fun _ => last)
    fun p next => Evaluated e target p.1 p.2 state next

/-- Wherever it is installed, the code of an expression works it out. -/
def Correct (program : Program) (e : Expr) (target : Slot) : Prop :=
  ∀ {pc last scope after} (state : State),
    Installed program (compute e target) scope after pc last → Works program pc state e target last

variable {program : Program} {pc last : Nat} {state mid next : State} {e left right : Expr}
  {target w : Slot} {scope after : Scope} {v l r : Value} {carry : Bool} {fault : Fault}

/-- One instruction puts a value that is at hand into a register. -/
theorem evaluated_set (hd : e.depth = 0) :
    Evaluated e target v state.flags.carry state (state.set target v) where
  value := by simp [Memory.read_put]
  others r hr _ := by simp [Memory.read_put, hr]
  carry := rfl
  ring := by rw [ring_set, hd, Nat.sub_zero, Ring.take_toList]
  script := rfl

theorem evaluated_load {text : String}
    (h : Installed program (load target text) scope after pc last) (he : e.depth = 0) :
    ∃ next, Reaches program pc state [] last next ∧
      Evaluated e target (.text text) state.flags.carry state next := by
  obtain ⟨key, ha, hk, rfl⟩ := installed_load h
  exact ⟨_, reaches_next ha (step_tar_data hk) rfl, evaluated_set he⟩

section Operands

/-- An operand is at home, and the slots are as they were. -/
structure Filled (e : Expr) (w : Slot) (v : Value) (carry : Bool) (state next : State) : Prop
    extends Evaluated e (home w e) v carry state next where
  slots : ∀ i, ¬IsWork i → next.registers.read i = state.registers.read i

theorem filled_of_evaluated (hw : IsWork w) (he : ∀ i, e ≠ .slot i)
    (h : Evaluated e w v carry state next) : Filled e w v carry state next := by
  have hh : home w e = w := by
    cases e with
    | slot i => exact absurd rfl (he i)
    | _ => rfl
  refine ⟨hh.symm ▸ h, fun i hi => h.others i ?_ fun _ => hi⟩
  rintro rfl
  exact hi hw

theorem works_fill (hw : IsWork w) (hc : Correct program e w)
    (h : Installed program (fill e (compute e w)) scope after pc last) (state : State) :
    Yields program pc state (e.reckon state.registers state.flags.carry) (fun _ => last)
      fun p next => Filled e w p.1 p.2 state next := by
  obtain ⟨i, rfl, rfl⟩ | ⟨he, h⟩ := installed_fill h
  · exact ⟨state, .refl, ⟨⟨rfl, fun _ _ _ => rfl, rfl, (Ring.take_toList _).symm, rfl⟩,
      fun _ _ => rfl⟩⟩
  · exact (hc state h).imp fun _ _ hn => filled_of_evaluated hw he hn

/-- Without a place in the work registers, a left operand waits where the right one is worked
out. -/
theorem spills_iff (hl : left.Avoids IsWork) :
    spills left right ↔ (!left.isSlot && right.isBinary) = true := by
  cases left with
  | slot i =>
    have hi : i ≠ leftWork := by
      rintro rfl
      exact hl (by decide)
    simp [spills, home, Expr.isSlot, hi]
  | _ => simp [spills, home, Expr.isSlot]

/-- How many values wait in the ring at once, at most, while two operands are worked out. -/
def depthBoth (left right : Expr) : Nat :=
  if !left.isSlot && right.isBinary then max left.depth (right.depth + 1)
  else max left.depth right.depth

theorem depth_binary {op : BinaryOp} (h : (Expr.binary left op right).folded? = none) :
    (Expr.binary left op right).depth = depthBoth left right := by
  simp [Expr.depth, h, depthBoth]

theorem depthBoth_of_spills (hl : left.Avoids IsWork) (h : spills left right) :
    depthBoth left right = max left.depth (right.depth + 1) := by
  rw [depthBoth, if_pos ((spills_iff hl).1 h)]

theorem depthBoth_of_not_spills (hl : left.Avoids IsWork) (h : ¬spills left right) :
    depthBoth left right = max left.depth right.depth := by
  rw [spills_iff hl] at h
  rw [depthBoth, if_neg h]

theorem depth_le_depthBoth (left right : Expr) :
    left.depth ≤ depthBoth left right ∧ right.depth ≤ depthBoth left right := by
  rw [depthBoth]
  split <;> omega

/-- Both operands are at home, and the slots are as they were. -/
structure FilledBoth (left right : Expr) (l r : Value) (carry : Bool) (state next : State) :
    Prop where
  leftHome : next.registers.read (home leftWork left) = l
  rightHome : next.registers.read (home rightWork right) = r
  slots : ∀ i, ¬IsWork i → next.registers.read i = state.registers.read i
  carry : next.flags.carry = carry
  ring : next.ring.toList = state.ring.toList.take (4 - depthBoth left right)
  script : next.script = state.script

theorem home_rightWork_ne (hr : right.Avoids IsWork) : leftWork ≠ home rightWork right := by
  cases right with
  | slot i =>
    rintro rfl
    exact hr (by decide)
  | _ => exact (by decide : leftWork ≠ rightWork)

/-- A left operand that does not wait is still there when the right one has been worked out. -/
theorem filledBoth_of_not_spills (hs : ¬spills left right) (hl : left.Avoids IsWork)
    (hr : right.Avoids IsWork) (hm : Filled left leftWork l carry state mid) {last : Bool}
    (hn : Filled right rightWork r last mid next) :
    FilledBoth left right l r last state next where
  leftHome := by
    rw [← hm.value]
    by_cases hi : IsWork (home leftWork left)
    · have hh : home leftWork left = leftWork := by
        cases left with
        | slot i => exact absurd hi hl
        | _ => rfl
      rw [hh]
      exact hn.others _ (home_rightWork_ne hr) fun hb => absurd ⟨hh, hb⟩ hs
    · exact hn.slots _ hi
  rightHome := hn.value
  slots i hi := (hn.slots i hi).trans (hm.slots i hi)
  carry := hn.carry
  ring := by
    rw [hn.ring, hm.ring, List.take_take, depthBoth_of_not_spills hl hs]
    congr 1
    omega
  script := hn.script.trans hm.script

/-- A left operand that waits in the ring is on top again when the right one has been worked
out. -/
theorem toList_restored {pushed ring rest : Ring} (hdepth : right.depth ≤ 3)
    (hp : pushed.toList = (l :: rest.toList).take 4)
    (hn : ring.toList = pushed.toList.take (4 - right.depth)) :
    ring.toList = l :: rest.toList.take (3 - right.depth) := by
  have hk : min (4 - right.depth) 4 = 3 - right.depth + 1 := by omega
  rw [hn, hp, List.take_take, hk, List.take_succ_cons]

/-- An operation on operands that are at home. -/
theorem evaluated_binary {op : BinaryOp} (hv : (Expr.binary left op right).folded? = none)
    {first : Bool} (hm : FilledBoth left right l r first state mid)
    (hvalue : next.registers.read target = v)
    (hothers : ∀ i, i ≠ target → next.registers.read i = mid.registers.read i)
    (hcarry : next.flags.carry = carry) (hring : next.ring = mid.ring)
    (hscript : next.script = mid.script) :
    Evaluated (.binary left op right) target v carry state next where
  value := hvalue
  others r hr hw := (hothers r hr).trans (hm.slots r (hw rfl))
  carry := hcarry
  ring := by rw [hring, hm.ring, depth_binary hv]
  script := hscript.trans hm.script

theorem reckon_filled (hr : right.Avoids IsWork) (hm : Filled left leftWork l carry state mid) :
    right.reckon mid.registers mid.flags.carry = right.reckon state.registers carry := by
  rw [hm.carry]
  exact Expr.reckon_congr hr hm.slots carry

/-- The machine comes from a left operand that is at home to both operands, or fails as the right
one does. -/
def WorksRight (program : Program) (pc : Nat) (left right : Expr) (l : Value) (carry : Bool)
    (state mid : State) (last : Nat) : Prop :=
  Yields program pc mid (right.reckon state.registers carry) (fun _ => last)
    fun p next => FilledBoth left right l p.1 p.2 state next

variable (hcr : Correct program right rightWork) (hl : left.Avoids IsWork)
  (hr : right.Avoids IsWork)

include hcr hl hr

theorem worksRight_of_not_spills (hs : ¬spills left right)
    (h : Installed program (fill right (compute right rightWork)) scope after pc last)
    (hm : Filled left leftWork l carry state mid) :
    WorksRight program pc left right l carry state mid last := by
  have hw := works_fill (by decide) hcr h mid
  rw [reckon_filled hr hm] at hw
  exact hw.imp fun _ _ hn => filledBoth_of_not_spills hs hl hr hm hn

theorem worksRight_of_spills (hs : spills left right) (hdepth : depthBoth left right ≤ 4) {q : Nat}
    (hin : At program pc ⟨.tin, [.register leftWork]⟩)
    (h : Installed program (fill right (compute right rightWork)) scope after (pc + 1) q)
    (hout : At program q ⟨.tab, [.register leftWork]⟩)
    (hm : Filled left leftWork l carry state mid) :
    WorksRight program pc left right l carry state mid (q + 1) := by
  rw [depthBoth_of_spills hl hs] at hdepth
  let pushed : State := { mid with ring := (mid.ring.push (mid.registers.read leftWork)).1 }
  have hpush : Reaches program pc mid [] (pc + 1) pushed :=
    reaches_next hin (step_tin leftWork) (exchanges_announce _)
  have hw := works_fill (by decide) hcr h pushed
  have hv : right.reckon pushed.registers pushed.flags.carry = right.reckon state.registers carry :=
    (reckon_filled hr hm :)
  rw [hv] at hw
  have hhome : home leftWork left = leftWork := hs.1
  have hpushed : pushed.ring.toList = (l :: mid.ring.toList).take 4 := by
    rw [← hm.value, hhome]
    exact Ring.toList_push ..
  -- The right operand leaves the value that waits, as it needs three other places at most.
  refine (hw.of_reaches hpush).trans fun p two hf => ?_
  obtain ⟨ring, hpopped, hrest⟩ := Ring.pop_of_toList (toList_restored (by omega) hpushed hf.ring)
  have hstep : step program ⟨.tab, [.register leftWork]⟩ two = _ := step_tab
  rw [hpopped] at hstep
  refine ⟨{ two with ring }.set leftWork l, reaches_next hout hstep rfl, ?_, ?_, ?_, hf.carry, ?_,
    hf.script.trans hm.script⟩
  · rw [hhome, registers_set, Memory.read_put, if_pos rfl]
  · rw [registers_set, Memory.read_put, if_neg (home_rightWork_ne hr).symm]
    exact hf.value
  · intro i hi
    have hne : i ≠ leftWork := by
      rintro rfl
      exact hi (by decide)
    rw [registers_set, Memory.read_put, if_neg hne]
    exact (hf.slots i hi).trans (hm.slots i hi)
  · rw [ring_set, hrest, hm.ring, List.take_take, depthBoth_of_spills hl hs]
    congr 1
    omega

variable (hcl : Correct program left leftWork) (hdepth : depthBoth left right ≤ 4)

include hcl hdepth

/-- The code for two operands brings both home, or fails as one of them does. -/
theorem works_operands (h : Installed program (operands left right) scope after pc last)
    (state : State) :
    Yields program pc state (Expr.reckonBoth state.registers left right state.flags.carry)
      (fun _ => last) fun p next => FilledBoth left right p.1 p.2.1 p.2.2 state next := by
  obtain ⟨_, p, hf, hs⟩ := installed_operands h
  rw [Expr.reckonBoth]
  refine (works_fill (by decide) hcl hf state).bind fun q mid hm => ?_
  obtain ⟨l, carry⟩ := q
  have hw : WorksRight program p left right l carry state mid last := by
    split at hs
    · next hsp =>
      obtain ⟨q, hin, hs, hout, rfl⟩ := hs
      exact worksRight_of_spills hcr hl hr hsp hdepth hin hs hout hm
    · next hsp => exact worksRight_of_not_spills hcr hl hr hsp hs hm
  exact Yields.bind hw fun _ next hn => ⟨next, .refl, hn⟩

theorem works_arith {op : Arith} (hv : (Expr.binary left (.arith op) right).folded? = none)
    (h : Installed program (compute (.binary left (.arith op) right) target) scope after pc last)
    (state : State) : Works program pc state (.binary left (.arith op) right) target last := by
  obtain ⟨p, hb, ha, rfl⟩ := installed_arith hv h
  rw [Works, Expr.reckon_binary]
  refine (works_operands hcr hl hr hcl hdepth hb state).bind fun q mid hm => ?_
  obtain ⟨l, r, carry⟩ := q
  have hs : step program ⟨arithOpcode op, [.register target, .register (home leftWork left),
      .register (home rightWork right)]⟩ mid = _ := step_arith op
  rw [hm.leftHome, hm.rightHome, Flags.operate_eq, hm.carry] at hs
  dsimp only
  rw [BinaryOp.reckon]
  cases ho : (Flags.ofCarry carry).operate op l r with
  | error fault =>
    rw [ho] at hs
    exact breaks_of_step ha hs
  | ok q =>
    rw [ho] at hs
    refine ⟨_, reaches_next ha hs rfl, evaluated_binary hv hm ?_ ?_ rfl rfl rfl⟩
    · simp [Memory.read_put]
    · intro i hi
      simp [Memory.read_put, hi]

theorem works_compare {op : Comparison}
    (h : Installed program (compute (.binary left (.compare op) right) target) scope after
      pc last) (state : State) :
    Works program pc state (.binary left (.compare op) right) target last := by
  obtain ⟨_, p, hb, ht⟩ := installed_compare h
  rw [Works, Expr.reckon_binary]
  refine (works_operands hcr hl hr hcl hdepth hb state).bind fun q mid hm => ?_
  obtain ⟨l, r, carry⟩ := q
  obtain ⟨next, hrn, hvalue, hothers, hcarry, hring, hscript⟩ := reaches_truth ht mid
  rw [hm.leftHome, hm.rightHome] at hvalue
  exact ⟨next, hrn, evaluated_binary (folded?_compare left right op) hm hvalue hothers
    (hcarry.trans hm.carry) hring hscript⟩

end Operands

/-- The code of an expression works it out, as long as at most four values have to wait. -/
theorem correct_of_depth_le (ha : e.Avoids IsWork) (hdepth : e.depth ≤ 4) :
    Correct program e target := by
  induction e generalizing target with
  | number n =>
    intro pc last scope after state h
    obtain ⟨ha, rfl⟩ := installed_number h
    exact ⟨_, reaches_next ha (step_tar_immediate _) rfl, evaluated_set rfl⟩
  | text s =>
    intro pc last scope after state h
    exact evaluated_load h rfl
  | slot i =>
    intro pc last scope after state h
    obtain ⟨ha, rfl⟩ := installed_slot h
    exact ⟨_, reaches_next ha step_tar_register rfl, evaluated_set rfl⟩
  | binary left op right ihl ihr =>
    intro pc last scope after state h
    cases hv : (Expr.binary left op right).folded? with
    | some v =>
      rw [Works, Expr.reckon_of_folded? hv, ← Expr.text_display_of_folded? hv]
      refine evaluated_load (installed_folded hv h) ?_
      simp [Expr.depth, hv]
    | none =>
      rw [depth_binary hv] at hdepth
      obtain ⟨hl, hr⟩ := ha
      obtain ⟨hdl, hdr⟩ := depth_le_depthBoth left right
      have hcl : Correct program left leftWork := ihl hl (hdl.trans hdepth)
      have hcr : Correct program right rightWork := ihr hr (hdr.trans hdepth)
      cases op with
      | arith op => exact works_arith hcr hl hr hcl hdepth hv h state
      | compare op => exact works_compare hcr hl hr hcl hdepth h state

end Compiler

end Octet
