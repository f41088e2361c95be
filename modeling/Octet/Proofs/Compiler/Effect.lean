import Octet.Proofs.Compiler.Comparing

namespace Octet.Compiler

open Machine

variable {program : Program} {pc last : Nat} {state next : State} {e left right : Expr}
  {target w l r : Slot} {scope after : Scope}

section Effect

/-- An operand comes home. A slot is there already. -/
def bring (e : Expr) (work : State → Except Fault State) (state : State) : Except Fault State :=
  match e with
  | .slot _ => .ok state
  | _ => work state

def pushed (state : State) : State :=
  { state with ring := (state.ring.push (state.registers.read leftWork)).1 }

def popped (state : State) : Except Fault State := do
  let (v, ring) ← state.ring.pop
  return { state with ring }.set leftWork v

/-- Both operands come home. The left one waits in the ring if its register is used for the right
one. -/
def bringBoth (left right : Expr) (first second : State → Except Fault State) (state : State) :
    Except Fault State := do
  let state ← bring left first state
  if spills left right then
    let state ← bring right second (pushed state)
    popped state
  else bring right second state

def operated (op : Arith) (target l r : Slot) (state : State) : Except Fault State := do
  let (v, flags) ← state.flags.operate op (state.registers.read l) (state.registers.read r)
  return { state with flags }.set target v

/-- What the code of an expression makes of a state, or how it fails. All registers count, the work
registers too, and the ring with the values that are lost in it. -/
def effect : Expr → Slot → State → Except Fault State
  | .number n, target, state => .ok (state.set target (.ofInt n.toNat))
  | .text s, target, state => .ok (state.set target (.text s))
  | .slot i, target, state => .ok (state.set target (state.registers.read i))
  | .binary left op right, target, state =>
    match (Expr.binary left op right).folded? with
    | some v => .ok (state.set target (.text v.display))
    | none => do
      let state ← bringBoth left right (effect left leftWork) (effect right rightWork) state
      match op with
      | .arith op => operated op target (home leftWork left) (home rightWork right) state
      | .compare op =>
        return settled op target (home leftWork left) (home rightWork right) state

/-- What the code for two operands makes of a state. -/
def effectBoth (left right : Expr) (state : State) : Except Fault State :=
  bringBoth left right (effect left leftWork) (effect right rightWork) state

theorem effect_arith {op : Arith} (hv : (Expr.binary left (.arith op) right).folded? = none)
    (target : Slot) (state : State) : effect (.binary left (.arith op) right) target state =
      effectBoth left right state >>= operated op target (home leftWork left)
        (home rightWork right) := by
  rw [effect, hv]
  rfl

theorem effect_compare (op : Comparison) (left right : Expr) (target : Slot) (state : State) :
    effect (.binary left (.compare op) right) target state =
      (effectBoth left right state).map
        (settled op target (home leftWork left) (home rightWork right)) := by
  rw [effect, folded?_compare]
  exact (map_eq_pure_bind _ _).symm

/-- The code of two slots is empty, and they are compared where they are. -/
theorem effectBoth_slot (i j : Slot) (state : State) :
    effectBoth (.slot i) (.slot j) state = .ok state := by
  have hs : ¬spills (.slot i) (.slot j) := fun h => Bool.false_ne_true h.2
  rw [effectBoth, bringBoth]
  exact if_neg hs

end Effect

section Yields

/-- Wherever it is installed, the code of an expression has its effect. -/
def Effective (program : Program) (e : Expr) (target : Slot) : Prop :=
  ∀ {pc last scope after} (state : State),
    Installed program (compute e target) scope after pc last →
    Yields program pc state (effect e target state) (fun _ => last) Eq

theorem yields_load {text : String}
    (h : Installed program (load target text) scope after pc last) (state : State) :
    Yields program pc state (.ok (state.set target (.text text))) (fun _ => last) Eq := by
  obtain ⟨key, ha, hk, rfl⟩ := installed_load h
  exact ⟨_, reaches_next ha (step_tar_data hk) rfl, rfl⟩

theorem yields_bring (he : Effective program e w)
    (h : Installed program (fill e (compute e w)) scope after pc last) (state : State) :
    Yields program pc state (bring e (effect e w) state) (fun _ => last) Eq := by
  obtain ⟨i, rfl, rfl⟩ | ⟨hs, h⟩ := installed_fill h
  · exact ⟨state, .refl, rfl⟩
  · have hb : bring e (effect e w) state = effect e w state := by
      cases e with
      | slot i => exact absurd rfl (hs i)
      | _ => rfl
    rw [hb]
    exact he state h

theorem yields_popped (hout : At program pc ⟨.tab, [.register leftWork]⟩) (state : State) :
    Yields program pc state (popped state) (fun _ => pc + 1) Eq := by
  have hs : step program ⟨.tab, [.register leftWork]⟩ state = _ := step_tab
  rw [popped]
  cases hp : state.ring.pop with
  | error fault =>
    rw [hp] at hs
    exact breaks_of_step hout hs
  | ok p =>
    rw [hp] at hs
    exact ⟨_, reaches_next hout hs rfl, rfl⟩

theorem yields_operated {op : Arith}
    (ha : At program pc ⟨arithOpcode op, [.register target, .register l, .register r]⟩)
    (state : State) :
    Yields program pc state (operated op target l r state) (fun _ => pc + 1) Eq := by
  have hs : step program ⟨arithOpcode op, [.register target, .register l, .register r]⟩ state = _ :=
    step_arith op
  rw [operated]
  cases ho : state.flags.operate op (state.registers.read l) (state.registers.read r) with
  | error fault =>
    rw [ho] at hs
    exact breaks_of_step ha hs
  | ok p =>
    rw [ho] at hs
    exact ⟨_, reaches_next ha hs rfl, rfl⟩

theorem yields_effectBoth (hl : Effective program left leftWork)
    (hr : Effective program right rightWork)
    (h : Installed program (operands left right) scope after pc last) (state : State) :
    Yields program pc state (effectBoth left right state) (fun _ => last) Eq := by
  obtain ⟨_, p, hf, hs⟩ := installed_operands h
  rw [effectBoth, bringBoth]
  refine (yields_bring hl hf state).bind ?_
  rintro mid _ rfl
  split at hs
  · next hsp =>
    obtain ⟨q, hin, hs, hout, rfl⟩ := hs
    rw [if_pos hsp]
    have hpush : Reaches program p mid [] (p + 1) (pushed mid) :=
      reaches_next hin (step_tin leftWork) (exchanges_announce _)
    refine Yields.of_reaches ((yields_bring hr hs (pushed mid)).bind ?_) hpush
    rintro two _ rfl
    exact yields_popped hout two
  · next hsp =>
    rw [if_neg hsp]
    exact yields_bring hr hs mid

/-- The code of an expression has its effect in every program and at every place. -/
theorem effective (program : Program) (e : Expr) (target : Slot) : Effective program e target := by
  induction e generalizing target with
  | number n =>
    intro pc last scope after state h
    obtain ⟨ha, rfl⟩ := installed_number h
    exact ⟨_, reaches_next ha (step_tar_immediate _) rfl, rfl⟩
  | text s =>
    intro pc last scope after state h
    exact yields_load h state
  | slot i =>
    intro pc last scope after state h
    obtain ⟨ha, rfl⟩ := installed_slot h
    exact ⟨_, reaches_next ha step_tar_register rfl, rfl⟩
  | binary left op right ihl ihr =>
    intro pc last scope after state h
    cases hv : (Expr.binary left op right).folded? with
    | some v =>
      rw [effect, hv]
      exact yields_load (installed_folded hv h) state
    | none =>
      cases op with
      | arith op =>
        obtain ⟨p, hb, ha, rfl⟩ := installed_arith hv h
        rw [effect_arith hv]
        refine (yields_effectBoth (ihl leftWork) (ihr rightWork) hb state).bind ?_
        rintro mid _ rfl
        exact yields_operated ha mid
      | compare op =>
        obtain ⟨_, p, hb, ht⟩ := installed_compare h
        rw [effect_compare, yields_map]
        refine (yields_effectBoth (ihl leftWork) (ihr rightWork) hb state).trans ?_
        rintro mid _ rfl
        exact ⟨_, reaches_settled ht mid, rfl⟩

end Yields

end Octet.Compiler
