import Octet.Proofs.Machine.Steps

namespace Octet.Machine

variable {program : Program} {n m pc target last : Nat} {state next final : State}
  {signals more seen : List Signal} {fault other : Fault}

/-- The machine cannot go on from a place. -/
def Stuck (program : Program) (pc : Nat) (state : State) : Prop :=
  ∀ n signals target next, ¬Steps program (n + 1) pc state signals target next

theorem stuck_of_none (h : program.instructions[pc]? = none) (state : State) :
    Stuck program pc state := by
  intro n signals target next hn
  cases hn with
  | head fetched => cases h.symm.trans fetched

theorem FaultsAt.ne_none (h : FaultsAt program pc state seen fault) :
    program.instructions[pc]? ≠ none := by
  obtain ⟨instruction, signals, ha, -⟩ := h
  intro hn
  rw [At, hn] at ha
  cases ha

theorem FaultsAt.stuck (h : FaultsAt program pc state seen fault) : Stuck program pc state := by
  obtain ⟨instruction, signals, ha, hf, -⟩ := h
  obtain ⟨located, hl, rfl⟩ := Option.map_eq_some_iff.1 ha
  intro n more target next hn
  cases hn with
  | head fetched executed =>
    cases Option.some.inj (hl.symm.trans fetched)
    cases hf.symm.trans executed

theorem FaultsAt.unique (h : FaultsAt program pc state seen fault)
    (h' : FaultsAt program pc state more other) : fault = other := by
  obtain ⟨instruction, first, ha, hf, -⟩ := h
  obtain ⟨instruction', second, ha', hf', -⟩ := h'
  cases Option.some.inj (ha.symm.trans ha')
  cases hf.symm.trans hf'
  rfl

/-- From one place the machine comes to one end only. -/
theorem Steps.unique (h : Steps program n pc state signals target next)
    (hs : Stuck program target next) (h' : Steps program m pc state more last final)
    (hs' : Stuck program last final) :
    n = m ∧ signals = more ∧ target = last ∧ next = final := by
  induction h generalizing m more with
  | refl =>
    cases h' with
    | refl => exact ⟨rfl, rfl, rfl, rfl⟩
    | head fetched executed goes rest =>
      exact absurd (.head fetched executed goes rest) (hs _ _ _ _)
  | head fetched executed goes rest ih =>
    cases h' with
    | refl => exact absurd (.head fetched executed goes rest) (hs' _ _ _ _)
    | head fetched' executed' goes' rest' =>
      cases Option.some.inj (fetched.symm.trans fetched')
      cases executed.symm.trans executed'
      cases Option.some.inj (goes.symm.trans goes')
      obtain ⟨rfl, rfl, rfl, rfl⟩ := ih hs rest'
      exact ⟨rfl, rfl, rfl, rfl⟩

section Yields

variable {α β : Type} {result : Except Fault α} {result' : Except Fault β} {exit : α → Nat}
  {exit' : β → Nat} {post : α → State → Prop} {post' : β → State → Prop}

/-- Where the program ends behind every result, a result that the machine yields is an end. -/
theorem Yields.exists_stuck (h : Yields program pc state result exit post)
    (he : ∀ a, program.instructions[exit a]? = none) :
    ∃ n signals stop final, Steps program n pc state signals stop final ∧
      Stuck program stop final ∧
      match result with
      | .ok a => stop = exit a ∧ post a final
      | .error fault => ∃ seen, FaultsAt program stop final seen fault := by
  cases result with
  | ok a =>
    obtain ⟨next, ⟨n, signals, hn, -⟩, hp⟩ := h
    exact ⟨n, signals, exit a, next, hn, stuck_of_none (he a) next, rfl, hp⟩
  | error fault =>
    obtain ⟨_, seen, stop, final, ⟨n, signals, hn, -⟩, hf, -⟩ := h
    exact ⟨n, signals, stop, final, hn, hf.stuck, seen, hf⟩

/-- Two results of one run: they lead to one place and answer to one state, or they fail alike. -/
def Meet (result : Except Fault α) (exit : α → Nat) (post : α → State → Prop)
    (result' : Except Fault β) (exit' : β → Nat) (post' : β → State → Prop) : Prop :=
  match result, result' with
  | .ok a, .ok b => exit a = exit' b ∧ ∃ next, post a next ∧ post' b next
  | .error fault, .error other => fault = other
  | _, _ => False

theorem Yields.meet (h : Yields program pc state result exit post)
    (h' : Yields program pc state result' exit' post')
    (he : ∀ a, program.instructions[exit a]? = none)
    (he' : ∀ b, program.instructions[exit' b]? = none) :
    Meet result exit post result' exit' post' := by
  obtain ⟨n, signals, stop, final, hn, hs, hr⟩ := h.exists_stuck he
  obtain ⟨m, more, stop', final', hm, hs', hr'⟩ := h'.exists_stuck he'
  obtain ⟨-, -, rfl, rfl⟩ := hn.unique hs hm hs'
  match result, result' with
  | .ok a, .ok b => exact ⟨hr.1.symm.trans hr'.1, final, hr.2, hr'.2⟩
  | .ok a, .error fault =>
    obtain ⟨seen, hf⟩ := hr'
    exact absurd (hr.1 ▸ he a) hf.ne_none
  | .error fault, .ok b =>
    obtain ⟨seen, hf⟩ := hr
    exact absurd (hr'.1 ▸ he' b) hf.ne_none
  | .error fault, .error other =>
    obtain ⟨seen, hf⟩ := hr
    obtain ⟨seen', hf'⟩ := hr'
    exact hf.unique hf'

/-- If a state tells the results apart that lead to it, the machine yields one result only. -/
theorem Yields.unique {other : Except Fault α} (h : Yields program pc state result exit post)
    (h' : Yields program pc state other exit post)
    (he : ∀ a, program.instructions[exit a]? = none)
    (hi : ∀ a b next, exit a = exit b → post a next → post b next → a = b) : result = other := by
  have hm := h.meet h' he he
  match result, other with
  | .ok a, .ok b =>
    obtain ⟨hexit, next, ha, hb⟩ := hm
    exact congrArg Except.ok (hi a b next hexit ha hb)
  | .error fault, .error other => exact congrArg Except.error hm
  | .ok a, .error fault | .error fault, .ok a => exact hm.elim

end Yields

end Octet.Machine
