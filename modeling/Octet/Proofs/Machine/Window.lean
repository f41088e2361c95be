import Octet.Proofs.Machine.Steps

namespace Octet.Machine

variable {program : Program} {n pc first last target stop : Nat} {state next : State}
  {signals seen more : List Signal} {fault : Fault}

/-- The machine comes from a place to an instruction at a position, and that fails. -/
def BreaksAt (program : Program) (pc : Nat) (state : State) (seen : List Signal) (stop : Nat)
    (fault : Fault) : Prop :=
  ∃ before own next, Reaches program pc state before stop next ∧
    FaultsAt program stop next own fault ∧ seen = before ++ own

theorem Reaches.breaksAt (h : Reaches program pc state seen target next)
    (hb : BreaksAt program target next more stop fault) :
    BreaksAt program pc state (seen ++ more) stop fault := by
  obtain ⟨before, own, final, hr, hf, rfl⟩ := hb
  exact ⟨seen ++ before, own, final, h.trans hr, hf, (List.append_assoc ..).symm⟩

theorem breaksAt_of_step {instruction : Instruction} (h : At program pc instruction)
    (executed : step program instruction state = ⟨signals, .error fault⟩) :
    BreaksAt program pc state (exchanges signals) pc fault :=
  ⟨[], _, state, .refl, ⟨instruction, signals, h, executed, rfl⟩, rfl⟩

/-- A program with no instructions but those between two positions: it halts before the first, and
there is nothing from the last on. -/
def window (program : Program) (first last : Nat) : Program :=
  { program with
    instructions := (cut program last).instructions.mapIdx fun i instruction =>
      if i < first then ⟨0, ⟨.nov, []⟩⟩ else instruction }

theorem fetch_window_of_le (h : first ≤ pc) : (window program first last).instructions[pc]? =
    if pc < last then program.instructions[pc]? else none := by
  rw [window, Array.getElem?_mapIdx, fetch_cut]
  simp [Nat.not_lt_of_le h]

theorem fetch_window_of_lt (h : pc < first) {instruction : Located Instruction}
    (fetched : (window program first last).instructions[pc]? = some instruction) :
    instruction.val = ⟨.nov, []⟩ := by
  rw [window, Array.getElem?_mapIdx, Option.map_eq_some_iff] at fetched
  obtain ⟨_, -, rfl⟩ := fetched
  rw [if_pos h]

/-- What the window executes and does not halt at is an instruction of the program between the two
positions. -/
theorem fetched_of_window {instruction : Located Instruction}
    (fetched : (window program first last).instructions[pc]? = some instruction)
    (hn : instruction.val ≠ ⟨.nov, []⟩) :
    first ≤ pc ∧ pc < last ∧ program.instructions[pc]? = some instruction := by
  obtain h | h := Nat.lt_or_ge pc first
  · exact absurd (fetch_window_of_lt h fetched) hn
  · rw [fetch_window_of_le h] at fetched
    split at fetched
    · next hl => exact ⟨h, hl, fetched⟩
    · cases fetched

theorem Steps.of_window (h : Steps (window program first last) n pc state signals target next) :
    Steps program n pc state signals target next := by
  induction h with
  | refl => exact .refl
  | @head n pc _ _ state _ _ instruction control _ _ fetched executed goes _ ih =>
    have hn : instruction.val ≠ ⟨.nov, []⟩ := by
      intro hn
      rw [hn] at executed
      cases executed
      cases goes
    exact .head (fetched_of_window fetched hn).2.2 executed goes ih

/-- A fault in the window is a fault of the program between the two positions. -/
theorem Breaks.of_window (h : Breaks (window program first last) pc state seen fault) :
    ∃ stop, first ≤ stop ∧ stop < last ∧ BreaksAt program pc state seen stop fault := by
  obtain ⟨before, own, stop, next, ⟨n, signals, hs, hb⟩, ⟨instruction, more, ha, hf, ho⟩, rfl⟩ := h
  obtain ⟨located, fetched, rfl⟩ := Option.map_eq_some_iff.1 ha
  have hn : located.val ≠ ⟨.nov, []⟩ := by
    intro hn
    rw [hn] at hf
    cases hf
  obtain ⟨hl, hlt, fetched⟩ := fetched_of_window fetched hn
  exact ⟨stop, hl, hlt, before, own, next, ⟨n, signals, hs.of_window, hb⟩,
    ⟨located.val, more, by rw [At, fetched]; rfl, hf, ho⟩, rfl⟩

end Octet.Machine
