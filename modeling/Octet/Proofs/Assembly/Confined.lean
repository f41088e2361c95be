import Octet.Proofs.Assembly.Verdict
import Octet.Proofs.Machine.Course

namespace Octet

/-- The labels of a program lead into it or to its end, and its instructions name no key without an
entry. -/
structure Program.Contained (program : Program) : Prop where
  labels : ∀ name target, program.labels.get? name = some target →
    target ≤ program.instructions.size
  data : ∀ i ∈ program.instructions.toList, ∀ key, .data key ∈ i.val.operands →
    (program.data.get? key).isSome = true

namespace Machine

variable {program : Program} {n pc target : Nat} {state next : State} {signals : List Signal}
  {i : Located Instruction} {control : Control} {fault : Fault}

/-- From an instruction the machine goes to another one or to the end. -/
theorem target_le_of_goes (hp : program.Contained) (fetched : program.instructions[pc]? = some i)
    (hg : Goes program i.val control) (ht : control.target? pc = some target) :
    target ≤ program.instructions.size := by
  cases hg with
  | halt => cases ht
  | next =>
    cases ht
    exact (Array.getElem?_eq_some_iff.1 fetched).1
  | jump _ _ hl =>
    cases ht
    exact hp.labels _ _ hl

theorem Steps.counter_le (h : Steps program n pc state signals target next) (hp : program.Contained)
    (hpc : pc ≤ program.instructions.size) : target ≤ program.instructions.size := by
  induction h with
  | refl => exact hpc
  | @head n pc _ _ state _ _ i control _ _ fetched executed goes _ ih =>
    have hg := endsIn_step program i.val state
    rw [executed] at hg
    exact ih (target_le_of_goes hp fetched hg.1 goes)

/-- No instruction fails for want of a text. -/
theorem fault_ne_undefinedData (hp : program.Contained)
    (fetched : program.instructions[pc]? = some i)
    (executed : step program i.val state = ⟨signals, .error fault⟩) (key : String) :
    fault ≠ .undefinedData key := by
  rintro rfl
  have hi : i ∈ program.instructions.toList := by simpa using Array.mem_of_getElem? fetched
  have hg := endsIn_step program i.val state
  rw [executed] at hg
  obtain ⟨hk, hd⟩ := hg
  have hs := hp.data i hi key hk
  rw [hd] at hs
  cases hs

/-- No run fails for want of a text, whatever its budget and wherever it begins. -/
theorem runFrom_result_ne (hp : program.Contained) (left pc : Nat) (state : State) (line : Nat)
    (key : String) :
    (runFrom program left pc state).result ≠ .error ⟨line, .undefinedData key⟩ := by
  intro h
  obtain he | ⟨_, _, _, _, fetched, executed, -⟩ := exists_fetched_of_error h
  · cases he
  · exact fault_ne_undefinedData hp fetched executed key rfl

end Machine

namespace Assembly

variable {lines : List (List Char)} {program : Program}

theorem Describes.contained (h : Describes lines program) (hu : undefined? program = none) :
    program.Contained := by
  constructor
  · intro name target hl
    obtain ⟨n, -, rfl⟩ := (h.label name target).1 hl
    exact List.countP_le_length
  · intro i hi key hk
    have hs := (h.instruction i.line i.val).1 hi
    exact h.defines_iff.1 (h.undefined?_eq_none_iff.1 hu i.line i.val hs key hk)

/-- The line of an instruction names registers by their numbers, which are all below eight. -/
theorem Describes.numbers (h : Describes lines program) {i : Located Instruction}
    (hi : i ∈ program.instructions.toList) : OnLine lines i.line fun _ line =>
      ∃ name words, Text.Words isGap line (name :: words) ∧ List.Forall₂
        (fun word o => ∀ m, Operand.Numbers word m ↔ ∃ hm : m < 8, o = .register ⟨m, hm⟩)
        words i.val.operands := by
  obtain ⟨n, opcode, operands⟩ := i
  obtain ⟨earlier, line, hl, hn, -, hf⟩ := (h.instruction ..).1 hi
  refine ⟨earlier, line, hl, hn, ?_⟩
  generalize partAfter (earlier ++ [line]) = part at hf
  cases hf with
  | instruction _ hs =>
    obtain ⟨hw, -, ho⟩ := hs
    exact ⟨_, _, hw, ho.imp fun _ _ h _ => h.numbers_iff⟩

/-- A program that has been read keeps the machine within its bounds, however far it is taken: the
counter is at an instruction or at the end, the ring is where the plain count of the trace has
turned it, with its pointer and its number of values in their bounds, and the registers that the
line of the instruction names are those of its operands, all of them there. No run of the program
fails for want of a text. -/
theorem confined_of_read {listing : String} (h : read listing = .ok program) (registers : Memory)
    (script : Script) :
    (∀ n signals pc state,
      Machine.Steps program n 0 ⟨registers, .empty, .clear, script⟩ signals pc state →
      pc ≤ program.instructions.size ∧
      (state.ring.pointer.val, state.ring.live) =
        (Machine.fetches signals).foldl Machine.turn (0, 0) ∧
      state.ring.pointer.val < 4 ∧ state.ring.live ≤ 4 ∧
      ∀ i, program.instructions[pc]? = some i → OnLine (contents listing) i.line fun _ line =>
        ∃ name words, Text.Words isGap line (name :: words) ∧ List.Forall₂
          (fun word o => ∀ m, Operand.Numbers word m ↔ ∃ hm : m < 8, o = .register ⟨m, hm⟩)
          words i.val.operands) ∧
    ∀ line key, (Machine.run program registers script).result ≠
      .error ⟨line, .undefinedData key⟩ := by
  obtain ⟨-, hd, hu⟩ := describes_of_read h
  have hp := hd.contained hu
  refine ⟨fun n signals pc state hs => ?_, Machine.runFrom_result_ne hp _ _ _⟩
  have hg : (state.ring.pointer.val, state.ring.live) =
      (Machine.fetches signals).foldl Machine.turn (0, 0) := hs.gauge_eq
  have hb : ((Machine.fetches signals).foldl Machine.turn (0, 0)).1 < 4 ∧
      ((Machine.fetches signals).foldl Machine.turn (0, 0)).2 ≤ 4 :=
    Machine.foldl_turn_bounds _ (by decide) (by decide)
  rw [← hg] at hb
  refine ⟨hs.counter_le hp (Nat.zero_le _), hg, hb.1, hb.2, fun i fetched => ?_⟩
  exact hd.numbers (by simpa using Array.mem_of_getElem? fetched)

/-- Two steps into a program, one value is in the ring. -/
theorem confined_of_read_again :
    let listing :=
      ".data\ns0: \"hi\"\n.code\n.again:\n tar R7, S0 ; a text\n tin r7\n tab r0\n rav .again"
    let program : Program := ⟨#[⟨5, .tar, [.register 7, .data "s0"]⟩, ⟨6, .tin, [.register 7]⟩,
      ⟨7, .tab, [.register 0]⟩, ⟨8, .rav, [.label ".again"]⟩], ⟨[(".again", 0)]⟩, ⟨[("s0", "hi")]⟩⟩
    read listing = .ok program ∧
    (∃ signals state,
      Machine.Steps program 2 0 ⟨.initial, .empty, .clear, []⟩ signals 2 state ∧
      2 ≤ program.instructions.size ∧ (state.ring.pointer.val, state.ring.live) = (1, 1)) ∧
    ∀ line key, (Machine.run program .initial []).result ≠ .error ⟨line, .undefinedData key⟩ := by
  intro listing program
  have hread : read listing = .ok program := by decide +kernel
  have htext : program.data.get? "s0" = some "hi" := by decide
  have hs : Machine.Steps program 2 0 ⟨.initial, .empty, .clear, []⟩ _ 2 _ :=
    .head rfl (Machine.step_tar_data htext) rfl (.head rfl (Machine.step_tin 7) rfl .refl)
  obtain ⟨hsteps, hrun⟩ := confined_of_read hread .initial []
  obtain ⟨hcounter, hgauge, -⟩ := hsteps _ _ _ _ hs
  exact ⟨hread, ⟨_, _, hs, hcounter, hgauge⟩, hrun⟩

end Assembly

end Octet
