import Octet.Proofs.Compiler.Statements
import Octet.Proofs.Toolchain.Stages

namespace Octet.Toolchain

open Machine

variable {source : String} {failure : Failure} {program : Block} {registers : Memory}
  {script : Script} {n pc : Nat} {signals : List Signal} {state : State}

theorem IsPreface.calm (h : IsPreface signals) : Calm signals := by
  obtain ⟨notes, rfl, hn⟩ := h
  intro signal hs
  obtain ⟨note, hm, rfl⟩ := List.mem_map.1 hs
  cases note with
  | ring e => exact absurd hm (hn e)
  | _ => rfl

/-- The run of a program that a source writes raises no event and ends in no fault but an ordinary
one. -/
theorem run_safe (h : (parse source).result = .ok program) (registers : Memory) (script : Script) :
    Calm (Machine.run (program.compile.assembled none) registers script).signals ∧
      ∀ fault, (Machine.run (program.compile.assembled none) registers script).result =
        .error fault → fault.val.isOrdinary = true :=
  runFrom_safe (program.allSound_compile none (every_normal_of_result h)) stepLimit level_empty

theorem calm_compileAndExecute (source : String) (registers : Memory) (script : Script) :
    Calm (compileAndExecute source registers script).signals := by
  cases h : (parse source).result with
  | error failure =>
    rw [compileAndExecute_of_error h]
    exact (isPreface_parse source).calm
  | ok program =>
    obtain ⟨preface, hp, hr⟩ := compileAndExecute_of_ok h registers script
    rw [hr]
    exact calm_append.2 ⟨hp.calm, (run_safe h registers script).1⟩

/-- A source without a failure of its own can fail only while it runs, and there only by what it
computes, reads or how long it takes. -/
theorem exists_fault_of_ok (h : (parse source).result = .ok program)
    (hf : (compileAndExecute source registers script).result = .error failure) :
    ∃ fault, failure = .running fault ∧ fault.val.isOrdinary = true := by
  obtain ⟨preface, -, hr⟩ := compileAndExecute_of_ok h registers script
  rw [hr] at hf
  have hs := (run_safe h registers script).2
  cases hv : (Machine.run (program.compile.assembled none) registers script).result with
  | error fault =>
    rw [hv] at hf
    exact ⟨fault, (Except.error.inj hf).symm, hs fault hv⟩
  | ok memory =>
    rw [hv] at hf
    cases hf

theorem result_eq_error_iff (hf : failure.isSyntactic = true) :
    (compileAndExecute source registers script).result = .error failure ↔
      (parse source).result = .error failure := by
  cases h : (parse source).result with
  | error other =>
    rw [compileAndExecute_of_error h]
    simp only [Except.error.injEq]
  | ok program =>
    refine ⟨fun hr => ?_, nofun⟩
    obtain ⟨fault, rfl, -⟩ := exists_fault_of_ok h hr
    cases hf

/-- However far a compiled program goes, its ring holds two values at most, and none at the start
of a statement. -/
theorem live_of_steps (h : (parse source).result = .ok program)
    (hs : Steps (program.compile.assembled none) n 0 ⟨registers, .empty, .clear, script⟩ signals pc
      state) :
    state.ring.live ≤ 2 ∧
      (pc ∈ Listing.starts 0 program.compile.code → state.ring.live = 0) := by
  have ha := program.allSound_compile none (every_normal_of_result h)
  obtain ⟨hl, -⟩ := hs.level ha level_empty
  refine ⟨hl.bound, fun hp => ?_⟩
  have hlive := hl.live
  rw [program.height_starts_compile none hp] at hlive
  exact Int.ofNat_eq_zero.1 hlive

/-- A compiled program cannot go wrong by its structure. It fails before it runs only where its
source does, its listing is read back, and its faults come from what it computes, reads or how long
it runs. Its ring never holds more than two values, holds none where a statement begins, and raises
no event. -/
theorem compileAndExecute_safe (source : String) (registers : Memory) (script : Script) :
    (∀ failure, (parse source).result = .error failure ↔
      failure.isSyntactic = true ∧
        (compileAndExecute source registers script).result = .error failure) ∧
    (∀ failure, (compileAndExecute source registers script).result = .error failure →
      failure.isSyntactic = true ∨
        ∃ fault, failure = .running fault ∧ fault.val.isOrdinary = true) ∧
    (∀ e, .event e ∈ (compileAndExecute source registers script).log →
      e = .restless ∨ e = .suffering) ∧
    ∀ program, (parse source).result = .ok program →
      Assembly.read (program.compile.render none) = .ok (program.compile.assembled none) ∧
      (compileAndExecute source registers script).result =
        (Machine.run (program.compile.assembled none) registers script).result.mapError .running ∧
      Listing.comments program.compile.code = program.captions ∧
      ∀ n signals pc state,
        Steps (program.compile.assembled none) n 0 ⟨registers, .empty, .clear, script⟩ signals pc
          state →
        state.ring.live ≤ 2 ∧ Calm signals ∧
          (pc ∈ Listing.starts 0 program.compile.code → state.ring.live = 0) := by
  refine ⟨fun failure => ⟨fun h => ?_, fun ⟨hs, h⟩ => (result_eq_error_iff hs).1 h⟩, ?_, ?_, ?_⟩
  · have hs := isSyntactic_of_parse h
    exact ⟨hs, (result_eq_error_iff hs).2 h⟩
  · intro failure hf
    cases h : (parse source).result with
    | error other =>
      rw [compileAndExecute_of_error h] at hf
      cases hf
      exact .inl (isSyntactic_of_parse h)
    | ok program => exact .inr (exists_fault_of_ok h hf)
  · intro e he
    exact Console.event_mem_transcript (calm_compileAndExecute source registers script) he
  · intro program h
    obtain ⟨preface, -, hr⟩ :=
      compileAndExecute_of_ok h registers script
    refine ⟨Assembly.read_render program.legible_compile nofun, by rw [hr],
      program.comments_compile, fun n signals pc state hs => ?_⟩
    have ha := program.allSound_compile none (every_normal_of_result h)
    obtain ⟨hl, he⟩ := live_of_steps h hs
    exact ⟨hl, (hs.level ha level_empty).2, he⟩

theorem compileAndExecute_safe_product :
    (parse "ERWACHE\nDING 0 = 1 - 2 * 3\nVERNEINUNG").result =
      .ok (.assign 2 0 (.binary (.number 1) (.arith .sub)
        (.binary (.number 2) (.arith .mul) (.number 3))) (.halt 3 .done)) ∧
    ∀ failure, (compileAndExecute "ERWACHE\nDING 0 = 1 - 2 * 3\nVERNEINUNG" .initial []).result =
      .error failure → failure.isSyntactic = true ∨
        ∃ fault, failure = .running fault ∧ fault.val.isOrdinary = true :=
  ⟨by decide +kernel, (compileAndExecute_safe _ .initial []).2.1⟩

end Octet.Toolchain
