import Octet.Proofs.Compiler.Simulation
import Octet.Proofs.Toolchain.Safety

namespace Octet

open Compiler (IsWork Matches Simulates)

/-- A run ends because it has gone on for too long. -/
def Run.Overheats (run : Run Failure Memory) : Prop :=
  ∃ line limit, run.result = .error (.running ⟨line, .overheat limit⟩)

theorem Run.overheats_of_result {run : Run (Located Fault) Memory} {line limit : Nat}
    (h : run.result = .error ⟨line, .overheat limit⟩) :
    (run.mapError Failure.running).Overheats :=
  ⟨line, limit, congrArg (Except.mapError Failure.running) h⟩

/-- Two runs end alike: both with the same values in all slots but the work registers, or both with
the same fault. -/
def Alike : Except Failure Memory → Except Failure Memory → Prop
  | .ok memory, .ok other => ∀ i, ¬IsWork i → memory.read i = other.read i
  | .error (.running e), .error (.running other) => e.val = other.val
  | _, _ => False

/-- Two runs show and read the same, as far as both go, and end alike unless one overheats. -/
inductive Agrees (run other : Run Failure Memory) : Prop
  | first (shorter : exchanges run.signals <+: exchanges other.signals) (hot : run.Overheats)
  | second (shorter : exchanges other.signals <+: exchanges run.signals) (hot : other.Overheats)
  | both (same : exchanges run.signals = exchanges other.signals)
      (alike : Alike run.result other.result)

theorem Agrees.congr {run other run' other' : Run Failure Memory} (h : Agrees run other)
    (hs : exchanges run'.signals = exchanges run.signals) (hr : run'.result = run.result)
    (hs' : exchanges other'.signals = exchanges other.signals)
    (hr' : other'.result = other.result) : Agrees run' other' := by
  cases h with
  | first shorter hot => exact .first (hs ▸ hs' ▸ shorter) (by rwa [Run.Overheats, hr])
  | second shorter hot => exact .second (hs ▸ hs' ▸ shorter) (by rwa [Run.Overheats, hr'])
  | both same alike => exact .both (hs ▸ hs' ▸ same) (hr ▸ hr' ▸ alike)

namespace Machine

variable {program : Program} {memory : Memory} {script : Script} {target last : Nat} {b : Block}
  {next : State} {seen : List Signal} {walked : Run Failure Memory}

/-- The machine reaches a place with what the language has shown and read so far, and either goes on
from there or overheats before. -/
theorem agrees_of_reaches (hr : Reaches program 0 ⟨memory, .empty, .clear, script⟩ seen target next)
    (hs : seen <+: exchanges walked.signals)
    (hgo : ∀ rest, exchanges (run program memory script).signals =
        seen ++ exchanges (runFrom program rest target next).signals →
      (run program memory script).result = (runFrom program rest target next).result →
      Agrees walked ((run program memory script).mapError .running)) :
    Agrees walked ((run program memory script).mapError .running) := by
  obtain ⟨hp, he⟩ | ⟨rest, hp, he⟩ := hr.overheats_or stepLimit
  · exact .second (hp.trans hs) (Run.overheats_of_result he)
  · exact hgo rest hp he

/-- The machine reaches an instruction, and either executes it or overheats. -/
theorem agrees_of_fetch {instruction : Located Instruction}
    (hr : Reaches program 0 ⟨memory, .empty, .clear, script⟩ seen target next)
    (hs : seen <+: exchanges walked.signals)
    (fetched : program.instructions[target]? = some instruction)
    (hgo : ∀ rest, exchanges (run program memory script).signals =
        seen ++ exchanges (runFrom program (rest + 1) target next).signals →
      (run program memory script).result = (runFrom program (rest + 1) target next).result →
      Agrees walked ((run program memory script).mapError .running)) :
    Agrees walked ((run program memory script).mapError .running) := by
  refine agrees_of_reaches hr hs fun rest hp he => ?_
  cases rest with
  | zero =>
    rw [runFrom_zero fetched] at hp he
    have hcut : exchanges (run program memory script).signals = seen := hp.trans (List.append_nil _)
    exact .second (hcut ▸ hs) (Run.overheats_of_result he)
  | succ rest => exact hgo rest hp he

theorem agrees_of_simulates
    (h : Simulates program 0 last ⟨memory, .empty, .clear, script⟩
      (Walker.exec b ⟨memory, .clear, script⟩))
    (hend : program.instructions[last]? = none) :
    Agrees ((Walker.run b memory script).mapError .running)
      ((run program memory script).mapError .running) := by
  generalize hx : Walker.exec b ⟨memory, .clear, script⟩ = walked at h
  obtain ⟨signals, result⟩ := walked
  match result with
  | .ok (.next, walker) =>
    have hw : Walker.run b memory script =
        ⟨signals ++ [.note .ended, .print endNotice], .ok walker.memory⟩ := by
      rw [Walker.run, hx]
      rfl
    obtain ⟨next, hr, hm⟩ := h
    rw [hw]
    refine agrees_of_reaches hr (exchanges_append .. ▸ List.prefix_append ..) fun rest hp he => ?_
    rw [runFrom_end hend] at hp he
    refine .both ((exchanges_append ..).trans hp.symm) ?_
    rw [Run.mapError, Run.mapError, he]
    exact fun i hi => (hm.slots i hi).symm
  | .ok (.halt, walker) =>
    have hw : Walker.run b memory script = ⟨signals ++ [.note .halted], .ok walker.memory⟩ := by
      rw [Walker.run, hx]
      rfl
    obtain ⟨stop, next, hr, ha, hm⟩ := h
    obtain ⟨located, fetched, hn⟩ := Option.map_eq_some_iff.1 ha
    rw [hw]
    refine agrees_of_fetch hr (exchanges_append .. ▸ List.prefix_append ..) fetched
      fun rest hp he => ?_
    have hstep : step program located.val next = ⟨[], .ok (.halt, next)⟩ := by
      rw [hn]
      rfl
    rw [runFrom_halt fetched hstep] at hp he
    refine .both ((exchanges_append ..).trans hp.symm) ?_
    rw [Run.mapError, Run.mapError, he]
    exact fun i hi => (hm.slots i hi).symm
  | .error e =>
    have hw : Walker.run b memory script = ⟨signals, .error e⟩ := by
      rw [Walker.run, hx]
      rfl
    rw [hw]
    obtain ⟨first, second, stop, next, hr, ⟨instruction, more, ha, hf, rfl⟩, hs⟩ |
      ⟨ho, stop, next, hr⟩ := h
    · obtain ⟨located, fetched, rfl⟩ := Option.map_eq_some_iff.1 ha
      refine agrees_of_fetch hr (hs ▸ List.prefix_append ..) fetched fun rest hp he => ?_
      rw [runFrom_fault fetched hf] at hp he
      refine .both (hs.trans hp.symm) ?_
      rw [Run.mapError, Run.mapError, he]
      exact rfl
    -- The language has given up a loop, and the machine may go on in it.
    · refine agrees_of_reaches hr List.prefix_rfl fun rest hp he => ?_
      obtain ⟨line, fault⟩ := e
      obtain rfl : fault = .overheat loopLimit := ho
      exact .first (hp ▸ List.prefix_append ..) ⟨line, loopLimit, rfl⟩

end Machine

namespace Toolchain

variable {source : String} {program : Block} {memory : Memory} {script : Script}
  {signals : List Signal}

theorem IsPreface.exchanges_eq (h : IsPreface signals) : exchanges signals = [] := by
  obtain ⟨notes, rfl, -⟩ := h
  refine List.filter_eq_nil_iff.2 fun signal hs => ?_
  obtain ⟨note, -, rfl⟩ := List.mem_map.1 hs
  nofun

theorem workable_of_parse (h : (parse source).result = .ok program)
    (ha : program.Every fun e => e.Avoids IsWork) : program.Every Compiler.Workable :=
  ha.imp₂ (every_normal_of_result h) fun e ha hn => ⟨ha, by
    have hd := Expr.depth_le_of_normal hn
    omega⟩

/-- The two ways to run a program agree, as long as it reads no work register and puts nothing to
the test that the language and the flags take for different things. -/
theorem agrees_of_regular (h : (parse source).result = .ok program)
    (ha : program.Every fun e => e.Avoids IsWork)
    (ht : ∀ t ∈ program.trials ⟨memory, .clear, script⟩, t.Regular) :
    Agrees (walk source memory script) (compileAndExecute source memory script) := by
  have hm : Matches ⟨memory, .clear, script⟩ ⟨memory, .empty, .clear, script⟩ :=
    ⟨fun _ _ => rfl, rfl, rfl, rfl⟩
  have hs := Compiler.follows_block (workable_of_parse h ha)
    (Compiler.installed_compile program none) hm ht
  have hend : (program.compile.assembled none).instructions[Listing.size program.compile.code]? =
      none := Array.getElem?_eq_none (Nat.le_of_eq (Listing.size_assembled ..))
  obtain ⟨preface, hp, hc⟩ := compileAndExecute_of_ok h memory script
  rw [walk_of_ok h, hc]
  refine (Machine.agrees_of_simulates hs hend).congr ?_ rfl ?_ rfl
  · rw [exchanges_append, (isPreface_parse source).exchanges_eq]
    rfl
  · rw [exchanges_append, hp.exchanges_eq]
    rfl

/-- The logs of the two ways to run a program are one, as far as both go, and they end alike unless
one overheats. The program has to read no work register, and all that it compares and asks for has
to be regular. -/
theorem dialogue_agrees (source : String) (program : Block) (memory : Memory) (script : Script)
    (h : (parse source).result = .ok program) (ha : program.Every fun e => e.Avoids IsWork)
    (ht : ∀ t ∈ program.trials ⟨memory, .clear, script⟩, t.Regular) :
    ((walk source memory script).dialogue <+: (compileAndExecute source memory script).dialogue ∨
      (compileAndExecute source memory script).dialogue <+:
        (walk source memory script).dialogue) ∧
    (¬(walk source memory script).Overheats → ¬(compileAndExecute source memory script).Overheats →
      (walk source memory script).dialogue = (compileAndExecute source memory script).dialogue ∧
      Alike (walk source memory script).result
        (compileAndExecute source memory script).result) := by
  have hcalm : Calm (walk source memory script).signals := by
    rw [walk_of_ok h]
    exact calm_append.2 ⟨(isPreface_parse source).calm, Walker.calm_run _ _ _⟩
  rw [Run.dialogue_eq hcalm, Run.dialogue_eq (calm_compileAndExecute source memory script)]
  cases agrees_of_regular h ha ht with
  | first shorter hot =>
    exact ⟨.inl (Console.transcript_isPrefix shorter _), fun hw => absurd hot hw⟩
  | second shorter hot =>
    exact ⟨.inr (Console.transcript_isPrefix shorter _), fun _ hc => absurd hot hc⟩
  | both same alike =>
    rw [same]
    exact ⟨.inl List.prefix_rfl, fun _ _ => ⟨rfl, alike⟩⟩

/-- A count that is read, shown and brought down to zero. -/
theorem dialogue_agrees_countdown :
    let source :=
      "ERWACHE\nWILLE 0\nSOLANGE DING 0 > 0\nVORSTELLUNG DING 0\nDING 0 = DING 0 - 1\nENDE"
    let walked := walk source .initial [some "2"]
    let compiled := compileAndExecute source .initial [some "2"]
    (walked.dialogue <+: compiled.dialogue ∨ compiled.dialogue <+: walked.dialogue) ∧
    (¬walked.Overheats → ¬compiled.Overheats →
      walked.dialogue = compiled.dialogue ∧ Alike walked.result compiled.result) :=
  dialogue_agrees _
    (.input 2 0 (.loop 3 (.binary (.slot 0) (.compare .greater) (.number 0))
      (.output 4 (.slot 0)
        (.assign 5 0 (.binary (.slot 0) (.arith .sub) (.number 1)) .done)) .done))
    .initial [some "2"] (by decide +kernel)
    ⟨⟨(by decide : ¬IsWork 0), trivial⟩, ⟨(by decide : ¬IsWork 0),
      ⟨(by decide : ¬IsWork 0), trivial⟩, trivial⟩, trivial⟩
    (by decide +kernel)

end Toolchain

end Octet
