import Octet.Proofs.Compiler.Scratch
import Octet.Proofs.Toolchain.Stages

namespace Octet.Toolchain

open Compiler (IsWork)
open Machine

variable {source : String} {program : Block} {memory other : Memory}

/-- Two runs of a compiled program are parallel if they start with the same values in all slots but
the work registers, and the program reads none of these. -/
theorem compileAndExecute_parallel (h : (parse source).result = .ok program)
    (ha : program.Every fun e => e.Avoids IsWork)
    (hm : ∀ i, ¬IsWork i → memory.read i = other.read i) (script : Script) :
    Run.Parallel (fun left right => ∀ i, ¬IsWork i → left.read i = right.read i)
      (compileAndExecute source memory script) (compileAndExecute source other script) := by
  have hs : State.Shares
      (fun r => ¬IsWork r ∨ Exposed (program.compile.assembled none) r stepLimit 0)
      ⟨memory, .empty, .clear, script⟩ ⟨other, .empty, .clear, script⟩ := by
    refine ⟨fun r hr => hm r fun hw => ?_, rfl, rfl, rfl⟩
    exact hr.elim (· hw) (Block.not_exposed_compile ha none hw stepLimit)
  have hrun := (runFrom_parallel hs).mapError Failure.running
  obtain ⟨preface, -, hr⟩ := exists_preface_of_ok h
  rw [hr, hr]
  exact hrun.append preface

/-- What the work registers hold at first stays hidden. Where the slots start alike, two runs of a
compiled program that reads no work register leave one log, and either fail alike, on one line, or
end with the same values in all slots. -/
theorem compileAndExecute_hides (source : String) (program : Block) (memory other : Memory)
    (script : Script) (h : (parse source).result = .ok program)
    (ha : program.Every fun e => e.Avoids IsWork)
    (hm : ∀ i, ¬IsWork i → memory.read i = other.read i) :
    let run := compileAndExecute source memory script
    let run' := compileAndExecute source other script
    run.signals = run'.signals ∧ run.log = run'.log ∧
    match run.result, run'.result with
    | .ok final, .ok final' => ∀ i, ¬IsWork i → final.read i = final'.read i
    | .error failure, .error failure' => failure = failure'
    | _, _ => False := by
  intro run run'
  have hp : Run.Parallel _ run run' := compileAndExecute_parallel h ha hm script
  generalize run = left at hp ⊢
  generalize run' = right at hp ⊢
  cases hp with
  | ok signals hs => exact ⟨rfl, rfl, hs⟩
  | error signals e => exact ⟨rfl, rfl, rfl⟩

/-- Products whose left one waits in the ring, and a comparison whose result is kept. -/
theorem compileAndExecute_hides_products :
    let source := "ERWACHE\nDING 0 = DING 1 * 2 + DING 3 * 3\nDING 2 = DING 0 > DING 1 - 1"
    let other := (Memory.initial.put 6 (.text "six")).put 7 (.number 77)
    let run := compileAndExecute source .initial []
    let run' := compileAndExecute source other []
    run.signals = run'.signals ∧ run.log = run'.log ∧
    match run.result, run'.result with
    | .ok final, .ok final' => ∀ i, ¬IsWork i → final.read i = final'.read i
    | .error failure, .error failure' => failure = failure'
    | _, _ => False :=
  compileAndExecute_hides _
    (.assign 2 0 (.binary (.binary (.slot 1) (.arith .mul) (.number 2)) (.arith .add)
        (.binary (.slot 3) (.arith .mul) (.number 3)))
      (.assign 3 2 (.binary (.slot 0) (.compare .greater)
        (.binary (.slot 1) (.arith .sub) (.number 1))) .done))
    _ _ _ (by decide +kernel)
    ⟨⟨⟨(by decide : ¬IsWork 1), trivial⟩, (by decide : ¬IsWork 3), trivial⟩,
      ⟨(by decide : ¬IsWork 0), (by decide : ¬IsWork 1), trivial⟩, trivial⟩
    (by decide +kernel)

end Octet.Toolchain
