import Octet.Console.Transcript
import Octet.Located

namespace Octet

/-- A computation that leaves signals, whether it ends in a result or in a failure. -/
structure Run (ε α : Type) where
  signals : List Signal
  result : Except ε α

namespace Run

variable {ε δ α β : Type}

def pure (a : α) : Run ε α := ⟨[], .ok a⟩

def bind (run : Run ε α) (f : α → Run ε β) : Run ε β :=
  match run.result with
  | .ok a =>
    let next := f a
    ⟨run.signals ++ next.signals, next.result⟩
  | .error e => ⟨run.signals, .error e⟩

instance : Monad (Run ε) where
  pure := pure
  bind := bind

def fail (e : ε) : Run ε α := ⟨[], .error e⟩

def send (signal : Signal) : Run ε Unit := ⟨[signal], .ok ()⟩

def sendAll (signals : List Signal) : Run ε Unit := ⟨signals, .ok ()⟩

def ofExcept (result : Except ε α) : Run ε α := ⟨[], result⟩

instance : MonadLift (Except ε) (Run ε) := ⟨ofExcept⟩

def mapError (f : ε → δ) (run : Run ε α) : Run δ α := ⟨run.signals, run.result.mapError f⟩

/-- The faults of a computation, put on a line. -/
def atLine (line : Nat) (run : Run ε α) : Run (Located ε) α := run.mapError (Located.mk line)

def log (run : Run ε α) : List Entry := transcript run.signals

@[simp] theorem signals_pure (a : α) : (Pure.pure a : Run ε α).signals = [] := rfl

@[simp] theorem result_pure (a : α) : (Pure.pure a : Run ε α).result = .ok a := rfl

theorem bind_of_ok {run : Run ε α} {a : α} (h : run.result = .ok a) (f : α → Run ε β) :
    run >>= f = ⟨run.signals ++ (f a).signals, (f a).result⟩ := by
  change bind run f = _
  simp [bind, h]

theorem bind_of_error {run : Run ε α} {e : ε} (h : run.result = .error e) (f : α → Run ε β) :
    run >>= f = ⟨run.signals, .error e⟩ := by
  change bind run f = _
  simp [bind, h]

theorem isPrefix_bind (run : Run ε α) (f : α → Run ε β) :
    run.signals <+: (run >>= f).signals := by
  cases h : run.result with
  | ok a => exact ⟨(f a).signals, congrArg signals (bind_of_ok h f).symm⟩
  | error e => exact ⟨[], (List.append_nil _).trans (congrArg signals (bind_of_error h f).symm)⟩

theorem bind_pure_id (run : Run ε α) : bind run pure = run := by
  obtain ⟨signals, result⟩ := run
  cases result <;> simp [bind, pure]

theorem bind_assoc {γ : Type} (run : Run ε α) (f : α → Run ε β) (g : β → Run ε γ) :
    bind (bind run f) g = bind run fun a => bind (f a) g := by
  obtain ⟨signals, result⟩ := run
  cases result with
  | error e => rfl
  | ok a => cases h : (f a).result <;> simp [bind, h]

instance : LawfulMonad (Run ε) := .mk' _ bind_pure_id (fun _ _ => rfl) bind_assoc

end Run

end Octet
