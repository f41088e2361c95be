import Octet.Run

namespace Octet

section Signals

/-- Whether a signal shows a text or reads one. -/
def Signal.isExchange : Signal → Bool
  | display _ | print _ | read _ => true
  | event _ | note _ | tick => false

def exchanges (signals : List Signal) : List Signal := signals.filter Signal.isExchange

@[simp] theorem exchanges_append (signals more : List Signal) :
    exchanges (signals ++ more) = exchanges signals ++ exchanges more :=
  List.filter_append ..

@[simp] theorem exchanges_fetch (pc : Nat) (instruction : Instruction) (signals : List Signal) :
    exchanges (.tick :: .note (.fetched pc instruction) :: signals) = exchanges signals :=
  rfl

/-- Whether a signal tells of no event. -/
def Signal.isCalm : Signal → Bool
  | event _ | note (.ring _) => false
  | _ => true

def Calm (signals : List Signal) : Prop := ∀ signal ∈ signals, signal.isCalm = true

@[simp] theorem calm_nil : Calm [] := nofun

@[simp] theorem calm_cons {signal : Signal} {signals : List Signal} :
    Calm (signal :: signals) ↔ signal.isCalm = true ∧ Calm signals :=
  List.forall_mem_cons

@[simp] theorem calm_append {signals more : List Signal} :
    Calm (signals ++ more) ↔ Calm signals ∧ Calm more :=
  List.forall_mem_append

end Signals

section Sends

variable {ε α β : Type} {p : Signal → Prop}

/-- Every signal of a computation is of a kind. -/
def Run.Sends (p : Signal → Prop) (run : Run ε α) : Prop := ∀ signal ∈ run.signals, p signal

theorem Run.Sends.bind {run : Run ε α} {f : α → Run ε β} (h : run.Sends p)
    (hf : ∀ a, (f a).Sends p) : (run >>= f).Sends p := by
  obtain ⟨signals, result⟩ := run
  cases result with
  | error e => exact h
  | ok a =>
    rw [Run.bind_of_ok (a := a) rfl]
    exact List.forall_mem_append.2 ⟨h, hf a⟩

theorem Run.sends_lift (result : Except ε α) : (liftM result : Run ε α).Sends p :=
  List.forall_mem_nil p

theorem Run.sends_pure (a : α) : (Pure.pure a : Run ε α).Sends p := List.forall_mem_nil p

theorem Run.sends_send {signal : Signal} (h : p signal) :
    (Run.send signal : Run ε Unit).Sends p :=
  List.forall_mem_singleton.2 h

end Sends

/-- Whether a signal stands for what a program does, and is no note and no turn of the odometer. -/
def Signal.isOwn : Signal → Bool
  | display _ | print _ | read _ | event _ => true
  | note _ | tick => false

/-- The signals that a console receives, and what each adds to the log. -/
def Console.replies (console : Console) : List Signal → List (Signal × List Entry)
  | [] => []
  | signal :: signals =>
    (signal, (console.receive signal).1) :: (console.receive signal).2.replies signals

/-- The log of a run without the entries of the odometer, and without notes. -/
def Run.dialogue {ε α : Type} (run : Run ε α) : List Entry :=
  ((Console.new.replies run.signals).filter fun reply => reply.1.isOwn).flatMap Prod.snd

namespace Console

variable {console other : Console} {signals more : List Signal}

/-- The log is what all signals add to it. -/
theorem flatMap_replies (console : Console) (signals : List Signal) :
    (console.replies signals).flatMap Prod.snd = console.transcript signals := by
  induction signals generalizing console with
  | nil => rfl
  | cons signal signals ih => rw [replies, List.flatMap_cons, ih, transcript_cons]

/-- The console that has received signals. -/
def after (console : Console) (signals : List Signal) : Console :=
  signals.foldl (fun console signal => (console.receive signal).2) console

theorem transcript_append (console : Console) (signals more : List Signal) :
    console.transcript (signals ++ more) =
      console.transcript signals ++ (console.after signals).transcript more := by
  induction signals generalizing console with
  | nil => rfl
  | cons signal signals ih =>
    rw [List.cons_append, transcript_cons, transcript_cons, ih, List.append_assoc]
    rfl

theorem transcript_isPrefix (h : signals <+: more) (console : Console) :
    console.transcript signals <+: console.transcript more := by
  obtain ⟨rest, rfl⟩ := h
  rw [transcript_append]
  exact List.prefix_append ..

/-- The screen alone decides what a program's texts look like. -/
theorem receive_of_screen_eq (hs : console.screen = other.screen) {signal : Signal}
    (h : signal.isExchange = true) :
    signal.isOwn = true ∧ (console.receive signal).1 = (other.receive signal).1 ∧
      (console.receive signal).2.screen = (other.receive signal).2.screen := by
  cases signal with
  | display text => simp [Signal.isOwn, receive, hs]
  | print text | read line => exact ⟨rfl, rfl, hs⟩
  | event e | note n | tick => cases h

theorem filter_replies (hc : Calm signals) (hs : console.screen = other.screen) :
    ((console.replies signals).filter fun reply => reply.1.isOwn).flatMap Prod.snd =
      other.transcript (exchanges signals) := by
  induction signals generalizing console other with
  | nil => rfl
  | cons signal signals ih =>
    obtain ⟨h, hr⟩ := calm_cons.1 hc
    by_cases he : signal.isExchange = true
    · obtain ⟨ho, hf, hn⟩ := receive_of_screen_eq hs he
      have hx : exchanges (signal :: signals) = signal :: exchanges signals :=
        List.filter_cons_of_pos he
      rw [replies, List.filter_cons, if_pos ho, List.flatMap_cons, ih hr hn, hf, hx,
        transcript_cons]
    · cases signal with
      | display text | print text | read line => exact absurd rfl he
      | event e => cases h
      | note n | tick => exact ih hr hs

/-- Where no event is raised, only the odometer tells of events. -/
theorem event_mem_transcript (hc : Calm signals) {e : Event}
    (h : .event e ∈ console.transcript signals) : e = .restless ∨ e = .suffering := by
  induction signals generalizing console with
  | nil => cases h
  | cons signal signals ih =>
    rw [transcript_cons, List.mem_append] at h
    obtain ⟨hs, hc⟩ := calm_cons.1 hc
    obtain h | h := h
    · cases signal with
      | tick =>
        simp only [receive, Odometer.tick, Odometer.remark] at h
        split at h
        · exact .inl (by simpa using h)
        · split at h
          · exact .inr (by simpa using h)
          · cases h
      | event e => cases hs
      | _ => simp [receive] at h
    · exact ih hc h

end Console

theorem Run.dialogue_eq {ε α : Type} {run : Run ε α} (hc : Calm run.signals) :
    run.dialogue = transcript (exchanges run.signals) :=
  Console.filter_replies hc rfl

end Octet
