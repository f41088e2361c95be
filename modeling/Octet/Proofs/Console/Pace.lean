import Octet.Proofs.Console.Dialogue

namespace Octet

/-- What a computation without an odometer does: its signals, each with the count that has been
reached before it, the count in the end and the result. -/
structure Pace (ε α : Type) where
  effects : List (Nat × Signal)
  total : Nat
  result : Except ε α

/-- A computation without an odometer, which goes on counting from the count so far. -/
def Paced (ε α : Type) : Type := Nat → Pace ε α

namespace Paced

variable {ε α β : Type}

def pure (a : α) : Paced ε α := fun n => ⟨[], n, .ok a⟩

def bind (paced : Paced ε α) (f : α → Paced ε β) : Paced ε β := fun n =>
  let first := paced n
  match first.result with
  | .ok a =>
    let next := f a first.total
    ⟨first.effects ++ next.effects, next.total, next.result⟩
  | .error e => ⟨first.effects, first.total, .error e⟩

instance : Monad (Paced ε) where
  pure := pure
  bind := bind

/-- Counts one more. -/
def count : Paced ε Unit := fun n => ⟨[], n + 1, .ok ()⟩

/-- Counts nothing. -/
def ofRun (run : Run ε α) : Paced ε α := fun n => ⟨run.signals.map (n, ·), n, run.result⟩

instance : MonadLift (Run ε) (Paced ε) := ⟨ofRun⟩

def send (signal : Signal) : Paced ε Unit := ofRun (Run.send signal)

def fail (e : ε) : Paced ε α := ofRun (Run.fail e)

end Paced

/-- The entries that signals leave in a log without an odometer, with the counts of the signals. -/
def Screen.entries (screen : Screen) : List (Nat × Signal) → List (Nat × Entry)
  | [] => []
  | (n, .display text) :: effects =>
    let (shown, screen) := screen.display text
    (n, .output shown) :: screen.entries effects
  | (n, .print text) :: effects => (n, .output text) :: screen.entries effects
  | (n, .read line) :: effects => (n, .input line) :: screen.entries effects
  | (n, .event e) :: effects => (n, .event e) :: screen.entries effects
  | (n, .note note) :: effects => (n, .note note) :: screen.entries effects
  | (_, .tick) :: effects => screen.entries effects

namespace Pace

variable {ε α : Type}

def entries (pace : Pace ε α) : List (Nat × Entry) := Screen.blank.entries pace.effects

/-- The log of a computation without an odometer. -/
def log (pace : Pace ε α) : List Entry := pace.entries.map Prod.snd

/-- The part of the log that was left at these counts. -/
def during (pace : Pace ε α) (p : Nat → Bool) : List Entry :=
  (pace.entries.filter fun entry => p entry.1).map Prod.snd

end Pace

section Stamps

variable {ε α β : Type}

/-- Signals without their ticks, each with the number of ticks before it. -/
def stamps (n : Nat) : List Signal → List (Nat × Signal)
  | [] => []
  | .tick :: signals => stamps (n + 1) signals
  | signal :: signals => (n, signal) :: stamps n signals

def ticks (signals : List Signal) : Nat := signals.count .tick

theorem stamps_cons {signal : Signal} (h : signal ≠ .tick) (n : Nat) (signals : List Signal) :
    stamps n (signal :: signals) = (n, signal) :: stamps n signals := by
  cases signal with
  | tick => exact absurd rfl h
  | _ => rfl

theorem ticks_cons {signal : Signal} (h : signal ≠ .tick) (signals : List Signal) :
    ticks (signal :: signals) = ticks signals :=
  List.count_cons_of_ne h

theorem ticks_tick (signals : List Signal) : ticks (.tick :: signals) = ticks signals + 1 :=
  List.count_cons_self

theorem ticks_append (signals more : List Signal) :
    ticks (signals ++ more) = ticks signals + ticks more :=
  List.count_append

theorem Console.total_after (console : Console) (signals : List Signal) :
    (console.after signals).odometer.total = console.odometer.total + ticks signals := by
  induction signals generalizing console with
  | nil => rfl
  | cons signal signals ih =>
    have hn : (console.after (signal :: signals)).odometer.total =
        (console.receive signal).2.odometer.total + ticks signals := ih _
    rw [hn]
    cases signal with
    | tick =>
      rw [ticks_tick]
      exact Nat.add_right_comm ..
    | _ => rfl

theorem stamps_append (n : Nat) (signals more : List Signal) :
    stamps n (signals ++ more) = stamps n signals ++ stamps (n + ticks signals) more := by
  induction signals generalizing n with
  | nil => rfl
  | cons signal signals ih =>
    by_cases h : signal = .tick
    · subst h
      rw [ticks_tick, Nat.add_comm (ticks signals), ← Nat.add_assoc]
      exact ih (n + 1)
    · rw [List.cons_append, stamps_cons h, stamps_cons h, ih, ticks_cons h, List.cons_append]

theorem stamps_of_notMem {signals : List Signal} (h : .tick ∉ signals) (n : Nat) :
    stamps n signals = signals.map (n, ·) := by
  induction signals with
  | nil => rfl
  | cons signal signals ih =>
    obtain ⟨hs, hr⟩ := not_or.1 (mt List.mem_cons.2 h)
    rw [stamps_cons (Ne.symm hs), ih hr, List.map_cons]

theorem le_of_mem_stamps {n : Nat} {signals : List Signal} {effect : Nat × Signal}
    (h : effect ∈ stamps n signals) : n ≤ effect.1 ∧ effect.2 ∈ signals := by
  induction signals generalizing n with
  | nil => cases h
  | cons signal signals ih =>
    by_cases hs : signal = .tick
    · subst hs
      obtain ⟨hn, hm⟩ := ih (n := n + 1) h
      exact ⟨Nat.le_of_succ_le hn, List.mem_cons_of_mem _ hm⟩
    · rw [stamps_cons hs, List.mem_cons] at h
      obtain rfl | h := h
      · exact ⟨Nat.le_refl _, List.mem_cons_self ..⟩
      · obtain ⟨hn, hm⟩ := ih h
        exact ⟨hn, List.mem_cons_of_mem _ hm⟩

/-- A run as it is paced by its ticks. -/
def Run.paced (run : Run ε α) : Paced ε α :=
  fun n => ⟨stamps n run.signals, n + ticks run.signals, run.result⟩

theorem paced_bind (run : Run ε α) (f : α → Run ε β) :
    (run >>= f).paced = run.paced >>= fun a => (f a).paced := by
  obtain ⟨signals, result⟩ := run
  funext n
  cases result with
  | error e => rfl
  | ok a =>
    have hs := stamps_append n signals (f a).signals
    have ht : n + ticks (signals ++ (f a).signals) = n + ticks signals + ticks (f a).signals := by
      rw [ticks_append, Nat.add_assoc]
    rw [Run.bind_of_ok (a := a) rfl]
    change Pace.mk (stamps n (signals ++ (f a).signals)) (n + ticks (signals ++ (f a).signals))
      (f a).result = _
    rw [hs, ht]
    rfl

theorem paced_bind_eq {run : Run ε α} {paced : Paced ε α} {f : α → Run ε β} {g : α → Paced ε β}
    (h : run.paced = paced) (hf : ∀ a, (f a).paced = g a) : (run >>= f).paced = paced >>= g := by
  rw [paced_bind, h]
  apply congrArg
  funext a
  exact hf a

theorem paced_tick : (Run.send .tick : Run ε Unit).paced = Paced.count := rfl

/-- A run that has no ticks is not paced at all. -/
theorem paced_of_notMem {run : Run ε α} (h : .tick ∉ run.signals) :
    run.paced = liftM run := by
  funext n
  change Pace.mk .. = Pace.mk ..
  rw [stamps_of_notMem h, ticks, List.count_eq_zero.2 h]
  rfl

end Stamps

section Log

/-- What an odometer says where it has come to 1024. -/
def restless : List Entry := [.note (.odometer 1024), .output "...", .event .restless]

/-- What an odometer says where it has come to 4096. -/
def suffering : List Entry :=
  [.note (.odometer 4096), .output "Alles Leben ist Leiden.", .event .suffering]

variable {entries : List (Nat × Entry)} {n k total : Nat}

/-- A log with the two remarks of an odometer that goes on from a count to a total. -/
def interject (n total : Nat) (entries : List (Nat × Entry)) : List Entry :=
  (entries.filter (·.1 < 1024)).map Prod.snd ++
    (if n < 1024 ∧ 1024 ≤ total then restless else []) ++
    (entries.filter fun entry => 1024 ≤ entry.1 && entry.1 < 4096).map Prod.snd ++
    (if n < 4096 ∧ 4096 ≤ total then suffering else []) ++
    (entries.filter (4096 ≤ ·.1)).map Prod.snd

theorem interject_self (n : Nat) (entries : List (Nat × Entry)) :
    interject n n entries = (entries.filter (·.1 < 1024)).map Prod.snd ++
      (entries.filter fun entry => 1024 ≤ entry.1 && entry.1 < 4096).map Prod.snd ++
      (entries.filter (4096 ≤ ·.1)).map Prod.snd := by
  have hn : ∀ k, ¬(n < k ∧ k ≤ n) := by omega
  simp [interject, hn]

theorem filter_lt_of_le (h : ∀ entry ∈ entries, n ≤ entry.1) (hk : k ≤ n) :
    entries.filter (·.1 < k) = [] := by
  refine List.filter_eq_nil_iff.2 fun entry hm => ?_
  have := h entry hm
  simp only [decide_eq_true_eq]
  omega

theorem filter_and_lt_of_le (h : ∀ entry ∈ entries, n ≤ entry.1) (hk : k ≤ n) (p : Nat → Bool) :
    entries.filter (fun entry => p entry.1 && entry.1 < k) = [] := by
  refine List.filter_eq_nil_iff.2 fun entry hm => ?_
  have := h entry hm
  simp only [Bool.and_eq_true, decide_eq_true_eq, not_and]
  omega

/-- What is done at the count itself comes first. -/
theorem interject_cons (h : ∀ entry ∈ entries, n ≤ entry.1) (e : Entry) :
    interject n total ((n, e) :: entries) = e :: interject n total entries := by
  obtain hn | ⟨hn, hs⟩ | hn : n < 1024 ∨ (1024 ≤ n ∧ n < 4096) ∨ 4096 ≤ n := by omega
  · have hr : ¬1024 ≤ n := by omega
    have hs : ¬4096 ≤ n := by omega
    simp [interject, hn, hr, hs]
  · have hr : ¬n < 1024 := by omega
    have hl : ¬4096 ≤ n := by omega
    simp [interject, filter_lt_of_le h hn, hn, hs, hr, hl]
  · have hr : 1024 ≤ n := by omega
    have hb : ¬n < 1024 := by omega
    have hl : ¬n < 4096 := by omega
    have hm := filter_and_lt_of_le h hn fun n => decide (1024 ≤ n)
    simp [interject, filter_lt_of_le h hr, hm, hn, hr, hb, hl]

theorem remark_eq_nil (hr : n ≠ 1024) (hs : n ≠ 4096) : Odometer.remark n = [] := by
  simp [Odometer.remark, Odometer.restlessTotal, Odometer.sufferingTotal, hr, hs]

/-- A remark is made when the count comes to it. -/
theorem interject_succ (h : ∀ entry ∈ entries, n + 1 ≤ entry.1) (ht : n + 1 ≤ total) :
    interject n total entries = Odometer.remark (n + 1) ++ interject (n + 1) total entries := by
  by_cases hr : n + 1 = 1024
  · obtain rfl : n = 1023 := by omega
    have hf := filter_lt_of_le h (Nat.le_refl 1024)
    simp [interject, hf, ht, Odometer.remark, Odometer.restlessTotal, restless]
  by_cases hs : n + 1 = 4096
  · obtain rfl : n = 4095 := by omega
    have hf := filter_lt_of_le h (k := 1024) (by omega)
    have hm := filter_and_lt_of_le h (Nat.le_refl 4096) fun n => decide (1024 ≤ n)
    simp [interject, hf, hm, ht, Odometer.remark, Odometer.restlessTotal, Odometer.sufferingTotal,
      suffering]
  · have hb : n < 1024 ↔ n + 1 < 1024 := by omega
    have hl : n < 4096 ↔ n + 1 < 4096 := by omega
    simp only [remark_eq_nil hr hs, List.nil_append, interject, hb, hl]

variable {screen : Screen} {effects : List (Nat × Signal)}

theorem le_of_mem_entries (h : ∀ effect ∈ effects, n ≤ effect.1) :
    ∀ entry ∈ screen.entries effects, n ≤ entry.1 := by
  induction effects generalizing screen with
  | nil => nofun
  | cons effect effects ih =>
    obtain ⟨hn, hr⟩ := List.forall_mem_cons.1 h
    obtain ⟨m, signal⟩ := effect
    cases signal with
    | tick => exact ih hr
    | _ => exact List.forall_mem_cons.2 ⟨hn, ih hr⟩

/-- The odometer's remarks are all that tells a log from the one without an odometer. -/
theorem transcript_eq (screen : Screen) (n : Nat) (signals : List Signal) :
    (⟨screen, ⟨n⟩⟩ : Console).transcript signals =
      interject n (n + ticks signals) (screen.entries (stamps n signals)) := by
  induction signals generalizing screen n with
  | nil =>
    have hn : ∀ k, ¬(n < k ∧ k ≤ n + ticks []) := by
      intro k
      simp only [ticks, List.count_nil]
      omega
    simp only [interject, hn, stamps, Screen.entries]
    rfl
  | cons signal signals ih =>
    have hle : ∀ screen m, ∀ entry ∈ Screen.entries screen (stamps m signals), m ≤ entry.1 :=
      fun screen m => le_of_mem_entries fun effect he => (le_of_mem_stamps he).1
    rw [Console.transcript_cons]
    cases signal with
    | tick =>
      have ht : n + ticks (.tick :: signals) = n + 1 + ticks signals := by
        rw [ticks_tick]
        omega
      rw [ht, stamps, interject_succ (hle _ _) (Nat.le_add_right ..), ← ih]
      rfl
    | display text | print text | read line | event e | note m =>
      rw [ticks_cons (by nofun), stamps_cons (by nofun), Screen.entries,
        interject_cons (hle _ _), ← ih]
      rfl

/-- Without a remark, what is left is the log itself in its three parts. -/
theorem map_entries_eq (screen : Screen) (n : Nat) (signals : List Signal) :
    (screen.entries (stamps n signals)).map Prod.snd =
      interject n n (screen.entries (stamps n signals)) := by
  induction signals generalizing screen n with
  | nil => simp [stamps, Screen.entries, interject_self]
  | cons signal signals ih =>
    have hle : ∀ screen, ∀ entry ∈ Screen.entries screen (stamps n signals), n ≤ entry.1 :=
      fun screen => le_of_mem_entries fun effect he => (le_of_mem_stamps he).1
    cases signal with
    | tick =>
      rw [stamps, ih, interject_self, interject_self]
    | display text | print text | read line | event e | note m =>
      rw [stamps_cons (by nofun), Screen.entries, interject_cons (hle _), ← ih]
      rfl

theorem event_mem_of_mem_entries {e : Event} (h : (n, .event e) ∈ screen.entries effects) :
    (n, .event e) ∈ effects := by
  induction effects generalizing screen with
  | nil => cases h
  | cons effect effects ih =>
    obtain ⟨m, signal⟩ := effect
    cases signal with
    | tick => exact List.mem_cons_of_mem _ (ih h)
    | event other =>
      obtain h | h := List.mem_cons.1 h
      · cases h
        exact List.mem_cons_self ..
      · exact List.mem_cons_of_mem _ (ih h)
    | display text | print text | read line | note m =>
      obtain h | h := List.mem_cons.1 h
      · cases h
      · exact List.mem_cons_of_mem _ (ih h)

end Log

end Octet
