import Octet.Proofs.Machine.Course
import Octet.Proofs.Toolchain.Stages
import Octet.Proofs.Walker.Flow

namespace Octet

def Signal.isRead : Signal → Bool
  | read _ => true
  | display _ | print _ | event _ | note _ | tick => false

/-- Whether signals read nothing. -/
def Silent (signals : List Signal) : Prop := ∀ signal ∈ signals, signal.isRead = false

/-- What is left of a script behind signals that read its lines one after another. -/
inductive Script.Gives : Script → List Signal → Script → Prop
  | nil (script : Script) : Gives script [] script
  | read {script rest : Script} {signals : List Signal} (h : Gives script.next.2 signals rest) :
      Gives script (.read script.next.1 :: signals) rest
  | other {script rest : Script} {signal : Signal} {signals : List Signal}
      (hs : signal.isRead = false) (h : Gives script signals rest) :
      Gives script (signal :: signals) rest

/-- Two runs with a script each leave the same signals and end alike, or they have read two lines
that differ. -/
inductive Run.Told {ε α : Type} (post : Script → Script → α → α → Prop) (script other : Script) :
    Run ε α → Run ε α → Prop
  | ok {signals : List Signal} {rest rest' : Script} {a b : α} (h : script.Gives signals rest)
      (h' : other.Gives signals rest') (hp : post rest rest' a b) :
      Told post script other ⟨signals, .ok a⟩ ⟨signals, .ok b⟩
  | error {signals : List Signal} {rest rest' : Script} (h : script.Gives signals rest)
      (h' : other.Gives signals rest') (e : ε) :
      Told post script other ⟨signals, .error e⟩ ⟨signals, .error e⟩
  | apart {signals more more' : List Signal} {rest rest' : Script} {result result' : Except ε α}
      (h : script.Gives signals rest) (h' : other.Gives signals rest')
      (hne : rest.next.1 ≠ rest'.next.1) :
      Told post script other ⟨signals ++ .read rest.next.1 :: more, result⟩
        ⟨signals ++ .read rest'.next.1 :: more', result'⟩

section Told

variable {ε δ α β : Type} {script other mid rest : Script} {signals more : List Signal}
  {post : Script → Script → α → α → Prop} {post' : Script → Script → β → β → Prop}

theorem Script.Gives.append (h : script.Gives signals mid) (hm : mid.Gives more rest) :
    script.Gives (signals ++ more) rest := by
  induction h with
  | nil => exact hm
  | read h ih => exact .read (ih hm)
  | other hs h ih => exact .other hs (ih hm)

theorem Script.gives_of_silent (script : Script) (h : Silent signals) :
    script.Gives signals script := by
  induction signals with
  | nil => exact .nil script
  | cons signal signals ih =>
    obtain ⟨hs, hr⟩ := List.forall_mem_cons.1 h
    exact .other hs (ih hr)

theorem Run.Told.bind {run run' : Run ε α} {f g : α → Run ε β}
    (h : Run.Told post script other run run')
    (hf : ∀ rest rest' a b, post rest rest' a b → Run.Told post' rest rest' (f a) (g b)) :
    Run.Told post' script other (run >>= f) (run' >>= g) := by
  cases h with
  | error h h' e => exact .error h h' e
  | @ok signals rest rest' a b h h' hp =>
    have hf := hf rest rest' a b hp
    rw [Run.bind_of_ok (a := a) rfl, Run.bind_of_ok (a := b) rfl]
    generalize f a = x at hf ⊢
    generalize g b = y at hf ⊢
    cases hf with
    | ok k k' hp => exact .ok (h.append k) (h'.append k') hp
    | error k k' e => exact .error (h.append k) (h'.append k') e
    | apart k k' hne =>
      simp only [← List.append_assoc]
      exact .apart (h.append k) (h'.append k') hne
  | @apart signals more more' rest rest' result result' h h' hne =>
    -- Whatever comes behind the lines that differ is left open.
    have hx : ∀ (line : Option String) (more : List Signal) (result : Except ε α)
        (f : α → Run ε β), ∃ more' result',
          (⟨signals ++ .read line :: more, result⟩ : Run ε α) >>= f =
            ⟨signals ++ .read line :: more', result'⟩ := by
      intro line more result f
      cases result with
      | error e => exact ⟨more, .error e, rfl⟩
      | ok a =>
        refine ⟨more ++ (f a).signals, (f a).result, ?_⟩
        rw [Run.bind_of_ok (a := a) rfl, List.append_assoc, List.cons_append]
    obtain ⟨first, result, hr⟩ := hx rest.next.1 more result f
    obtain ⟨second, result', hr'⟩ := hx rest'.next.1 more' result' g
    rw [hr, hr']
    exact .apart h h' hne

theorem Run.Told.mapError {run run' : Run ε α} (h : Run.Told post script other run run')
    (f : ε → δ) : Run.Told post script other (run.mapError f) (run'.mapError f) := by
  cases h with
  | ok h h' hp => exact .ok h h' hp
  | error h h' e => exact .error h h' (f e)
  | apart h h' hne => exact .apart h h' hne

/-- A run that is told from itself reads the lines of its script. -/
theorem Run.Told.exists_gives {run run' : Run ε α} (h : Run.Told post script other run run')
    (he : run = run') : ∃ rest, script.Gives run.signals rest := by
  cases h with
  | ok h h' hp => exact ⟨_, h⟩
  | error h h' e => exact ⟨_, h⟩
  | apart h h' hne =>
    have hs := List.append_cancel_left (congrArg Run.signals he)
    exact absurd (Signal.read.inj (List.cons.inj hs).1) hne

/-- A run that reads nothing hears nothing. -/
theorem Run.told_of_silent (script other : Script) {run : Run ε α}
    (h : Silent run.signals) :
    Run.Told (fun rest rest' a b => rest = script ∧ rest' = other ∧ a = b) script other run
      run := by
  obtain ⟨signals, result⟩ := run
  cases result with
  | ok a => exact .ok (script.gives_of_silent h) (other.gives_of_silent h) ⟨rfl, rfl, rfl⟩
  | error e => exact .error (script.gives_of_silent h) (other.gives_of_silent h) e

/-- Two runs may begin with one computation that reads nothing. -/
theorem Run.told_bind_of_silent {run : Run ε α} {f g : α → Run ε β}
    (h : Silent run.signals)
    (hf : ∀ a, Run.Told post' script other (f a) (g a)) :
    Run.Told post' script other (run >>= f) (run >>= g) := by
  apply (Run.told_of_silent script other h).bind
  rintro _ _ a _ ⟨rfl, rfl, rfl⟩
  exact hf a

theorem Run.told_lift_bind (result : Except ε α) {f g : α → Run ε β}
    (hf : ∀ a, Run.Told post' script other (f a) (g a)) :
    Run.Told post' script other ((liftM result : Run ε α) >>= f) (liftM result >>= g) :=
  Run.told_bind_of_silent nofun hf

theorem Run.told_send_bind {signal : Signal} (hs : signal.isRead = false)
    {f g : Unit → Run ε β} (hf : Run.Told post' script other (f ()) (g ())) :
    Run.Told post' script other (Run.send signal >>= f) (Run.send signal >>= g) :=
  Run.told_bind_of_silent (List.forall_mem_singleton.2 hs) fun _ => hf

theorem Run.told_pure {a b : α} (hp : post script other a b) :
    Run.Told post script other (Pure.pure a : Run ε α) (Pure.pure b) :=
  .ok (.nil script) (.nil other) hp

/-- What is read is the next line, and what is left are those behind it. -/
theorem Script.told_read (script other : Script) :
    Run.Told (fun rest rest' a b => a.2 = rest ∧ b = (a.1, rest')) script other script.read
      other.read := by
  by_cases hne : script.next.1 = other.next.1
  · have h : script.Gives [.read script.next.1] script.next.2 := .read (.nil _)
    have h' : other.Gives [.read script.next.1] other.next.2 := by
      rw [hne]
      exact .read (.nil _)
    rw [Script.read, Script.read, ← hne]
    cases hl : script.next.1 with
    | none =>
      rw [hl] at h h'
      exact .error h h' Fault.input
    | some line =>
      rw [hl] at h h'
      exact .ok h h' ⟨rfl, rfl⟩
  · have hx : ∀ script : Script, ∃ result,
        script.read = ⟨[] ++ .read script.next.1 :: [], result⟩ := by
      intro script
      rw [Script.read]
      cases script.next.1 with
      | none => exact ⟨_, rfl⟩
      | some line => exact ⟨_, rfl⟩
    obtain ⟨result, hr⟩ := hx script
    obtain ⟨result', hr'⟩ := hx other
    rw [hr, hr']
    exact .apart (.nil script) (.nil other) hne

end Told

namespace Walker

/-- Two states at the same point of two runs with a script each. -/
def Abreast {γ : Type} (rest rest' : Script) (p q : γ × State) : Prop :=
  p.2.script = rest ∧ q = (p.1, { p.2 with script := rest' })

theorem told_eval (state : State) (other : Script) (line : Nat) (e : Expr) :
    Run.Told Abreast state.script other (state.eval line e)
      (State.eval { state with script := other } line e) := by
  refine Run.told_bind_of_silent nofun fun p => ?_
  exact Run.told_pure ⟨rfl, rfl⟩

theorem told_andThen {rest : State → Run (Located Fault) (Flow × State)}
    (h : ∀ state other, Run.Told Abreast state.script other (rest state)
      (rest { state with script := other })) {script script' : Script} {p q : Flow × State}
    (hp : Abreast script script' p q) :
    Run.Told Abreast script script' (andThen rest p) (andThen rest q) := by
  obtain ⟨flow, state⟩ := p
  obtain ⟨rfl, rfl⟩ := hp
  cases flow with
  | next => exact h state script'
  | halt => exact Run.told_pure ⟨rfl, rfl⟩

theorem told_iterate (line : Nat) (condition : Expr)
    {body : State → Run (Located Fault) (Flow × State)}
    (h : ∀ state other, Run.Told Abreast state.script other (body state)
      (body { state with script := other })) (left : Nat) (state : State) (other : Script) :
    Run.Told Abreast state.script other (iterate line condition body left state)
      (iterate line condition body left { state with script := other }) := by
  induction left generalizing state other with
  | zero =>
    rw [iterate, iterate]
    apply (told_eval state other line condition).bind
    rintro _ rest' ⟨v, state⟩ _ ⟨rfl, rfl⟩
    by_cases hz : v.isTruthy = true
    · simp only [if_pos hz]
      refine Run.told_send_bind rfl ?_
      exact .error (.nil _) (.nil _) _
    · simp only [if_neg hz]
      exact Run.told_pure ⟨rfl, rfl⟩
  | succ left ih =>
    rw [iterate_succ, iterate_succ]
    apply (told_eval state other line condition).bind
    rintro _ rest' ⟨v, state⟩ _ ⟨rfl, rfl⟩
    by_cases hz : v.isTruthy = true
    · simp only [if_pos hz]
      refine Run.told_send_bind rfl ?_
      apply (h state rest').bind
      intro _ _ _ _ hp
      exact told_andThen ih hp
    · simp only [if_neg hz]
      exact Run.told_pure ⟨rfl, rfl⟩

/-- A block hears of its script what it reads. -/
theorem told_exec (b : Block) (state : State) (other : Script) :
    Run.Told Abreast state.script other (exec b state) (exec b { state with script := other }) := by
  induction b generalizing state other with
  | done | halt line rest _ => exact Run.told_pure ⟨rfl, rfl⟩
  | assign line slot value rest ih =>
    apply (told_eval state other line value).bind
    rintro _ rest' ⟨v, state⟩ _ ⟨rfl, rfl⟩
    exact ih (state.set slot v) rest'
  | output line value rest ih =>
    apply (told_eval state other line value).bind
    rintro _ rest' ⟨v, state⟩ _ ⟨rfl, rfl⟩
    refine Run.told_send_bind rfl ?_
    exact ih state rest'
  | input line slot rest ih =>
    apply ((Script.told_read state.script other).mapError _).bind
    rintro _ rest' ⟨v, script⟩ _ ⟨rfl, rfl⟩
    exact ih (State.set { state with script } slot v) rest'
  | branch line condition body otherwise rest ihb iho ihr =>
    rw [exec_branch, exec_branch]
    apply (told_eval state other line condition).bind
    rintro _ rest' ⟨v, state⟩ _ ⟨rfl, rfl⟩
    have hp : Run.Told Abreast state.script rest'
        (if v.isTruthy then exec body state else exec otherwise state)
        (if v.isTruthy then exec body { state with script := rest' }
          else exec otherwise { state with script := rest' }) := by
      split
      · exact ihb state rest'
      · exact iho state rest'
    apply hp.bind
    intro _ _ _ _ hp
    exact told_andThen ihr hp
  | loop line condition body rest ihb ihr =>
    rw [exec_loop, exec_loop]
    apply (told_iterate line condition ihb loopLimit state other).bind
    intro _ _ _ _ hp
    exact told_andThen ihr hp

theorem told_run (program : Block) (memory : Memory) (script other : Script) :
    Run.Told (fun _ _ a b => a = b) script other (run program memory script)
      (run program memory other) := by
  apply (told_exec program ⟨memory, .clear, script⟩ other).bind
  rintro _ rest' ⟨flow, state⟩ _ ⟨rfl, rfl⟩
  cases flow with
  | halt =>
    refine Run.told_send_bind rfl ?_
    exact Run.told_pure rfl
  | next =>
    refine Run.told_send_bind rfl ?_
    refine Run.told_send_bind rfl ?_
    exact Run.told_pure rfl

end Walker

namespace Machine

/-- Two states at the same point of two runs with a script each. -/
def Abreast (rest rest' : Script) (p q : Control × State) : Prop :=
  p.2.script = rest ∧ q = (p.1, { p.2 with script := rest' })

theorem silent_announce (events : List Event) : Silent (announce events) := by
  intro signal hs
  obtain ⟨e, -, hs⟩ := List.mem_flatMap.1 hs
  simp only [List.mem_cons, List.not_mem_nil, or_false] at hs
  obtain rfl | rfl := hs <;> rfl

theorem told_calculate (operands : List Operand) (op : Arith) (state : State) (other : Script) :
    Run.Told (fun rest rest' a b => a.script = rest ∧ b = { a with script := rest' })
      state.script other (liftM (calculate operands op state) : Run Fault State)
      (liftM (calculate operands op { state with script := other })) := by
  simp only [calculate, Run.lift_bind]
  refine Run.told_lift_bind _ fun target => Run.told_lift_bind _ fun left =>
    Run.told_lift_bind _ fun right => Run.told_lift_bind _ fun p => ?_
  exact Run.told_pure ⟨rfl, rfl⟩

/-- An instruction hears of its script what it reads. -/
theorem told_step (program : Program) (instruction : Instruction) (state : State)
    (other : Script) : Run.Told Abreast state.script other (step program instruction state)
      (step program instruction { state with script := other }) := by
  obtain ⟨opcode, operands⟩ := instruction
  have hdone : ∀ (control : Control) (state : State), Run.Told Abreast state.script other
      (pure (control, state) : Run Fault _) (pure (control, { state with script := other })) :=
    fun control state => Run.told_pure ⟨rfl, rfl⟩
  cases opcode with
  | nov => exact hdone .halt state
  | tar | tir =>
    refine Run.told_lift_bind _ fun target => Run.told_lift_bind _ fun v => ?_
    exact hdone .next (state.set target v)
  | tin =>
    refine Run.told_lift_bind _ fun source =>
      Run.told_bind_of_silent (silent_announce _) fun _ => ?_
    exact hdone .next { state with ring := (state.ring.push (state.registers.read source)).1 }
  | tab =>
    refine Run.told_lift_bind _ fun target => Run.told_lift_bind _ fun p => ?_
    exact hdone .next (State.set { state with ring := p.2 } target p.1)
  | mav =>
    refine Run.told_lift_bind _ fun source => Run.told_send_bind rfl ?_
    exact hdone .next state
  | vir =>
    refine Run.told_lift_bind _ fun target => ?_
    apply (Script.told_read state.script other).bind
    rintro _ rest' ⟨v, script⟩ _ ⟨rfl, rfl⟩
    exact Run.told_pure ⟨rfl, rfl⟩
  | mak =>
    refine Run.told_send_bind rfl ?_
    exact hdone .next state
  | pav =>
    refine Run.told_lift_bind _ fun left => Run.told_lift_bind _ fun right => ?_
    exact hdone .next { state with flags := state.flags.compare left right }
  | kur | sur | mur | dur | rur =>
    apply (told_calculate operands _ state other).bind
    rintro _ rest' state _ ⟨rfl, rfl⟩
    exact Run.told_pure ⟨rfl, rfl⟩
  | rav | rev | rgv =>
    refine Run.told_lift_bind _ fun control => ?_
    exact hdone control state

theorem told_runFrom (program : Program) (left pc : Nat) (state : State) (other : Script) :
    Run.Told (fun _ _ a b => a = b) state.script other (runFrom program left pc state)
      (runFrom program left pc { state with script := other }) := by
  induction left generalizing pc state other with
  | zero =>
    rw [runFrom, runFrom]
    cases program.instructions[pc]? with
    | none =>
      refine Run.told_send_bind rfl (Run.told_send_bind rfl ?_)
      exact Run.told_pure rfl
    | some instruction =>
      refine Run.told_send_bind rfl (Run.told_send_bind rfl ?_)
      exact .error (.nil _) (.nil _) _
  | succ left ih =>
    rw [runFrom, runFrom]
    cases program.instructions[pc]? with
    | none =>
      refine Run.told_send_bind rfl (Run.told_send_bind rfl ?_)
      exact Run.told_pure rfl
    | some instruction =>
      refine Run.told_send_bind rfl (Run.told_send_bind rfl ?_)
      apply ((told_step program instruction.val state other).mapError _).bind
      rintro _ rest' ⟨control, state⟩ _ ⟨rfl, rfl⟩
      cases control with
      | next => exact ih (pc + 1) state rest'
      | jump target => exact ih target state rest'
      | halt =>
        refine Run.told_send_bind rfl ?_
        exact Run.told_pure rfl

end Machine

theorem Toolchain.IsPreface.silent {signals : List Signal} (h : IsPreface signals) :
    Silent signals := by
  obtain ⟨notes, rfl, -⟩ := h
  intro signal hs
  obtain ⟨note, -, rfl⟩ := List.mem_map.1 hs
  rfl

/-- A run hears of its script what it reads, whatever it runs. -/
theorem Mode.told_run (mode : Mode) (text : String) (memory : Memory) (script other : Script) :
    Run.Told (fun _ _ a b => a = b) script other (mode.run text memory script)
      (mode.run text memory other) := by
  have hexecute : ∀ listing : String, Run.Told (fun _ _ a b => a = b) script other
      (Toolchain.execute listing memory script) (Toolchain.execute listing memory other) := by
    intro listing
    have hs : Silent (Toolchain.assemble listing).signals :=
      Run.Sends.bind (Run.sends_lift _) fun program => .bind (Run.sends_send rfl) nofun
    refine Run.told_bind_of_silent hs fun program => Run.told_send_bind rfl ?_
    exact (Machine.told_runFrom program _ 0 ⟨memory, .empty, .clear, script⟩ other).mapError _
  cases mode with
  | walk =>
    refine Run.told_bind_of_silent (Toolchain.isPreface_parse text).silent fun program => ?_
    exact (Walker.told_run program memory script other).mapError _
  | execute => exact hexecute text
  | compile =>
    have hs : Silent (Toolchain.compile text none).signals :=
      Run.Sends.bind (Toolchain.isPreface_parse text).silent fun program =>
        .bind (Run.sends_send rfl) nofun
    exact Run.told_bind_of_silent hs fun listing => hexecute listing

end Octet
