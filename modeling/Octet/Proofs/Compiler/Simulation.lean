import Octet.Proofs.Compiler.Guarding
import Octet.Proofs.Tree.Normal
import Octet.Proofs.Walker.Flow
import Octet.Proofs.Walker.Trials

namespace Octet

/-- No more values wait in the ring than an expression has levels below the first. -/
theorem Expr.depth_le_of_normal {e : Expr} (h : e.Normal) : e.depth ≤ 2 - e.level := by
  induction e with
  | number n | text s | slot i => exact Nat.zero_le _
  | binary left op right ihl ihr =>
    obtain ⟨hl, hr, hle, hlt⟩ := h
    have hdl := ihl hl
    have hdr := ihr hr
    have hb : right.isBinary = true → right.level ≤ 2 := level_le_of_isBinary
    have hlevel : (binary left op right).level = op.level := rfl
    rw [hlevel, depth]
    split
    · exact Nat.zero_le _
    · split
      · next hs =>
        have hright := hb (Bool.and_eq_true_iff.1 hs).2
        omega
      · omega

namespace Compiler

open Machine (At Reaches Breaks Yields yields_map)
open Walker (Flow)

/-- The machine is where the language is: at the same slots, carry and script, and with nothing in
its ring. -/
structure Matches (walker : Walker.State) (machine : Machine.State) : Prop where
  slots : ∀ i, ¬IsWork i → machine.registers.read i = walker.memory.read i
  carry : machine.flags.carry = walker.flags.carry
  ring : machine.ring.live = 0
  script : machine.script = walker.script

variable {program : Program} {pc mid last otherwise miss : Nat} {walker : Walker.State}
  {machine next : Machine.State} {e value condition : Expr} {scope after : Scope} {target : Slot}
  {v : Value} {flags : Flags} {carry : Bool} {signals seen : List Signal}
  {run : Run (Located Fault) (Flow × Walker.State)}

/-- An expression that the machine works out as the language does, from a state that matches. -/
def Workable (e : Expr) : Prop := e.Avoids IsWork ∧ e.depth ≤ 4

section Values

theorem eval_of_matches (hm : Matches walker machine) (ha : e.Avoids IsWork)
    (ht : ∀ t ∈ walker.trials e, t.Regular) :
    e.eval walker.memory walker.flags = (e.reckon machine.registers machine.flags.carry).map
      fun (v, carry) => (v, { walker.flags with carry }) := by
  rw [hm.carry, Expr.reckon_congr ha hm.slots]
  exact Expr.eval_eq_reckon fun (op, left, right) hc =>
    ht (.compare op left right) (List.mem_map_of_mem hc)

/-- What the code of an expression does is what the language does. -/
theorem yields_compute (hm : Matches walker machine) (hw : Workable e)
    (ht : ∀ t ∈ walker.trials e, t.Regular)
    (h : Installed program (compute e target) scope after pc last) :
    Yields program pc machine (e.eval walker.memory walker.flags) (fun _ => last)
      fun p next => Evaluated e target p.1 p.2.carry machine next := by
  rw [eval_of_matches hm hw.1 ht, yields_map]
  exact correct_of_depth_le hw.1 hw.2 machine h

theorem yields_fill (hm : Matches walker machine) (hw : Workable e)
    (ht : ∀ t ∈ walker.trials e, t.Regular)
    (h : Installed program (fill e (compute e leftWork)) scope after pc last) :
    Yields program pc machine (e.eval walker.memory walker.flags) (fun _ => last)
      fun p next => Filled e leftWork p.1 p.2.carry machine next := by
  rw [eval_of_matches hm hw.1 ht, yields_map]
  exact works_fill (by decide) (correct_of_depth_le hw.1 hw.2) h machine

theorem Matches.assign (hm : Matches walker machine) {slot : Slot}
    (h : Evaluated e slot v flags.carry machine next) :
    Matches ({ walker with flags }.set slot v) next where
  slots i hi := by
    rw [Walker.State.set, Memory.read_put]
    split
    · next he => rw [he, h.value]
    · next he => exact (h.others i he fun _ => hi).trans (hm.slots i hi)
  carry := h.carry
  ring := Ring.live_of_toList hm.ring h.ring
  script := h.script.trans hm.script

theorem Matches.fill (hm : Matches walker machine)
    (h : Filled e leftWork v flags.carry machine next) : Matches { walker with flags } next where
  slots i hi := (h.slots i hi).trans (hm.slots i hi)
  carry := h.carry
  ring := Ring.live_of_toList hm.ring h.ring
  script := h.script.trans hm.script

theorem Matches.input (hm : Matches walker machine) (slot : Slot) (v : Value) :
    Matches ({ walker with script := walker.script.next.2 }.set slot v)
      ({ machine with script := machine.script.next.2 }.set slot v) where
  slots i hi := by
    rw [Walker.State.set, Machine.registers_set, Memory.read_put, Memory.read_put, hm.slots i hi]
  carry := hm.carry
  ring := hm.ring
  script := congrArg (·.next.2) hm.script

theorem reckonGuard_of_regular {memory : Memory}
    (h : ∀ v last, condition.reckon memory carry = .ok (v, last) → (Trial.condition v).Regular) :
    condition.reckonGuard memory carry = (condition.reckon memory carry).map
      fun (v, carry) => (v.isTruthy, carry) := by
  obtain hc | ⟨left, op, right, rfl⟩ := isPlain_or condition
  · rw [reckonGuard_plain hc]
    cases hv : condition.reckon memory carry with
    | error fault => rfl
    | ok p =>
      have hz := Value.isNonzero_of_regular (h p.1 p.2 hv)
      simp only [bind, Except.bind, hz]
      rfl
  · rw [reckon_compare]
    cases (Expr.binary left (.compare op) right).reckonGuard memory carry with
    | error fault => rfl
    | ok p => simp only [Except.map, isTruthy_ofBool]

/-- A guard goes the way that the language goes at its condition. -/
theorem yields_guard (hm : Matches walker machine) (hw : Workable condition)
    (ht : ∀ t ∈ walker.conditionTrials condition, t.Regular)
    (h : Installed program (guard condition otherwise) scope after pc last)
    (hl : program.labels.get? (Listing.labelName otherwise) = some miss) :
    Yields program pc machine (condition.eval walker.memory walker.flags)
      (fun p => if p.1.isTruthy then last else miss)
      fun p next => Matches { walker with flags := p.2 } next := by
  have he := eval_of_matches hm hw.1 fun t h => ht t (List.mem_append_left _ h)
  have hg : condition.reckonGuard machine.registers machine.flags.carry = _ :=
    reckonGuard_of_regular fun v last hv => ht (.condition v) (List.mem_append_right _ (by
      rw [he, hv]
      exact List.mem_singleton_self _))
  have hv := works_guard hw.1 hw.2 h hl machine
  rw [WorksGuard, hg, yields_map] at hv
  rw [he, yields_map]
  exact hv.imp fun p next hv => ⟨fun i hi => (hv.slots i hi).trans (hm.slots i hi), hv.carry,
    Ring.live_of_toList hm.ring hv.ring, hv.script.trans hm.script⟩

end Values

/-- The machine does what a run of the language does, in code that ends at a position: it comes
there, or to a halt, or fails alike. Of a run that overheats it does as much. -/
def Simulates (program : Program) (pc last : Nat) (machine : Machine.State)
    (run : Run (Located Fault) (Flow × Walker.State)) : Prop :=
  match run.result with
  | .ok (.next, walker) =>
    ∃ next, Reaches program pc machine (exchanges run.signals) last next ∧ Matches walker next
  | .ok (.halt, walker) =>
    ∃ stop next, Reaches program pc machine (exchanges run.signals) stop next ∧
      At program stop ⟨.nov, []⟩ ∧ Matches walker next
  | .error e =>
    Breaks program pc machine (exchanges run.signals) e.val ∨
      e.val = .overheat loopLimit ∧
        ∃ stop next, Reaches program pc machine (exchanges run.signals) stop next

section Simulates

theorem Simulates.of_reaches (h : Simulates program mid last next run) (signals : List Signal)
    (hr : Reaches program pc machine (exchanges signals) mid next) :
    Simulates program pc last machine ⟨signals ++ run.signals, run.result⟩ := by
  obtain ⟨more, result⟩ := run
  rw [Simulates] at h ⊢
  simp only [exchanges_append]
  match result with
  | .ok (.next, walker) =>
    obtain ⟨final, hf, hm⟩ := h
    exact ⟨final, hr.trans hf, hm⟩
  | .ok (.halt, walker) =>
    obtain ⟨stop, final, hf, ha, hm⟩ := h
    exact ⟨stop, final, hr.trans hf, ha, hm⟩
  | .error e =>
    obtain hb | ⟨ho, stop, final, hf⟩ := h
    · exact .inl (hr.breaks hb)
    · exact .inr ⟨ho, stop, final, hr.trans hf⟩

theorem Simulates.trans_reaches (h : Simulates program pc mid machine run)
    (hr : ∀ next, Reaches program mid next [] last next) :
    Simulates program pc last machine run := by
  obtain ⟨signals, result⟩ := run
  rw [Simulates] at h ⊢
  match result with
  | .ok (.next, walker) =>
    obtain ⟨next, hf, hm⟩ := h
    exact ⟨next, by simpa using hf.trans (hr next), hm⟩
  | .ok (.halt, walker) => exact h
  | .error e => exact h

/-- A run that goes on where it comes to its end. -/
theorem Simulates.andThen {rest : Walker.State → Run (Located Fault) (Flow × Walker.State)}
    (h : Simulates program pc mid machine run)
    (hr : ∀ walker next, run.result = .ok (.next, walker) → Matches walker next →
      Simulates program mid last next (rest walker)) :
    Simulates program pc last machine (run >>= Walker.andThen rest) := by
  obtain ⟨signals, result⟩ := run
  match result with
  | .ok (.next, walker) =>
    obtain ⟨next, hf, hm⟩ := h
    rw [Run.bind_of_ok rfl]
    exact (hr walker next rfl hm).of_reaches signals hf
  | .ok (.halt, walker) =>
    rw [Run.bind_of_ok rfl]
    simpa [Simulates, Walker.andThen] using h
  | .error e => exact h

/-- A run that begins with an expression goes on where its value leads the machine. -/
theorem simulates_eval {f : Value × Walker.State → Run (Located Fault) (Flow × Walker.State)}
    {line : Nat} {exit : Value × Flags → Nat} {post : Value × Flags → Machine.State → Prop}
    (h : Yields program pc machine (e.eval walker.memory walker.flags) exit post)
    (hf : ∀ v flags next, e.eval walker.memory walker.flags = .ok (v, flags) →
      post (v, flags) next →
      Simulates program (exit (v, flags)) last next (f (v, { walker with flags }))) :
    Simulates program pc last machine (walker.eval line e >>= f) := by
  cases hv : e.eval walker.memory walker.flags with
  | error fault =>
    rw [hv] at h
    rw [Walker.eval_of_error hv]
    exact .inl h
  | ok p =>
    obtain ⟨v, flags⟩ := p
    rw [hv] at h
    obtain ⟨next, hr, hp⟩ := h
    rw [Walker.eval_of_ok hv]
    exact (hf v flags next hv hp).of_reaches [] hr

end Simulates

section Statements

variable {line start : Nat} {slot : Slot} {body other rest : Block} {p q r : Nat} {first : Scope}

/-- Between two positions, the machine does what a block does, as long as all trials are regular. -/
def Follows (program : Program) (pc last : Nat) (b : Block) : Prop :=
  ∀ {walker machine}, Matches walker machine → (∀ t ∈ b.trials walker, t.Regular) →
    Simulates program pc last machine (Walker.exec b walker)

theorem follows_done : Follows program pc pc .done :=
  fun {_ machine} hm _ => ⟨machine, .refl, hm⟩

theorem follows_halt (ha : At program pc ⟨.nov, []⟩) : Follows program pc last (.halt line rest) :=
  fun {_ machine} hm _ => ⟨pc, machine, .refl, ha, hm⟩

theorem follows_assign (hw : Workable value)
    (hc : Installed program (compute value slot) scope first pc p)
    (hr : Follows program p last rest) :
    Follows program pc last (.assign line slot value rest) := by
  intro walker machine hm ht
  obtain ⟨htv, ht⟩ := List.forall_mem_append.1 ht
  refine simulates_eval (yields_compute hm hw htv hc) fun v flags next he hv => ?_
  rw [he] at ht
  exact hr (hm.assign hv) ht

theorem follows_output (hw : Workable value)
    (hf : Installed program (fill value (compute value leftWork)) scope first pc p)
    (ha : At program p ⟨.mav, [.register (home leftWork value)]⟩)
    (hr : Follows program (p + 1) last rest) :
    Follows program pc last (.output line value rest) := by
  intro walker machine hm ht
  obtain ⟨htv, ht⟩ := List.forall_mem_append.1 ht
  refine simulates_eval (yields_fill hm hw htv hf) fun v flags next he hv => ?_
  rw [he] at ht
  have hs : Machine.step program ⟨.mav, [.register (home leftWork value)]⟩ next = _ :=
    Machine.step_mav _
  rw [hv.value] at hs
  exact (hr (hm.fill hv) ht).of_reaches [.display v.display] (Machine.reaches_of_step ha hs rfl)

theorem follows_input (ha : At program pc ⟨.vir, [.register slot]⟩)
    (hr : Follows program (pc + 1) last rest) :
    Follows program pc last (.input line slot rest) := by
  intro walker machine hm ht
  cases hx : walker.script.next.1 with
  | none =>
    rw [Walker.exec_input_none slot rest hx]
    exact .inl (Machine.breaks_of_step ha (Machine.step_vir_none (hm.script ▸ hx)))
  | some text =>
    have hread : walker.script.read =
        ⟨[.read (some text)], .ok (.ofInput text, walker.script.next.2)⟩ := by
      rw [Script.read, hx]
      rfl
    rw [Block.trials, hread] at ht
    rw [Walker.exec_input_some slot rest hx]
    exact (hr (hm.input slot (.ofInput text)) ht).of_reaches _
      (Machine.reaches_of_step ha (Machine.step_vir_some (hm.script ▸ hx)) rfl)

/-- Body and alternative of a branch come to the same place, where the rest goes on. -/
theorem follows_branch (hw : Workable condition)
    (hg : Installed program (guard condition otherwise) scope first pc p)
    (hl : program.labels.get? (Listing.labelName otherwise) = some miss)
    (hb : Follows program p r body) (ho : Follows program miss r other)
    (hr : Follows program r last rest) :
    Follows program pc last (.branch line condition body other rest) := by
  intro walker machine hm ht
  rw [Walker.exec_branch]
  obtain ⟨htc, ht⟩ := List.forall_mem_append.1 ht
  refine simulates_eval (yields_guard hm hw htc hg hl) fun v flags next he hm => ?_
  rw [he] at ht
  obtain ⟨hti, htr⟩ := List.forall_mem_append.1 ht
  have hinner : Simulates program (if v.isTruthy then p else miss) r next
      (if v.isTruthy then Walker.exec body { walker with flags }
        else Walker.exec other { walker with flags }) := by
    split
    · next hz => exact hb hm (by rwa [if_pos hz] at hti)
    · next hz => exact ho hm (by rwa [if_neg hz] at hti)
  refine hinner.andThen fun walker next hv hm => ?_
  rw [hv] at htr
  exact hr hm htr

/-- A loop that comes back to its condition goes on as a loop with one turn less. -/
theorem simulates_iterate (line : Nat) (hw : Workable condition)
    (hs : program.labels.get? (Listing.labelName start) = some pc)
    (hg : Installed program (guard condition otherwise) scope first pc p)
    (hl : program.labels.get? (Listing.labelName otherwise) = some last)
    (hb : Follows program p q body) (hj : At program q ⟨.rav, [.label (Listing.labelName start)]⟩)
    (hm : Matches walker machine) (left : Nat)
    (ht : ∀ t ∈ Walker.iterateTrials condition (Walker.exec body) body.trials left walker,
      t.Regular) :
    Simulates program pc last machine
      (Walker.iterate line condition (Walker.exec body) left walker) := by
  induction left generalizing walker machine with
  | zero =>
    rw [Walker.iterate]
    refine simulates_eval (yields_guard hm hw ht hg hl) fun v flags next _ hm => ?_
    by_cases hz : v.isTruthy = true
    · simp only [if_pos hz]
      -- The language gives up, and the machine, which does not, has come as far.
      exact .inr ⟨rfl, p, next, .refl⟩
    · simp only [if_neg hz]
      exact ⟨next, .refl, hm⟩
  | succ left ih =>
    rw [Walker.iterate_succ]
    obtain ⟨htc, ht⟩ := List.forall_mem_append.1 ht
    refine simulates_eval (yields_guard hm hw htc hg hl) fun v flags next he hm => ?_
    rw [he] at ht
    by_cases hz : v.isTruthy = true
    · simp only [if_pos hz] at ht ⊢
      obtain ⟨htb, htr⟩ := List.forall_mem_append.1 ht
      have hturn := (hb hm htb).andThen fun walker next hv hm => by
        rw [hv] at htr
        have hback : Reaches program q next [] pc next :=
          Machine.reaches_of_step hj (Machine.step_rav hs) rfl
        exact (ih hm htr).of_reaches [] hback
      exact hturn.of_reaches [.tick] .refl
    · simp only [if_neg hz]
      exact ⟨next, .refl, hm⟩

/-- Where a block is installed, the machine does what the block does. -/
theorem follows_block {b : Block} (hb : b.Every Workable)
    (h : Installed program (block b) scope after pc last) : Follows program pc last b := by
  induction b generalizing scope after pc last with
  | done =>
    rw [installed_done h]
    exact follows_done
  | halt line rest _ => exact follows_halt (installed_halt h).1
  | assign line slot value rest ih =>
    obtain ⟨mid, p, hc, hr⟩ := installed_assign h
    exact follows_assign hb.1 hc (ih hb.2 hr)
  | output line value rest ih =>
    obtain ⟨mid, p, hf, ha, hr⟩ := installed_output h
    exact follows_output hb.1 hf ha (ih hb.2 hr)
  | input line slot rest ih =>
    obtain ⟨ha, hr⟩ := installed_input h
    exact follows_input ha (ih hb hr)
  | branch line condition body otherwise rest ihb iho ihr =>
    obtain ⟨hc, hbb, hbo, hbr⟩ := hb
    by_cases ho : otherwise = .done
    · subst ho
      obtain ⟨miss, first, second, p, q, hg, hi, hl, hr⟩ := installed_branch_done h
      exact follows_branch hc hg hl (ihb hbb hi) follows_done (ihr hbr hr)
    · obtain ⟨miss, finish, first, second, third, p, q, r, hg, hi, hj, hl, he, hf, hr⟩ :=
        installed_branch ho h
      have hbody : Follows program p r body := fun hm ht => (ihb hbb hi hm ht).trans_reaches
        fun _ => Machine.reaches_of_step hj (Machine.step_rav hf) rfl
      exact follows_branch hc hg hl hbody (iho hbo he) (ihr hbr hr)
  | loop line condition body rest ihb ihr =>
    obtain ⟨hc, hbb, hbr⟩ := hb
    obtain ⟨start, finish, first, second, p, q, hs, hg, hi, hj, hl, hr⟩ := installed_loop h
    intro walker machine hm ht
    obtain ⟨hti, htr⟩ := List.forall_mem_append.1 ht
    rw [Walker.exec_loop]
    have hloop := simulates_iterate line hc hs hg hl (ihb hbb hi) hj hm loopLimit hti
    refine hloop.andThen fun walker next hv hm => ?_
    rw [hv] at htr
    exact ihr hbr hr hm htr

end Statements

end Compiler

end Octet
