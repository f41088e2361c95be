import Octet.Proofs.Compiler.Simulation
import Octet.Proofs.Compiler.Statements
import Octet.Proofs.Machine.Window
import Octet.Proofs.Walker.Lines

namespace Octet

/-- Beside each statement stands one comment. -/
theorem Block.length_captions (b : Block) : b.captions.length = b.lines.length := by
  induction b with
  | done => rfl
  | halt line rest ih | assign line slot value rest ih | output line value rest ih
  | input line slot rest ih => exact congrArg (· + 1) ih
  | branch line condition body otherwise rest ihb iho ihr =>
    simp [captions, lines, ihb, iho, ihr]
  | loop line condition body rest ihb ihr => simp [captions, lines, ihb, ihr]

namespace Listing

variable {pc stop line : Nat} {code more own : List Line} {lines rest : List Nat} {text : String}

/-- The instruction at a position belongs to the statement of a line: the code that its comment
stands at the head of reaches so far. The code has a comment for each of the lines. -/
def Owns (pc : Nat) (code : List Line) (lines : List Nat) (stop line : Nat) : Prop :=
  ∃ before text own after earlier later, code = before ++ (annotate text own ++ after) ∧
    Bare own ∧ lines = earlier ++ line :: later ∧ (comments before).length = earlier.length ∧
    pc + size before ≤ stop ∧ stop < pc + size before + size own

theorem owns_annotate (hb : Bare own) (hl : pc ≤ stop)
    (hlt : stop < pc + size (annotate text own)) :
    Owns pc (annotate text own) [line] stop line :=
  ⟨[], text, own, [], [], [], (List.append_nil _).symm, hb, rfl, rfl, hl,
    size_annotate own text ▸ hlt⟩

theorem Owns.append (h : Owns pc code lines stop line) (more : List Line) (rest : List Nat) :
    Owns pc (code ++ more) (lines ++ rest) stop line := by
  obtain ⟨before, text, own, after, earlier, later, rfl, hb, rfl, hc, hl, hlt⟩ := h
  exact ⟨before, text, own, after ++ more, earlier, later ++ rest, by simp, hb, by simp, hc, hl,
    hlt⟩

theorem Owns.prepend (h : Owns (pc + size code) more rest stop line)
    (hc : (comments code).length = lines.length) :
    Owns pc (code ++ more) (lines ++ rest) stop line := by
  obtain ⟨before, text, own, after, earlier, later, rfl, hb, rfl, he, hl, hlt⟩ := h
  refine ⟨code ++ before, text, own, after, lines ++ earlier, later, by simp, hb, by simp, ?_, ?_,
    ?_⟩
  · rw [comments_append, List.length_append, List.length_append, hc, he]
  · rwa [size_append, ← Nat.add_assoc]
  · rwa [size_append, ← Nat.add_assoc]

/-- Code without comments leaves what is behind it to the statements there. -/
theorem Owns.skip (h : Owns (pc + size code) more rest stop line) (hc : comments code = []) :
    Owns pc (code ++ more) rest stop line := by
  rw [← List.nil_append rest]
  exact h.prepend (congrArg List.length hc)

end Listing

namespace Compiler

open Listing (Line Owns Placed Bare comments size annotate placed_append)
open Machine (At Reaches Yields BreaksAt window)
open Walker (Flow)

variable {program : Program} {pc mid last otherwise miss stop line start p q r : Nat}
  {walker : Walker.State} {machine next : Machine.State} {e value condition : Expr}
  {scope first after : Scope} {slot : Slot} {code : List Line} {signals : List Signal}
  {run : Run (Located Fault) (Flow × Walker.State)} {owns owns' : Nat → Nat → Prop}
  {body other rest : Block}

section Window

theorem placed_window {from' : Nat} (hp : Placed program pc code) (hf : from' ≤ pc)
    (hl : pc + size code ≤ last) : Placed (window program from' last) pc code := by
  induction code generalizing pc with
  | nil => trivial
  | cons line code ih =>
    cases line with
    | label n => exact ⟨hp.1, ih hp.2 hf hl⟩
    | instruction i comment =>
      rw [Listing.size_instruction] at hl
      have hlt : pc < last := by omega
      refine ⟨?_, ih hp.2 (Nat.le_succ_of_le hf) (by omega)⟩
      rw [Machine.fetch_window_of_le hf, if_pos hlt]
      exact hp.1

/-- Code stays installed in a window on it. -/
theorem installed_window {emitter : StateM Scope (List Line)}
    (h : Installed program emitter scope after pc last) :
    Installed (window program pc last) emitter scope after pc last := by
  obtain ⟨code, he, hp, hd, rfl⟩ := h
  exact ⟨code, he, placed_window hp (Nat.le_refl _) (Nat.le_refl _), hd, rfl⟩

theorem installed_annotated {emitter : StateM Scope (List Line)} {text : String}
    (h : Emits emitter scope code after) (hp : Placed program pc (annotate text code))
    (hd : Stocked program after.texts) :
    Installed program emitter scope after pc (pc + size (annotate text code)) :=
  ⟨code, h, (Listing.placed_annotate ..).1 hp, hd, by rw [Listing.size_annotate]⟩

end Window

/-- Where a run of the language fails, other than by a loop that it gives up, the machine fails
alike, at an instruction that belongs to the line. -/
def Blames (program : Program) (pc : Nat) (owns : Nat → Nat → Prop) (machine : Machine.State)
    (run : Run (Located Fault) (Flow × Walker.State)) : Prop :=
  ∀ e, run.result = .error e → e.val ≠ .overheat loopLimit →
    ∃ stop, BreaksAt program pc machine (exchanges run.signals) stop e.val ∧ owns stop e.line

section Blames

theorem Blames.imp (h : Blames program pc owns machine run)
    (hi : ∀ stop line, owns stop line → owns' stop line) : Blames program pc owns' machine run := by
  intro e he ho
  obtain ⟨stop, hb, hs⟩ := h e he ho
  exact ⟨stop, hb, hi stop e.line hs⟩

theorem blames_of_ok {signals : List Signal} {a : Flow × Walker.State} :
    Blames program pc owns machine ⟨signals, .ok a⟩ := nofun

theorem Blames.of_reaches (h : Blames program mid owns next run) (signals : List Signal)
    (hr : Reaches program pc machine (exchanges signals) mid next) :
    Blames program pc owns machine ⟨signals ++ run.signals, run.result⟩ := by
  intro e he ho
  obtain ⟨stop, hb, hs⟩ := h e he ho
  refine ⟨stop, ?_, hs⟩
  rw [exchanges_append]
  exact hr.breaksAt hb

/-- A run that goes on where it comes to its end. -/
theorem Blames.andThen {rest : Walker.State → Run (Located Fault) (Flow × Walker.State)}
    (h : Blames program pc owns machine run) (hs : Simulates program pc mid machine run)
    (hr : ∀ walker next, run.result = .ok (.next, walker) → Matches walker next →
      Blames program mid owns next (rest walker)) :
    Blames program pc owns machine (run >>= Walker.andThen rest) := by
  obtain ⟨signals, result⟩ := run
  match result with
  | .ok (.next, walker) =>
    obtain ⟨next, hf, hm⟩ := hs
    rw [Run.bind_of_ok rfl]
    exact (hr walker next rfl hm).of_reaches signals hf
  | .ok (.halt, walker) =>
    rw [Run.bind_of_ok rfl]
    exact blames_of_ok
  | .error e => exact h

/-- A run that begins with an expression fails in its code, or goes on where its value leads the
machine. -/
theorem blames_eval {f : Value × Walker.State → Run (Located Fault) (Flow × Walker.State)}
    {exit : Value × Flags → Nat} {post : Value × Flags → Machine.State → Prop}
    (h : Yields (window program pc p) pc machine (e.eval walker.memory walker.flags) exit post)
    (ho : ∀ stop, pc ≤ stop → stop < p → owns stop line)
    (hf : ∀ v flags next, e.eval walker.memory walker.flags = .ok (v, flags) →
      post (v, flags) next →
      Blames program (exit (v, flags)) owns next (f (v, { walker with flags }))) :
    Blames program pc owns machine (walker.eval line e >>= f) := by
  cases hv : e.eval walker.memory walker.flags with
  | error fault =>
    rw [hv] at h
    rw [Walker.eval_of_error hv]
    rintro _ ⟨⟩ -
    obtain ⟨stop, hl, hlt, hb⟩ := Machine.Breaks.of_window h
    exact ⟨stop, hb, ho stop hl hlt⟩
  | ok a =>
    obtain ⟨v, flags⟩ := a
    rw [hv] at h
    obtain ⟨next, ⟨n, signals, hs, hx⟩, hp⟩ := h
    rw [Walker.eval_of_ok hv]
    exact (hf v flags next hv hp).of_reaches [] ⟨n, signals, hs.of_window, hx⟩

end Blames

section Statements

/-- From a position on, the machine fails where a block does, as long as all trials are regular. -/
def Locates (program : Program) (pc : Nat) (owns : Nat → Nat → Prop) (b : Block) : Prop :=
  ∀ ⦃walker machine⦄, Matches walker machine → (∀ t ∈ b.trials walker, t.Regular) →
    Blames program pc owns machine (Walker.exec b walker)

theorem locates_assign (hw : Workable value)
    (hc : Installed program (compute value slot) scope first pc p)
    (ho : ∀ stop, pc ≤ stop → stop < p → owns stop line) (hr : Locates program p owns rest) :
    Locates program pc owns (.assign line slot value rest) := by
  intro walker machine hm ht
  obtain ⟨htv, ht⟩ := List.forall_mem_append.1 ht
  have hy := yields_compute hm hw htv (installed_window hc)
  refine blames_eval hy ho fun v flags next he hv => ?_
  rw [he] at ht
  exact hr (hm.assign hv) ht

theorem locates_output (hw : Workable value)
    (hf : Installed program (fill value (compute value leftWork)) scope first pc p)
    (ha : At program p ⟨.mav, [.register (home leftWork value)]⟩)
    (ho : ∀ stop, pc ≤ stop → stop < p → owns stop line) (hr : Locates program (p + 1) owns rest) :
    Locates program pc owns (.output line value rest) := by
  intro walker machine hm ht
  obtain ⟨htv, ht⟩ := List.forall_mem_append.1 ht
  refine blames_eval (yields_fill hm hw htv (installed_window hf)) ho fun v flags next he hv => ?_
  rw [he] at ht
  have hs : Machine.step program ⟨.mav, [.register (home leftWork value)]⟩ next = _ :=
    Machine.step_mav _
  rw [hv.value] at hs
  exact (hr (hm.fill hv) ht).of_reaches [.display v.display] (Machine.reaches_of_step ha hs rfl)

theorem locates_input (ha : At program pc ⟨.vir, [.register slot]⟩) (ho : owns pc line)
    (hr : Locates program (pc + 1) owns rest) :
    Locates program pc owns (.input line slot rest) := by
  intro walker machine hm ht
  cases hx : walker.script.next.1 with
  | none =>
    rw [Walker.exec_input_none slot rest hx]
    rintro _ ⟨⟩ -
    exact ⟨pc, Machine.breaksAt_of_step ha (Machine.step_vir_none (hm.script ▸ hx)), ho⟩
  | some text =>
    have hread : walker.script.read =
        ⟨[.read (some text)], .ok (.ofInput text, walker.script.next.2)⟩ := by
      rw [Script.read, hx]
      rfl
    rw [Block.trials, hread] at ht
    rw [Walker.exec_input_some slot rest hx]
    exact (hr (hm.input slot (.ofInput text)) ht).of_reaches _
      (Machine.reaches_of_step ha (Machine.step_vir_some (hm.script ▸ hx)) rfl)

theorem locates_branch (hw : Workable condition)
    (hg : Installed program (guard condition otherwise) scope first pc p)
    (hl : program.labels.get? (Listing.labelName otherwise) = some miss)
    (ho : ∀ stop, pc ≤ stop → stop < p → owns stop line)
    (hfb : Follows program p r body) (hb : Locates program p owns body)
    (hfo : Follows program miss r other) (hot : Locates program miss owns other)
    (hr : Locates program r owns rest) :
    Locates program pc owns (.branch line condition body other rest) := by
  intro walker machine hm ht
  rw [Walker.exec_branch]
  obtain ⟨htc, ht⟩ := List.forall_mem_append.1 ht
  have hy := yields_guard hm hw htc (installed_window hg) hl
  refine blames_eval hy ho fun v flags next he hm => ?_
  rw [he] at ht
  obtain ⟨hti, htr⟩ := List.forall_mem_append.1 ht
  dsimp only
  split
  · next hz =>
    simp only [if_pos hz] at hti htr
    refine (hb hm hti).andThen (hfb hm hti) fun walker next hv hm => ?_
    rw [hv] at htr
    exact hr hm htr
  · next hz =>
    simp only [if_neg hz] at hti htr
    refine (hot hm hti).andThen (hfo hm hti) fun walker next hv hm => ?_
    rw [hv] at htr
    exact hr hm htr

/-- A loop fails where one of its turns does. -/
theorem blames_iterate (hw : Workable condition)
    (hs : program.labels.get? (Listing.labelName start) = some pc)
    (hg : Installed program (guard condition otherwise) scope first pc p)
    (hl : program.labels.get? (Listing.labelName otherwise) = some last)
    (ho : ∀ stop, pc ≤ stop → stop < p → owns stop line)
    (hfb : Follows program p q body) (hb : Locates program p owns body)
    (hj : At program q ⟨.rav, [.label (Listing.labelName start)]⟩)
    (hm : Matches walker machine) (left : Nat)
    (ht : ∀ t ∈ Walker.iterateTrials condition (Walker.exec body) body.trials left walker,
      t.Regular) :
    Blames program pc owns machine
      (Walker.iterate line condition (Walker.exec body) left walker) := by
  induction left generalizing walker machine with
  | zero =>
    rw [Walker.iterate]
    have hy := yields_guard hm hw ht (installed_window hg) hl
    refine blames_eval hy ho fun v flags next _ hm => ?_
    by_cases hz : v.isTruthy = true
    · simp only [if_pos hz]
      rintro _ ⟨⟩ hne
      exact absurd rfl hne
    · simp only [if_neg hz]
      exact blames_of_ok
  | succ left ih =>
    rw [Walker.iterate_succ]
    obtain ⟨htc, ht⟩ := List.forall_mem_append.1 ht
    have hy := yields_guard hm hw htc (installed_window hg) hl
    refine blames_eval hy ho fun v flags next he hm => ?_
    rw [he] at ht
    by_cases hz : v.isTruthy = true
    · simp only [if_pos hz] at ht ⊢
      obtain ⟨htb, htr⟩ := List.forall_mem_append.1 ht
      have hturn := (hb hm htb).andThen (hfb hm htb) fun walker next hv hm => by
        rw [hv] at htr
        have hback : Reaches program q next [] pc next :=
          Machine.reaches_of_step hj (Machine.step_rav hs) rfl
        exact (ih hm htr).of_reaches [] hback
      exact hturn.of_reaches [.tick] .refl
    · simp only [if_neg hz]
      exact blames_of_ok

theorem locates_loop (hw : Workable condition)
    (hs : program.labels.get? (Listing.labelName start) = some pc)
    (hg : Installed program (guard condition otherwise) scope first pc p)
    (hl : program.labels.get? (Listing.labelName otherwise) = some last)
    (ho : ∀ stop, pc ≤ stop → stop < p → owns stop line)
    (hfb : Follows program p q body) (hb : Locates program p owns body)
    (hj : At program q ⟨.rav, [.label (Listing.labelName start)]⟩)
    (hr : Locates program last owns rest) :
    Locates program pc owns (.loop line condition body rest) := by
  intro walker machine hm ht
  obtain ⟨hti, htr⟩ := List.forall_mem_append.1 ht
  rw [Walker.exec_loop]
  have hloop := blames_iterate hw hs hg hl ho hfb hb hj hm loopLimit hti
  refine hloop.andThen (simulates_iterate line hw hs hg hl hfb hj hm loopLimit hti)
    fun walker next hv hm => ?_
  rw [hv] at htr
  exact hr hm htr

theorem Locates.imp {b : Block} (h : Locates program pc owns b)
    (hi : ∀ stop line, owns stop line → owns' stop line) : Locates program pc owns' b :=
  fun _ _ hm ht => (h hm ht).imp hi

theorem Locates.append {b : Block} {lines : List Nat}
    (h : Locates program pc (Owns mid code lines) b) (more : List Line) (others : List Nat) :
    Locates program pc (Owns mid (code ++ more) (lines ++ others)) b :=
  h.imp fun _ _ ho => ho.append more others

theorem Locates.prepend {more : List Line} {lines others : List Nat} {b : Block}
    (h : Locates program pc (Owns (mid + size code) more others) b)
    (hc : (comments code).length = lines.length) :
    Locates program pc (Owns mid (code ++ more) (lines ++ others)) b :=
  h.imp fun _ _ ho => ho.prepend hc

theorem Locates.skip {more : List Line} {others : List Nat} {b : Block}
    (h : Locates program pc (Owns (mid + size code) more others) b) (hc : comments code = []) :
    Locates program pc (Owns mid (code ++ more) others) b :=
  h.imp fun _ _ ho => ho.skip hc

theorem length_comments_annotate {own : List Line} (text : String) (hb : Bare own ∧ own ≠ [])
    (line : Nat) : (comments (annotate text own)).length = [line].length := by
  rw [(hb.1.annotate hb.2 0).1]
  rfl

theorem length_comments_block {b : Block} (h : Emits (block b) scope code after) :
    (comments code).length = b.lines.length := by
  rw [comments_block h, b.length_captions]

/-- Where a block is installed, the machine fails where the block does, and the comments of the code
tell in which statement. -/
theorem locates_block {b : Block} (hb : b.Every Workable) (h : Emits (block b) scope code after)
    (hp : Placed program pc code) (hd : Stocked program after.texts) :
    Locates program pc (Owns pc code b.lines) b := by
  induction b generalizing scope code after pc with
  | done | halt line rest _ => exact fun _ _ _ _ => blames_of_ok
  | assign line slot value rest ih =>
    obtain ⟨first, mid, next, hf, hn, rfl⟩ := emits_assign h
    obtain ⟨hpf, hp⟩ := (placed_append ..).1 hp
    have hbare := bare_compute hf
    have hi := installed_annotated hf hpf (stocked_of_block hn hd)
    refine locates_assign hb.1 hi (fun stop hl hlt => ?_) ?_
    · exact (Listing.owns_annotate hbare.1 hl hlt).append next rest.lines
    · exact (ih hb.2 hn hp hd).prepend (length_comments_annotate _ hbare line)
  | output line value rest ih =>
    obtain ⟨first, mid, next, hf, hn, rfl⟩ := emits_output h
    obtain ⟨hpf, hp⟩ := (placed_append ..).1 hp
    obtain ⟨hpf, hmav⟩ := (placed_append ..).1 ((Listing.placed_annotate ..).1 hpf)
    have hi : Installed program (fill value (compute value leftWork)) scope mid pc
        (pc + size first) := ⟨first, hf, hpf, stocked_of_block hn hd, rfl⟩
    have hbare := (bare_fill hf bare_compute).append
      (bare_line .mav [.register (home leftWork value)])
    refine locates_output hb.1 hi hmav.1 (fun stop hl hlt => ?_) ?_
    · refine (Listing.owns_annotate hbare hl ?_).append next rest.lines
      rw [Listing.size_annotate, Listing.size_append, ← Nat.add_assoc]
      exact Nat.lt_add_right _ hlt
    · have hr := (ih hb.2 hn hp hd).prepend (length_comments_annotate _ ⟨hbare, by simp⟩ line)
      rwa [Listing.size_annotate, Listing.size_append, ← Nat.add_assoc] at hr
  | input line slot rest ih =>
    obtain ⟨next, hn, rfl⟩ := emits_input h
    obtain ⟨hpf, hp⟩ := (placed_append ..).1 hp
    have hbare := bare_line .vir [.register slot]
    refine locates_input hpf.1 ?_ ?_
    · exact (Listing.owns_annotate hbare (Nat.le_refl pc) pc.lt_succ_self).append next rest.lines
    · exact (ih hb hn hp hd).prepend (length_comments_annotate _ ⟨hbare, nofun⟩ line)
  | branch line condition body otherwise rest ihb iho ihr =>
    obtain ⟨hc, hbb, hbo, hbr⟩ := hb
    by_cases ho : otherwise = .done
    · subst ho
      obtain ⟨test, first, inner, last, next, ht, hi, hn, rfl⟩ := emits_branch_done h
      have hlines : (Block.branch line condition body .done rest).lines =
          [line] ++ (body.lines ++ rest.lines) := by simp [Block.lines]
      simp only [List.append_assoc, placed_append, hlines] at hp ⊢
      obtain ⟨hpt, hpi, ⟨hm, -⟩, hpn⟩ := hp
      have hds := stocked_of_block hn hd
      have hg := installed_annotated ht hpt (stocked_of_block hi hds)
      have hct := length_comments_annotate ("WENN " ++ condition.display) (bare_guard ht) line
      have hci := length_comments_block hi
      have hbody := ihb hbb hi hpi hds
      have hrest := ihr hbr hn hpn hd
      refine locates_branch hc hg hm (fun stop hl hlt => ?_)
        (follows_block hbb ⟨inner, hi, hpi, hds, rfl⟩) ((hbody.append ..).prepend hct)
        follows_done (fun _ _ _ _ => blames_of_ok) ?_
      · exact (Listing.owns_annotate (bare_guard ht).1 hl hlt).append _ _
      · exact ((hrest.skip rfl).prepend hci).prepend hct
    · obtain ⟨test, first, inner, second, other, third, next, ht, hi, he, hn, rfl⟩ :=
        emits_branch ho h
      have hlines : (Block.branch line condition body otherwise rest).lines =
          [line] ++ (body.lines ++ (otherwise.lines ++ rest.lines)) := by
        simp [Block.lines]
      simp only [List.append_assoc, placed_append, hlines] at hp ⊢
      obtain ⟨hpt, hpi, ⟨hj, hm, -⟩, hpo, ⟨hf, -⟩, hpn⟩ := hp
      have hdt := stocked_of_block hn hd
      have hds := stocked_of_block he hdt
      have hg := installed_annotated ht hpt (stocked_of_block hi hds)
      have hct := length_comments_annotate ("WENN " ++ condition.display) (bare_guard ht) line
      have hci := length_comments_block hi
      have hco := length_comments_block he
      have hbody := ihb hbb hi hpi hds
      have hother := iho hbo he hpo hdt
      have hrest := ihr hbr hn hpn hd
      have hjump : ∀ next, Reaches program _ next [] _ next := fun _ =>
        Machine.reaches_of_step hj (Machine.step_rav hf) rfl
      have hfollows : Follows program _ _ body := fun hm ht =>
        (follows_block hbb ⟨inner, hi, hpi, hds, rfl⟩ hm ht).trans_reaches hjump
      refine locates_branch hc hg hm (fun stop hl hlt => ?_) hfollows
        ((hbody.append ..).prepend hct) (follows_block hbo ⟨other, he, hpo, hdt, rfl⟩) ?_ ?_
      · exact (Listing.owns_annotate (bare_guard ht).1 hl hlt).append _ _
      · exact (((hother.append ..).skip rfl).prepend hci).prepend hct
      · exact ((((hrest.skip rfl).prepend hco).skip rfl).prepend hci).prepend hct
  | loop line condition body rest ihb ihr =>
    obtain ⟨hc, hbb, hbr⟩ := hb
    obtain ⟨test, first, inner, second, next, ht, hi, hn, rfl⟩ := emits_loop h
    have hlines : (Block.loop line condition body rest).lines =
        [line] ++ (body.lines ++ rest.lines) := by simp [Block.lines]
    simp only [List.append_assoc, placed_append, hlines] at hp ⊢
    obtain ⟨⟨hs, -⟩, hpt, hpi, ⟨hj, hf, -⟩, hpn⟩ := hp
    have hds := stocked_of_block hn hd
    have hg := installed_annotated ht hpt (stocked_of_block hi hds)
    have hct := length_comments_annotate ("SOLANGE " ++ condition.display) (bare_guard ht) line
    have hci := length_comments_block hi
    have hbody := ihb hbb hi hpi hds
    have hrest := ihr hbr hn hpn hd
    refine locates_loop hc hs hg hf (fun stop hl hlt => ?_)
      (follows_block hbb ⟨inner, hi, hpi, hds, rfl⟩) ?_ hj ?_
    · have hown : Owns pc (annotate _ test) [line] stop line :=
        Listing.owns_annotate (bare_guard ht).1 hl hlt
      exact Listing.Owns.skip (hown.append (inner ++ _) (body.lines ++ rest.lines)) rfl
    · exact ((hbody.append ..).prepend hct).skip rfl
    · exact (((hrest.skip rfl).prepend hci).prepend hct).skip rfl

end Statements

end Compiler

end Octet
