import Octet.Proofs.Compiler.Guarding

namespace Octet.Compiler

open Listing (Line Placed)
open Machine

variable {program : Program} {pc last : Nat} {state next : State} {e left right : Expr}
  {target w : Slot} {scope after : Scope} {fault : Fault} {α β : Type}
  {result : Except Fault α}

/-- The machine stops at a ring without values, or at a fault of its own that comes before. -/
def Fails (program : Program) (pc : Nat) (state : State) (result : Except Fault α) : Prop :=
  Breaks program pc state [] .ringUnderflow ∨
    ∃ fault, result = .error fault ∧ Breaks program pc state [] fault

/-- Nothing comes behind a result that comes to no end. -/
theorem Fails.bind (h : Fails program pc state result) (f : α → Except Fault β) :
    Fails program pc state (result >>= f) := by
  refine Or.imp id (fun ⟨fault, hv, hb⟩ => ⟨fault, ?_, hb⟩) h
  rw [hv]
  rfl

theorem Fails.of_reaches (h : Fails program last next result)
    (hr : Reaches program pc state [] last next) : Fails program pc state result :=
  Or.imp hr.breaks (fun ⟨fault, hv, hb⟩ => ⟨fault, hv, hr.breaks hb⟩) h

/-- Where a result is worked out, all comes to no end if what is behind it does not. -/
theorem fails_of_yields {exit : α → Nat} {post : α → State → Prop} {f : α → Except Fault β}
    (h : Yields program pc state result exit post)
    (hf : ∀ a next, post a next → Fails program (exit a) next (f a)) :
    Fails program pc state (result >>= f) := by
  cases result with
  | error fault => exact .inr ⟨fault, rfl, h⟩
  | ok a =>
    obtain ⟨next, hr, hp⟩ := h
    exact (hf a next hp).of_reaches hr

/-- Wherever it is installed, the code of an expression comes to no end. -/
def Underflows (program : Program) (e : Expr) (target : Slot) : Prop :=
  ∀ {pc last scope after} (state : State),
    Installed program (compute e target) scope after pc last →
    Fails program pc state (e.reckon state.registers state.flags.carry)

theorem fails_fill (hu : Underflows program e w) (hdepth : 4 < e.depth)
    (h : Installed program (fill e (compute e w)) scope after pc last) (state : State) :
    Fails program pc state (e.reckon state.registers state.flags.carry) := by
  obtain ⟨i, rfl, -⟩ | ⟨-, h⟩ := installed_fill h
  · exact absurd hdepth (by simp [Expr.depth])
  · exact hu state h

variable (hr : right.Avoids IsWork) (hur : 4 < right.depth → Underflows program right rightWork)

include hr hur

/-- A left operand that waits below four others is lost when it is due. -/
theorem fails_right_of_spills (hdepth : 4 < right.depth + 1) {q : Nat}
    (h : Installed program (fill right (compute right rightWork)) scope after pc q)
    (hout : At program q ⟨.tab, [.register leftWork]⟩) (state : State) :
    Fails program pc state (right.reckon state.registers state.flags.carry) := by
  by_cases hlt : 4 < right.depth
  · exact fails_fill (hur hlt) hlt h state
  · have hw := works_fill (by decide) (correct_of_depth_le hr (Nat.le_of_not_lt hlt)) h state
    rw [← bind_pure (right.reckon state.registers state.flags.carry)]
    refine fails_of_yields hw fun _ next hn => .inl ?_
    -- The right operand has used all four places, so nothing that waited is left.
    have hz : 4 - right.depth = 0 := by omega
    have hempty : next.ring.toList = [] := by rw [hn.ring, hz, List.take_zero]
    have hstep : step program ⟨.tab, [.register leftWork]⟩ next = _ := step_tab
    rw [(Ring.pop_eq_error_iff _).2 hempty] at hstep
    exact breaks_of_step hout hstep

variable (hl : left.Avoids IsWork) (hul : 4 < left.depth → Underflows program left leftWork)

include hl hul

/-- Where more than four values would have to wait, the code for two operands comes to no end. -/
theorem fails_operands (hdepth : 4 < depthBoth left right)
    (h : Installed program (operands left right) scope after pc last) (state : State) :
    Fails program pc state (Expr.reckonBoth state.registers left right state.flags.carry) := by
  obtain ⟨_, p, hf, hs⟩ := installed_operands h
  rw [Expr.reckonBoth]
  by_cases hlt : 4 < left.depth
  · exact (fails_fill (hul hlt) hlt hf state).bind _
  · have hw := works_fill (by decide) (correct_of_depth_le hl (Nat.le_of_not_lt hlt)) hf state
    refine fails_of_yields hw fun q mid hm => ?_
    obtain ⟨l, carry⟩ := q
    have hright : Fails program p mid (right.reckon mid.registers mid.flags.carry) := by
      split at hs
      · next hsp =>
        obtain ⟨q, hin, hs, hout, rfl⟩ := hs
        rw [depthBoth_of_spills hl hsp] at hdepth
        let pushed : State := { mid with ring := (mid.ring.push (mid.registers.read leftWork)).1 }
        have hpush : Reaches program p mid [] (p + 1) pushed :=
          reaches_next hin (step_tin leftWork) (exchanges_announce _)
        exact (fails_right_of_spills hr hur (by omega) hs hout pushed).of_reaches hpush
      · next hsp =>
        rw [depthBoth_of_not_spills hl hsp] at hdepth
        have hlt' : 4 < right.depth := by omega
        exact fails_fill (hur hlt') hlt' hs mid
    rw [reckon_filled hr hm] at hright
    exact hright.bind _

omit hr hur hl hul

/-- Where more than four values would have to wait, the code of an expression comes to no end. -/
theorem underflows_of_lt_depth (ha : e.Avoids IsWork) (hdepth : 4 < e.depth) :
    Underflows program e target := by
  induction e generalizing target with
  | number n | text s | slot i => exact absurd hdepth (by simp [Expr.depth])
  | binary left op right ihl ihr =>
    intro pc last scope after state h
    cases hv : (Expr.binary left op right).folded? with
    | some v => simp [Expr.depth, hv] at hdepth
    | none =>
      rw [depth_binary hv] at hdepth
      obtain ⟨hl, hr⟩ := ha
      obtain ⟨mid, p, hb⟩ : ∃ mid p, Installed program (operands left right) scope mid pc p := by
        cases op with
        | arith op =>
          obtain ⟨p, hb, -⟩ := installed_arith hv h
          exact ⟨_, p, hb⟩
        | compare op =>
          obtain ⟨mid, p, hb, -⟩ := installed_compare h
          exact ⟨mid, p, hb⟩
      rw [Expr.reckon_binary]
      exact (fails_operands hr (fun h => ihr hr h) hl (fun h => ihl hl h) hdepth hb state).bind _

section Cut

theorem placed_cut {code : List Line} (hp : Placed program pc code)
    (hl : pc + Listing.size code ≤ last) : Placed (cut program last) pc code := by
  induction code generalizing pc with
  | nil => trivial
  | cons line code ih =>
    cases line with
    | label n => exact ⟨hp.1, ih hp.2 hl⟩
    | instruction i comment =>
      rw [Listing.size_instruction] at hl
      have hlt : pc < last := by omega
      refine ⟨?_, ih hp.2 (by omega)⟩
      rw [fetch_cut, if_pos hlt]
      exact hp.1

/-- Code stays installed in a program that ends behind it. -/
theorem installed_cut {emitter : StateM Scope (List Line)}
    (h : Installed program emitter scope after pc last) :
    Installed (cut program last) emitter scope after pc last := by
  obtain ⟨code, he, hp, hd, rfl⟩ := h
  exact ⟨code, he, placed_cut hp (Nat.le_refl _), hd, rfl⟩

/-- What comes to no end before its code ends never comes there, nor to what is behind it. -/
theorem Fails.not_steps (h : Fails (cut program last) pc state result) {exit : Nat}
    (hl : last ≤ exit) (n : Nat) (signals : List Signal) :
    ¬Steps program n pc state signals exit next := by
  obtain hb | ⟨_, -, hb⟩ := h
  · exact hb.not_steps hl n signals next
  · exact hb.not_steps hl n signals next

end Cut

section Uses

/-- An expression has code that begins at a position and ends at one that may depend on its value.
The code leaves the value in a register, if there is one. -/
def CodeOf (program : Program) (e : Expr) (target : Option Slot) (pc : Nat) (exit : Value → Nat) :
    Prop :=
  match target with
  | some r =>
    ∃ scope after last, Installed program (compute e r) scope after pc last ∧ exit = fun _ => last
  | none =>
    ∃ otherwise scope after last miss,
      ¬isPlain e ∧ Installed program (guard e otherwise) scope after pc last ∧
      program.labels.get? (Listing.labelName otherwise) = some miss ∧ last ≤ miss ∧
      exit = fun v => if v.isTruthy then last else miss

/-- From a ring without values, the code of an expression works out what the language does, if no
more than four values have to wait, and else it comes to no end. -/
def Settles (program : Program) (e : Expr) (target : Option Slot) (pc : Nat)
    (exit : Value → Nat) : Prop :=
  ∀ (state : State) (flags : Flags), flags.carry = state.flags.carry → state.ring.live = 0 →
    if e.depth ≤ 4 then
      (∀ t ∈ e.comparisons state.registers flags, t.2.1.isText = false ∧ t.2.2.isText = false) →
      match e.eval state.registers flags with
      | .ok (v, after) =>
        ∃ next, Reaches program pc state [] (exit v) next ∧
          (∀ r ∈ target, next.registers.read r = v) ∧
          (∀ i, ¬IsWork i → some i ≠ target →
            next.registers.read i = state.registers.read i) ∧
          next.flags.carry = after.carry ∧ next.ring.live = 0 ∧ next.script = state.script
      | .error fault => Breaks program pc state [] fault
    else
      Fails program pc state (e.reckon state.registers state.flags.carry) ∧
        ∀ v n signals next, ¬Steps program n pc state signals (exit v) next

theorem regular_of_isText {e : Expr} {memory : Memory} {flags : Flags}
    (h : ∀ t ∈ e.comparisons memory flags, t.2.1.isText = false ∧ t.2.2.isText = false) :
    ∀ t ∈ e.comparisons memory flags, t.1.Regular t.2.1 t.2.2 :=
  fun t ht => Comparison.regular_of_numbers (h t ht).1 (h t ht).2

theorem settles_value {r : Slot} (ha : e.Avoids IsWork)
    (h : Installed program (compute e r) scope after pc last) :
    Settles program e (some r) pc fun _ => last := by
  intro state flags hc hring
  split
  · next hdepth =>
    intro hn
    have hw : Works program pc state e r last := correct_of_depth_le ha hdepth state h
    rw [Expr.eval_eq_reckon (regular_of_isText hn), hc]
    rw [Works] at hw
    cases hv : e.reckon state.registers state.flags.carry with
    | error fault => rwa [hv] at hw
    | ok p =>
      obtain ⟨v, carry⟩ := p
      rw [hv] at hw
      obtain ⟨next, hr, he⟩ := hw
      refine ⟨next, hr, ?_, ?_, he.carry, Ring.live_of_toList hring he.ring, he.script⟩
      · rintro _ ⟨⟩
        exact he.value
      · intro i hi hne
        exact he.others i (fun h => hne (congrArg some h)) fun _ => hi
  · next hdepth =>
    have hdepth := Nat.lt_of_not_le hdepth
    refine ⟨underflows_of_lt_depth ha hdepth state h, fun _ n signals next => ?_⟩
    exact (underflows_of_lt_depth ha hdepth state (installed_cut h)).not_steps (Nat.le_refl last) n
      signals

theorem settles_guard {otherwise miss : Nat} (he : ¬isPlain e) (ha : e.Avoids IsWork)
    (h : Installed program (guard e otherwise) scope after pc last)
    (hm : program.labels.get? (Listing.labelName otherwise) = some miss) (hl : last ≤ miss) :
    Settles program e none pc fun v => if v.isTruthy then last else miss := by
  obtain ⟨left, op, right, rfl⟩ := (isPlain_or e).resolve_left he
  intro state flags hc hring
  split
  · next hdepth =>
    intro hn
    have hw := works_guard ha hdepth h hm state
    rw [WorksGuard] at hw
    rw [Expr.eval_eq_reckon (regular_of_isText hn), hc, reckon_compare]
    cases hv : (Expr.binary left (.compare op) right).reckonGuard state.registers
        state.flags.carry with
    | error fault => rwa [hv] at hw
    | ok p =>
      obtain ⟨go, carry⟩ := p
      rw [hv] at hw
      obtain ⟨next, hr, hg⟩ := hw
      refine ⟨next, ?_, fun r hr => absurd hr (Option.not_mem_none r), fun i hi _ => hg.slots i hi,
        hg.carry, Ring.live_of_toList hring hg.ring, hg.script⟩
      simpa only [isTruthy_ofBool] using hr
  · next hdepth =>
    have hdepth := Nat.lt_of_not_le hdepth
    rw [depth_binary (folded?_compare left right op)] at hdepth
    have hf : ∀ {program : Program},
        Installed program (guard (.binary left (.compare op) right) otherwise) scope after pc last →
        Fails program pc state (Expr.reckonBoth state.registers left right state.flags.carry) := by
      intro program h
      obtain ⟨_, p, hb, -⟩ := installed_guard_compare h
      exact fails_operands ha.2 (fun h => underflows_of_lt_depth ha.2 h) ha.1
        (fun h => underflows_of_lt_depth ha.1 h) hdepth hb state
    refine ⟨?_, fun v n signals next => ?_⟩
    · rw [Expr.reckon_binary]
      exact (hf h).bind _
    · have hlast : last ≤ if v.isTruthy then last else miss := by
        split
        · exact Nat.le_refl last
        · exact hl
      exact (hf (installed_cut h)).not_steps hlast n signals

theorem CodeOf.settles {target : Option Slot} {exit : Value → Nat}
    (h : CodeOf program e target pc exit) (ha : e.Avoids IsWork) :
    Settles program e target pc exit := by
  cases target with
  | some r =>
    obtain ⟨scope, after, last, h, rfl⟩ := h
    exact settles_value ha h
  | none =>
    obtain ⟨otherwise, scope, after, last, miss, he, h, hm, hl, rfl⟩ := h
    exact settles_guard he ha h hm hl

end Uses

end Octet.Compiler

namespace Octet

open Compiler

/-- An expression that is worked out where it is no slot, into the work register. -/
def Expr.use : Expr → List (Expr × Option Slot)
  | slot _ => []
  | e => [(e, some leftWork)]

/-- A condition, which leaves no value if it is a comparison. -/
def Expr.conditionUse : Expr → List (Expr × Option Slot)
  | binary left (.compare op) right => [(binary left (.compare op) right, none)]
  | e => e.use

/-- The expressions that a block has code for, and the registers that their values are left in. -/
def Block.uses : Block → List (Expr × Option Slot)
  | done => []
  | halt _ rest | input _ _ rest => rest.uses
  | assign _ slot value rest => (value, some slot) :: rest.uses
  | output _ value rest => value.use ++ rest.uses
  | branch _ condition body otherwise rest =>
    condition.conditionUse ++ body.uses ++ otherwise.uses ++ rest.uses
  | loop _ condition body rest => condition.conditionUse ++ body.uses ++ rest.uses

namespace Compiler

variable {program : Program} {pc last : Nat} {scope after : Scope} {e : Expr}
  {target : Option Slot}

theorem Installed.le {emitter : StateM Scope (List Listing.Line)}
    (h : Installed program emitter scope after pc last) : pc ≤ last := by
  obtain ⟨code, -, -, -, rfl⟩ := h
  exact Nat.le_add_right ..

theorem codeOf_use {value : Expr} (hu : (e, target) ∈ value.use)
    (h : Installed program (fill value (compute value leftWork)) scope after pc last) :
    ∃ exit, CodeOf program e target pc exit := by
  obtain ⟨i, rfl, -⟩ | ⟨hs, h⟩ := installed_fill h
  · cases hu
  · have hv : value.use = [(value, some leftWork)] := by
      cases value with
      | slot i => exact absurd rfl (hs i)
      | _ => rfl
    rw [hv, List.mem_singleton] at hu
    cases hu
    exact ⟨_, scope, after, last, h, rfl⟩

theorem codeOf_conditionUse {condition : Expr} {otherwise miss : Nat}
    (hu : (e, target) ∈ condition.conditionUse)
    (h : Installed program (guard condition otherwise) scope after pc last)
    (hm : program.labels.get? (Listing.labelName otherwise) = some miss) (hl : last ≤ miss) :
    ∃ exit, CodeOf program e target pc exit := by
  obtain hc | ⟨left, op, right, rfl⟩ := isPlain_or condition
  · have hv : condition.conditionUse = condition.use := by
      match condition, hc with
      | .number _, _ | .text _, _ | .slot _, _ | .binary _ (.arith _) _, _ => rfl
    rw [hv] at hu
    obtain ⟨p, hf, -⟩ := installed_guard_plain hc h
    exact codeOf_use hu hf
  · rw [Expr.conditionUse, List.mem_singleton] at hu
    cases hu
    exact ⟨_, otherwise, scope, after, last, miss, id, h, hm, hl, rfl⟩

/-- Each expression of a block has its code where the block is installed. -/
theorem exists_codeOf {b : Block} (h : Installed program (block b) scope after pc last)
    (hu : (e, target) ∈ b.uses) : ∃ pc exit, CodeOf program e target pc exit := by
  induction b generalizing scope after pc last with
  | done => cases hu
  | halt number rest ih => exact ih (installed_halt h).2 hu
  | assign number slot value rest ih =>
    obtain ⟨mid, p, hc, hr⟩ := installed_assign h
    obtain hu | hu := List.mem_cons.1 hu
    · cases hu
      exact ⟨pc, _, scope, mid, p, hc, rfl⟩
    · exact ih hr hu
  | output number value rest ih =>
    obtain ⟨mid, p, hf, -, hr⟩ := installed_output h
    obtain hu | hu := List.mem_append.1 hu
    · exact ⟨pc, codeOf_use hu hf⟩
    · exact ih hr hu
  | input number slot rest ih => exact ih (installed_input h).2 hu
  | branch number condition body otherwise rest ihb iho ihr =>
    simp only [Block.uses, List.mem_append] at hu
    by_cases ho : otherwise = .done
    · subst ho
      obtain ⟨miss, first, second, p, q, hg, hb, hm, hr⟩ := installed_branch_done h
      obtain ((hu | hu) | hu) | hu := hu
      · exact ⟨pc, codeOf_conditionUse hu hg hm hb.le⟩
      · exact ihb hb hu
      · cases hu
      · exact ihr hr hu
    · obtain ⟨miss, finish, first, second, third, p, q, r, hg, hb, -, hm, he, -, hr⟩ :=
        installed_branch ho h
      obtain ((hu | hu) | hu) | hu := hu
      · exact ⟨pc, codeOf_conditionUse hu hg hm (Nat.le_succ_of_le hb.le)⟩
      · exact ihb hb hu
      · exact iho he hu
      · exact ihr hr hu
  | loop number condition body rest ihb ihr =>
    simp only [Block.uses, List.mem_append] at hu
    obtain ⟨start, finish, first, second, p, q, -, hg, hb, -, hm, hr⟩ := installed_loop h
    obtain (hu | hu) | hu := hu
    · exact ⟨pc, codeOf_conditionUse hu hg hm (Nat.le_succ_of_le hb.le)⟩
    · exact ihb hb hu
    · exact ihr hr hu

end Compiler

/-- Whatever the shape of a program, each of its expressions has code, and wherever that stands, the
code of an expression without the work registers gives the value that the language gives it, or
comes to no end because too many values have to wait. -/
theorem Block.settles_compile (program : Block) (name : Option String) {e : Expr}
    {target : Option Slot} (hu : (e, target) ∈ program.uses) (ha : e.Avoids IsWork) :
    (∃ pc exit, CodeOf (program.compile.assembled name) e target pc exit) ∧
      ∀ pc exit, CodeOf (program.compile.assembled name) e target pc exit →
        Settles (program.compile.assembled name) e target pc exit :=
  ⟨exists_codeOf (installed_compile program name) hu, fun _ _ hc => hc.settles ha⟩

/-- A product that a left operand waits for. -/
theorem Block.settles_compile_nested :
    let e := Expr.binary (.number 1) (.arith .sub) (.binary (.slot 0) (.arith .mul) (.slot 5))
    let program := (Block.assign 2 0 e .done).compile.assembled none
    (∃ pc exit, CodeOf program e (some 0) pc exit) ∧
      ∀ pc exit, CodeOf program e (some 0) pc exit → Settles program e (some 0) pc exit :=
  Block.settles_compile (.assign 2 0 _ .done) none List.mem_cons_self
    ⟨trivial, (by decide : ¬IsWork 0), (by decide : ¬IsWork 5)⟩

end Octet
