import Octet.Proofs.Compiler.Evaluation
import Octet.Proofs.Machine.Exposure
import Octet.Proofs.Tree.Normal

namespace Octet.Compiler

open Listing (Line Placed)
open Machine

variable {program : Program} {pc last n destination label : Nat} {e left right : Expr}
  {target l r w : Slot} {scope after : Scope} {op : Comparison}

section Instructions

theorem exposed_tar {operand : Operand} (ha : At program pc ⟨.tar, [.register target, operand]⟩)
    (ho : operand ≠ .register w) (h : Exposed program w n pc) :
    w ≠ target ∧ Exposed program w n (pc + 1) := by
  obtain hr | ⟨hw, h⟩ := exposed_next ha (by simp) h
  · exact absurd (Option.some.inj hr) ho
  · exact ⟨fun hne => hw (hne ▸ rfl), h⟩

/-- Arithmetic on two other registers overwrites its target. -/
theorem exposed_arith {op : Arith}
    (ha : At program pc ⟨arithOpcode op, [.register target, .register l, .register r]⟩)
    (hl : w ≠ l) (hr : w ≠ r) (h : Exposed program w n pc) :
    w ≠ target ∧ Exposed program w n (pc + 1) := by
  have hreads : ¬Instruction.Reads
      ⟨arithOpcode op, [.register target, .register l, .register r]⟩ w := by
    have hn : ¬(some (Operand.register l) = some (.register w) ∨
        some (Operand.register r) = some (.register w)) := by
      simp [hl.symm, hr.symm]
    cases op <;> exact hn
  obtain hread | ⟨hw, h⟩ := exposed_next ha (by cases op <;> simp [arithOpcode]) h
  · exact absurd hread hreads
  · refine ⟨?_, h⟩
    rintro rfl
    exact hw (by cases op <;> rfl)

/-- A comparison of two other registers leaves exposed what is exposed behind it. -/
theorem exposed_test (hp : Placed program pc [test op l r]) (hl : w ≠ l) (hr : w ≠ r)
    (h : Exposed program w n pc) : Exposed program w n (pc + 1) := by
  have hpav : ∀ {i j : Slot}, w ≠ i → w ≠ j → At program pc ⟨.pav, [.register i, .register j]⟩ →
      Exposed program w n (pc + 1) := by
    intro i j hi hj ha
    obtain (hr | hr) | ⟨-, h⟩ := exposed_next ha (by simp) h
    · exact absurd (Operand.register.inj (Option.some.inj hr)).symm hi
    · exact absurd (Operand.register.inj (Option.some.inj hr)).symm hj
    · exact h
  cases op with
  | less | lessOrEqual => exact hpav hr hl hp.1
  | equal | notEqual | greater | greaterOrEqual => exact hpav hl hr hp.1

theorem exposed_jumps (hp : Placed program pc (jumps op label))
    (hl : program.labels.get? (Listing.labelName label) = some destination)
    (h : Exposed program w n pc) :
    Exposed program w n (pc + Listing.size (jumps op label)) ∨
      Exposed program w n destination := by
  cases op with
  | equal | notEqual => exact exposed_jump (.inl rfl) hp.1 hl h
  | less | greater => exact exposed_jump (.inr rfl) hp.1 hl h
  | lessOrEqual | greaterOrEqual =>
    obtain h | h := exposed_jump (.inr rfl) hp.1 hl h
    · exact exposed_jump (.inl rfl) hp.2.1 hl h
    · exact .inr h

theorem exposed_rav_le (ha : At program pc ⟨.rav, [.label (Listing.labelName label)]⟩)
    (hl : program.labels.get? (Listing.labelName label) = some destination)
    (h : Exposed program w n pc) : Exposed program w n destination := by
  obtain ⟨m, hm, h⟩ := exposed_rav ha hl h
  exact h.mono (Nat.le_of_lt hm)

end Instructions

section Expr

theorem exposed_load {text : String} (hi : Installed program (load target text) scope after pc last)
    (h : Exposed program w n pc) : w ≠ target ∧ Exposed program w n last := by
  obtain ⟨key, ha, -, rfl⟩ := installed_load hi
  exact exposed_tar ha nofun h

theorem exposed_truth (hi : Installed program (truth op target l r) scope after pc last)
    (hl : w ≠ l) (hr : w ≠ r) (h : Exposed program w n pc) :
    w ≠ target ∧ Exposed program w n last := by
  obtain ⟨label, p, ht, hh, hj, rfl, hm, rfl, hn⟩ := installed_truth hi
  obtain ⟨hw, h⟩ := exposed_tar hh nofun (exposed_test ht hl hr h)
  obtain h | h := exposed_jumps hj hn h
  · exact exposed_tar hm nofun h
  · exact ⟨hw, h⟩

/-- A work register that is exposed before an operand is exposed behind it and is not its home. -/
theorem exposed_fill {home' : Slot} (hw : IsWork w) (ha : e.Avoids IsWork)
    (hi : Installed program (fill e (compute e home')) scope after pc last)
    (he : ∀ {pc last scope after}, Installed program (compute e home') scope after pc last →
      Exposed program w n pc → w ≠ home' ∧ Exposed program w n last)
    (h : Exposed program w n pc) : w ≠ home home' e ∧ Exposed program w n last := by
  obtain ⟨i, rfl, rfl⟩ | ⟨hs, hi⟩ := installed_fill hi
  · refine ⟨?_, h⟩
    rintro rfl
    exact ha hw
  · have hh : home home' e = home' := by
      cases e with
      | slot i => exact absurd rfl (hs i)
      | _ => rfl
    exact hh.symm ▸ he hi h

theorem exposed_operands (hw : IsWork w) (hl : left.Avoids IsWork) (hr : right.Avoids IsWork)
    (hcl : ∀ {pc last scope after}, Installed program (compute left leftWork) scope after pc last →
      Exposed program w n pc → w ≠ leftWork ∧ Exposed program w n last)
    (hcr : ∀ {pc last scope after},
      Installed program (compute right rightWork) scope after pc last →
      Exposed program w n pc → w ≠ rightWork ∧ Exposed program w n last)
    (hi : Installed program (operands left right) scope after pc last)
    (h : Exposed program w n pc) :
    w ≠ home leftWork left ∧ w ≠ home rightWork right ∧ Exposed program w n last := by
  obtain ⟨_, p, hf, hs⟩ := installed_operands hi
  obtain ⟨hleft, h⟩ := exposed_fill hw hl hf hcl h
  refine ⟨hleft, ?_⟩
  split at hs
  · next hsp =>
    obtain ⟨q, hin, hs, hout, rfl⟩ := hs
    have hne : w ≠ leftWork := hsp.1 ▸ hleft
    obtain hread | ⟨-, h⟩ := exposed_next hin (by simp) h
    · exact absurd (Operand.register.inj (Option.some.inj hread)).symm hne
    obtain ⟨hright, h⟩ := exposed_fill hw hr hs hcr h
    obtain hread | ⟨-, h⟩ := exposed_next hout (by simp) h
    · exact hread.elim
    · exact ⟨hright, h⟩
  · exact exposed_fill hw hr hs hcr h

/-- A work register that is exposed before the code of an expression is exposed behind it and is
not its target: the code reads no work register that it has not written. -/
theorem exposed_compute (hw : IsWork w) (ha : e.Avoids IsWork)
    (hi : Installed program (compute e target) scope after pc last) (h : Exposed program w n pc) :
    w ≠ target ∧ Exposed program w n last := by
  induction e generalizing target scope after pc last with
  | number i =>
    obtain ⟨htar, rfl⟩ := installed_number hi
    exact exposed_tar htar nofun h
  | text s => exact exposed_load hi h
  | slot i =>
    obtain ⟨htar, rfl⟩ := installed_slot hi
    refine exposed_tar htar ?_ h
    rintro ⟨⟩
    exact ha hw
  | binary left op right ihl ihr =>
    cases hv : (Expr.binary left op right).folded? with
    | some v => exact exposed_load (installed_folded hv hi) h
    | none =>
      cases op with
      | arith op =>
        obtain ⟨p, hb, hop, rfl⟩ := installed_arith hv hi
        obtain ⟨hl, hr, h⟩ := exposed_operands hw ha.1 ha.2 (ihl ha.1) (ihr ha.2) hb h
        exact exposed_arith hop hl hr h
      | compare op =>
        obtain ⟨_, p, hb, ht⟩ := installed_compare hi
        obtain ⟨hl, hr, h⟩ := exposed_operands hw ha.1 ha.2 (ihl ha.1) (ihr ha.2) hb h
        exact exposed_truth ht hl hr h

end Expr

section Block

/-- What is exposed before a guard is exposed behind it or where it leads on a miss. -/
theorem exposed_guard {condition : Expr} {miss : Nat} (hw : IsWork w)
    (ha : condition.Avoids IsWork)
    (hi : Installed program (guard condition label) scope after pc last)
    (hm : program.labels.get? (Listing.labelName label) = some miss)
    (h : Exposed program w n pc) : Exposed program w n last ∨ Exposed program w n miss := by
  obtain hc | ⟨left, op, right, rfl⟩ := isPlain_or condition
  · obtain ⟨p, hf, ht, hj, rfl⟩ := installed_guard_plain hc hi
    obtain ⟨hne, h⟩ := exposed_fill hw ha hf (exposed_compute hw ha) h
    obtain (hread | hread) | ⟨-, h⟩ := exposed_next ht (by simp) h
    · exact absurd (Operand.register.inj (Option.some.inj hread)).symm hne
    · cases hread
    · exact exposed_jump (.inl rfl) hj hm h
  · obtain ⟨_, p, hb, ht, hj⟩ := installed_guard_compare hi
    obtain ⟨hl, hr, h⟩ :=
      exposed_operands hw ha.1 ha.2 (exposed_compute hw ha.1) (exposed_compute hw ha.2) hb h
    have h := exposed_test ht hl hr h
    split at hj
    · obtain ⟨hj, rfl⟩ := hj
      exact exposed_jumps hj hm h
    · obtain ⟨skip, q, hj, rfl, hrav, rfl, hskip⟩ := hj
      obtain h | h := exposed_jumps hj hskip h
      · exact .inr (exposed_rav_le hrav hm h)
      · exact .inl h

/-- A work register that is exposed before a block that never names it is exposed behind it. -/
theorem exposed_block {b : Block} (hw : IsWork w) (ha : b.Every fun e => e.Avoids IsWork)
    (hi : Installed program (block b) scope after pc last) (h : Exposed program w n pc) :
    Exposed program w n last := by
  induction b generalizing scope after pc last n with
  | done =>
    rw [installed_done hi]
    exact h
  | halt number rest ih =>
    obtain ⟨hnov, -⟩ := installed_halt hi
    exact absurd h (not_exposed_nov hnov)
  | assign number slot value rest ih =>
    obtain ⟨_, p, hc, hr⟩ := installed_assign hi
    exact ih ha.2 hr (exposed_compute hw ha.1 hc h).2
  | output number value rest ih =>
    obtain ⟨_, p, hf, hm, hr⟩ := installed_output hi
    obtain ⟨hne, h⟩ := exposed_fill hw ha.1 hf (exposed_compute hw ha.1) h
    obtain hread | ⟨-, h⟩ := exposed_next hm (by simp) h
    · exact absurd (Operand.register.inj (Option.some.inj hread)).symm hne
    · exact ih ha.2 hr h
  | input number slot rest ih =>
    obtain ⟨hv, hr⟩ := installed_input hi
    obtain hread | ⟨-, h⟩ := exposed_next hv (by simp) h
    · exact hread.elim
    · exact ih ha hr h
  | branch number condition body otherwise rest ihb iho ihr =>
    obtain ⟨hc, hab, hao, har⟩ := ha
    by_cases ho : otherwise = .done
    · subst ho
      obtain ⟨miss, _, _, p, q, hg, hb, hm, hr⟩ := installed_branch_done hi
      obtain h | h := exposed_guard hw hc hg hm h
      · exact ihr har hr (ihb hab hb h)
      · exact ihr har hr h
    · obtain ⟨miss, finish, _, _, _, p, q, r, hg, hb, hj, hm, he, hl, hr⟩ :=
        installed_branch ho hi
      obtain h | h := exposed_guard hw hc hg hm h
      · exact ihr har hr (exposed_rav_le hj hl (ihb hab hb h))
      · exact ihr har hr (iho hao he h)
  | loop number condition body rest ihb ihr =>
    obtain ⟨hc, hab, har⟩ := ha
    obtain ⟨start, finish, _, _, p, q, hs, hg, hb, hj, hm, hr⟩ := installed_loop hi
    -- Each turn of the loop comes back to its start with fewer steps left.
    induction n using Nat.strong_induction_on with
    | _ n turns =>
      obtain h | h := exposed_guard hw hc hg hm h
      · obtain ⟨k, hk, h⟩ := exposed_rav hj hs (ihb hab hb h)
        exact (turns k hk h).mono (Nat.le_of_lt hk)
      · exact ihr har hr h

end Block

end Octet.Compiler

namespace Octet.Block

open Compiler Machine

/-- At the start of a compiled program no work register is exposed. -/
theorem not_exposed_compile {program : Block} (ha : program.Every fun e => e.Avoids IsWork)
    (name : Option String) {w : Slot} (hw : IsWork w) (n : Nat) :
    ¬Exposed (program.compile.assembled name) w n 0 := by
  intro h
  have hend : (program.compile.assembled name).instructions[Listing.size program.compile.code]? =
      none := Array.getElem?_eq_none (Nat.le_of_eq (Listing.size_assembled ..))
  exact not_exposed_of_none hend (exposed_block hw ha (installed_compile program name) h)

end Octet.Block
