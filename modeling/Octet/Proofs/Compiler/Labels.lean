import Octet.Proofs.Compiler.Emission
import Octet.Proofs.Listing.Placed

namespace Octet.Compiler

open Listing (Line)

/-- How often a number is in a range: once or not at all. -/
def within (first bound n : Nat) : Nat := if first ≤ n ∧ n < bound then 1 else 0

theorem within_self (first n : Nat) : within first first n = 0 :=
  if_neg (by omega)

theorem within_add {first mid bound : Nat} (hf : first ≤ mid) (hm : mid ≤ bound) (n : Nat) :
    within first mid n + within mid bound n = within first bound n := by
  unfold within
  split_ifs <;> omega

theorem count_singleton (label n : Nat) : [label].count n = within label (label + 1) n := by
  rw [List.count_singleton, within]
  by_cases h : label = n
  · simp [h]
  · have hw : ¬(label ≤ n ∧ n < label + 1) := by omega
    rw [if_neg hw]
    simp [h]

/-- Code gives a place to each label that its scope has gained, once, and to no other. -/
structure Places (scope : Scope) (code : List Line) (after : Scope) : Prop where
  labels_le : scope.labels ≤ after.labels
  count : ∀ n, (Listing.defined code).count n = within scope.labels after.labels n

namespace Places

variable {scope mid after : Scope} {code rest : List Line}

/-- Code that has no place for a label. -/
theorem of_defined_eq_nil (h : Listing.defined code = []) (hl : after.labels = scope.labels) :
    Places scope code after :=
  ⟨hl.ge, fun n => by rw [h, hl, within_self, List.count_nil]⟩

theorem append (h : Places scope code mid) (hr : Places mid rest after) :
    Places scope (code ++ rest) after := by
  refine ⟨h.labels_le.trans hr.labels_le, fun n => ?_⟩
  rw [Listing.defined_append, List.count_append, h.count, hr.count,
    within_add h.labels_le hr.labels_le]

theorem annotate {comment : String} (h : Places scope code after) :
    Places scope (Listing.annotate comment code) after :=
  ⟨h.labels_le, fun n => by rw [Listing.defined_annotate, h.count]⟩

/-- A label that is taken before the code, and that has its place anywhere in it. -/
theorem insert (scope : Scope)
    (h : Places { scope with labels := scope.labels + 1 } (code ++ rest) after) :
    Places scope (code ++ [.label scope.labels] ++ rest) after := by
  have hl : scope.labels + 1 ≤ after.labels := h.labels_le
  refine ⟨Nat.le_of_succ_le hl, fun n => ?_⟩
  have hc : _ = within (scope.labels + 1) after.labels n := h.count n
  rw [← within_add (Nat.le_succ _) hl, ← hc, ← count_singleton]
  simp only [Listing.defined_append, List.count_append, Listing.defined_label, Listing.defined_nil]
  omega

end Places

variable {scope after : Scope} {code : List Line} {target : Slot}

@[simp] theorem defined_jumps (op : Comparison) (label : Nat) :
    Listing.defined (jumps op label) = [] := by
  cases op <;> rfl

@[simp] theorem defined_test (op : Comparison) (left right : Slot) (code : List Line) :
    Listing.defined (test op left right :: code) = Listing.defined code := by
  cases op <;> rfl

@[simp] theorem defined_line (op : Opcode) (operands : List Operand) (code : List Line) :
    Listing.defined (line op operands :: code) = Listing.defined code :=
  rfl

@[simp] theorem defined_jump (op : Opcode) (label : Nat) (code : List Line) :
    Listing.defined (jump op label :: code) = Listing.defined code :=
  rfl

theorem places_truth {op : Comparison} {left right : Slot}
    (h : Emits (truth op target left right) scope code after) : Places scope code after := by
  obtain ⟨rfl, rfl⟩ := emits_truth h
  have hp : Places { scope with labels := scope.labels + 1 }
      ([test op left right, line .tar [.register target, .immediate (hit op)]] ++
        jumps op scope.labels ++ [line .tar [.register target, .immediate (1 - hit op)]] ++ [])
      { scope with labels := scope.labels + 1 } :=
    .of_defined_eq_nil (by simp) rfl
  simpa using hp.insert

theorem places_line {op : Opcode} {operands : List Operand} :
    Places scope [line op operands] scope :=
  .of_defined_eq_nil rfl rfl

theorem places_fill {e : Expr} {emitter : StateM Scope (List Line)}
    (h : Emits (fill e emitter) scope code after)
    (he : ∀ {code}, Emits emitter scope code after → Places scope code after) :
    Places scope code after := by
  obtain ⟨i, rfl, rfl, rfl⟩ | ⟨-, h⟩ := emits_fill h
  · exact .of_defined_eq_nil rfl rfl
  · exact he h

theorem places_bothOperands {left right : Expr} {leftCode rightCode : StateM Scope (List Line)}
    (h : Emits (bothOperands left right leftCode rightCode) scope code after)
    (hl : ∀ {scope code after}, Emits leftCode scope code after → Places scope code after)
    (hr : ∀ {scope code after}, Emits rightCode scope code after → Places scope code after) :
    Places scope code after := by
  obtain ⟨first, mid, second, hf, hs, rfl⟩ := emits_bothOperands h
  have hf := places_fill hf hl
  have hs := places_fill hs hr
  split
  · exact ((hf.append places_line).append hs).append places_line
  · exact hf.append hs

theorem places_load {text : String} (h : Emits (load target text) scope code after) :
    Places scope code after := by
  obtain ⟨n, rfl, rfl, -⟩ := emits_load h
  exact .of_defined_eq_nil rfl rfl

theorem places_compute {e : Expr} (h : Emits (compute e target) scope code after) :
    Places scope code after := by
  induction e generalizing scope code after target with
  | number n =>
    obtain ⟨rfl, rfl⟩ := emits_compute_number h
    exact places_line
  | text s => exact places_load h
  | slot i =>
    obtain ⟨rfl, rfl⟩ := emits_compute_slot h
    exact places_line
  | binary left op right ihl ihr =>
    cases hv : (Expr.binary left op right).folded? with
    | some v => exact places_load (emits_compute_folded hv h)
    | none =>
      cases op with
      | arith op =>
        obtain ⟨both, hb, rfl⟩ := emits_compute_arith hv h
        exact (places_bothOperands hb ihl ihr).append places_line
      | compare op =>
        obtain ⟨both, mid, rest, hb, ht, rfl⟩ := emits_compute_compare h
        exact (places_bothOperands hb ihl ihr).append (places_truth ht)

theorem places_guard {condition : Expr} {otherwise : Nat}
    (h : Emits (guard condition otherwise) scope code after) : Places scope code after := by
  obtain hc | ⟨left, op, right, rfl⟩ := isPlain_or condition
  · obtain ⟨first, hf, rfl⟩ := emits_guard_plain hc h
    exact (places_fill hf places_compute).append (.of_defined_eq_nil rfl rfl)
  · obtain ⟨both, mid, hb, h⟩ := emits_guard_compare h
    have hb := places_bothOperands hb places_compute places_compute
    split at h
    · obtain ⟨rfl, rfl⟩ := h
      exact (hb.append (.of_defined_eq_nil (by simp) rfl)).append (.of_defined_eq_nil (by simp) rfl)
    · obtain ⟨rfl, rfl⟩ := h
      have hp : Places { mid with labels := mid.labels + 1 }
          ([test op (home leftWork left) (home rightWork right)] ++ jumps op mid.labels ++
            [jump .rav otherwise] ++ []) { mid with labels := mid.labels + 1 } :=
        .of_defined_eq_nil (by simp) rfl
      simpa using hb.append (hp.insert mid)

theorem places_block {b : Block} (h : Emits (block b) scope code after) :
    Places scope code after := by
  induction b generalizing scope code after with
  | done =>
    obtain ⟨rfl, rfl⟩ := emits_done h
    exact .of_defined_eq_nil rfl rfl
  | halt number rest ih =>
    obtain ⟨next, hn, rfl⟩ := emits_halt h
    exact places_line.annotate.append (ih hn)
  | assign number slot value rest ih =>
    obtain ⟨first, mid, next, hf, hn, rfl⟩ := emits_assign h
    exact (places_compute hf).annotate.append (ih hn)
  | output number value rest ih =>
    obtain ⟨first, mid, next, hf, hn, rfl⟩ := emits_output h
    exact ((places_fill hf places_compute).append places_line).annotate.append (ih hn)
  | input number slot rest ih =>
    obtain ⟨next, hn, rfl⟩ := emits_input h
    exact places_line.annotate.append (ih hn)
  | branch number condition body otherwise rest ihb iho ihr =>
    by_cases ho : otherwise = .done
    · subst ho
      obtain ⟨test, first, inner, last, next, ht, hi, hn, rfl⟩ := emits_branch_done h
      exact (((places_guard ht).annotate.append (ihb hi)).append (ihr hn)).insert scope
    · obtain ⟨test, first, inner, second, other, third, next, ht, hi, he, hn, rfl⟩ :=
        emits_branch ho h
      have hg : Places _ (Listing.annotate ("WENN " ++ condition.display) test) first :=
        (places_guard ht).annotate
      have hj : Places second [jump .rav (scope.labels + 1)] second := places_line
      have hp := ((hg.append (ihb hi)).append hj).append (iho he)
      -- Both labels are taken before the code: the later one goes in first.
      have hf := (hp.append (ihr hn)).insert { scope with labels := scope.labels + 1 }
      simp only [List.append_assoc] at hf
      rw [← List.append_assoc, ← List.append_assoc] at hf
      simpa using hf.insert scope
  | loop number condition body rest ihb ihr =>
    obtain ⟨test, first, inner, second, next, ht, hi, hn, rfl⟩ := emits_loop h
    have hg : Places _ (Listing.annotate ("SOLANGE " ++ condition.display) test) first :=
      (places_guard ht).annotate
    have hj : Places second [jump .rav scope.labels] second := places_line
    have hp := ((hg.append (ihb hi)).append hj).append (ihr hn)
    have hf : Places _ ([] ++ _) _ := hp.insert { scope with labels := scope.labels + 1 }
    simpa using hf.insert scope

end Octet.Compiler
