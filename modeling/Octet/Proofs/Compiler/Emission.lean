import Octet.Compiler

namespace Octet.Compiler

open Listing (Line)

variable {α β : Type} {scope after : Scope} {code : List Line} {target : Slot}

/-- From a scope, a part of the compiler works out a result and leaves another scope. -/
def Emits (emitter : StateM Scope α) (scope : Scope) (a : α) (after : Scope) : Prop :=
  emitter.run scope = (a, after)

theorem emits_bind {emitter : StateM Scope α} {f : α → StateM Scope β} {b : β}
    (h : Emits (emitter >>= f) scope b after) :
    ∃ a mid, Emits emitter scope a mid ∧ Emits (f a) mid b after :=
  ⟨_, _, rfl, h⟩

theorem emits_pure {a b : α} (h : Emits (pure a) scope b after) : b = a ∧ after = scope :=
  ⟨(congrArg Prod.fst h).symm, (congrArg Prod.snd h).symm⟩

theorem emits_newLabel {n : Nat} (h : Emits newLabel scope n after) :
    n = scope.labels ∧ after = { scope with labels := scope.labels + 1 } :=
  ⟨(congrArg Prod.fst h).symm, (congrArg Prod.snd h).symm⟩

/-- Whether a left operand has to wait in the ring for a right one. -/
def spills (left right : Expr) : Prop := home leftWork left = leftWork ∧ right.isBinary = true

instance (left right : Expr) : Decidable (spills left right) :=
  inferInstanceAs (Decidable (_ ∧ _))

theorem emits_fill {e : Expr} {emitter : StateM Scope (List Line)}
    (h : Emits (fill e emitter) scope code after) :
    (∃ i, e = .slot i ∧ code = [] ∧ after = scope) ∨
      (∀ i, e ≠ .slot i) ∧ Emits emitter scope code after := by
  cases e with
  | slot i => exact .inl ⟨i, rfl, emits_pure h⟩
  | _ => exact .inr ⟨fun _ => nofun, h⟩

theorem emits_bothOperands {left right : Expr} {leftCode rightCode : StateM Scope (List Line)}
    (h : Emits (bothOperands left right leftCode rightCode) scope code after) :
    ∃ first mid second, Emits (fill left leftCode) scope first mid ∧
      Emits (fill right rightCode) mid second after ∧
      code = if spills left right then
          first ++ [line .tin [.register leftWork]] ++ second ++ [line .tab [.register leftWork]]
        else first ++ second := by
  obtain ⟨first, mid, hf, h⟩ := emits_bind h
  obtain ⟨second, last, hs, h⟩ := emits_bind h
  refine ⟨first, mid, second, hf, ?_⟩
  by_cases hc : spills left right
  · obtain ⟨rfl, rfl⟩ := emits_pure (if_pos hc ▸ h : Emits (pure _) last code after)
    exact ⟨hs, (if_pos hc).symm⟩
  · obtain ⟨rfl, rfl⟩ := emits_pure (if_neg hc ▸ h : Emits (pure _) last code after)
    exact ⟨hs, (if_neg hc).symm⟩

/-- A list of texts with one more, unless it is there already. -/
def addText (texts : List String) (text : String) : List String :=
  if text ∈ texts then texts else texts ++ [text]

theorem emits_textNumber {text : String} {n : Nat} (h : Emits (textNumber text) scope n after) :
    after = { scope with texts := addText scope.texts text } ∧ after.texts[n]? = some text := by
  cases hi : scope.texts.idxOf? text with
  | none =>
    have hr : Emits (textNumber text) scope scope.texts.length
        { scope with texts := scope.texts ++ [text] } := by
      simp [Emits, textNumber, StateT.run, hi]
    have hm : text ∉ scope.texts := List.idxOf?_eq_none_iff.1 hi
    obtain ⟨rfl, rfl⟩ := Prod.mk.inj (h.symm.trans hr)
    simp [addText, hm]
  | some m =>
    have hr : Emits (textNumber text) scope m scope := by
      simp [Emits, textNumber, StateT.run, hi]
    obtain ⟨hl, he, -⟩ := List.idxOf?_eq_some_iff.1 hi
    have hm : text ∈ scope.texts := he ▸ List.getElem_mem hl
    obtain ⟨rfl, rfl⟩ := Prod.mk.inj (h.symm.trans hr)
    simp [addText, hm, hl, he]

theorem emits_load {text : String} (h : Emits (load target text) scope code after) :
    ∃ n, code = [line .tar [.register target, .data (Listing.dataKey n)]] ∧
      after = { scope with texts := addText scope.texts text } ∧ after.texts[n]? = some text := by
  obtain ⟨n, mid, hn, h⟩ := emits_bind h
  obtain ⟨rfl, rfl⟩ := emits_pure h
  exact ⟨n, rfl, emits_textNumber hn⟩

/-- What a comparison leaves in its target where the jumps are taken. -/
def hit (op : Comparison) : Int := if op = .notEqual then 0 else 1

theorem emits_truth {op : Comparison} {left right : Slot}
    (h : Emits (truth op target left right) scope code after) :
    code = [test op left right, line .tar [.register target, .immediate (hit op)]] ++
        jumps op scope.labels ++
        [line .tar [.register target, .immediate (1 - hit op)], .label scope.labels] ∧
      after = { scope with labels := scope.labels + 1 } := by
  obtain ⟨n, mid, hn, h⟩ := emits_bind h
  obtain ⟨rfl, rfl⟩ := emits_newLabel hn
  obtain ⟨rfl, rfl⟩ := emits_pure h
  exact ⟨rfl, rfl⟩

theorem emits_compute_number {n : UInt32}
    (h : Emits (compute (.number n) target) scope code after) :
    code = [line .tar [.register target, .immediate n.toNat]] ∧ after = scope :=
  emits_pure h

theorem emits_compute_slot {i : Slot} (h : Emits (compute (.slot i) target) scope code after) :
    code = [line .tar [.register target, .register i]] ∧ after = scope :=
  emits_pure h

section Binary

variable {left right : Expr} {op : BinaryOp}

theorem emits_compute_folded {v : Value} (hv : (Expr.binary left op right).folded? = some v)
    (h : Emits (compute (.binary left op right) target) scope code after) :
    Emits (load target v.display) scope code after := by
  rw [compute, hv] at h
  exact h

/-- The code for the two operands of an operation, each into its own work register. -/
abbrev operands (left right : Expr) : StateM Scope (List Line) :=
  bothOperands left right (compute left leftWork) (compute right rightWork)

theorem emits_compute_arith {op : Arith}
    (hv : (Expr.binary left (.arith op) right).folded? = none)
    (h : Emits (compute (.binary left (.arith op) right) target) scope code after) :
    ∃ both, Emits (operands left right) scope both after ∧
      code = both ++ [line (arithOpcode op) [.register target, .register (home leftWork left),
        .register (home rightWork right)]] := by
  rw [compute, hv] at h
  obtain ⟨both, mid, hb, h⟩ := emits_bind h
  obtain ⟨rfl, rfl⟩ := emits_pure h
  exact ⟨both, hb, rfl⟩

theorem folded?_compare (left right : Expr) (op : Comparison) :
    (Expr.binary left (.compare op) right).folded? = none := rfl

theorem emits_compute_compare {op : Comparison}
    (h : Emits (compute (.binary left (.compare op) right) target) scope code after) :
    ∃ both mid rest, Emits (operands left right) scope both mid ∧
      Emits (truth op target (home leftWork left) (home rightWork right)) mid rest after ∧
      code = both ++ rest := by
  rw [compute, folded?_compare] at h
  obtain ⟨both, mid, hb, h⟩ := emits_bind h
  obtain ⟨rest, last, ht, h⟩ := emits_bind h
  obtain ⟨rfl, rfl⟩ := emits_pure h
  exact ⟨both, mid, rest, hb, ht, rfl⟩

end Binary

section Guard

variable {otherwise : Nat}

theorem emits_guard_compare {left right : Expr} {op : Comparison}
    (h : Emits (guard (.binary left (.compare op) right) otherwise) scope code after) :
    ∃ both mid, Emits (operands left right) scope both mid ∧
      if op = .notEqual then
        code = both ++ [test op (home leftWork left) (home rightWork right)] ++
          jumps op otherwise ∧ after = mid
      else
        code = both ++ [test op (home leftWork left) (home rightWork right)] ++
          jumps op mid.labels ++ [jump .rav otherwise, .label mid.labels] ∧
        after = { mid with labels := mid.labels + 1 } := by
  obtain ⟨both, mid, hb, h⟩ := emits_bind h
  refine ⟨both, mid, hb, ?_⟩
  split
  · next hop =>
    rw [if_pos hop] at h
    exact emits_pure h
  · next hop =>
    rw [if_neg hop] at h
    obtain ⟨skip, last, hs, h⟩ := emits_bind h
    obtain ⟨rfl, rfl⟩ := emits_newLabel hs
    exact emits_pure h

/-- A condition is no comparison. -/
def isPlain : Expr → Prop
  | .binary _ (.compare _) _ => False
  | _ => True

theorem isPlain_or (e : Expr) :
    isPlain e ∨ ∃ left op right, e = .binary left (.compare op) right := by
  match e with
  | .number _ | .text _ | .slot _ | .binary _ (.arith _) _ => exact .inl trivial
  | .binary left (.compare op) right => exact .inr ⟨left, op, right, rfl⟩

theorem emits_guard_plain {condition : Expr} (hc : isPlain condition)
    (h : Emits (guard condition otherwise) scope code after) :
    ∃ first, Emits (fill condition (compute condition leftWork)) scope first after ∧
      code = first ++ [line .pav [.register (home leftWork condition), .immediate 0],
        jump .rev otherwise] := by
  have hg : guard condition otherwise = (do
      let code ← fill condition (compute condition leftWork)
      return code ++ [line .pav [.register (home leftWork condition), .immediate 0],
        jump .rev otherwise]) := by
    match condition, hc with
    | .number _, _ | .text _, _ | .slot _, _ | .binary _ (.arith _) _, _ => rfl
  rw [hg] at h
  obtain ⟨first, mid, hf, h⟩ := emits_bind h
  obtain ⟨rfl, rfl⟩ := emits_pure h
  exact ⟨first, hf, rfl⟩

end Guard

section Block

variable {number : Nat} {slot : Slot} {value condition : Expr} {body otherwise rest : Block}

theorem emits_done (h : Emits (block .done) scope code after) : code = [] ∧ after = scope :=
  emits_pure h

theorem emits_halt (h : Emits (block (.halt number rest)) scope code after) :
    ∃ next, Emits (block rest) scope next after ∧
      code = Listing.annotate "VERNEINUNG" [line .nov []] ++ next := by
  obtain ⟨next, mid, hn, h⟩ := emits_bind h
  obtain ⟨rfl, rfl⟩ := emits_pure h
  exact ⟨next, hn, rfl⟩

theorem emits_assign (h : Emits (block (.assign number slot value rest)) scope code after) :
    ∃ first mid next, Emits (compute value slot) scope first mid ∧
      Emits (block rest) mid next after ∧
      code = Listing.annotate ("DING " ++ slot.val.repr ++ " = " ++ value.display) first ++
        next := by
  obtain ⟨first, mid, hf, h⟩ := emits_bind h
  obtain ⟨next, last, hn, h⟩ := emits_bind h
  obtain ⟨rfl, rfl⟩ := emits_pure h
  exact ⟨first, mid, next, hf, hn, rfl⟩

theorem emits_output (h : Emits (block (.output number value rest)) scope code after) :
    ∃ first mid next, Emits (fill value (compute value leftWork)) scope first mid ∧
      Emits (block rest) mid next after ∧
      code = Listing.annotate ("VORSTELLUNG " ++ value.display)
        (first ++ [line .mav [.register (home leftWork value)]]) ++ next := by
  obtain ⟨first, mid, hf, h⟩ := emits_bind h
  obtain ⟨next, last, hn, h⟩ := emits_bind h
  obtain ⟨rfl, rfl⟩ := emits_pure h
  exact ⟨first, mid, next, hf, hn, rfl⟩

theorem emits_input (h : Emits (block (.input number slot rest)) scope code after) :
    ∃ next, Emits (block rest) scope next after ∧
      code = Listing.annotate ("WILLE " ++ slot.val.repr) [line .vir [.register slot]] ++ next := by
  obtain ⟨next, mid, hn, h⟩ := emits_bind h
  obtain ⟨rfl, rfl⟩ := emits_pure h
  exact ⟨next, hn, rfl⟩

theorem emits_branch_done
    (h : Emits (block (.branch number condition body .done rest)) scope code after) :
    ∃ test first inner last next,
      Emits (guard condition scope.labels) { scope with labels := scope.labels + 1 } test first ∧
      Emits (block body) first inner last ∧ Emits (block rest) last next after ∧
      code = Listing.annotate ("WENN " ++ condition.display) test ++ inner ++
        [.label scope.labels] ++ next := by
  obtain ⟨miss, last, hm, h⟩ := emits_bind h
  obtain ⟨rfl, rfl⟩ := emits_newLabel hm
  obtain ⟨finish, last, hf, h⟩ := emits_bind h
  obtain ⟨rfl, rfl⟩ := emits_pure hf
  obtain ⟨test, first, ht, h⟩ := emits_bind h
  obtain ⟨inner, second, hi, h⟩ := emits_bind h
  obtain ⟨other, third, ho, hr⟩ := emits_bind h
  obtain ⟨rfl, rfl⟩ := emits_done ho
  obtain ⟨next, last, hn, he⟩ := emits_bind hr
  obtain ⟨rfl, rfl⟩ := emits_pure he
  exact ⟨test, first, inner, third, next, ht, hi, hn, by simp [Block.isEmpty]⟩

theorem emits_branch (ho : otherwise ≠ .done)
    (h : Emits (block (.branch number condition body otherwise rest)) scope code after) :
    ∃ test first inner second other third next,
      Emits (guard condition scope.labels) { scope with labels := scope.labels + 2 } test first ∧
      Emits (block body) first inner second ∧ Emits (block otherwise) second other third ∧
      Emits (block rest) third next after ∧
      code = Listing.annotate ("WENN " ++ condition.display) test ++ inner ++
        ([jump .rav (scope.labels + 1), .label scope.labels] ++ other) ++
        [.label (scope.labels + 1)] ++ next := by
  have he : otherwise.isEmpty = false := by
    cases otherwise with
    | done => exact absurd rfl ho
    | _ => rfl
  obtain ⟨miss, last, hm, h⟩ := emits_bind h
  obtain ⟨rfl, rfl⟩ := emits_newLabel hm
  rw [he] at h
  obtain ⟨finish, last, hf, h⟩ := emits_bind h
  obtain ⟨rfl, rfl⟩ := emits_newLabel hf
  obtain ⟨test, first, ht, h⟩ := emits_bind h
  obtain ⟨inner, second, hi, h⟩ := emits_bind h
  obtain ⟨other, third, ho, h⟩ := emits_bind h
  obtain ⟨next, last, hn, h⟩ := emits_bind h
  obtain ⟨rfl, rfl⟩ := emits_pure h
  exact ⟨test, first, inner, second, other, third, next, ht, hi, ho, hn, rfl⟩

theorem emits_loop (h : Emits (block (.loop number condition body rest)) scope code after) :
    ∃ test first inner second next,
      Emits (guard condition (scope.labels + 1)) { scope with labels := scope.labels + 2 }
        test first ∧
      Emits (block body) first inner second ∧ Emits (block rest) second next after ∧
      code = [.label scope.labels] ++ Listing.annotate ("SOLANGE " ++ condition.display) test ++
        inner ++ [jump .rav scope.labels, .label (scope.labels + 1)] ++ next := by
  obtain ⟨start, last, hs, h⟩ := emits_bind h
  obtain ⟨rfl, rfl⟩ := emits_newLabel hs
  obtain ⟨finish, last, hs, h⟩ := emits_bind h
  obtain ⟨rfl, rfl⟩ := emits_newLabel hs
  obtain ⟨test, first, ht, h⟩ := emits_bind h
  obtain ⟨inner, second, hi, h⟩ := emits_bind h
  obtain ⟨next, last, hn, h⟩ := emits_bind h
  obtain ⟨rfl, rfl⟩ := emits_pure h
  exact ⟨test, first, inner, second, next, ht, hi, hn, rfl⟩

end Block

end Octet.Compiler
