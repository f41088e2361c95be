import Octet.Proofs.Compiler.Encoding
import Octet.Proofs.Machine.Steps

namespace Octet.Compiler

open Listing (Line Placed placed_append)
open Machine (At)

/-- The texts of a listing are in the data table, under their keys. -/
def Stocked (program : Program) (texts : List String) : Prop :=
  ∀ n text, texts[n]? = some text → program.data.get? (Listing.dataKey n) = some text

/-- A program holds what a part of the compiler writes, from one position to another, and the texts
that it loads. -/
def Installed (program : Program) (emitter : StateM Scope (List Line)) (scope after : Scope)
    (pc last : Nat) : Prop :=
  ∃ code, Emits emitter scope code after ∧ Placed program pc code ∧
    Stocked program after.texts ∧ last = pc + Listing.size code

variable {program : Program} {pc last n : Nat} {scope mid after : Scope} {target l r : Slot}
  {e left right : Expr} {code rest : List Line}

theorem Stocked.of_isPrefix {texts more : List String} (h : Stocked program more)
    (hp : texts <+: more) : Stocked program texts := by
  obtain ⟨rest, rfl⟩ := hp
  intro n text ht
  exact h n text (by rw [List.getElem?_append_left (List.getElem?_eq_some_iff.1 ht).1, ht])

@[simp] theorem size_line (op : Opcode) (operands : List Operand) (code : List Line) :
    Listing.size (line op operands :: code) = Listing.size code + 1 :=
  rfl

@[simp] theorem size_jump (op : Opcode) (label : Nat) (code : List Line) :
    Listing.size (jump op label :: code) = Listing.size code + 1 :=
  rfl

@[simp] theorem size_test (op : Comparison) (l r : Slot) (code : List Line) :
    Listing.size (test op l r :: code) = Listing.size code + 1 := by
  cases op <;> rfl

section Expr

theorem installed_number {n : UInt32}
    (h : Installed program (compute (.number n) target) scope after pc last) :
    At program pc ⟨.tar, [.register target, .immediate n.toNat]⟩ ∧ last = pc + 1 := by
  obtain ⟨code, h, hp, -, hl⟩ := h
  obtain ⟨rfl, -⟩ := emits_compute_number h
  exact ⟨hp.1, hl⟩

theorem installed_slot {i : Slot}
    (h : Installed program (compute (.slot i) target) scope after pc last) :
    At program pc ⟨.tar, [.register target, .register i]⟩ ∧ last = pc + 1 := by
  obtain ⟨code, h, hp, -, hl⟩ := h
  obtain ⟨rfl, -⟩ := emits_compute_slot h
  exact ⟨hp.1, hl⟩

theorem installed_load {text : String}
    (h : Installed program (load target text) scope after pc last) :
    ∃ key, At program pc ⟨.tar, [.register target, .data key]⟩ ∧
      program.data.get? key = some text ∧ last = pc + 1 := by
  obtain ⟨code, h, hp, hd, hl⟩ := h
  obtain ⟨n, rfl, -, hn⟩ := emits_load h
  exact ⟨_, hp.1, hd n text hn, hl⟩

theorem installed_folded {op : BinaryOp} {v : Value}
    (hv : (Expr.binary left op right).folded? = some v)
    (h : Installed program (compute (.binary left op right) target) scope after pc last) :
    Installed program (load target v.display) scope after pc last := by
  obtain ⟨code, h, hr⟩ := h
  exact ⟨code, emits_compute_folded hv h, hr⟩

theorem installed_fill {emitter : StateM Scope (List Line)}
    (h : Installed program (fill e emitter) scope after pc last) :
    (∃ i, e = .slot i ∧ last = pc) ∨
      (∀ i, e ≠ .slot i) ∧ Installed program emitter scope after pc last := by
  obtain ⟨code, h, hp, hd, hl⟩ := h
  obtain ⟨i, rfl, rfl, rfl⟩ | ⟨he, h⟩ := emits_fill h
  · exact .inl ⟨i, rfl, hl⟩
  · exact .inr ⟨he, code, h, hp, hd, hl⟩

theorem installed_operands (h : Installed program (operands left right) scope after pc last) :
    ∃ mid p, Installed program (fill left (compute left leftWork)) scope mid pc p ∧
      if spills left right then
        ∃ q, At program p ⟨.tin, [.register leftWork]⟩ ∧
          Installed program (fill right (compute right rightWork)) mid after (p + 1) q ∧
          At program q ⟨.tab, [.register leftWork]⟩ ∧ last = q + 1
      else Installed program (fill right (compute right rightWork)) mid after p last := by
  obtain ⟨code, h, hp, hd, hl⟩ := h
  obtain ⟨first, mid, second, hf, hs, hc⟩ := emits_bothOperands h
  have hm : Stocked program mid.texts :=
    hd.of_isPrefix (accounts_fill hs accounts_compute).texts_isPrefix
  refine ⟨mid, pc + Listing.size first, ?_⟩
  split at hc
  · next hsp =>
    subst hc
    simp only [List.append_assoc, placed_append] at hp
    obtain ⟨hpf, hin, hps, hout, -⟩ := hp
    rw [if_pos hsp]
    refine ⟨⟨first, hf, hpf, hm, rfl⟩, _, hin.1, ⟨second, hs, hps, hd, rfl⟩, hout, ?_⟩
    simp [hl]
    omega
  · next hsp =>
    subst hc
    rw [placed_append] at hp
    rw [if_neg hsp]
    exact ⟨⟨first, hf, hp.1, hm, rfl⟩, second, hs, hp.2, hd, by simp [hl, Nat.add_assoc]⟩

theorem installed_arith {op : Arith} (hv : (Expr.binary left (.arith op) right).folded? = none)
    (h : Installed program (compute (.binary left (.arith op) right) target) scope after pc last) :
    ∃ p, Installed program (operands left right) scope after pc p ∧
      At program p ⟨arithOpcode op, [.register target, .register (home leftWork left),
        .register (home rightWork right)]⟩ ∧ last = p + 1 := by
  obtain ⟨code, h, hp, hd, hl⟩ := h
  obtain ⟨both, hb, rfl⟩ := emits_compute_arith hv h
  rw [placed_append] at hp
  exact ⟨_, ⟨both, hb, hp.1, hd, rfl⟩, hp.2.1, by simp [hl, Nat.add_assoc]⟩

theorem installed_compare {op : Comparison}
    (h : Installed program (compute (.binary left (.compare op) right) target) scope after
      pc last) :
    ∃ mid p, Installed program (operands left right) scope mid pc p ∧
      Installed program (truth op target (home leftWork left) (home rightWork right)) mid after
        p last := by
  obtain ⟨code, h, hp, hd, hl⟩ := h
  obtain ⟨both, mid, rest, hb, ht, rfl⟩ := emits_compute_compare h
  rw [placed_append] at hp
  have hm := hd.of_isPrefix (accounts_truth ht).texts_isPrefix
  exact ⟨mid, _, ⟨both, hb, hp.1, hm, rfl⟩, rest, ht, hp.2, hd, by simp [hl, Nat.add_assoc]⟩

theorem installed_truth {op : Comparison}
    (h : Installed program (truth op target l r) scope after pc last) :
    ∃ n p, Placed program pc [test op l r] ∧
      At program (pc + 1) ⟨.tar, [.register target, .immediate (hit op)]⟩ ∧
      Placed program (pc + 2) (jumps op n) ∧ p = pc + 2 + Listing.size (jumps op n) ∧
      At program p ⟨.tar, [.register target, .immediate (1 - hit op)]⟩ ∧ last = p + 1 ∧
      program.labels.get? (Listing.labelName n) = some last := by
  obtain ⟨code, h, hp, hd, hl⟩ := h
  obtain ⟨rfl, -⟩ := emits_truth h
  rw [← List.singleton_append] at hp
  simp only [List.append_assoc, placed_append] at hp
  obtain ⟨ht, hh, hj, hm, hn, -⟩ := hp
  simp only [size_test, size_line, Listing.size_nil, Nat.zero_add] at hh hj hm hn
  have hlast : last = pc + 2 + Listing.size (jumps op scope.labels) + 1 := by
    simp [hl]
    omega
  exact ⟨scope.labels, _, ht, hh.1, hj, rfl, hm, hlast, hlast ▸ hn⟩

end Expr

section Guard

variable {otherwise : Nat} {condition : Expr}

theorem installed_guard_plain (hc : isPlain condition)
    (h : Installed program (guard condition otherwise) scope after pc last) :
    ∃ p, Installed program (fill condition (compute condition leftWork)) scope after pc p ∧
      At program p ⟨.pav, [.register (home leftWork condition), .immediate 0]⟩ ∧
      At program (p + 1) ⟨.rev, [.label (Listing.labelName otherwise)]⟩ ∧ last = p + 2 := by
  obtain ⟨code, h, hp, hd, hl⟩ := h
  obtain ⟨first, hf, rfl⟩ := emits_guard_plain hc h
  rw [placed_append] at hp
  exact ⟨_, ⟨first, hf, hp.1, hd, rfl⟩, hp.2.1, hp.2.2.1, by simp [hl, Nat.add_assoc]⟩

/-- For `notEqual` the jumps miss, and for all others they skip the jump that does. -/
theorem installed_guard_compare {op : Comparison}
    (h : Installed program (guard (.binary left (.compare op) right) otherwise) scope after
      pc last) :
    ∃ mid p, Installed program (operands left right) scope mid pc p ∧
      Placed program p [test op (home leftWork left) (home rightWork right)] ∧
      if op = .notEqual then
        Placed program (p + 1) (jumps op otherwise) ∧
          last = p + 1 + Listing.size (jumps op otherwise)
      else
        ∃ skip q, Placed program (p + 1) (jumps op skip) ∧
          q = p + 1 + Listing.size (jumps op skip) ∧
          At program q ⟨.rav, [.label (Listing.labelName otherwise)]⟩ ∧ last = q + 1 ∧
          program.labels.get? (Listing.labelName skip) = some last := by
  obtain ⟨code, h, hp, hd, hl⟩ := h
  obtain ⟨both, mid, hb, hc⟩ := emits_guard_compare h
  refine ⟨mid, pc + Listing.size both, ?_⟩
  split at hc
  · next hop =>
    obtain ⟨rfl, rfl⟩ := hc
    simp only [List.append_assoc, placed_append] at hp
    rw [if_pos hop]
    refine ⟨⟨both, hb, hp.1, hd, rfl⟩, hp.2.1, by simpa using hp.2.2, ?_⟩
    simp [hl]
    omega
  · next hop =>
    obtain ⟨rfl, rfl⟩ := hc
    simp only [List.append_assoc, placed_append] at hp
    obtain ⟨hpb, ht, hj, hr, hs, -⟩ := hp
    simp only [size_test, Listing.size_nil, Nat.zero_add] at hj hr hs
    have hlast : last = pc + Listing.size both + 1 + Listing.size (jumps op mid.labels) + 1 := by
      simp [hl]
      omega
    rw [if_neg hop]
    exact ⟨⟨both, hb, hpb, hd, rfl⟩, ht, mid.labels, _, hj, rfl, hr, hlast, hlast ▸ hs⟩

end Guard

section Block

variable {number miss : Nat} {slot : Slot} {value condition : Expr}
  {body otherwise next : Block}

theorem stocked_of_block (h : Emits (block next) mid rest after)
    (hd : Stocked program after.texts) : Stocked program mid.texts :=
  hd.of_isPrefix (accounts_block h).texts_isPrefix

theorem installed_done (h : Installed program (block .done) scope after pc last) : last = pc := by
  obtain ⟨code, h, -, -, hl⟩ := h
  obtain ⟨rfl, -⟩ := emits_done h
  exact hl

theorem installed_halt (h : Installed program (block (.halt number next)) scope after pc last) :
    At program pc ⟨.nov, []⟩ ∧ Installed program (block next) scope after (pc + 1) last := by
  obtain ⟨code, h, hp, hd, hl⟩ := h
  obtain ⟨rest, hn, rfl⟩ := emits_halt h
  rw [placed_append] at hp
  exact ⟨hp.1.1, rest, hn, hp.2, hd, by simp [hl, Nat.add_assoc]⟩

theorem installed_assign
    (h : Installed program (block (.assign number slot value next)) scope after pc last) :
    ∃ mid p, Installed program (compute value slot) scope mid pc p ∧
      Installed program (block next) mid after p last := by
  obtain ⟨code, h, hp, hd, hl⟩ := h
  obtain ⟨first, mid, rest, hf, hn, rfl⟩ := emits_assign h
  rw [placed_append, Listing.placed_annotate, Listing.size_annotate] at hp
  exact ⟨mid, _, ⟨first, hf, hp.1, stocked_of_block hn hd, rfl⟩, rest, hn, hp.2, hd,
    by simp [hl, Nat.add_assoc]⟩

theorem installed_output
    (h : Installed program (block (.output number value next)) scope after pc last) :
    ∃ mid p, Installed program (fill value (compute value leftWork)) scope mid pc p ∧
      At program p ⟨.mav, [.register (home leftWork value)]⟩ ∧
      Installed program (block next) mid after (p + 1) last := by
  obtain ⟨code, h, hp, hd, hl⟩ := h
  obtain ⟨first, mid, rest, hf, hn, rfl⟩ := emits_output h
  rw [placed_append, Listing.placed_annotate, Listing.size_annotate, placed_append] at hp
  obtain ⟨⟨hpf, hm⟩, hp⟩ := hp
  rw [Listing.size_append, ← Nat.add_assoc] at hp
  refine ⟨mid, _, ⟨first, hf, hpf, stocked_of_block hn hd, rfl⟩, hm.1, rest, hn, hp, hd, ?_⟩
  simp [hl]
  omega

theorem installed_input
    (h : Installed program (block (.input number slot next)) scope after pc last) :
    At program pc ⟨.vir, [.register slot]⟩ ∧
      Installed program (block next) scope after (pc + 1) last := by
  obtain ⟨code, h, hp, hd, hl⟩ := h
  obtain ⟨rest, hn, rfl⟩ := emits_input h
  rw [placed_append] at hp
  exact ⟨hp.1.1, rest, hn, hp.2, hd, by simp [hl, Nat.add_assoc]⟩

theorem installed_branch_done
    (h : Installed program (block (.branch number condition body .done next)) scope after
      pc last) :
    ∃ miss first second p q,
      Installed program (guard condition miss) { scope with labels := miss + 1 } first pc p ∧
      Installed program (block body) first second p q ∧
      program.labels.get? (Listing.labelName miss) = some q ∧
      Installed program (block next) second after q last := by
  obtain ⟨code, h, hp, hd, hl⟩ := h
  obtain ⟨test, first, inner, second, rest, ht, hi, hn, rfl⟩ := emits_branch_done h
  simp only [List.append_assoc, placed_append, Listing.placed_annotate,
    Listing.size_annotate] at hp
  obtain ⟨hpt, hpi, ⟨hm, -⟩, hp⟩ := hp
  have hds := stocked_of_block hn hd
  refine ⟨_, first, second, _, _, ⟨test, ht, hpt, stocked_of_block hi hds, rfl⟩,
    ⟨inner, hi, hpi, hds, rfl⟩, hm, rest, hn, hp, hd, ?_⟩
  simp [hl]
  omega

theorem installed_branch (ho : otherwise ≠ .done)
    (h : Installed program (block (.branch number condition body otherwise next)) scope after
      pc last) :
    ∃ miss finish first second third p q r,
      Installed program (guard condition miss) { scope with labels := miss + 2 } first pc p ∧
      Installed program (block body) first second p q ∧
      At program q ⟨.rav, [.label (Listing.labelName finish)]⟩ ∧
      program.labels.get? (Listing.labelName miss) = some (q + 1) ∧
      Installed program (block otherwise) second third (q + 1) r ∧
      program.labels.get? (Listing.labelName finish) = some r ∧
      Installed program (block next) third after r last := by
  obtain ⟨code, h, hp, hd, hl⟩ := h
  obtain ⟨test, first, inner, second, other, third, rest, ht, hi, he, hn, rfl⟩ :=
    emits_branch ho h
  simp only [List.append_assoc, placed_append, Listing.placed_annotate,
    Listing.size_annotate] at hp
  obtain ⟨hpt, hpi, ⟨hj, hm, -⟩, hpo, ⟨hf, -⟩, hp⟩ := hp
  have hdt := stocked_of_block hn hd
  have hds := stocked_of_block he hdt
  refine ⟨_, _, first, second, third, _, _, _,
    ⟨test, ht, hpt, stocked_of_block hi hds, rfl⟩, ⟨inner, hi, hpi, hds, rfl⟩, hj, hm,
    ⟨other, he, hpo, hdt, rfl⟩, hf, rest, hn, hp, hd, ?_⟩
  simp [hl]
  omega

theorem installed_loop
    (h : Installed program (block (.loop number condition body next)) scope after pc last) :
    ∃ start finish first second p q,
      program.labels.get? (Listing.labelName start) = some pc ∧
      Installed program (guard condition finish) { scope with labels := start + 2 } first pc p ∧
      Installed program (block body) first second p q ∧
      At program q ⟨.rav, [.label (Listing.labelName start)]⟩ ∧
      program.labels.get? (Listing.labelName finish) = some (q + 1) ∧
      Installed program (block next) second after (q + 1) last := by
  obtain ⟨code, h, hp, hd, hl⟩ := h
  obtain ⟨test, first, inner, second, rest, ht, hi, hn, rfl⟩ := emits_loop h
  simp only [List.append_assoc, placed_append, Listing.placed_annotate,
    Listing.size_annotate] at hp
  obtain ⟨⟨hs, -⟩, hpt, hpi, ⟨hj, hf, -⟩, hp⟩ := hp
  have hds := stocked_of_block hn hd
  refine ⟨_, _, first, second, _, _, hs, ⟨test, ht, hpt, stocked_of_block hi hds, rfl⟩,
    ⟨inner, hi, hpi, hds, rfl⟩, hj, hf, rest, hn, hp, hd, ?_⟩
  simp [hl]
  omega

end Block

section Compile

variable (program : Block) (name : Option String)

theorem stocked_compile : Stocked (program.compile.assembled name) program.compile.texts :=
  fun _ _ ht => (Listing.get?_data_assembled ..).trans ht

theorem placed_compile : Placed (program.compile.assembled name) 0 program.compile.code :=
  Listing.placed_assembled _ _ program.nodup_defined_compile

theorem installed_compile :
    Installed (program.compile.assembled name) (block program) ⟨0, []⟩
      ⟨program.compile.labels, program.compile.texts⟩ 0 (Listing.size program.compile.code) :=
  ⟨program.compile.code, program.emits_compile, placed_compile program name,
    stocked_compile program name, (Nat.zero_add _).symm⟩

end Compile

end Octet.Compiler
