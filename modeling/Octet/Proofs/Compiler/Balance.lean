import Octet.Proofs.Compiler.Installed
import Octet.Proofs.Machine.Heights
import Octet.Proofs.Tree.Normal

namespace Octet.Compiler

open Listing (Line Placed)
open Machine

variable {program : Program} {pc last mid : Nat} {e left right : Expr} {target l r : Slot}
  {scope after : Scope} {op : Comparison} {label : Nat}

section Height

theorem height_next {instruction : Instruction} (h : At program pc instruction)
    (hw : weight instruction.opcode = 0) : height program (pc + 1) = height program pc := by
  rw [height_succ h, hw, Int.add_zero]

theorem height_test (h : Placed program pc [test op l r]) :
    height program (pc + 1) = height program pc := by
  cases op <;> exact height_next h.1 rfl

theorem height_jumps (h : Placed program pc (jumps op label)) :
    height program (pc + Listing.size (jumps op label)) = height program pc := by
  cases op with
  | equal | notEqual | less | greater => exact height_next h.1 rfl
  | lessOrEqual | greaterOrEqual =>
    have hs : height program (pc + 2) = height program (pc + 1) := height_next h.2.1 rfl
    exact hs.trans (height_next h.1 rfl)

theorem height_truth (h : Installed program (truth op target l r) scope after pc last) :
    height program last = height program pc := by
  obtain ⟨n, p, ht, hh, hj, rfl, hm, rfl, -⟩ := installed_truth h
  rw [height_next hm rfl, height_jumps hj, height_next hh rfl, height_test ht]

theorem height_load {text : String} (h : Installed program (load target text) scope after pc last) :
    height program last = height program pc := by
  obtain ⟨key, ha, -, rfl⟩ := installed_load h
  exact height_next ha rfl

theorem height_fill {emitter : StateM Scope (List Line)}
    (h : Installed program (fill e emitter) scope after pc last)
    (he : Installed program emitter scope after pc last →
      height program last = height program pc) :
    height program last = height program pc := by
  obtain ⟨i, rfl, rfl⟩ | ⟨-, h⟩ := installed_fill h
  · rfl
  · exact he h

/-- What a left operand adds to the ring while it waits is taken away again. -/
theorem height_operands
    (hl : ∀ {pc last scope after}, Installed program (compute left leftWork) scope after pc last →
      height program last = height program pc)
    (hr : ∀ {pc last scope after}, Installed program (compute right rightWork) scope after pc last →
      height program last = height program pc)
    (h : Installed program (operands left right) scope after pc last) :
    height program last = height program pc := by
  obtain ⟨_, p, hf, hs⟩ := installed_operands h
  have hp := height_fill hf hl
  split at hs
  · obtain ⟨q, hin, hs, hout, rfl⟩ := hs
    have hq := height_fill hs hr
    rw [height_succ hout, hq, height_succ hin, hp]
    simp only [weight]
    omega
  · rw [height_fill hs hr, hp]

theorem height_compute (h : Installed program (compute e target) scope after pc last) :
    height program last = height program pc := by
  induction e generalizing target scope after pc last with
  | number n =>
    obtain ⟨ha, rfl⟩ := installed_number h
    exact height_next ha rfl
  | text s => exact height_load h
  | slot i =>
    obtain ⟨ha, rfl⟩ := installed_slot h
    exact height_next ha rfl
  | binary left op right ihl ihr =>
    cases hv : (Expr.binary left op right).folded? with
    | some v => exact height_load (installed_folded hv h)
    | none =>
      cases op with
      | arith op =>
        obtain ⟨p, hb, ha, rfl⟩ := installed_arith hv h
        rw [height_next ha (by cases op <;> rfl), height_operands ihl ihr hb]
      | compare op =>
        obtain ⟨_, p, hb, ht⟩ := installed_compare h
        rw [height_truth ht, height_operands ihl ihr hb]

theorem height_guard {condition : Expr} {otherwise : Nat}
    (h : Installed program (guard condition otherwise) scope after pc last) :
    height program last = height program pc := by
  obtain hc | ⟨left, op, right, rfl⟩ := isPlain_or condition
  · obtain ⟨p, hf, ht, hj, rfl⟩ := installed_guard_plain hc h
    have hlast : height program (p + 2) = height program (p + 1) := height_next hj rfl
    rw [hlast, height_next ht rfl, height_fill hf height_compute]
  · obtain ⟨_, p, hb, ht, hj⟩ := installed_guard_compare h
    have hp := height_operands height_compute height_compute hb
    split at hj
    · obtain ⟨hj, rfl⟩ := hj
      rw [height_jumps hj, height_test ht, hp]
    · obtain ⟨skip, q, hj, rfl, hrav, rfl, -⟩ := hj
      rw [height_next hrav rfl, height_jumps hj, height_test ht, hp]

theorem height_block {b : Block} (h : Installed program (block b) scope after pc last) :
    height program last = height program pc := by
  induction b generalizing scope after pc last with
  | done => rw [installed_done h]
  | halt number rest ih =>
    obtain ⟨ha, hr⟩ := installed_halt h
    rw [ih hr, height_next ha rfl]
  | assign number slot value rest ih =>
    obtain ⟨_, p, hc, hr⟩ := installed_assign h
    rw [ih hr, height_compute hc]
  | output number value rest ih =>
    obtain ⟨_, p, hf, hm, hr⟩ := installed_output h
    rw [ih hr, height_next hm rfl, height_fill hf height_compute]
  | input number slot rest ih =>
    obtain ⟨ha, hr⟩ := installed_input h
    rw [ih hr, height_next ha rfl]
  | branch number condition body otherwise rest ihb iho ihr =>
    by_cases ho : otherwise = .done
    · subst ho
      obtain ⟨miss, first, second, p, q, hg, hb, -, hr⟩ := installed_branch_done h
      rw [ihr hr, ihb hb, height_guard hg]
    · obtain ⟨miss, finish, first, second, third, p, q, r, hg, hb, hj, -, he, -, hr⟩ :=
        installed_branch ho h
      rw [ihr hr, iho he, height_next hj rfl, ihb hb, height_guard hg]
  | loop number condition body rest ihb ihr =>
    obtain ⟨start, finish, first, second, p, q, -, hg, hb, hj, -, hr⟩ := installed_loop h
    rw [ihr hr, height_next hj rfl, ihb hb, height_guard hg]

end Height

section Sound

/-- All instructions between two positions are sound. -/
def SoundOn (program : Program) (pc last : Nat) : Prop :=
  ∀ p, pc ≤ p → p < last → Sound program p

theorem soundOn_self : SoundOn program pc pc := fun _ _ _ => absurd ‹_ < _› (by omega)

theorem soundOn_succ (h : Sound program pc) : SoundOn program pc (pc + 1) := by
  intro p hp hl
  obtain rfl : p = pc := by omega
  exact h

theorem SoundOn.append (h : SoundOn program pc mid) (hr : SoundOn program mid last) :
    SoundOn program pc last := by
  intro p hp hl
  by_cases hm : p < mid
  · exact h p hp hm
  · exact hr p (by omega) hl

theorem sound_test (h : Placed program pc [test op l r]) : Sound program pc := by
  cases op <;> exact sound_pav h.1

/-- Jumps to a label on their own height. -/
theorem soundOn_jumps {destination : Nat} (h : Placed program pc (jumps op label))
    (hl : program.labels.get? (Listing.labelName label) = some destination)
    (hh : height program destination = height program pc) :
    SoundOn program pc (pc + Listing.size (jumps op label)) := by
  cases op with
  | equal | notEqual => exact soundOn_succ (sound_rev h.1 hl hh)
  | less | greater => exact soundOn_succ (sound_rgv h.1 hl hh)
  | lessOrEqual | greaterOrEqual =>
    have hn : height program (pc + 1) = height program pc := height_next h.1 rfl
    exact (soundOn_succ (sound_rgv h.1 hl hh)).append
      (soundOn_succ (sound_rev h.2.1 hl (hh.trans hn.symm)))

theorem soundOn_load {text : String}
    (h : Installed program (load target text) scope after pc last) : SoundOn program pc last := by
  obtain ⟨key, ha, hk, rfl⟩ := installed_load h
  exact soundOn_succ (sound_tar_data ha hk)

theorem soundOn_truth (h : Installed program (truth op target l r) scope after pc last) :
    SoundOn program pc last := by
  have hlast := height_truth h
  obtain ⟨n, p, ht, hh, hj, rfl, hm, rfl, hl⟩ := installed_truth h
  have hn : height program (pc + 2) = height program (pc + 1) := height_next hh rfl
  have hp := hn.trans (height_test ht)
  have hs : SoundOn program (pc + 1) (pc + 2) := soundOn_succ (sound_tar_immediate hh)
  have hfirst := (soundOn_succ (sound_test ht)).append hs
  exact (hfirst.append (soundOn_jumps hj hl (hlast.trans hp.symm))).append
    (soundOn_succ (sound_tar_immediate hm))

theorem soundOn_fill {emitter : StateM Scope (List Line)}
    (h : Installed program (fill e emitter) scope after pc last)
    (he : Installed program emitter scope after pc last → SoundOn program pc last) :
    SoundOn program pc last := by
  obtain ⟨i, rfl, rfl⟩ | ⟨-, h⟩ := installed_fill h
  · exact soundOn_self
  · exact he h

/-- A height that leaves room for what an expression, if it is normal, adds to the ring. -/
structure Roomy (program : Program) (pc : Nat) (e : Expr) : Prop where
  nonneg : 0 ≤ height program pc
  le_level : height program pc ≤ e.level
  le_two : height program pc ≤ 2

theorem roomy_of_eq_zero (h : height program pc = 0) (e : Expr) : Roomy program pc e :=
  ⟨by omega, by omega, by omega⟩

theorem soundOn_operands {op : BinaryOp} (hn : (Expr.binary left op right).Normal)
    (hh : Roomy program pc (.binary left op right))
    (hl : ∀ {pc last scope after}, Roomy program pc left →
      Installed program (compute left leftWork) scope after pc last → SoundOn program pc last)
    (hr : ∀ {pc last scope after}, Roomy program pc right →
      Installed program (compute right rightWork) scope after pc last → SoundOn program pc last)
    (h : Installed program (operands left right) scope after pc last) :
    SoundOn program pc last := by
  obtain ⟨-, -, hle, hlt⟩ := hn
  obtain ⟨h0, hop, h2⟩ := hh
  have hop : height program pc ≤ op.level := hop
  obtain ⟨_, p, hf, hs⟩ := installed_operands h
  have hp := height_fill hf height_compute
  have hfirst := soundOn_fill hf (hl ⟨h0, by omega, h2⟩)
  split at hs
  · next hsp =>
    obtain ⟨q, hin, hs, hout, rfl⟩ := hs
    -- An operator on the right is tighter, which leaves room for the value that waits.
    have hright : right.level ≤ 2 := Expr.level_le_of_isBinary hsp.2
    have hi : height program (p + 1) = height program p + 1 := height_succ hin
    have hq := height_fill hs height_compute
    have hsecond := soundOn_fill hs (hr ⟨by omega, by omega, by omega⟩)
    exact ((hfirst.append (soundOn_succ (sound_tin hin (by omega)))).append hsecond).append
      (soundOn_succ (sound_tab hout (by omega)))
  · exact hfirst.append (soundOn_fill hs (hr ⟨by omega, by omega, by omega⟩))

theorem soundOn_compute (hn : e.Normal) (hh : Roomy program pc e)
    (h : Installed program (compute e target) scope after pc last) : SoundOn program pc last := by
  induction e generalizing target scope after pc last with
  | number n =>
    obtain ⟨ha, rfl⟩ := installed_number h
    exact soundOn_succ (sound_tar_immediate ha)
  | text s => exact soundOn_load h
  | slot i =>
    obtain ⟨ha, rfl⟩ := installed_slot h
    exact soundOn_succ (sound_tar_register ha)
  | binary left op right ihl ihr =>
    cases hv : (Expr.binary left op right).folded? with
    | some v => exact soundOn_load (installed_folded hv h)
    | none =>
      cases op with
      | arith op =>
        obtain ⟨p, hb, ha, rfl⟩ := installed_arith hv h
        exact (soundOn_operands hn hh (ihl hn.1) (ihr hn.2.1) hb).append
          (soundOn_succ (sound_arith ha))
      | compare op =>
        obtain ⟨_, p, hb, ht⟩ := installed_compare h
        exact (soundOn_operands hn hh (ihl hn.1) (ihr hn.2.1) hb).append (soundOn_truth ht)

theorem soundOn_guard {condition : Expr} {otherwise miss : Nat} (hn : condition.Normal)
    (h0 : height program pc = 0)
    (h : Installed program (guard condition otherwise) scope after pc last)
    (hm : program.labels.get? (Listing.labelName otherwise) = some miss)
    (hmiss : height program miss = 0) : SoundOn program pc last := by
  obtain hc | ⟨left, op, right, rfl⟩ := isPlain_or condition
  · obtain ⟨p, hf, ht, hj, rfl⟩ := installed_guard_plain hc h
    have hp := height_fill hf height_compute
    have hq : height program (p + 1) = 0 := by rw [height_next ht rfl, hp, h0]
    have hfirst := soundOn_fill hf (soundOn_compute hn (roomy_of_eq_zero h0 _))
    exact (hfirst.append (soundOn_succ (sound_pav_immediate ht))).append
      (soundOn_succ (sound_rev hj hm (hmiss.trans hq.symm)))
  · have hlast := height_guard h
    obtain ⟨_, p, hb, ht, hj⟩ := installed_guard_compare h
    have hp := height_operands height_compute height_compute hb
    have hq : height program (p + 1) = 0 := by rw [height_test ht, hp, h0]
    have hfirst := (soundOn_operands hn (roomy_of_eq_zero h0 _)
      (soundOn_compute hn.1) (soundOn_compute hn.2.1)
      hb).append (soundOn_succ (sound_test ht))
    split at hj
    · obtain ⟨hj, rfl⟩ := hj
      exact hfirst.append (soundOn_jumps hj hm (hmiss.trans hq.symm))
    · obtain ⟨skip, q, hj, rfl, hrav, rfl, hl⟩ := hj
      have hs := (height_jumps hj).trans hq
      exact (hfirst.append (soundOn_jumps hj hl ((hlast.trans h0).trans hq.symm))).append
        (soundOn_succ (sound_rav hrav hm (hmiss.trans hs.symm)))

/-- Where nothing waits in the ring, the code of a block of normal expressions is sound. -/
theorem soundOn_block {b : Block} (hn : b.Every Expr.Normal) (h0 : height program pc = 0)
    (h : Installed program (block b) scope after pc last) : SoundOn program pc last := by
  induction b generalizing scope after pc last with
  | done =>
    rw [installed_done h]
    exact soundOn_self
  | halt number rest ih =>
    obtain ⟨ha, hr⟩ := installed_halt h
    exact (soundOn_succ (sound_nov ha)).append (ih hn ((height_next ha rfl).trans h0) hr)
  | assign number slot value rest ih =>
    obtain ⟨_, p, hc, hr⟩ := installed_assign h
    exact (soundOn_compute hn.1 (roomy_of_eq_zero h0 _) hc).append
      (ih hn.2 ((height_compute hc).trans h0) hr)
  | output number value rest ih =>
    obtain ⟨_, p, hf, hm, hr⟩ := installed_output h
    have hp := (height_fill hf height_compute).trans h0
    have hfirst := soundOn_fill hf (soundOn_compute hn.1 (roomy_of_eq_zero h0 _))
    exact (hfirst.append (soundOn_succ (sound_mav hm))).append
      (ih hn.2 ((height_next hm rfl).trans hp) hr)
  | input number slot rest ih =>
    obtain ⟨ha, hr⟩ := installed_input h
    exact (soundOn_succ (sound_vir ha)).append (ih hn ((height_next ha rfl).trans h0) hr)
  | branch number condition body otherwise rest ihb iho ihr =>
    obtain ⟨hcn, hbn, hon, hrn⟩ := hn
    by_cases ho : otherwise = .done
    · subst ho
      obtain ⟨miss, first, second, p, q, hg, hb, hm, hr⟩ := installed_branch_done h
      have hp := (height_guard hg).trans h0
      have hq := (height_block hb).trans hp
      exact ((soundOn_guard hcn h0 hg hm hq).append (ihb hbn hp hb)).append (ihr hrn hq hr)
    · obtain ⟨miss, finish, first, second, third, p, q, r, hg, hb, hj, hm, he, hl, hr⟩ :=
        installed_branch ho h
      have hp := (height_guard hg).trans h0
      have hq := (height_block hb).trans hp
      have hq' := (height_next hj rfl).trans hq
      have hr' := (height_block he).trans hq'
      exact (((soundOn_guard hcn h0 hg hm hq').append (ihb hbn hp hb)).append
        (soundOn_succ (sound_rav hj hl (hr'.trans hq.symm)))).append
        ((iho hon hq' he).append (ihr hrn hr' hr))
  | loop number condition body rest ihb ihr =>
    obtain ⟨hcn, hbn, hrn⟩ := hn
    obtain ⟨start, finish, first, second, p, q, hs, hg, hb, hj, hm, hr⟩ := installed_loop h
    have hp := (height_guard hg).trans h0
    have hq := (height_block hb).trans hp
    have hq' := (height_next hj rfl).trans hq
    exact (((soundOn_guard hcn h0 hg hm hq').append (ihb hbn hp hb)).append
      (soundOn_succ (sound_rav hj hs (h0.trans hq.symm)))).append (ihr hrn hq' hr)

end Sound

end Octet.Compiler
