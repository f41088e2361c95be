import Octet.Proofs.Compiler.Effect
import Octet.Proofs.Compiler.Overflow
import Octet.Proofs.Machine.Determinism

namespace Octet.Compiler

open Machine

variable {program other : Program} {pc last first final dann sonst : Nat} {state next : State}
  {left right e : Expr} {target l r : Slot} {scope after scope' after' : Scope} {op : Comparison}

section Size

theorem lt_of_compute (h : Installed program (compute e target) scope after pc last) :
    pc < last := by
  cases e with
  | number n =>
    obtain ⟨-, rfl⟩ := installed_number h
    exact pc.lt_succ_self
  | text s =>
    obtain ⟨_, -, -, rfl⟩ := installed_load h
    exact pc.lt_succ_self
  | slot i =>
    obtain ⟨-, rfl⟩ := installed_slot h
    exact pc.lt_succ_self
  | binary left op right =>
    cases hv : (Expr.binary left op right).folded? with
    | some v =>
      obtain ⟨_, -, -, rfl⟩ := installed_load (installed_folded hv h)
      exact pc.lt_succ_self
    | none =>
      cases op with
      | arith op =>
        obtain ⟨p, hb, -, rfl⟩ := installed_arith hv h
        exact Nat.lt_succ_of_le hb.le
      | compare op =>
        obtain ⟨_, p, hb, ht⟩ := installed_compare h
        obtain ⟨_, q, -, -, -, rfl, -, rfl, -⟩ := installed_truth ht
        have := hb.le
        omega

theorem lt_of_guard {condition : Expr} {otherwise : Nat}
    (h : Installed program (guard condition otherwise) scope after pc last) : pc < last := by
  obtain hc | ⟨left, op, right, rfl⟩ := isPlain_or condition
  · obtain ⟨p, hf, -, -, rfl⟩ := installed_guard_plain hc h
    have := hf.le
    omega
  · obtain ⟨_, p, hb, -, hj⟩ := installed_guard_compare h
    have := hb.le
    split at hj
    · omega
    · obtain ⟨_, q, -, rfl, -, rfl, -⟩ := hj
      omega

/-- Every statement has code. -/
theorem lt_of_block {b : Block} (hb : b ≠ .done)
    (h : Installed program (block b) scope after pc last) : pc < last := by
  cases b with
  | done => exact absurd rfl hb
  | halt line rest => exact (installed_halt h).2.le
  | assign line slot value rest =>
    obtain ⟨_, p, hc, hr⟩ := installed_assign h
    exact (lt_of_compute hc).trans_le hr.le
  | output line value rest =>
    obtain ⟨_, p, hf, -, hr⟩ := installed_output h
    exact (Nat.lt_succ_of_le hf.le).trans_le hr.le
  | input line slot rest => exact (installed_input h).2.le
  | branch line condition body otherwise rest =>
    by_cases ho : otherwise = .done
    · subst ho
      obtain ⟨_, _, _, p, q, hg, hb, -, hr⟩ := installed_branch_done h
      exact (lt_of_guard hg).trans_le (hb.le.trans hr.le)
    · obtain ⟨_, _, _, _, _, p, q, s, hg, hb, -, -, he, -, hr⟩ := installed_branch ho h
      have := lt_of_guard hg
      have := hb.le
      have := he.le
      have := hr.le
      omega
  | loop line condition body rest =>
    obtain ⟨_, _, _, _, p, q, -, hg, hb, -, -, hr⟩ := installed_loop h
    have := lt_of_guard hg
    have := hb.le
    have := hr.le
    omega

end Size

section Verdict

/-- What a comparison comes to: whether it passes, and the carry and the ring that its operands
leave. -/
@[ext] structure Verdict where
  passes : Bool
  carry : Bool
  ring : Ring

def verdict (op : Comparison) (l r : Slot) (state : State) : Verdict :=
  ⟨op.passes (state.registers.read l) (state.registers.read r), state.flags.carry, state.ring⟩

/-- The code of a comparison leaves a verdict as a number in a register, or it fails. -/
def LeavesVerdict (program : Program) (target : Slot) (pc last : Nat) (state : State)
    (result : Except Fault Verdict) : Prop :=
  Yields (cut program last) pc state result (fun _ => last) fun v next =>
    next.registers.read target = .number (if v.passes then 1 else 0) ∧
      next.flags.carry = v.carry ∧ next.ring = v.ring

/-- The code of a comparison leads the machine to one of two parts by its verdict, or it fails. -/
def FollowsVerdict (program : Program) (pc dann sonst : Nat) (state : State)
    (result : Except Fault Verdict) : Prop :=
  Yields (cut program dann) pc state result (fun v => if v.passes then dann else sonst)
    fun v next => next.flags.carry = v.carry ∧ next.ring = v.ring

theorem yields_compute_compare
    (h : Installed program (compute (.binary left (.compare op) right) target) scope after
      pc last) (state : State) :
    Yields program pc state (effectBoth left right state) (fun _ => last) fun mid next =>
      next = settled op target (home leftWork left) (home rightWork right) mid := by
  have hy := effective program _ target state h
  rw [effect_compare, yields_map] at hy
  exact hy.imp fun mid next he => he.symm

theorem yields_guard_compare {otherwise miss : Nat}
    (h : Installed program (guard (.binary left (.compare op) right) otherwise) scope after
      pc last)
    (hm : program.labels.get? (Listing.labelName otherwise) = some miss) (state : State) :
    Yields program pc state (effectBoth left right state)
      (fun mid => if op.passes (mid.registers.read (home leftWork left))
        (mid.registers.read (home rightWork right)) then last else miss)
      fun mid next => next = compared op (home leftWork left) (home rightWork right) mid := by
  obtain ⟨_, p, hb, ht, hj⟩ := installed_guard_compare h
  have hy := yields_effectBoth (effective program left leftWork)
    (effective program right rightWork) hb state
  refine hy.trans ?_
  rintro mid _ rfl
  exact ⟨_, reaches_comparison ht hj hm mid, rfl⟩

/-- The verdict on two expressions, from the state that their code begins in. -/
def judged (op : Comparison) (left right : Expr) (state : State) : Except Fault Verdict :=
  (effectBoth left right state).map (verdict op (home leftWork left) (home rightWork right))

theorem leavesVerdict_judged
    (h : Installed program (compute (.binary left (.compare op) right) target) scope after
      pc last) (state : State) :
    LeavesVerdict program target pc last state (judged op left right state) := by
  rw [LeavesVerdict, judged, yields_map]
  refine (yields_compute_compare (installed_cut h) state).imp ?_
  rintro mid _ rfl
  refine ⟨?_, carry_tested .., rfl⟩
  rw [settled, registers_set, Memory.read_put, if_pos rfl]
  rfl

theorem followsVerdict_judged {otherwise : Nat}
    (h : Installed program (guard (.binary left (.compare op) right) otherwise) scope after
      pc dann)
    (hm : program.labels.get? (Listing.labelName otherwise) = some sonst) (state : State) :
    FollowsVerdict program pc dann sonst state (judged op left right state) := by
  rw [FollowsVerdict, judged, yields_map]
  refine (yields_guard_compare (installed_cut h) hm state).imp ?_
  rintro mid _ rfl
  exact ⟨carry_tested .., rfl⟩

variable {result result' : Except Fault Verdict}

theorem LeavesVerdict.unique (h : LeavesVerdict program target pc last state result)
    (h' : LeavesVerdict program target pc last state result') : result = result' := by
  refine Yields.unique h h' (fun _ => ?_) ?_
  · rw [fetch_cut, if_neg last.lt_irrefl]
  · rintro a b next - ⟨ha, hac, har⟩ ⟨hb, hbc, hbr⟩
    have hv : Value.ofBool a.passes = .ofBool b.passes := ha.symm.trans hb
    have hp : a.passes = b.passes := by
      simpa only [isTruthy_ofBool] using congrArg Value.isTruthy hv
    exact Verdict.ext hp (hac.symm.trans hbc) (har.symm.trans hbr)

theorem part_inj (hl : dann < sonst) {a b : Bool}
    (h : (if a then dann else sonst) = if b then dann else sonst) : a = b := by
  cases a <;> cases b <;> simp at h ⊢ <;> omega

theorem FollowsVerdict.unique (hl : dann < sonst)
    (h : FollowsVerdict program pc dann sonst state result)
    (h' : FollowsVerdict program pc dann sonst state result') : result = result' := by
  refine Yields.unique h h' (fun a => ?_) ?_
  · rw [fetch_cut]
    refine if_neg ?_
    split <;> omega
  · rintro a b next he ⟨hac, har⟩ ⟨hbc, hbr⟩
    exact Verdict.ext (part_inj hl he) (hac.symm.trans hbc) (har.symm.trans hbr)

/-- Where a condition that compares leads the machine: behind the guard, or to the other part, which
is what follows the branch if there is none. -/
theorem exists_parts {line : Nat} {body otherwise rest : Block}
    (h : Installed program (block (.branch line (.binary left (.compare op) right) body otherwise
      rest)) scope after pc last) :
    ∃ dann sonst,
      (∃ scope after last, Installed program (block body) scope after dann last) ∧
      (∃ scope after last, Installed program
        (block (if otherwise = .done then rest else otherwise)) scope after sonst last) ∧
      (∀ state, FollowsVerdict program pc dann sonst state (judged op left right state)) ∧
      (body ≠ .done ∨ otherwise ≠ .done → dann < sonst) := by
  by_cases ho : otherwise = .done
  · subst ho
    obtain ⟨_, _, _, p, q, hg, hb, hm, hr⟩ := installed_branch_done h
    refine ⟨p, q, ⟨_, _, _, hb⟩, ⟨_, _, _, hr⟩, followsVerdict_judged hg hm, ?_⟩
    rintro (hne | hne)
    · exact lt_of_block hne hb
    · exact absurd rfl hne
  · obtain ⟨_, _, _, _, _, p, q, _, hg, hb, -, hm, he, -, -⟩ := installed_branch ho h
    rw [if_neg ho]
    exact ⟨p, q + 1, ⟨_, _, _, hb⟩, ⟨_, _, _, he⟩, followsVerdict_judged hg hm,
      fun _ => Nat.lt_succ_of_le hb.le⟩

/-- The code of a comparison leads to the first part of a branch just where the code of its value
leaves one, and to the other part where that leaves zero. Either code fails where the other does,
and they leave one carry and one ring. Only a branch with nothing in it leads nowhere else. -/
theorem followsVerdict_iff_leavesVerdict {line : Nat} {body otherwise rest : Block}
    (hc : Installed program (block (.branch line (.binary left (.compare op) right) body otherwise
      rest)) scope after pc last)
    (hv : Installed other (compute (.binary left (.compare op) right) target) scope' after'
      first final) :
    ∃ dann sonst,
      (∃ scope after last, Installed program (block body) scope after dann last) ∧
      (∃ scope after last, Installed program
        (block (if otherwise = .done then rest else otherwise)) scope after sonst last) ∧
      ∀ state,
        (∃ result, LeavesVerdict other target first final state result) ∧
        (∀ result, LeavesVerdict other target first final state result →
          FollowsVerdict program pc dann sonst state result) ∧
        (body ≠ .done ∨ otherwise ≠ .done → ∀ result,
          FollowsVerdict program pc dann sonst state result →
            LeavesVerdict other target first final state result) := by
  obtain ⟨dann, sonst, hd, hs, hf, hlt⟩ := exists_parts hc
  refine ⟨dann, sonst, hd, hs, fun state => ?_⟩
  have hl := leavesVerdict_judged hv state
  refine ⟨⟨_, hl⟩, fun result h => ?_, fun hp result h => ?_⟩
  · rw [h.unique hl]
    exact hf state
  · rw [h.unique (hlt hp) (hf state)]
    exact hl

/-- The work registers compared with each other, as a condition and as a value. -/
theorem followsVerdict_iff_leavesVerdict_work :
    let e := Expr.binary (.slot 6) (.compare .lessOrEqual) (.slot 7)
    let program :=
      (Block.branch 1 e (.output 2 (.text "KLEIN") .done) .done .done).compile.assembled none
    let other := (Block.assign 1 3 e .done).compile.assembled none
    ∃ dann sonst last, ∀ state,
      (∃ result, LeavesVerdict other 3 0 last state result) ∧
      ∀ result, FollowsVerdict program 0 dann sonst state result ↔
        LeavesVerdict other 3 0 last state result := by
  intro e program other
  have hc := installed_compile (.branch 1 e (.output 2 (.text "KLEIN") .done) .done .done) none
  obtain ⟨_, last, hv, -⟩ := installed_assign (installed_compile (.assign 1 3 e .done) none)
  obtain ⟨dann, sonst, -, -, h⟩ := followsVerdict_iff_leavesVerdict hc hv
  refine ⟨dann, sonst, last, fun state => ?_⟩
  obtain ⟨he, hl, hf⟩ := h state
  exact ⟨he, fun result => ⟨hf (.inl nofun) result, hl result⟩⟩

end Verdict

end Octet.Compiler
