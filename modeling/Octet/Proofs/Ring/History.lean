import Octet.Proofs.Machine.Course
import Octet.Proofs.Ring.Stack
import Mathlib.Data.List.Induction

namespace Octet

namespace Ring

/-- What an operation has done: a push may find room or none, and a pop a value or none. -/
inductive Deed
  | kept
  | overflowed
  | popped
  | failed
deriving DecidableEq

def Deed.isPush : Deed → Bool
  | kept | overflowed => true
  | popped | failed => false

def deed (ring : Ring) : Operation → Deed
  | .push _ => if ring.len = 4 then .overflowed else .kept
  | .pop =>
    match ring.pop with
    | .ok _ => .popped
    | .error _ => .failed

/-- What operations do, one after another. -/
def history (ring : Ring) : List Operation → List Deed
  | [] => []
  | op :: ops => ring.deed op :: (ring.perform op).2.history ops

section History

variable (ring : Ring) (ops more : List Operation)

@[simp] theorem after_append : ring.after (ops ++ more) = (ring.after ops).after more :=
  List.foldl_append

@[simp] theorem history_append :
    ring.history (ops ++ more) = ring.history ops ++ (ring.after ops).history more := by
  induction ops generalizing ring with
  | nil => rfl
  | cons op ops ih => exact congrArg (ring.deed op :: ·) (ih _)

end History

/-- How many pushes there have been. -/
def pushCount (history : List Deed) : Nat := history.countP Deed.isPush

/-- How many pops have found a value. -/
def popCount (history : List Deed) : Nat := history.count .popped

/-- All pushes of a part of a history find no room. -/
def AllOverflow (run : List Deed) : Prop := ∀ deed ∈ run, deed.isPush → deed = .overflowed

/-- How many pushes in a row have found no room in the end. -/
def row (history : List Deed) : Nat :=
  history.foldl (fun n deed =>
    match deed with
    | .kept => 0
    | .overflowed => n + 1
    | .popped | .failed => n) 0

/-- A history ends in a run of so many pushes, or more, that all found no room. -/
def EndsInRun (n : Nat) (history : List Deed) : Prop :=
  ∃ earlier run, history = earlier ++ run ∧ AllOverflow run ∧ n ≤ pushCount run

section Concat

variable (history : List Deed) (deed : Deed)

theorem pushCount_concat :
    pushCount (history ++ [deed]) = pushCount history + if deed.isPush then 1 else 0 := by
  rw [pushCount, List.countP_append, List.countP_singleton]
  rfl

theorem popCount_concat :
    popCount (history ++ [deed]) = popCount history + if deed = .popped then 1 else 0 := by
  rw [popCount, List.count_append, List.count_singleton]
  simp only [beq_iff_eq]
  rfl

end Concat

section Row

variable {n : Nat} (history : List Deed)

theorem row_concat (deed : Deed) : row (history ++ [deed]) =
    match deed with
    | .kept => 0
    | .overflowed => row history + 1
    | .popped | .failed => row history := by
  rw [row, List.foldl_append]
  rfl

theorem endsInRun_zero : EndsInRun 0 history :=
  ⟨history, [], (List.append_nil _).symm, List.forall_mem_nil _, Nat.zero_le _⟩

/-- A run goes on over all that is no push with room. -/
theorem endsInRun_concat {deed : Deed} : EndsInRun (n + 1) (history ++ [deed]) ↔
    (deed.isPush → deed = .overflowed) ∧
      EndsInRun (n + 1 - if deed.isPush then 1 else 0) history := by
  constructor
  · rintro ⟨earlier, run, he, ho, hc⟩
    obtain rfl | ⟨run, last, rfl⟩ := List.eq_nil_or_concat run
    · exact absurd hc (Nat.not_succ_le_zero n)
    rw [List.concat_eq_append, ← List.append_assoc] at he
    obtain ⟨rfl, hl⟩ := List.append_inj' he rfl
    cases hl
    rw [List.concat_eq_append] at ho hc
    rw [pushCount_concat] at hc
    obtain ⟨ho, hd⟩ := List.forall_mem_append.1 ho
    exact ⟨hd deed List.mem_cons_self, earlier, run, rfl, ho, by omega⟩
  · rintro ⟨hd, earlier, run, rfl, ho, hc⟩
    refine ⟨earlier, run ++ [deed], List.append_assoc .., ?_, ?_⟩
    · exact List.forall_mem_append.2 ⟨ho, List.forall_mem_singleton.2 hd⟩
    · rw [pushCount_concat]
      omega

theorem le_row_iff : n ≤ row history ↔ EndsInRun n history := by
  -- A run lies at the end of a history, so the history is taken apart from there.
  induction history using List.reverseRecOn generalizing n with
  | nil =>
    constructor
    · intro hn
      obtain rfl := Nat.le_zero.1 hn
      exact endsInRun_zero []
    · rintro ⟨earlier, run, he, -, hc⟩
      obtain ⟨-, rfl⟩ := List.append_eq_nil_iff.1 he.symm
      exact hc
  | append_singleton history deed ih =>
    cases n with
    | zero => exact iff_of_true (Nat.zero_le _) (endsInRun_zero _)
    | succ n =>
      rw [endsInRun_concat, row_concat]
      cases deed with
      | kept => exact iff_of_false (Nat.not_succ_le_zero n) fun h => nomatch h.1 rfl
      | overflowed =>
        rw [Nat.add_le_add_iff_right, ih]
        exact (and_iff_right fun _ => rfl).symm
      | popped | failed =>
        rw [ih]
        exact (and_iff_right nofun).symm

instance : Decidable (EndsInRun n history) := decidable_of_iff _ (le_row_iff history)

end Row

section Counters

variable {ring rest : Ring} {v : Value}

theorem len_push (ring : Ring) (v : Value) : (ring.push v).1.len = min (ring.len + 1) 4 := rfl

theorem events_push (ring : Ring) (v : Value) :
    (ring.push v).2 = (if ring.len = 4 then [.ringOverflow ring.pointer] else []) ++
      (if 4 ≤ (ring.push v).1.streak then [.ringSpin] else []) ++
      if 4 ≤ (ring.push v).1.pushes ∧ (ring.push v).1.pointer = 0 then [.ringCycle] else [] := by
  by_cases h : ring.live = 4
  · simp [push, len, h]
  · simp [push, len, h]

theorem streak_push (ring : Ring) (v : Value) :
    (ring.push v).1.streak = if ring.len = 4 then ring.streak + 1 else 0 := by
  by_cases h : ring.live = 4
  · simp [push, len, h]
  · simp [push, len, h]

theorem counts_of_pop (h : ring.pop = .ok (v, rest)) :
    rest.pushes = ring.pushes ∧ rest.streak = ring.streak := by
  unfold pop at h
  split at h
  · cases h
    exact ⟨rfl, rfl⟩
  · cases h

end Counters

/-- The counters of a ring tell of its history. -/
structure Tells (ring : Ring) (history : List Deed) : Prop where
  live : ring.len + popCount history ≤ pushCount history
  pointer : ring.pointer.val = (pushCount history - popCount history) % 4
  pushes : ring.pushes = pushCount history
  streak : ring.streak = row history

section Tells

variable {ring : Ring} {history : List Deed}

theorem tells_empty : empty.Tells [] := ⟨Nat.le_refl 0, rfl, rfl, rfl⟩

theorem Tells.push (h : ring.Tells history) (v : Value) :
    (ring.push v).1.Tells (history ++ [ring.deed (.push v)]) := by
  obtain ⟨hl, hp, hs, hr⟩ := h
  obtain ⟨hpointer, hlive⟩ := Prod.ext_iff.1 (Machine.gauge_push ring v)
  simp only [gauge, Machine.turn] at hpointer hlive
  have hd : (ring.deed (.push v)).isPush = true ∧ ring.deed (.push v) ≠ .popped := by
    rw [deed]
    split <;> exact ⟨rfl, nofun⟩
  have hpushes := pushCount_concat history (ring.deed (.push v))
  have hpops := popCount_concat history (ring.deed (.push v))
  rw [if_pos hd.1] at hpushes
  rw [if_neg hd.2] at hpops
  simp only [len] at hl
  refine ⟨?_, ?_, ?_, ?_⟩
  · rw [len, hpushes, hpops, hlive]
    omega
  · rw [hpushes, hpops, hpointer, hp]
    omega
  · rw [hpushes, ← hs]
    rfl
  · rw [streak_push, deed]
    split
    · rw [row_concat, hr]
    · rw [row_concat]

theorem Tells.pop (h : ring.Tells history) {rest : Ring} {v : Value}
    (hpop : ring.pop = .ok (v, rest)) : rest.Tells (history ++ [.popped]) := by
  obtain ⟨hl, hp, hs, hr⟩ := h
  obtain ⟨hpointer, hlive⟩ := Prod.ext_iff.1 (Machine.gauge_of_pop hpop)
  simp only [gauge, Machine.turn] at hpointer hlive
  obtain ⟨hpushes, hstreak⟩ := counts_of_pop hpop
  have hlen := len_of_pop hpop
  have hsame : pushCount (history ++ [.popped]) = pushCount history := pushCount_concat ..
  have hmore : popCount (history ++ [.popped]) = popCount history + 1 := popCount_concat ..
  simp only [len] at hl hlen
  refine ⟨?_, ?_, ?_, ?_⟩
  · rw [len, hsame, hmore, hlive]
    omega
  · rw [hsame, hmore, hpointer, hp]
    omega
  · rw [hsame, hpushes, hs]
  · rw [hstreak, row_concat, hr]

theorem Tells.failed (h : ring.Tells history) : ring.Tells (history ++ [.failed]) := by
  obtain ⟨hl, hp, hs, hr⟩ := h
  have hpushes : pushCount (history ++ [.failed]) = pushCount history := pushCount_concat ..
  have hpops : popCount (history ++ [.failed]) = popCount history := popCount_concat ..
  exact ⟨by rwa [hpushes, hpops], by rwa [hpushes, hpops], by rwa [hpushes], by rwa [row_concat]⟩

theorem Tells.perform (h : ring.Tells history) (op : Operation) :
    (ring.perform op).2.Tells (history ++ [ring.deed op]) := by
  cases op with
  | push v => exact h.push v
  | pop =>
    rw [Ring.perform, deed]
    cases hpop : ring.pop with
    | ok popped => exact h.pop hpop
    | error fault => exact h.failed

theorem tells_after (ops : List Operation) : (empty.after ops).Tells (empty.history ops) := by
  induction ops using List.reverseRecOn with
  | nil => exact tells_empty
  | append_singleton ops op ih =>
    rw [after_append, history_append]
    exact ih.perform op

end Tells

section Runs

variable {ring : Ring} {v : Value}

theorem len_perform_of_overflowed {op : Operation} (h : ring.deed op = .overflowed) :
    (ring.perform op).2.len = 4 := by
  cases op with
  | push v =>
    rw [deed] at h
    split at h
    · next hl =>
      rw [perform, len_push]
      omega
    · cases h
  | pop =>
    rw [deed] at h
    split at h <;> cases h

theorem len_perform_pop (ring : Ring) : (ring.perform .pop).2.len = ring.len - 1 := by
  rw [perform]
  cases hp : ring.pop with
  | ok popped => exact (Nat.sub_eq_of_eq_add (len_of_pop hp)).symm
  | error fault =>
    rw [len_eq, (toList_of_pop_error hp).2]
    rfl

/-- Once there is room, the next push finds it. -/
theorem kept_mem_history (hl : ring.len < 4) (ops : List Operation) (v : Value) :
    .kept ∈ ring.history (ops ++ [.push v]) := by
  induction ops generalizing ring with
  | nil =>
    have hd : ring.deed (.push v) = .kept := if_neg (Nat.ne_of_lt hl)
    exact List.mem_singleton.2 hd.symm
  | cons op ops ih =>
    cases op with
    | push w =>
      have hd : ring.deed (.push w) = .kept := if_neg (Nat.ne_of_lt hl)
      exact List.mem_cons.2 (.inl hd.symm)
    | pop =>
      refine List.mem_cons_of_mem _ (ih ?_)
      rw [len_perform_pop]
      omega

/-- If no push from a full ring on finds room, there are pushes only. -/
theorem eq_overflowed_of_full (hl : ring.len = 4) (ops : List Operation) (v : Value)
    (ho : AllOverflow (ring.history (ops ++ [.push v]))) :
    ∀ deed ∈ ring.history (ops ++ [.push v]), deed = .overflowed := by
  induction ops generalizing ring with
  | nil => exact List.forall_mem_singleton.2 (if_pos hl)
  | cons op ops ih =>
    cases op with
    | push w =>
      have hd : ring.deed (.push w) = .overflowed := if_pos hl
      exact List.forall_mem_cons.2
        ⟨hd, ih (len_perform_of_overflowed hd) (List.forall_mem_cons.1 ho).2⟩
    | pop =>
      -- A pop on a full ring makes room, so a push behind it would not have overflowed.
      have hroom : (ring.perform .pop).2.len < 4 := by
        rw [len_perform_pop]
        omega
      have hk := ho .kept (List.mem_cons_of_mem _ (kept_mem_history hroom ops v)) rfl
      cases hk

theorem eq_overflowed_of_run (ring : Ring) (ops : List Operation) (v : Value)
    {earlier run : List Deed}
    (h : ring.history (ops ++ [.push v]) = earlier ++ .overflowed :: run) (ho : AllOverflow run) :
    ∀ deed ∈ run, deed = .overflowed := by
  induction ops generalizing ring earlier with
  | nil =>
    cases earlier with
    | nil =>
      obtain ⟨-, rfl⟩ := List.cons.inj h
      exact List.forall_mem_nil _
    | cons deed earlier =>
      have hn := (List.cons.inj h).2
      simp [history] at hn
  | cons op ops ih =>
    cases earlier with
    | nil =>
      obtain ⟨hd, rfl⟩ := List.cons.inj h
      exact eq_overflowed_of_full (len_perform_of_overflowed hd) ops v ho
    | cons deed earlier => exact ih _ (List.cons.inj h).2

end Runs

/-- The events of a push are told by the history of the ring. It overflows where four values are
live. It spins from the fourth push on in a run of pushes that find no room, and nothing else lies
in such a run. It comes full circle where the pushes and the pops that have found a value differ by
a multiple of four, and there are four pushes then. -/
theorem events_of_history (ops : List Operation) (v : Value) :
    let before := empty.after ops
    let history := empty.history ops
    let now := empty.history (ops ++ [.push v])
    (before.push v).2 =
        (if before.len = 4 then
          [.ringOverflow ((pushCount history - popCount history) % 4)] else []) ++
        (if EndsInRun 4 now then [.ringSpin] else []) ++
        (if 4 ∣ pushCount now - popCount now then [.ringCycle] else []) ∧
      before.len = (Stack.after [] ops).length ∧ popCount now ≤ pushCount now ∧
      ((before.push v).1.pointer = 0 → 4 ≤ (before.push v).1.pushes) ∧
      ∀ earlier run, now = earlier ++ .overflowed :: run → AllOverflow run →
        ∀ deed ∈ run, deed = .overflowed := by
  intro before history now
  have hbefore : before.Tells history := tells_after ops
  have hnow : (before.push v).1.Tells now := by
    have h := tells_after (ops ++ [.push v])
    rwa [after_append] at h
  have hlive : 0 < (before.push v).1.len := by
    rw [len_push]
    omega
  have hle := hnow.live
  have hzero : (before.push v).1.pointer = 0 ↔ 4 ∣ pushCount now - popCount now := by
    rw [Fin.ext_iff, hnow.pointer, Nat.dvd_iff_mod_eq_zero]
    rfl
  have hfour : (before.push v).1.pointer = 0 → 4 ≤ (before.push v).1.pushes := by
    rw [hzero, hnow.pushes]
    omega
  have hcycle := (and_iff_right_of_imp hfour).trans hzero
  refine ⟨?_, ?_, by omega, hfour, fun _ _ => eq_overflowed_of_run empty ops v⟩
  · rw [events_push, hbefore.pointer, hnow.streak]
    simp only [le_row_iff, hcycle]
  · rw [len_eq, toList_after]
    rfl

end Ring

end Octet
