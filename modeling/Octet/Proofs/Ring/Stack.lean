import Octet.Ring

namespace Octet

namespace Ring

/-- What can be asked of a ring. -/
inductive Operation
  | push (v : Value)
  | pop

/-- What an operation gives back, and what the ring says of its size from then on. -/
structure Answer where
  result : Except Fault (Option Value)
  len : Nat
  isEmpty : Bool

/-- A pop that fails leaves the ring as it is. -/
def perform (ring : Ring) : Operation → Except Fault (Option Value) × Ring
  | .push v => (.ok none, (ring.push v).1)
  | .pop =>
    match ring.pop with
    | .ok (v, rest) => (.ok (some v), rest)
    | .error fault => (.error fault, ring)

/-- The ring that operations leave. -/
def after (ring : Ring) (ops : List Operation) : Ring :=
  ops.foldl (fun ring op => (ring.perform op).2) ring

def answers (ring : Ring) : List Operation → List Answer
  | [] => []
  | op :: ops =>
    let next := ring.perform op
    ⟨next.1, next.2.len, next.2.isEmpty⟩ :: next.2.answers ops

end Ring

/-- Values on top of each other, the newest first. No more than four are kept. -/
abbrev Stack := List Value

namespace Stack

def perform : Stack → Ring.Operation → Except Fault (Option Value) × Stack
  | stack, .push v => (.ok none, (v :: stack).take 4)
  | [], .pop => (.error .ringUnderflow, [])
  | v :: rest, .pop => (.ok (some v), rest)

/-- The stack that operations leave. -/
def after (stack : Stack) (ops : List Ring.Operation) : Stack :=
  ops.foldl (fun stack op => (stack.perform op).2) stack

def answers (stack : Stack) : List Ring.Operation → List Ring.Answer
  | [] => []
  | op :: ops =>
    let next := stack.perform op
    ⟨next.1, next.2.length, next.2.isEmpty⟩ :: answers next.2 ops

end Stack

namespace Ring

theorem len_eq (ring : Ring) : ring.len = ring.toList.length := ring.length_toList.symm

theorem isEmpty_eq (ring : Ring) : ring.isEmpty = ring.toList.isEmpty := by
  rw [isEmpty, len_eq, Bool.eq_iff_iff, beq_iff_eq, List.length_eq_zero_iff, List.isEmpty_iff]

theorem len_of_pop {ring rest : Ring} {v : Value} (h : ring.pop = .ok (v, rest)) :
    ring.len = rest.len + 1 := by
  rw [len_eq, len_eq, toList_of_pop h, List.length_cons]

/-- A ring whose pop fails is one without live values. -/
theorem toList_of_pop_error {ring : Ring} {fault : Fault} (h : ring.pop = .error fault) :
    fault = .ringUnderflow ∧ ring.toList = [] := by
  have hf : fault = .ringUnderflow := by
    unfold pop at h
    split at h
    · cases h
    · cases h
      rfl
  exact ⟨hf, ring.pop_eq_error_iff.1 (hf ▸ h)⟩

/-- One operation does to a ring what it does to the stack of its live values. -/
theorem perform_toList (ring : Ring) (op : Operation) :
    (ring.perform op).1 = (Stack.perform ring.toList op).1 ∧
      (ring.perform op).2.toList = (Stack.perform ring.toList op).2 := by
  cases op with
  | push v => exact ⟨rfl, toList_push ring v⟩
  | pop =>
    rw [perform]
    cases h : ring.pop with
    | ok popped =>
      rw [toList_of_pop h]
      exact ⟨rfl, rfl⟩
    | error fault =>
      obtain ⟨rfl, he⟩ := toList_of_pop_error h
      simp only [he, Stack.perform, and_self]

theorem toList_after (ring : Ring) (ops : List Operation) :
    (ring.after ops).toList = Stack.after ring.toList ops := by
  induction ops generalizing ring with
  | nil => rfl
  | cons op ops ih =>
    have hn := (perform_toList ring op).2
    exact (ih _).trans (congrArg (Stack.after · ops) hn)

theorem answers_toList (ring : Ring) (ops : List Operation) :
    ring.answers ops = Stack.answers ring.toList ops := by
  induction ops generalizing ring with
  | nil => rfl
  | cons op ops ih =>
    obtain ⟨hr, hn⟩ := perform_toList ring op
    rw [answers, Stack.answers, hr, len_eq, isEmpty_eq, ih, hn]

/-- A ring answers like a stack that keeps its four newest values. Its pop fails where no value is
live, and then changes nothing. -/
theorem answers_eq_stack (ops : List Operation) :
    let ring := empty.after ops
    let stack := Stack.after [] ops
    empty.answers ops = Stack.answers [] ops ∧ ring.toList = stack ∧
      (ring.perform .pop = (.error .ringUnderflow, ring) ↔ stack = []) := by
  intro ring stack
  have hstack : ring.toList = stack := toList_after empty ops
  refine ⟨answers_toList empty ops, hstack, ?_⟩
  rw [← hstack, ← ring.pop_eq_error_iff, perform]
  cases h : ring.pop with
  | ok popped => exact iff_of_false nofun nofun
  | error fault =>
    obtain ⟨rfl, -⟩ := toList_of_pop_error h
    exact ⟨fun _ => rfl, fun _ => rfl⟩

end Ring

end Octet
