import Octet.Event
import Octet.Value

namespace Octet

/-- Four places for values that wait, the newest on top. A push on a full ring loses the oldest. -/
structure Ring where
  slots : Vector Value 4
  pointer : Fin 4
  live : Nat
  pushes : Nat
  streak : Nat
  live_le : live ≤ 4 := by omega

namespace Ring

def empty : Ring := ⟨.replicate 4 (.number 0), 0, 0, 0, 0, by omega⟩

def push (ring : Ring) (v : Value) : Ring × List Event :=
  let full := ring.live == 4
  let streak := if full then ring.streak + 1 else 0
  let pointer := ring.pointer + 1
  let pushes := ring.pushes + 1
  let pushed : Ring :=
    { slots := ring.slots.set ring.pointer v, live := min (ring.live + 1) 4, pointer, pushes, streak
      live_le := by omega }
  (pushed,
    (if full then [.ringOverflow ring.pointer] else []) ++
    (if 4 ≤ streak then [.ringSpin] else []) ++
    if 4 ≤ pushes ∧ pointer = 0 then [.ringCycle] else [])

def pop (ring : Ring) : Except Fault (Value × Ring) :=
  if 0 < ring.live then
    let pointer := ring.pointer - 1
    .ok (ring.slots[pointer],
      { ring with pointer, live := ring.live - 1, live_le := by have := ring.live_le; omega })
  else .error .ringUnderflow

/-- How many values can be taken. -/
def len (ring : Ring) : Nat := ring.live

def isEmpty (ring : Ring) : Bool := ring.len == 0

/-- The live values, the newest first. -/
def toList (ring : Ring) : List Value :=
  (List.range ring.live).map fun i => ring.slots[ring.pointer - 1 - Fin.ofNat 4 i]

@[simp] theorem toList_empty : empty.toList = [] := rfl

@[simp] theorem length_toList (ring : Ring) : ring.toList.length = ring.live := by
  simp [toList]

theorem toList_push (ring : Ring) (v : Value) :
    (ring.push v).1.toList = (v :: ring.toList).take 4 := by
  obtain ⟨⟨⟨l⟩, hs⟩, p, live, pushes, streak, hl⟩ := ring
  have hl : live = 0 ∨ live = 1 ∨ live = 2 ∨ live = 3 ∨ live = 4 := by omega
  match l, hs, p with
  | [a, b, c, d], _, 0 | [a, b, c, d], _, 1 | [a, b, c, d], _, 2 | [a, b, c, d], _, 3 =>
    rcases hl with rfl | rfl | rfl | rfl | rfl <;> simp only [toList, push] <;> rfl

theorem pop_eq_error_iff (ring : Ring) :
    ring.pop = .error .ringUnderflow ↔ ring.toList = [] := by
  rw [← List.length_eq_zero_iff, length_toList, pop]
  split
  · simp; omega
  · simp; omega

theorem toList_of_pop {ring rest : Ring} {v : Value} (h : ring.pop = .ok (v, rest)) :
    ring.toList = v :: rest.toList := by
  obtain ⟨⟨⟨l⟩, hs⟩, p, live, pushes, streak, hl⟩ := ring
  have hl : live = 0 ∨ live = 1 ∨ live = 2 ∨ live = 3 ∨ live = 4 := by omega
  match l, hs, p with
  | [a, b, c, d], _, 0 | [a, b, c, d], _, 1 | [a, b, c, d], _, 2 | [a, b, c, d], _, 3 =>
    rcases hl with rfl | rfl | rfl | rfl | rfl <;> cases h <;> rfl

end Ring

end Octet
