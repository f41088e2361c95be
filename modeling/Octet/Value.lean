import Octet.Fault
import Octet.Text.Blank
import Octet.Text.Integer

namespace Octet

/-- What a slot holds: a byte or a text. -/
inductive Value
  | number (n : UInt8)
  | text (s : String)
deriving DecidableEq

/-- The byte that an integer leaves modulo 256. -/
def wrap (i : Int) : UInt8 :=
  UInt8.ofNat (i % 256).toNat

theorem toNat_wrap (i : Int) : ((wrap i).toNat : Int) = i % 256 := by
  simp only [wrap, UInt8.toNat_ofNat']
  omega

/-- The number that a text stands for: a blank text is zero. -/
def reading (s : String) : Option Int :=
  match Text.trim s.toList with
  | [] => some 0
  | digits => Text.readInt digits

namespace Value

def ofInt (i : Int) : Value := number (wrap i)

def ofBool (b : Bool) : Value := number (if b then 1 else 0)

/-- A line of input is a number wherever it can be read as one. -/
def ofInput (line : String) : Value :=
  match reading line with
  | some i => ofInt i
  | none => text line

def display : Value → String
  | number n => n.toNat.repr
  | text s => s

def reading? : Value → Option Int
  | number n => some n.toNat
  | text s => reading s

def toNumber (v : Value) : Except Fault Int :=
  match v.reading? with
  | some i => .ok i
  | none => .error (.notANumber v.display)

def isText : Value → Bool
  | number _ => false
  | text _ => true

def isTruthy : Value → Bool
  | number n => n != 0
  | text s => !s.isEmpty

end Value

theorem Value.toNumber_eq_ok_iff {v : Value} {i : Int} :
    v.toNumber = .ok i ↔ v.reading? = some i := by
  rw [toNumber]
  cases v.reading? <;> simp

theorem isInt64_of_reading {s : String} {i : Int} (h : reading s = some i) :
    Text.isInt64 i = true := by
  unfold reading at h
  split at h
  · cases h; rfl
  · exact Text.isInt64_of_readInt h

theorem Value.isInt64_of_reading? {v : Value} {i : Int} (h : v.reading? = some i) :
    Text.isInt64 i = true := by
  cases v with
  | number n =>
    have := n.toNat_lt
    cases h
    simp [Text.isInt64]
    omega
  | text s => exact isInt64_of_reading h

end Octet
