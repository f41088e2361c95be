namespace Octet.Text

/-- The number that decimal digits write. -/
def decimal (digits : List Char) : Nat :=
  Nat.ofDigitChars 10 digits 0

theorem decimal_toDigits (n : Nat) : decimal (Nat.toDigits 10 n) = n :=
  Nat.ofDigitChars_ten_toDigits

def isInt64 (i : Int) : Bool :=
  -0x8000000000000000 ≤ i && i < 0x8000000000000000

def signed (sign : Int) (digits : List Char) : Option Int :=
  if digits.isEmpty || !digits.all Char.isDigit then none
  else some (sign * decimal digits) |>.filter isInt64

/-- A signed integer of 64 bits: at most one sign, then digits alone. -/
def readInt : List Char → Option Int
  | '-' :: digits => signed (-1) digits
  | '+' :: digits => signed 1 digits
  | digits => signed 1 digits

theorem isInt64_of_signed {sign i : Int} {digits : List Char} (h : signed sign digits = some i) :
    isInt64 i = true := by
  unfold signed at h
  split at h
  · cases h
  · exact (Option.filter_eq_some_iff.1 h).2

theorem isInt64_of_readInt {s : List Char} {i : Int} (h : readInt s = some i) :
    isInt64 i = true := by
  unfold readInt at h
  split at h <;> exact isInt64_of_signed h

end Octet.Text
