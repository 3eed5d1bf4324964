import BlockScript.Number.Text

/-!
# Numerals

Whole numbers written in decimal digits, as strings and settings hold them.  A numeral has nothing
around its digits but one sign in front.  Those of settings are read into words of 64 bits, digit by
digit, and one that does not fit is not read at all.
-/

namespace BlockScript.Numeral

/-- The number that a row of digits, at least one, stands for. -/
def natural? (text : List Char) : Option Nat :=
  if text ≠ [] ∧ text.all Char.isDigit then some (Number.digitsValue text) else none

/-- The 64-bit word that is equal to a number, if there is one. -/
def toWord? (number : Nat) : Option UInt64 :=
  if number < UInt64.size then some (.ofNat number) else none

/-- A word with one more digit behind those it was read from.  Neither the product nor the sum may
overflow. -/
def push? (word : UInt64) (digit : Char) : Option UInt64 := do
  let shifted ← toWord? (10 * word.toNat)
  if digit.isDigit then toWord? (shifted.toNat + (digit.toNat - '0'.toNat)) else none

/-- The word that a row of digits, at least one, stands for. -/
def word? (digits : List Char) : Option UInt64 :=
  if digits = [] then none else digits.foldlM push? 0

/-- The word that digits stand for, with an optional plus sign. -/
def unsigned? : List Char → Option UInt64
  | '+' :: digits => word? digits
  | digits => word? digits

/-- The number that digits stand for, with an optional sign. -/
def signed? : List Char → Option Int
  | '+' :: digits => (natural? digits).map Int.ofNat
  | '-' :: digits => (natural? digits).map fun magnitude => -(magnitude : Int)
  | digits => (natural? digits).map Int.ofNat

end BlockScript.Numeral
