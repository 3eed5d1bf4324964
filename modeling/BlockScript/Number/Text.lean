import BlockScript.Number.Shortest

/-!
# Numbers as text

A number is written as its shortest decimal, in positional notation and never with an exponent.
A literal is a row of digits with an optional fraction and is read to the nearest double.
-/

namespace BlockScript.Number

def zeros (count : Nat) : String :=
  String.ofList (List.replicate count '0')

namespace Decimal

/-- A decimal in positional notation, with a point only before a fraction. -/
def positional (decimal : Decimal) : String :=
  let digits := toString decimal.coefficient
  if unitPlaces ≤ decimal.grid then digits ++ zeros (decimal.grid - unitPlaces)
  else
    let places := unitPlaces - decimal.grid
    -- There is always a digit in front of the point.
    let padded := zeros (places + 1 - digits.length) ++ digits
    let whole := padded.length - places
    String.ofList (padded.toList.take whole) ++ "." ++ String.ofList (padded.toList.drop whole)

end Decimal

/-- A number in full: the fewest digits that read back to it, a minus sign before negative numbers
and minus zero, and words for what is not finite. -/
def text (number : Float) : String :=
  if number.isNaN then "NaN"
  else
    (if signBit number then "-" else "") ++
      if number.isInf then "inf"
      else if (magnitude number).significand = 0 then "0"
      else (shortest (magnitude number)).positional

def digitsValue (digits : List Char) : Nat :=
  digits.foldl (fun value digit => 10 * value + (digit.toNat - '0'.toNat)) 0

/-- The number nearest to a literal with the given digits before and behind the point. -/
def ofDigits (whole fraction : List Char) : Float :=
  match fraction with
  | [] => Float.ofNat (digitsValue whole)
  | _ => Float.ofScientific (digitsValue (whole ++ fraction)) true fraction.length

end BlockScript.Number
