import BlockScript.Error
import BlockScript.Numeral

/-!
# Coordinates

A block coordinate is a 32-bit integer.  Numbers are rounded to an integer, halves up; strings have
to be numerals; nothing else is a coordinate.
-/

namespace BlockScript

/-- The 32-bit integer equal to an integer, if there is one. -/
def coordinate? (integer : Int) : Option Int32 :=
  if -2147483648 ≤ integer ∧ integer ≤ 2147483647 then some (Int32.ofInt integer) else none

/-- The greatest integer that is not above a finite number plus one half.  The sum is a number and
so itself rounded; wherever it is exact, this is the nearest integer, with halves going up. -/
def Number.rounded (number : Float) : Int :=
  Number.floor (number + 0.5)

/-- The coordinate that a value stands for on an axis. -/
def Value.toCoordinate (axis : Char) (value : Value) : Except RuntimeError Int32 :=
  match value with
  | .number amount =>
    if amount.isFinite then
      match coordinate? (Number.rounded amount) with
      | some coordinate => .ok coordinate
      | none => .error (.coordinateOutOfRange axis value.printed)
    else .error (.nonFiniteCoordinate axis value.printed)
  | .string text =>
    match (Numeral.signed? text.toList).bind coordinate? with
    | some coordinate => .ok coordinate
    | none => .error (.invalidCoordinate axis value.printed)
  | .nil | .bool _ => .error (.invalidCoordinate axis value.printed)

end BlockScript
