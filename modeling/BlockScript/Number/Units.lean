/-!
# The exact value of a number

Numbers of the language are IEEE doubles.  Every finite double is a whole number of *units* of
`2 ^ -1074`, the least positive double, so exact questions about finite numbers (is it integral,
what is its floor, what is left of a division) become questions about integers.
-/

namespace BlockScript.Number

/-- The units in one are `2 ^ unitPlaces`. -/
def unitPlaces : Nat := 1074

def unitsPerOne : Nat := Nat.pow 2 unitPlaces

/-- The magnitude of a finite number: `significand * 2 ^ shift` units. -/
structure Magnitude where
  significand : Nat
  shift : Nat
  deriving DecidableEq, Repr

namespace Magnitude

def units (magnitude : Magnitude) : Nat :=
  magnitude.significand <<< magnitude.shift

/-- How many binary places of the significand lie behind the point. -/
def places (magnitude : Magnitude) : Nat :=
  unitPlaces - magnitude.shift

/-- The integer part of a magnitude. -/
def whole (magnitude : Magnitude) : Nat :=
  if magnitude.shift ≤ unitPlaces then magnitude.significand >>> magnitude.places
  else magnitude.significand <<< (magnitude.shift - unitPlaces)

def isWhole (magnitude : Magnitude) : Bool :=
  magnitude.significand >>> magnitude.places <<< magnitude.places == magnitude.significand

/-- The magnitude of a bit pattern without a sign.  Its upper eleven bits are the exponent field; a
nonzero field stands for a leading one in front of the other bits and shifts by one place less than
it says. -/
def ofBits (bits : Nat) : Magnitude :=
  let leading := Nat.pow 2 52
  let field := bits / leading
  if field = 0 then ⟨bits, 0⟩ else ⟨bits % leading + leading, field - 1⟩

end Magnitude

/-- Whether the sign bit is set; minus zero and negative numbers have it. -/
def signBit (number : Float) : Bool :=
  number.toBits >>> 63 == 1

def magnitude (number : Float) : Magnitude :=
  .ofBits (number.toBits &&& 0x7fffffffffffffff).toNat

/-- The exact value of a finite number in units. -/
def units (number : Float) : Int :=
  if signBit number then -((magnitude number).units : Int) else (magnitude number).units

/-- The greatest integer that is not above a finite number. -/
def floor (number : Float) : Int :=
  let magnitude := magnitude number
  if signBit number then
    -- Cutting the fraction off a negative number moves it up, so one more is taken away.
    if magnitude.isWhole then -(magnitude.whole : Int) else -(magnitude.whole : Int) - 1
  else magnitude.whole

/-- The integer that a number is, if it is finite and has no fractional part. -/
def integer? (number : Float) : Option Int :=
  if number.isFinite && (magnitude number).isWhole then some (floor number) else none

/-- The bit pattern without a sign for a magnitude in units that has at most 53 significant bits:
the exponent field counts the places by which it is shifted. -/
def bitsOfUnits (units : Nat) : Nat :=
  let shift := units.log2 - 52
  shift * Nat.pow 2 52 + units >>> shift

/-- The number with the given sign and a magnitude in units that has at most 53 significant bits. -/
def ofUnits (negative : Bool) (units : Nat) : Float :=
  Float.ofBits ((bitsOfUnits units).toUInt64 ||| if negative then 0x8000000000000000 else 0)

/-- What a division leaves when the quotient is cut off towards zero; the result has the sign of
the dividend, also when it is zero.  The remainder of two finite doubles is a double, so nothing
is rounded. -/
def remainder (dividend divisor : Float) : Float :=
  if !dividend.isFinite || divisor.isNaN || divisor == 0 then 0 / 0
  else if divisor.isInf then dividend
  else ofUnits (signBit dividend) ((magnitude dividend).units % (magnitude divisor).units)

end BlockScript.Number
