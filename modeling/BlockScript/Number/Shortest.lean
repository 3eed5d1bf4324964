import BlockScript.Number.Units

/-!
# Shortest decimals

The shortest decimal of a double is found on grids of powers of ten, the coarsest first.  On each
grid only the two neighbours of the value can be nearest to it; the first grid on which one of them
rounds to the double gives the decimal.  Of two such neighbours the nearer one is taken, and a tie
goes to the larger one.

Grid `k` is the grid of the multiples of `10 ^ (k - 1074)`; on grid `0` every double lies exactly,
which is where the search ends at the latest.  The bounds of what rounds to a double are counted in
quarters of its last binary place, so that the middle between two doubles is a whole number.
-/

namespace BlockScript.Number

/-- A decimal without a sign: `coefficient * 10 ^ (grid - 1074)`. -/
structure Decimal where
  coefficient : Nat
  grid : Nat
  deriving DecidableEq, Repr

/-- The numbers that round to a double: an interval, in quarters of the last binary place of the
double, which holds its ends if the double has an even significand. -/
structure Neighbourhood where
  low : Nat
  high : Nat
  closed : Bool
  deriving DecidableEq, Repr

namespace Neighbourhood

/-- The reals nearer to a positive magnitude than to every other double.  Below a power of two
that is not among the smallest doubles the next double is only half as far away as above it. -/
def of (magnitude : Magnitude) : Neighbourhood where
  low := 4 * magnitude.significand -
    if magnitude.significand = Nat.pow 2 52 ∧ 0 < magnitude.shift then 1 else 2
  high := 4 * magnitude.significand + 2
  closed := magnitude.significand % 2 = 0

/-- Whether a point lies in the interval, both scaled by a factor. -/
def holds (interval : Neighbourhood) (factor point : Nat) : Bool :=
  if interval.closed then
    decide (interval.low * factor ≤ point) && decide (point ≤ interval.high * factor)
  else
    decide (interval.low * factor < point) && decide (point < interval.high * factor)

end Neighbourhood

/-- The distance of two neighbours on a grid, in quarters of the last binary place of a magnitude
with the given shift, scaled by `gridScale`. -/
def gridStep (shift grid : Nat) : Nat :=
  Nat.pow 5 (grid - unitPlaces) * Nat.pow 2 (grid + 2 - shift)

/-- The factor that makes the points of a grid whole numbers of quarters of the last binary place of
a magnitude with the given shift. -/
def gridScale (shift grid : Nat) : Nat :=
  Nat.pow 5 (unitPlaces - grid) * Nat.pow 2 (shift - (grid + 2))

/-- The nearer one of a magnitude's two neighbours on a grid, among those that round to it. -/
def onGrid? (magnitude : Magnitude) (grid : Nat) : Option Decimal :=
  -- Everything is scaled so that both the grid and the ends of the interval are whole numbers.
  let scale := gridScale magnitude.shift grid
  let step := gridStep magnitude.shift grid
  let value := 4 * magnitude.significand * scale
  let lower := value / step
  let below := lower * step
  let above := (lower + 1) * step
  let interval := Neighbourhood.of magnitude
  match interval.holds scale below, interval.holds scale above with
  | true, true =>
    -- A value halfway between its neighbours takes the upper one.
    if value - below < above - value then some ⟨lower, grid⟩ else some ⟨lower + 1, grid⟩
  | true, false => some ⟨lower, grid⟩
  | false, true => some ⟨lower + 1, grid⟩
  | false, false => none

/-- The decimal that is exactly a magnitude, on the finest grid. -/
def exactDecimal (magnitude : Magnitude) : Decimal :=
  ⟨magnitude.units * Nat.pow 5 unitPlaces, 0⟩

/-- The decimal on the coarsest grid that has one, from the given grid down to the finest. -/
def coarsest (magnitude : Magnitude) : (grid : Nat) → Decimal
  | 0 => exactDecimal magnitude
  | grid + 1 => (onGrid? magnitude (grid + 1)).getD (coarsest magnitude grid)

/-- The shortest decimal that rounds to a positive magnitude.  The search starts at the first power
of ten above the magnitude. -/
def shortest (magnitude : Magnitude) : Decimal :=
  coarsest magnitude (unitPlaces + (toString magnitude.whole).length)

end BlockScript.Number
