import BlockScript.Number.Shortest
import BlockScript.Proofs.Number.Decoding
import Mathlib.Tactic.Linarith
import Mathlib.Tactic.Ring

/-!
# What rounds to a number

The decimals that round to a magnitude lie in an interval around it.  The intervals of two magnitudes
do not meet, not even at their ends, for of two neighbours one has an odd significand and leaves the
end to the other (`Near.unique`).  The shortest decimal of a magnitude lies in its interval
(`near_shortest`), so no two magnitudes have the same one.
-/

namespace BlockScript.Number

/-! ### Scaled values -/

/-- A decimal, scaled so that all decimals with no more than `unitPlaces` places are whole. -/
def Decimal.scaled (decimal : Decimal) : Nat :=
  decimal.coefficient * 10 ^ decimal.grid

namespace Magnitude

/-- A magnitude in the scale of decimals. -/
def scaled (magnitude : Magnitude) : Nat :=
  magnitude.units * 5 ^ unitPlaces

/-- A quarter of the last binary place of a magnitude, four times in the scale of decimals. -/
def quarter (magnitude : Magnitude) : Nat :=
  2 ^ magnitude.shift * 5 ^ unitPlaces

/-- What lies in the interval around a magnitude, given in the scale of decimals. -/
def Near (magnitude : Magnitude) (scaled : Nat) : Prop :=
  (Neighbourhood.of magnitude).holds magnitude.quarter (4 * scaled) = true

end Magnitude

open Magnitude

variable {magnitude left right : Magnitude} {scaled : Nat}

theorem quarter_pos (magnitude : Magnitude) : 0 < magnitude.quarter :=
  Nat.mul_pos (Nat.two_pow_pos _) (Nat.pow_pos (by decide))

theorem four_mul_scaled (magnitude : Magnitude) :
    4 * magnitude.scaled = 4 * magnitude.significand * magnitude.quarter := by
  rw [Magnitude.scaled, units_eq_mul, quarter]
  ring

/-- What an interval holds lies between its ends, and at an end only if the interval is closed. -/
theorem Neighbourhood.holds_iff (interval : Neighbourhood) (factor point : Nat) :
    interval.holds factor point = true ↔
      interval.low * factor ≤ point ∧ point ≤ interval.high * factor ∧
        (interval.closed = false → interval.low * factor < point ∧ point < interval.high * factor) := by
  unfold holds
  cases interval.closed with
  | true => simp
  | false =>
    simp only [Bool.false_eq_true, if_false, Bool.and_eq_true, decide_eq_true_eq, forall_const]
    omega

/-- Whether an interval holds a point does not depend on the scale of both. -/
theorem Neighbourhood.holds_scale (interval : Neighbourhood) (factor point : Nat) {more : Nat}
    (some : 0 < more) :
    interval.holds (factor * more) (point * more) = interval.holds factor point := by
  simp only [holds, ← Nat.mul_assoc, Nat.mul_le_mul_right_iff some, Nat.mul_lt_mul_right some]

/-! ### The intervals do not meet -/

theorem low_le (magnitude : Magnitude) :
    4 * magnitude.significand - 2 ≤ (Neighbourhood.of magnitude).low ∧
      (Neighbourhood.of magnitude).low ≤ 4 * magnitude.significand - 1 := by
  unfold Neighbourhood.of
  dsimp only
  split <;> omega

/-- What does not lie behind a point lies before it or meets it, in any scale. -/
theorem lt_or_meet {first second width : Nat} {meeting : Prop} (some : 0 < width)
    (le : first ≤ second) (meets : first = second → meeting) :
    first * width < second * width ∨ (first * width = second * width ∧ meeting) := by
  rcases Nat.lt_or_eq_of_le le with before | same
  · exact .inl (Nat.mul_lt_mul_of_pos_right before some)
  · exact .inr ⟨congrArg (· * width) same, meets same⟩

/-- The end of an interval lies in front of the beginning of the next one, or the two meet and one
of the significands is odd. -/
theorem high_le_low (leftNormal : left.Normal) (rightNormal : right.Normal)
    (less : left.bits < right.bits) :
    (Neighbourhood.of left).high * 2 ^ left.shift < (Neighbourhood.of right).low * 2 ^ right.shift ∨
      ((Neighbourhood.of left).high * 2 ^ left.shift =
          (Neighbourhood.of right).low * 2 ^ right.shift ∧
        (left.significand % 2 = 1 ∨ right.significand % 2 = 1)) := by
  have bounded := leftNormal.bounded
  have low := (low_le right).1
  have high : (Neighbourhood.of left).high = 4 * left.significand + 2 := rfl
  simp only [bits] at less
  rcases Nat.lt_trichotomy left.shift right.shift with shorter | same | longer
  · -- The last place of the right magnitude is at least twice as wide as that of the left one.
    have leading := rightNormal.leading (by omega)
    obtain ⟨more, shifts⟩ := Nat.exists_eq_add_of_lt shorter
    have width : 2 ^ right.shift = 2 * 2 ^ more * 2 ^ left.shift := by
      rw [shifts, Nat.pow_succ, Nat.pow_add]
      ring
    have beginning : 2 ^ 54 - 1 ≤ (Neighbourhood.of right).low := by
      unfold Neighbourhood.of
      dsimp only
      split
      · omega
      · next other =>
        simp only [not_and] at other
        have : right.significand ≠ Nat.pow 2 52 := fun power => other power (by omega)
        have power : Nat.pow 2 52 = 2 ^ 52 := rfl
        omega
    have wide : 1 ≤ 2 ^ more := Nat.one_le_two_pow
    have doubled : 2 * (Neighbourhood.of right).low ≤ (Neighbourhood.of right).low * (2 * 2 ^ more) := by
      nlinarith
    -- The two can only meet behind the greatest significand, which is odd.
    rw [width, ← Nat.mul_assoc]
    exact lt_or_meet (Nat.two_pow_pos _) (by omega) fun meets => .inl (by omega)
  · -- Of two significands, one of which follows the other, one is odd.
    rw [same]
    exact lt_or_meet (Nat.two_pow_pos _) (by omega) fun meets => by omega
  · -- A longer shift is one more in the exponent field, which no significand makes up for.
    have full := leftNormal.leading (by omega)
    have rightBounded := rightNormal.bounded
    omega

theorem Magnitude.Near.bits_le (leftNormal : left.Normal) (rightNormal : right.Normal)
    (near : left.Near scaled) (other : right.Near scaled) : right.bits ≤ left.bits := by
  by_contra greater
  -- The point is at most the end of one interval and at least the beginning of the next.
  have apart := high_le_low leftNormal rightNormal (Nat.lt_of_not_le greater)
  obtain ⟨-, above, openAbove⟩ := (Neighbourhood.holds_iff _ _ _).mp near
  obtain ⟨below, -, openBelow⟩ := (Neighbourhood.holds_iff _ _ _).mp other
  have closedLeft : (Neighbourhood.of left).closed = decide (left.significand % 2 = 0) := rfl
  have closedRight : (Neighbourhood.of right).closed = decide (right.significand % 2 = 0) := rfl
  simp only [quarter, ← Nat.mul_assoc] at above openAbove below openBelow
  have places : 0 < 5 ^ unitPlaces := Nat.pow_pos (by decide)
  generalize 5 ^ unitPlaces = fives at *
  rcases apart with before | ⟨meet, odd⟩
  · have := Nat.mul_lt_mul_of_pos_right before places
    omega
  · -- Where they meet, the interval with the odd significand is open.
    rw [meet] at above openAbove
    rcases odd with odd | odd
    · have := openAbove (by rw [closedLeft]; simp [odd])
      omega
    · have := openBelow (by rw [closedRight]; simp [odd])
      omega

/-- What rounds to two magnitudes rounds to one. -/
theorem Magnitude.Near.unique (leftNormal : left.Normal) (rightNormal : right.Normal)
    (near : left.Near scaled) (other : right.Near scaled) : left = right :=
  leftNormal.eq_of_bits_eq rightNormal
    (Nat.le_antisymm (other.bits_le rightNormal leftNormal near)
      (near.bits_le leftNormal rightNormal other))

/-! ### Shortest decimals round to their magnitude -/

/-- A magnitude is well inside its interval. -/
theorem near_scaled (some : magnitude.significand ≠ 0) : magnitude.Near magnitude.scaled := by
  have low := (low_le magnitude).2
  have high : (Neighbourhood.of magnitude).high = 4 * magnitude.significand + 2 := rfl
  have width := quarter_pos magnitude
  rw [Near, four_mul_scaled, Neighbourhood.holds_iff]
  refine ⟨Nat.mul_le_mul_right _ (by omega), Nat.mul_le_mul_right _ (by omega), fun _ => ⟨?_, ?_⟩⟩
  · exact Nat.mul_lt_mul_of_pos_right (by omega) width
  · exact Nat.mul_lt_mul_of_pos_right (by omega) width

theorem scaled_pos_of_near (some : magnitude.significand ≠ 0) (near : magnitude.Near scaled) :
    0 < scaled := by
  have low := (low_le magnitude).1
  obtain ⟨below, -, -⟩ := (Neighbourhood.holds_iff _ _ _).mp near
  have begins : 0 < (Neighbourhood.of magnitude).low * magnitude.quarter :=
    Nat.mul_pos (by omega) (quarter_pos magnitude)
  omega

theorem pow_sub_mul_pow (base first second : Nat) :
    base ^ (first - second) * base ^ second = base ^ (second - first) * base ^ first := by
  rw [← Nat.pow_add, ← Nat.pow_add]
  congr 1
  omega

/-- The step of a grid, in the scale of decimals. -/
theorem gridStep_mul_quarter (magnitude : Magnitude) (grid : Nat) :
    gridStep magnitude.shift grid * magnitude.quarter =
      4 * 10 ^ grid * gridScale magnitude.shift grid := by
  have fives := pow_sub_mul_pow 5 grid unitPlaces
  have twos := pow_sub_mul_pow 2 (grid + 2) magnitude.shift
  have ten : 10 ^ grid = 2 ^ grid * 5 ^ grid := by rw [← Nat.mul_pow]
  have four : 2 ^ (grid + 2) = 2 ^ grid * 4 := Nat.pow_add 2 grid 2
  simp only [gridStep, gridScale, quarter, Nat.pow_eq]
  calc 5 ^ (grid - unitPlaces) * 2 ^ (grid + 2 - magnitude.shift) *
        (2 ^ magnitude.shift * 5 ^ unitPlaces)
      = 5 ^ (grid - unitPlaces) * 5 ^ unitPlaces *
          (2 ^ (grid + 2 - magnitude.shift) * 2 ^ magnitude.shift) := by ring
    _ = 5 ^ (unitPlaces - grid) * 5 ^ grid *
          (2 ^ (magnitude.shift - (grid + 2)) * (2 ^ grid * 4)) := by rw [fives, twos, four]
    _ = 4 * 10 ^ grid * (5 ^ (unitPlaces - grid) * 2 ^ (magnitude.shift - (grid + 2))) := by
      rw [ten]
      ring

/-- A point of a grid that is found to round to a magnitude does. -/
theorem near_of_holds {coefficient grid : Nat}
    (holds : (Neighbourhood.of magnitude).holds (gridScale magnitude.shift grid)
      (coefficient * gridStep magnitude.shift grid) = true) :
    magnitude.Near (Decimal.scaled ⟨coefficient, grid⟩) := by
  have scale : 0 < gridScale magnitude.shift grid :=
    Nat.mul_pos (Nat.pow_pos (by decide)) (Nat.pow_pos (by decide))
  have point : coefficient * gridStep magnitude.shift grid * magnitude.quarter =
      4 * Decimal.scaled ⟨coefficient, grid⟩ * gridScale magnitude.shift grid := by
    rw [Nat.mul_assoc, gridStep_mul_quarter, Decimal.scaled]
    ring
  -- Both scales are put on both sides, and that of the grid is taken off again.
  rw [← Neighbourhood.holds_scale _ _ _ (quarter_pos magnitude), point,
    Nat.mul_comm (gridScale magnitude.shift grid), Neighbourhood.holds_scale _ _ _ scale] at holds
  exact holds

theorem near_of_onGrid? {grid : Nat} {decimal : Decimal}
    (found : onGrid? magnitude grid = some decimal) : magnitude.Near decimal.scaled := by
  unfold onGrid? at found
  dsimp only at found
  split at found
  · next below above =>
    split at found <;> cases found
    · exact near_of_holds below
    · exact near_of_holds above
  · next below _ =>
    cases found
    exact near_of_holds below
  · next _ above =>
    cases found
    exact near_of_holds above
  · cases found

/-- The shortest decimal of a magnitude rounds to it. -/
theorem near_shortest (some : magnitude.significand ≠ 0) :
    magnitude.Near (shortest magnitude).scaled := by
  unfold shortest
  generalize unitPlaces + (toString magnitude.whole).length = grid
  -- From the finest grid upward, where the magnitude itself is a decimal.
  induction grid with
  | zero =>
    have exact : (exactDecimal magnitude).scaled = magnitude.scaled := by
      rw [Decimal.scaled, exactDecimal, Magnitude.scaled, Nat.pow_zero, Nat.mul_one, Nat.pow_eq]
    rw [coarsest, exact]
    exact near_scaled some
  | succ grid ih =>
    rw [coarsest]
    cases found : onGrid? magnitude (grid + 1) with
    | none => exact ih
    | some decimal => exact near_of_onGrid? found

end BlockScript.Number
