import BlockScript.Proofs.Number.Rounding
import BlockScript.Value.Coordinate
import Mathlib.Algebra.Order.Field.Rat
import Mathlib.Tactic.Linarith

/-!
# Numbers as coordinates

One half is added to a number, the sum is rounded to a number, and its fraction is dropped.  The
result is the nearest integer, halves going up, for every number but one: the sum of one half and
the number below it lies halfway between two numbers and is rounded to one
(`toCoordinate_eq_nearest`).  Everywhere else a number stands between the exact sum and the next
integer, and rounding does not pass it.
-/

namespace BlockScript

open Float.Model.UnpackedFloat

namespace Number

/-- What a finite number denotes. -/
def value (number : Float) : ℚ :=
  units number / unitsPerOne

/-- The greatest number below one half. -/
def belowHalf : Float :=
  Float.ofBits 0x3fdfffffffffffff

/-- The units in one half are `2 ^ halfPlaces`. -/
@[irreducible] def halfPlaces : Nat := 1073

def unitsPerHalf : Nat := 2 ^ halfPlaces

theorem unitsPerHalf_pos : 0 < unitsPerHalf :=
  Nat.two_pow_pos _

theorem unitPlaces_eq : unitPlaces = halfPlaces + 1 := by
  simp only [halfPlaces, unitPlaces]

theorem unitsPerOne_eq_two_halves : unitsPerOne = 2 * unitsPerHalf := by
  rw [unitsPerOne_eq, unitPlaces_eq, Nat.pow_succ, Nat.mul_comm, unitsPerHalf]

theorem halfPlaces_bounds : 53 < halfPlaces ∧ halfPlaces + 1 < Magnitude.infinite.shift := by
  simp only [halfPlaces, Magnitude.infinite]
  decide

theorem units_half : units 0.5 = unitsPerHalf := by
  have half : magnitude 0.5 = ⟨2 ^ 52, halfPlaces - 52⟩ := by decide +kernel
  have positive : sign 0.5 = .positive := by rfl
  have behind : 52 ≤ halfPlaces := by
    have := halfPlaces_bounds
    omega
  rw [units_eq, half, positive, Magnitude.units_leadingOne, Nat.add_sub_cancel' behind]
  rfl

theorem rounded_eq {number : Float} (finite : number.isFinite) :
    rounded number = nearestUnits (units number + unitsPerHalf) / unitsPerOne := by
  have half : (0.5 : Float).isFinite := by decide +kernel
  rw [rounded, floor_eq, units_add finite half, units_half]

/-! ### The nearest integer -/

/-- The exact sum of a number and one half lies between an integer and the next one. -/
structure Nearest (number : Float) (integer : Int) : Prop where
  low : integer * unitsPerOne ≤ units number + unitsPerHalf
  high : units number + unitsPerHalf < (integer + 1) * unitsPerOne

/-- The nearest integer is the one that is at most one half away, and less than that above. -/
theorem nearest_iff {number : Float} {integer : Int} :
    Nearest number integer ↔
      (integer : ℚ) - 1 / 2 ≤ value number ∧ value number < (integer : ℚ) + 1 / 2 := by
  have one_pos : (0 : ℚ) < unitsPerOne := Nat.cast_pos.mpr unitsPerOne_pos
  have halves : (unitsPerOne : ℚ) = 2 * unitsPerHalf := by
    exact_mod_cast unitsPerOne_eq_two_halves
  have low : integer * unitsPerOne ≤ units number + unitsPerHalf ↔
      (integer : ℚ) - 1 / 2 ≤ value number := by
    rw [value, le_div_iff₀ one_pos, ← @Int.cast_le ℚ]
    push_cast
    rw [halves]
    constructor <;> intro atMost <;> linarith
  have high : units number + unitsPerHalf < (integer + 1) * unitsPerOne ↔
      value number < (integer : ℚ) + 1 / 2 := by
    rw [value, div_lt_iff₀ one_pos, ← @Int.cast_lt ℚ]
    push_cast
    rw [halves]
    constructor <;> intro less <;> linarith
  exact ⟨fun nearest => ⟨low.mp nearest.low, high.mp nearest.high⟩,
    fun bounds => ⟨low.mpr bounds.1, high.mpr bounds.2⟩⟩

section Cell

variable {number : Float} {integer other : Int}

theorem Nearest.le (nearest : Nearest number integer)
    (atLeast : other * unitsPerOne ≤ units number + unitsPerHalf) : other ≤ integer :=
  Int.lt_add_one_iff.mp
    (Int.lt_of_mul_lt_mul_right (Int.lt_of_le_of_lt atLeast nearest.high) (Int.natCast_nonneg _))

theorem Nearest.unique (left : Nearest number integer) (right : Nearest number other) :
    integer = other :=
  Int.le_antisymm (right.le left.low) (left.le right.low)

/-- No integer lies between a sum and the next integer above it. -/
theorem Nearest.next_le (nearest : Nearest number integer)
    (atLeast : other * unitsPerOne ≤ units number + unitsPerHalf) :
    (other + 1) * (unitsPerOne : Int) ≤ (integer + 1) * unitsPerOne :=
  Int.mul_le_mul_of_nonneg_right (Int.add_le_add_right (nearest.le atLeast) 1)
    (Int.natCast_nonneg _)

end Cell

/-! ### The places of a number -/

section Places

variable (number : Float)

theorem two_pow_dvd_units : ((2 ^ (magnitude number).shift : Nat) : Int) ∣ units number := by
  rw [Int.natCast_dvd, natAbs_units, Magnitude.units_eq_mul]
  exact Nat.dvd_mul_left _ _

theorem natAbs_units_lt : (units number).natAbs < 2 ^ (53 + (magnitude number).shift) := by
  rw [natAbs_units]
  exact (normal_magnitude number).units_lt

theorem le_natAbs_units (shifted : (magnitude number).shift ≠ 0) :
    2 ^ (52 + (magnitude number).shift) ≤ (units number).natAbs := by
  rw [natAbs_units]
  exact (normal_magnitude number).le_units shifted

end Places

/-! ### Numbers between a sum and the next integer -/

theorem two_pow_dvd_unitsPerHalf {places : Nat} (fine : places ≤ halfPlaces) :
    ((2 ^ places : Nat) : Int) ∣ unitsPerHalf :=
  Int.natCast_dvd_natCast.mpr (Nat.pow_dvd_pow 2 fine)

section Between

variable {number : Float} {integer : Int}

theorem Nearest.shift_lt_halfPlaces (nearest : Nearest number integer)
    (atLeast : -2147483649 ≤ integer) (atMost : integer ≤ 2147483647) :
    (magnitude number).shift < halfPlaces := by
  by_cases shifted : (magnitude number).shift = 0
  · rw [shifted]
    exact Nat.lt_of_le_of_lt (Nat.zero_le _) halfPlaces_bounds.1
  · obtain ⟨low, high⟩ := nearest
    have one_nonneg : (0 : Int) ≤ unitsPerOne := Int.natCast_nonneg _
    have least := Int.mul_le_mul_of_nonneg_right atLeast one_nonneg
    have most := Int.mul_le_mul_of_nonneg_right (Int.add_le_add_right atMost 1) one_nonneg
    have some := unitsPerHalf_pos
    have small : (units number).natAbs < 2 ^ 33 * unitsPerHalf := by
      rw [unitsPerOne_eq_two_halves] at least most low high
      push_cast at least most low high
      omega
    have powers : 2 ^ (52 + (magnitude number).shift) < 2 ^ (33 + halfPlaces) := by
      rw [Nat.pow_add 2 33]
      exact Nat.lt_of_le_of_lt (le_natAbs_units number shifted) small
    have := (Nat.pow_lt_pow_iff_right (Nat.lt_add_one 1)).mp powers
    omega

/-- A sum that did not outgrow the places of the number is a number itself. -/
theorem representable_sum (fine : (magnitude number).shift ≤ halfPlaces)
    (bounded : (units number + unitsPerHalf).natAbs ≤ 2 ^ (53 + (magnitude number).shift)) :
    Representable (units number + unitsPerHalf) := by
  have inRange := halfPlaces_bounds.2
  exact ⟨_, by omega, Int.dvd_add (two_pow_dvd_units number) (two_pow_dvd_unitsPerHalf fine),
    bounded⟩

/-- A sum that outgrew the places of a number above one half passed an integer by less than one
half. -/
theorem representable_of_outgrown (nearest : Nearest number integer)
    (coarse : halfPlaces < 53 + (magnitude number).shift)
    (fine : (magnitude number).shift < halfPlaces)
    (outgrown : (2 ^ (53 + (magnitude number).shift) : Nat) < units number + unitsPerHalf) :
    Representable ((2 ^ (53 + (magnitude number).shift) : Nat) + unitsPerHalf) ∧
      (2 ^ (53 + (magnitude number).shift) : Nat) + unitsPerHalf < (integer + 1) * unitsPerOne := by
  generalize (magnitude number).shift = shift at coarse fine outgrown ⊢
  have half : unitsPerHalf ≤ 2 ^ (53 + shift) :=
    Nat.pow_le_pow_right Nat.two_pos (Nat.le_of_lt coarse)
  constructor
  · have inRange := halfPlaces_bounds.2
    refine ⟨shift + 1, by omega, Int.dvd_add ?_ (two_pow_dvd_unitsPerHalf fine), ?_⟩
    · exact Int.natCast_dvd_natCast.mpr (Nat.pow_dvd_pow 2 (by omega))
    · rw [← Nat.add_assoc, Nat.pow_succ]
      omega
  · have whole : unitsPerOne ∣ 2 ^ (53 + shift) := by
      rw [unitsPerOne_eq, unitPlaces_eq]
      exact Nat.pow_dvd_pow 2 coarse
    obtain ⟨passed, multiple⟩ := whole
    have atPassed : (passed : Int) * unitsPerOne = (2 ^ (53 + shift) : Nat) := by
      rw [multiple, Nat.mul_comm, Int.natCast_mul]
    have next := nearest.next_le (Int.le_of_lt (atPassed ▸ outgrown))
    have halves := unitsPerOne_eq_two_halves
    have some := unitsPerHalf_pos
    rw [Int.add_mul, atPassed] at next
    omega

theorem unitsPerHalf_eq_two_quarters : unitsPerHalf = 2 ^ (halfPlaces - 1) * 2 :=
  (Nat.two_pow_pred_mul_two (Nat.lt_of_le_of_lt (Nat.zero_le _) halfPlaces_bounds.1)).symm

theorem representable_three_quarters :
    Representable (unitsPerHalf + (2 ^ (halfPlaces - 1) : Nat)) := by
  have quarters := unitsPerHalf_eq_two_quarters
  have bounds := halfPlaces_bounds
  refine ⟨halfPlaces - 1, by omega, Int.dvd_add ?_ (Int.dvd_refl _), ?_⟩
  · exact two_pow_dvd_unitsPerHalf (Nat.sub_le ..)
  · rw [Nat.pow_add]
    omega

/-- The last number below one. -/
theorem representable_last {shift : Nat} (binade : 53 + shift = halfPlaces) :
    Representable (unitsPerOne - (2 ^ (shift + 1) : Nat)) := by
  have bounds := halfPlaces_bounds
  have halves := unitsPerOne_eq_two_halves
  have half : unitsPerHalf = 2 ^ (53 + shift) := by rw [unitsPerHalf, binade]
  have spacing : 2 ^ (shift + 1) ≤ 2 ^ (53 + shift) := Nat.pow_le_pow_right Nat.two_pos (by omega)
  refine ⟨shift + 1, by omega, Int.dvd_sub ?_ (Int.dvd_refl _), ?_⟩
  · rw [halves, Int.natCast_mul]
    exact Int.dvd_mul_of_dvd_right (two_pow_dvd_unitsPerHalf (by omega))
  · have some := Nat.two_pow_pos (shift + 1)
    rw [← Nat.add_assoc, Nat.pow_succ 2 (53 + shift)]
    omega

theorem sign_of_positive (positive : 0 < units number) : sign number = .positive := by
  cases signed : sign number with
  | positive => rfl
  | negative =>
    rw [units_eq, signed, Sign.apply] at positive
    omega

/-- In the binade below one half only the last number is all ones. -/
theorem significand_ne_of_ne_belowHalf (other : number ≠ belowHalf) (positive : 0 < units number)
    (binade : 53 + (magnitude number).shift = halfPlaces) :
    (magnitude number).significand ≠ 2 ^ 53 - 1 := by
  intro last
  have shift : (magnitude number).shift = halfPlaces - 53 := by omega
  have same : magnitude number = magnitude belowHalf :=
    calc magnitude number
        = ⟨(magnitude number).significand, (magnitude number).shift⟩ := rfl
      _ = ⟨2 ^ 53 - 1, halfPlaces - 53⟩ := by rw [last, shift]
      _ = magnitude belowHalf := by decide +kernel
  exact other (eq_of_sign_magnitude (sign_of_positive positive) same)

/-- In the binade below one half, a number other than the last one leaves room for two. -/
theorem le_of_ne_belowHalf (other : number ≠ belowHalf) (nonnegative : 0 ≤ units number)
    (binade : 53 + (magnitude number).shift = halfPlaces) :
    units number + (2 ^ ((magnitude number).shift + 1) : Nat) ≤ unitsPerHalf := by
  have bounds := halfPlaces_bounds
  have bounded := (normal_magnitude number).bounded
  have positive : 0 < units number := by
    have least := le_natAbs_units number (by omega)
    have some := Nat.two_pow_pos (52 + (magnitude number).shift)
    omega
  have notLast := significand_ne_of_ne_belowHalf other positive binade
  have room : ((magnitude number).significand + 2) * 2 ^ (magnitude number).shift ≤
      unitsPerHalf := by
    rw [unitsPerHalf, ← binade, Nat.pow_add]
    exact Nat.mul_le_mul_right _ (by omega)
  rw [Nat.add_mul, ← Magnitude.units_eq_mul] at room
  rw [units_eq, sign_of_positive positive, Nat.pow_succ, Sign.apply]
  omega

/-- Between a sum and the next integer there is a number, unless one half is added to the number
below it. -/
theorem exists_representable (nearest : Nearest number integer) (other : number ≠ belowHalf)
    (atLeast : -2147483649 ≤ integer) (atMost : integer ≤ 2147483647) :
    ∃ bound, Representable bound ∧ units number + unitsPerHalf ≤ bound ∧
      bound < (integer + 1) * unitsPerOne := by
  have fine := nearest.shift_lt_halfPlaces atLeast atMost
  have bounded := natAbs_units_lt number
  have halves : (unitsPerOne : Int) = 2 * unitsPerHalf := by
    exact_mod_cast unitsPerOne_eq_two_halves
  have some := unitsPerHalf_pos
  rcases Int.lt_or_le (units number) (-unitsPerHalf) with deep | shallow
  · -- The sum is nearer to zero than the number and needs no more places.
    exact ⟨_, representable_sum (Nat.le_of_lt fine) (by omega), Int.le_refl _, nearest.high⟩
  have next := nearest.next_le (show 0 * (unitsPerOne : Int) ≤ _ by omega)
  rcases Int.lt_or_le (units number) 0 with negative | nonnegative
  · -- The sum is below one half, which is a number.
    have inRange := halfPlaces_bounds.2
    refine ⟨unitsPerHalf, ⟨halfPlaces, by omega, Int.dvd_refl _, ?_⟩, by omega, by omega⟩
    rw [Int.natAbs_natCast]
    exact Nat.pow_le_pow_right Nat.two_pos (by omega)
  by_cases fits : units number + unitsPerHalf ≤ (2 ^ (53 + (magnitude number).shift) : Nat)
  · exact ⟨_, representable_sum (Nat.le_of_lt fine) (by omega), Int.le_refl _, nearest.high⟩
  -- The sum has one place more than the number, so it matters where the number stands.
  rcases Nat.lt_trichotomy (53 + (magnitude number).shift) halfPlaces with less | equal | more
  · have quarter : 2 ^ (53 + (magnitude number).shift) ≤ 2 ^ (halfPlaces - 1) :=
      Nat.pow_le_pow_right Nat.two_pos (by omega)
    have quarters := unitsPerHalf_eq_two_quarters
    exact ⟨_, representable_three_quarters, by omega, by omega⟩
  · have below := le_of_ne_belowHalf other nonnegative equal
    have spacing := Nat.two_pow_pos ((magnitude number).shift + 1)
    exact ⟨_, representable_last equal, by omega, by omega⟩
  · obtain ⟨representable, less⟩ := representable_of_outgrown nearest more fine (by omega)
    exact ⟨_, representable, by omega, less⟩

theorem representable_integer (small : integer.natAbs ≤ 2 ^ 53) :
    Representable (integer * unitsPerOne) := by
  have bounds := halfPlaces_bounds
  have places := unitPlaces_eq
  refine ⟨halfPlaces + 1, by omega, ?_, ?_⟩
  · rw [unitsPerOne_eq, places]
    exact Int.dvd_mul_left _ _
  · rw [Int.natAbs_mul, Int.natAbs_natCast, unitsPerOne_eq, places, Nat.pow_add 2 53]
    exact Nat.mul_le_mul_right _ small

/-! ### Rounding to an integer -/

theorem le_rounded (finite : number.isFinite) (small : integer.natAbs ≤ 2 ^ 53)
    (low : integer * unitsPerOne ≤ units number + unitsPerHalf) : integer ≤ rounded number := by
  rw [rounded_eq finite, Int.le_ediv_iff_mul_le (Int.natCast_pos.mpr unitsPerOne_pos),
    ← nearestUnits_of_representable (representable_integer small)]
  exact nearestUnits_mono low

/-- Rounding does not pass a number between the sum and the next integer. -/
theorem rounded_le (finite : number.isFinite) {bound : Int} (representable : Representable bound)
    (above : units number + unitsPerHalf ≤ bound) (below : bound < (integer + 1) * unitsPerOne) :
    rounded number ≤ integer := by
  have sum := nearestUnits_mono above
  rw [nearestUnits_of_representable representable] at sum
  rw [rounded_eq finite, ← Int.lt_add_one_iff,
    Int.ediv_lt_iff_lt_mul (Int.natCast_pos.mpr unitsPerOne_pos)]
  exact Int.lt_of_le_of_lt sum below

theorem Nearest.rounded_eq (nearest : Nearest number integer) (finite : number.isFinite)
    (other : number ≠ belowHalf) (atLeast : -2147483649 ≤ integer)
    (atMost : integer ≤ 2147483647) : rounded number = integer := by
  obtain ⟨bound, representable, above, below⟩ :=
    exists_representable nearest other atLeast atMost
  exact Int.le_antisymm (rounded_le finite representable above below)
    (le_rounded finite (by omega) nearest.low)

/-- Rounding does not bring a number into the range of coordinates. -/
theorem Nearest.rounded_outside (nearest : Nearest number integer) (finite : number.isFinite)
    (other : number ≠ belowHalf) (outside : integer < -2147483648 ∨ 2147483647 < integer) :
    rounded number < -2147483648 ∨ 2147483647 < rounded number := by
  have one_pos : (0 : Int) < unitsPerOne := Int.natCast_pos.mpr unitsPerOne_pos
  have one_nonneg := Int.le_of_lt one_pos
  rcases outside with below | above
  · -- Right below the range the next integer is in it, so rounding up to that has to be excluded.
    rcases Int.lt_or_le integer (-2147483649) with far | near
    · have upper := Int.mul_le_mul_of_nonneg_right (Int.add_one_le_iff.mpr far) one_nonneg
      have := rounded_le finite (representable_integer (by decide))
        (Int.le_trans (Int.le_of_lt nearest.high) upper)
        (Int.mul_lt_mul_of_pos_right (Int.lt_add_one_of_le (Int.le_refl _)) one_pos)
      omega
    · have := nearest.rounded_eq finite other near (by omega)
      omega
  · have lower := Int.mul_le_mul_of_nonneg_right (Int.add_one_le_iff.mpr above) one_nonneg
    have := le_rounded finite (by decide) (Int.le_trans lower nearest.low)
    omega

end Between

theorem rounded_belowHalf : rounded belowHalf = 1 := by
  decide +kernel

theorem isFinite_belowHalf : belowHalf.isFinite := by
  decide +kernel

theorem nearest_belowHalf : Nearest belowHalf 0 := by
  constructor <;> decide +kernel

end Number

open Number

section Coordinate

variable {number : Float} {integer : Int} {axis : Char}

theorem toCoordinate_of_inRange (finite : number.isFinite) (rounds : rounded number = integer)
    (atLeast : -2147483648 ≤ integer) (atMost : integer ≤ 2147483647) :
    (Value.number number).toCoordinate axis = .ok (Int32.ofInt integer) := by
  simp [Value.toCoordinate, finite, rounds, coordinate?, atLeast, atMost]

theorem toCoordinate_of_outOfRange (finite : number.isFinite)
    (outside : rounded number < -2147483648 ∨ 2147483647 < rounded number) :
    (Value.number number).toCoordinate axis =
      .error (.coordinateOutOfRange axis (Value.number number).printed) := by
  have refused : coordinate? (rounded number) = none := if_neg (by omega)
  simp only [Value.toCoordinate, finite, refused, if_true]

end Coordinate

/-- A finite number stands for the nearest integer as a coordinate, a half for the one above it, and
is refused where that integer has more than 32 bits.  One number is rounded away from the nearest
integer: the greatest one below one half, which stands for one. -/
theorem toCoordinate_eq_nearest (number : Float) (axis : Char) (integer : Int)
    (finite : number.isFinite) (low : (integer : ℚ) - 1 / 2 ≤ value number)
    (high : value number < (integer : ℚ) + 1 / 2) :
    (number ≠ belowHalf → -2147483648 ≤ integer → integer ≤ 2147483647 →
      ∃ coordinate : Int32, coordinate.toInt = integer ∧
        (Value.number number).toCoordinate axis = .ok coordinate) ∧
    (integer < -2147483648 ∨ 2147483647 < integer →
      (Value.number number).toCoordinate axis =
        .error (.coordinateOutOfRange axis (Value.number number).printed)) ∧
    (number = belowHalf → integer = 0 ∧ (Value.number number).toCoordinate axis = .ok 1) := by
  have nearest := nearest_iff.mpr ⟨low, high⟩
  by_cases same : number = belowHalf
  · subst same
    have zero : integer = 0 := nearest.unique nearest_belowHalf
    refine ⟨fun other => absurd rfl other, fun outside => by omega, fun _ => ⟨zero, ?_⟩⟩
    exact toCoordinate_of_inRange finite rounded_belowHalf (by decide) (by decide)
  · refine ⟨fun _ atLeast atMost => ?_, fun outside => ?_, fun equal => absurd equal same⟩
    · have rounds := nearest.rounded_eq finite same (by omega) (by omega)
      exact ⟨_, Int32.toInt_ofInt_of_le atLeast (by omega),
        toCoordinate_of_inRange finite rounds atLeast atMost⟩
    · exact toCoordinate_of_outOfRange finite (nearest.rounded_outside finite same outside)

/-- Halves round up, below zero as well. -/
theorem toCoordinate_of_halves :
    ((-2 : Int) : ℚ) - 1 / 2 ≤ value (-2.5) ∧ value (-2.5) < ((-2 : Int) : ℚ) + 1 / 2 ∧
      ∃ coordinate : Int32, coordinate.toInt = -2 ∧
        (Value.number (-2.5)).toCoordinate 'x' = .ok coordinate := by
  have finite : (-2.5 : Float).isFinite := by decide +kernel
  have nearest : Nearest (-2.5) (-2) := by
    constructor <;> decide +kernel
  obtain ⟨low, high⟩ := nearest_iff.mp nearest
  have other : (-2.5 : Float) ≠ belowHalf := by decide +kernel
  exact ⟨low, high,
    (toCoordinate_eq_nearest (-2.5) 'x' (-2) finite low high).1 other (by decide) (by decide)⟩

/-- The number right below one half has zero as its nearest integer and is taken for one. -/
theorem toCoordinate_belowHalf :
    belowHalf.isFinite = true ∧ ((0 : Int) : ℚ) - 1 / 2 ≤ value belowHalf ∧
      value belowHalf < ((0 : Int) : ℚ) + 1 / 2 ∧
      (Value.number belowHalf).toCoordinate 'x' = .ok 1 ∧
      (Value.number belowHalf).toCoordinate 'x' ≠ .ok 0 := by
  have result : (Value.number belowHalf).toCoordinate 'x' = .ok 1 :=
    toCoordinate_of_inRange isFinite_belowHalf rounded_belowHalf (by decide) (by decide)
  obtain ⟨low, high⟩ := nearest_iff.mp nearest_belowHalf
  refine ⟨isFinite_belowHalf, low, high, result, ?_⟩
  rw [result]
  decide

end BlockScript
