import BlockScript.Number.Text
import BlockScript.Proofs.Value.Coordinate

/-!
# Whole numbers

A whole number of at most 53 bits is a double, so nothing is rounded when its digits are read
(`units_ofNat`) or when it is negated (`units_neg`).  An integer of 32 bits is the coordinate that
it stands for (`toCoordinate_of_units`).
-/

open Float.Model Float.Model.UnpackedFloat

namespace BlockScript

namespace Number

variable {number : Float}

/-! ### Finite numbers -/

theorem units_magnitude_lt (finite : number.isFinite) :
    (magnitude number).units < Magnitude.infinite.units :=
  (normal_magnitude number).units_lt_units Magnitude.normal_infinite ((isFinite_iff number).mp finite)

theorem isFinite_of_units_lt (small : (units number).natAbs < Magnitude.infinite.units) :
    number.isFinite = true := by
  rw [isFinite_iff]
  by_contra large
  have above := Magnitude.normal_infinite.units_le_units (normal_magnitude number)
    (Nat.le_of_not_lt large)
  rw [natAbs_units] at small
  omega

/-- Integers far greater than those of 32 bits are still below infinity. -/
theorem isFinite_of_units {integer : Int} (whole : units number = integer * unitsPerOne)
    (small : integer.natAbs ≤ 2 ^ 53) : number.isFinite = true := by
  apply isFinite_of_units_lt
  have below : 53 + unitPlaces < 52 + Magnitude.infinite.shift := by decide
  rw [whole, Int.natAbs_mul, Int.natAbs_natCast, unitsPerOne_eq, Magnitude.units_infinite]
  generalize unitPlaces = places at below ⊢
  calc integer.natAbs * 2 ^ places
      ≤ 2 ^ 53 * 2 ^ places := Nat.mul_le_mul_right _ small
    _ = 2 ^ (53 + places) := (Nat.pow_add ..).symm
    _ < 2 ^ (52 + Magnitude.infinite.shift) := Nat.pow_lt_pow_right (Nat.lt_add_one 1) below

/-- An integer has all of its places in front of the point. -/
theorem unitPlaces_lt_of_units {integer : Int} (whole : units number = integer * unitsPerOne)
    (some : integer ≠ 0) : unitPlaces < 53 + (magnitude number).shift := by
  have below := natAbs_units_lt number
  rw [whole, Int.natAbs_mul, Int.natAbs_natCast, unitsPerOne_eq] at below
  generalize unitPlaces = places at below ⊢
  refine (Nat.pow_lt_pow_iff_right (Nat.lt_add_one 1)).mp (Nat.lt_of_le_of_lt ?_ below)
  exact Nat.le_mul_of_pos_left _ (Int.natAbs_pos.mpr some)

theorem apply_neg (sign : Sign) (units : Int) : (-sign).apply units = -sign.apply units := by
  cases sign with
  | positive => rfl
  | negative => exact (Int.neg_neg units).symm

theorem neg_unpacked (sign : Sign) (magnitude : Magnitude) :
    (magnitude.unpacked sign).neg = magnitude.unpacked (-sign) := by
  by_cases zero : magnitude.significand = 0
  · rw [Magnitude.unpacked_of_zero zero, Magnitude.unpacked_of_zero zero]
    rfl
  · rw [Magnitude.unpacked_of_ne_zero zero, Magnitude.unpacked_of_ne_zero zero]
    rfl

theorem units_neg (finite : number.isFinite) : units (-number) = -units number := by
  have negated : -number = .ofModel (.pack number.toModel.unpack.neg) := rfl
  have small := Nat.le_of_lt (units_magnitude_lt finite)
  rw [negated, unpack_of_isFinite finite, neg_unpacked, units_pack _ (normal_magnitude number),
    Nat.min_eq_left small, apply_neg, ← units_eq]

/-! ### Reading whole numbers -/

/-- The significands of a product are multiplied and its exponents added up, before rounding. -/
theorem mul_finite (first second : Sign) {left right : Nat} (place other : Int)
    (leftPos : 0 < left) (rightPos : 0 < right) :
    UnpackedFloat.mul .binary64 (.finite first left place leftPos)
        (.finite second right other rightPos) =
      roundWithAccuracy .binary64 (first * second) (left * right) (place + other) .exact :=
  rfl

/-- The digits of a literal are read to a number that is then multiplied by a power of ten.  Without
a fraction this power is one.  The significand of one has 52 places, and the shift of the number
makes up for them. -/
theorem units_mul_one (finite : number.isFinite) (coarse : 52 ≤ (magnitude number).shift) :
    units (number * 1) = units number := by
  have product : number * 1 = .ofModel (.pack
      (UnpackedFloat.mul .binary64 number.toModel.unpack (1 : Float).toModel.unpack)) := rfl
  have one : magnitude 1 = ⟨2 ^ 52, unitPlaces - 52⟩ := by decide +kernel
  have one_positive : sign 1 = .positive := by rfl
  have one_finite : (1 : Float).isFinite = true := by decide +kernel
  have normal := normal_magnitude number
  have some : (magnitude number).significand ≠ 0 := by
    have leading := normal.leading (by omega)
    omega
  -- One is written with 52 places more than it needs, which the rounding takes away again.
  have exponents : ((magnitude number).shift - unitPlaces : Int) +
      ((unitPlaces - 52 : Nat) - unitPlaces) = ((magnitude number).shift - 52 : Nat) - unitPlaces := by
    simp only [unitPlaces]
    omega
  have scaled : (magnitude number).significand * 2 ^ 52 * 2 ^ ((magnitude number).shift - 52) =
      (magnitude number).units := by
    rw [Nat.mul_assoc, ← Nat.pow_add, Nat.add_sub_cancel' coarse, Magnitude.units_eq_mul]
  have fine : (magnitude number).shift - 52 ≤ gridPlaces
      ((magnitude number).significand * 2 ^ 52 * 2 ^ ((magnitude number).shift - 52)) := by
    rw [scaled, gridPlaces, Magnitude.units_eq_mul, log2_mul_two_pow some]
    omega
  have times_positive : sign number * .positive = sign number := by
    cases sign number <;> rfl
  rw [product, unpack_of_isFinite finite, unpack_of_isFinite one_finite, one, one_positive,
    Magnitude.unpacked_of_ne_zero some, Magnitude.unpacked_of_ne_zero (by decide), mul_finite]
  dsimp only
  rw [exponents, roundWithAccuracy_eq _ (Nat.mul_ne_zero some (by decide)) fine, scaled,
    units_pack _ (normal_nearestMagnitude _), units_nearestMagnitude, nearest_units normal,
    Nat.min_eq_left (Nat.le_of_lt (units_magnitude_lt finite)), times_positive, ← units_eq]

theorem units_toFloat {natural : Nat} (small : natural < 2 ^ 53) :
    units natural.toUInt64.toFloat = natural * unitsPerOne := by
  have converted : natural.toUInt64.toFloat = .ofModel (.pack (UnpackedFloat.normalize .binary64
      (natural.toUInt64.toNat : Int) ((unitPlaces : Nat) - unitPlaces) .positive)) := by
    rw [Int.sub_self]
    rfl
  have kept : natural.toUInt64.toNat = natural := Nat.mod_eq_of_lt (Nat.lt_trans small (by decide))
  rw [converted, units_pack_normalize, kept, ← unitsPerOne_eq]
  exact nearestUnits_of_representable (representable_integer (Nat.le_of_lt small))

theorem units_ofNat {natural : Nat} (small : natural < 2 ^ 53) :
    units (Float.ofNat natural) = natural * unitsPerOne := by
  have read : Float.ofNat natural = natural.toUInt64.toFloat * 1 := by
    change Float.ofScientific natural false 0 = _
    rw [Float.ofScientific, dif_pos ⟨small, by decide⟩]
    rfl
  rcases Nat.eq_zero_or_pos natural with rfl | positive
  · decide +kernel
  have whole := units_toFloat small
  have finite := isFinite_of_units whole (Nat.le_of_lt small)
  have coarse : 52 ≤ (magnitude natural.toUInt64.toFloat).shift := by
    have places := unitPlaces_lt_of_units whole (by omega)
    simp only [unitPlaces] at places
    omega
  rw [read, units_mul_one finite coarse, whole]

theorem toList_toString (natural : Nat) : (toString natural).toList = Nat.toDigits 10 natural :=
  Nat.toList_repr

theorem toList_toString_negSucc (less : Nat) :
    (toString (Int.negSucc less)).toList = '-' :: (toString (less + 1)).toList :=
  String.toList_append

theorem toString_ne_nil (natural : Nat) : (toString natural).toList ≠ [] := by
  rw [toList_toString]
  exact Nat.toDigits_ne_nil

theorem isDigit_of_mem_toString {natural : Nat} {digit : Char}
    (mem : digit ∈ (toString natural).toList) : digit.isDigit = true := by
  rw [toList_toString] at mem
  exact Nat.isDigit_of_mem_toDigits (by decide) (by decide) mem

/-- The digits of a whole number stand for it. -/
theorem digitsValue_toString (natural : Nat) : digitsValue (toString natural).toList = natural := by
  have value := @Nat.ofDigitChars_toDigits 10 natural (by decide) (by decide)
  rw [Nat.ofDigitChars_eq_foldl] at value
  rw [toList_toString]
  exact value

theorem ofDigits_toString (natural : Nat) :
    ofDigits (toString natural).toList [] = Float.ofNat natural :=
  congrArg Float.ofNat (digitsValue_toString natural)

/-! ### Integers as coordinates -/

variable {integer : Int} {axis : Char}

theorem nearest_of_units (whole : units number = integer * unitsPerOne) :
    Nearest number integer := by
  have some := unitsPerHalf_pos
  have halves := unitsPerOne_eq_two_halves
  constructor
  · omega
  · rw [whole, Int.add_mul]
    omega

theorem ne_belowHalf_of_units (whole : units number = integer * unitsPerOne) :
    number ≠ belowHalf := by
  rintro rfl
  obtain rfl := (nearest_of_units whole).unique nearest_belowHalf
  rw [Int.zero_mul] at whole
  have some : units belowHalf ≠ 0 := by decide +kernel
  exact some whole

end Number

open Number

/-- An integer of 32 bits is the coordinate that it stands for. -/
theorem toCoordinate_of_units {number : Float} {integer : Int}
    (whole : units number = integer * unitsPerOne) (atLeast : -2147483648 ≤ integer)
    (atMost : integer ≤ 2147483647) (axis : Char) :
    (Value.number number).toCoordinate axis = .ok (Int32.ofInt integer) := by
  have finite := isFinite_of_units whole (by omega)
  have rounds := (nearest_of_units whole).rounded_eq finite (ne_belowHalf_of_units whole)
    (by omega) atMost
  exact toCoordinate_of_inRange finite rounds atLeast atMost

end BlockScript
