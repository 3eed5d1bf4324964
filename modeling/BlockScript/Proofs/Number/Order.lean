import BlockScript.Proofs.Number.Decoding
import Mathlib.Algebra.Order.Group.Unbundled.Int
import Mathlib.Order.Monotone.Basic

/-!
# Numbers in order

Finite numbers compare as what they are worth in units: the exponents decide, and where they are the
same the significands (`compare_unpack`).  So both zeros are equal, and all other finite numbers are
equal to themselves alone.  An infinity is equal to the one of its sign, and what is not a number to
nothing (`beq_of_isNaN`).
-/

open Float.Model Float.Model.UnpackedFloat

namespace BlockScript.Number

/-! ### Magnitudes -/

namespace Magnitude

variable {left right : Magnitude}

/-- A normal magnitude is worth something if it has a significand. -/
theorem units_pos (some : left.significand ≠ 0) : 0 < left.units := by
  rw [units_eq_mul]
  exact Nat.mul_pos (Nat.pos_of_ne_zero some) (Nat.two_pow_pos _)

/-- A longer shift is worth more, whatever the significands are. -/
theorem Normal.units_lt_of_shift_lt (leftNormal : left.Normal) (rightNormal : right.Normal)
    (less : left.shift < right.shift) : left.units < right.units := by
  have bounded := leftNormal.bounded
  have leading := rightNormal.leading (by omega)
  refine leftNormal.units_lt_units rightNormal ?_
  simp only [bits]
  omega

theorem Normal.compare_units (leftNormal : left.Normal) (rightNormal : right.Normal) :
    compare left.units right.units =
      (compare (left.shift - unitPlaces : Int) (right.shift - unitPlaces)).then
        (compare left.significand right.significand) := by
  rcases Nat.lt_trichotomy left.shift right.shift with less | same | more
  · have shifts : (left.shift - unitPlaces : Int) < right.shift - unitPlaces := by omega
    rw [compare_lt_iff_lt.mpr shifts,
      compare_lt_iff_lt.mpr (leftNormal.units_lt_of_shift_lt rightNormal less)]
    rfl
  · -- Over one shift it is the significands that are compared.
    have shifts : (left.shift - unitPlaces : Int) = right.shift - unitPlaces := by omega
    rw [compare_eq_iff_eq.mpr shifts, units_eq_mul, units_eq_mul, same]
    have scales : StrictMono fun significand : Nat => significand * 2 ^ right.shift :=
      fun _ _ less => Nat.mul_lt_mul_of_pos_right less (Nat.two_pow_pos _)
    change _ = compare left.significand right.significand
    rw [← cmp_eq_compare, ← cmp_eq_compare]
    exact scales.cmp_map_eq left.significand right.significand
  · have shifts : (right.shift - unitPlaces : Int) < left.shift - unitPlaces := by omega
    rw [compare_gt_iff_gt.mpr shifts,
      compare_gt_iff_gt.mpr (rightNormal.units_lt_of_shift_lt leftNormal more)]
    rfl

/-- The magnitude of what is worth the same is the same. -/
theorem Normal.eq_of_units_eq (leftNormal : left.Normal) (rightNormal : right.Normal)
    (same : left.units = right.units) : left = right := by
  refine leftNormal.eq_of_bits_eq rightNormal ?_
  rcases Nat.lt_trichotomy left.bits right.bits with less | equal | more
  · exact absurd same (Nat.ne_of_lt (leftNormal.units_lt_units rightNormal less))
  · exact equal
  · exact absurd same (Nat.ne_of_gt (rightNormal.units_lt_units leftNormal more))

end Magnitude

/-! ### Finite numbers -/

theorem compare_natCast (first second : Nat) : compare (first : Int) second = compare first second := by
  rw [← cmp_eq_compare, ← cmp_eq_compare]
  exact Int.natCast_strictMono.cmp_map_eq first second

theorem compare_neg (first second : Int) : compare (-first) (-second) = (compare first second).swap := by
  have falls : StrictAnti (fun integer : Int => -integer) := fun _ _ less => Int.neg_lt_neg less
  rw [← cmp_eq_compare, ← cmp_eq_compare, cmp_swap]
  exact falls.cmp_map_eq first second

/-- A zero compares as nothing does. -/
theorem compare_zero {magnitude : Magnitude} (first second : Sign) :
    (zero first).compare (magnitude.unpacked second) =
        some (compare 0 (second.apply magnitude.units)) ∧
      (magnitude.unpacked second).compare (zero first) =
        some (compare (second.apply magnitude.units) 0) := by
  by_cases nothing : magnitude.significand = 0
  · rw [Magnitude.unpacked_of_zero nothing, Magnitude.units_of_zero nothing]
    cases first <;> cases second <;> exact ⟨rfl, rfl⟩
  · have worth : (0 : Int) < magnitude.units :=
      Int.natCast_pos.mpr (Magnitude.units_pos nothing)
    have below : -(magnitude.units : Int) < 0 := Int.neg_neg_of_pos worth
    rw [Magnitude.unpacked_of_ne_zero nothing]
    -- The sign of what is not zero decides.
    cases second with
    | negative =>
      rw [Sign.apply, compare_lt_iff_lt.mpr below, compare_gt_iff_gt.mpr below]
      exact ⟨rfl, rfl⟩
    | positive =>
      rw [Sign.apply, compare_lt_iff_lt.mpr worth, compare_gt_iff_gt.mpr worth]
      exact ⟨rfl, rfl⟩

/-- Unpacked numbers compare as what they are worth. -/
theorem compare_unpacked {left right : Magnitude} (leftNormal : left.Normal)
    (rightNormal : right.Normal) (first second : Sign) :
    (left.unpacked first).compare (right.unpacked second) =
      some (compare (first.apply left.units) (second.apply right.units)) := by
  have apply_zero (sign : Sign) : sign.apply (0 : Nat) = 0 := by cases sign <;> rfl
  by_cases leftZero : left.significand = 0
  · rw [Magnitude.unpacked_of_zero leftZero, Magnitude.units_of_zero leftZero, apply_zero]
    exact (compare_zero first second).1
  · by_cases rightZero : right.significand = 0
    · rw [Magnitude.unpacked_of_zero rightZero, Magnitude.units_of_zero rightZero, apply_zero]
      exact (compare_zero second first).2
    · have leftWorth : (0 : Int) < left.units := Int.natCast_pos.mpr (Magnitude.units_pos leftZero)
      have rightWorth : (0 : Int) < right.units :=
        Int.natCast_pos.mpr (Magnitude.units_pos rightZero)
      rw [Magnitude.unpacked_of_ne_zero leftZero, Magnitude.unpacked_of_ne_zero rightZero]
      cases first <;> cases second
      all_goals rw [Sign.apply, Sign.apply]
      · rw [compare_neg, compare_natCast, leftNormal.compare_units rightNormal]
        rfl
      · rw [compare_lt_iff_lt.mpr (by omega)]
        rfl
      · rw [compare_gt_iff_gt.mpr (by omega)]
        rfl
      · rw [compare_natCast, leftNormal.compare_units rightNormal]
        rfl

variable {left right : Float}

theorem compare_unpack (leftFinite : left.isFinite) (rightFinite : right.isFinite) :
    left.toModel.unpack.compare right.toModel.unpack = some (compare (units left) (units right)) := by
  rw [unpack_of_isFinite leftFinite, unpack_of_isFinite rightFinite,
    compare_unpacked (normal_magnitude left) (normal_magnitude right), units_eq, units_eq]

theorem lt_iff_units (leftFinite : left.isFinite) (rightFinite : right.isFinite) :
    left < right ↔ units left < units right := by
  change Float.lt left right = true ↔ _
  rw [Float.lt, decide_eq_true_iff]
  change left.toModel.unpack.lt right.toModel.unpack = true ↔ _
  rw [UnpackedFloat.lt, compare_unpack leftFinite rightFinite, beq_iff_eq, Option.some_inj,
    compare_lt_iff_lt]

theorem beq_eq (left right : Float) :
    (left == right) = (left.toModel.unpack.compare right.toModel.unpack == some .eq) :=
  rfl

theorem beq_iff_units (leftFinite : left.isFinite) (rightFinite : right.isFinite) :
    (left == right) = true ↔ units left = units right := by
  rw [beq_eq, compare_unpack leftFinite rightFinite, beq_iff_eq, Option.some_inj,
    compare_eq_iff_eq]

/-- An integer tells its size, and its sign unless it is zero. -/
theorem eq_of_apply_eq {first second : Sign} {size other : Nat}
    (same : first.apply size = second.apply other) : size = other ∧ (size ≠ 0 → first = second) := by
  cases first <;> cases second <;> simp only [Sign.apply] at same <;>
    exact ⟨by omega, fun _ => by first | rfl | omega⟩

/-- Finite numbers of the same worth are the same number, unless both are zeros. -/
theorem eq_of_units_eq (same : units left = units right) (some : units left ≠ 0) : left = right := by
  rw [units_eq, units_eq] at same
  obtain ⟨sizes, signs⟩ := eq_of_apply_eq same
  have size : (magnitude left).units ≠ 0 := by
    intro nothing
    rw [units_eq, nothing] at some
    cases signed : sign left <;> simp [signed, Sign.apply] at some
  exact eq_of_sign_magnitude (signs size)
    ((normal_magnitude left).eq_of_units_eq (normal_magnitude right) sizes)

/-! ### Other numbers -/

/-- What a number can be, and what it unpacks to if it is not finite. -/
inductive Kind (number : Float) : Prop where
  | nan : number.toModel.unpack = .notANumber → number.isNaN = true → number.isFinite = false →
      Kind number
  | infinite : number.toModel.unpack = .infinity (sign number) → number.isNaN = false →
      number.isInf = true → number.isFinite = false → Kind number
  | finite : number.isNaN = false → number.isInf = false → number.isFinite = true → Kind number

/-- An infinity has the sign of its sign bit. -/
theorem sign_of_unpack {number : Float} {infinite : Sign}
    (unpacked : number.toModel.unpack = .infinity infinite) : sign number = infinite := by
  -- What is below infinity unpacks to a finite number.
  have large : ¬(magnitude number).bits < Magnitude.infinite.bits := by
    rw [← isFinite_iff]
    change ¬number.toModel.unpack.isFinite = true
    rw [unpacked]
    exact Bool.false_ne_true
  rw [bits_magnitude, Nat.not_lt] at large
  change UnpackedFloat.unpack .binary64 number.toBits.toBitVec = _ at unpacked
  rw [unpack_of_le _ large] at unpacked
  split at unpacked
  · rw [ofBitVec_unpackSign] at unpacked
    rw [sign_eq]
    exact UnpackedFloat.infinity.inj unpacked
  · cases unpacked

theorem kind (number : Float) : Kind number := by
  have nan : number.isNaN = number.toModel.unpack.isNaN := rfl
  have infinite : number.isInf = number.toModel.unpack.isInf := rfl
  have finite : number.isFinite = number.toModel.unpack.isFinite := rfl
  cases unpacked : number.toModel.unpack with
  | notANumber =>
    rw [unpacked] at nan finite
    exact .nan unpacked nan finite
  | infinity infinity =>
    rw [unpacked] at nan infinite finite
    exact .infinite (by rw [sign_of_unpack unpacked, unpacked]) nan infinite finite
  | zero | finite =>
    rw [unpacked] at nan infinite finite
    exact .finite nan infinite finite

/-- What is not a number is equal to nothing. -/
theorem beq_of_isNaN (nan : left.isNaN = true ∨ right.isNaN = true) : (left == right) = false := by
  rw [beq_eq]
  rcases nan with nan | nan
  · cases kind left with
    | nan unpacked =>
      rw [unpacked]
      rfl
    | infinite _ number | finite number => rw [nan] at number; cases number
  · cases kind right with
    | nan unpacked =>
      rw [unpacked]
      cases left.toModel.unpack <;> rfl
    | infinite _ number | finite number => rw [nan] at number; cases number

theorem compare_infinity (first second : Sign) :
    ((infinity first).compare (infinity second) == some .eq) = true ↔ first = second := by
  cases first <;> cases second
  case negative.negative | positive.positive => exact iff_of_true rfl rfl
  case negative.positive | positive.negative => exact iff_of_false Bool.false_ne_true nofun

/-- No infinity is equal to a finite number. -/
theorem compare_infinity_isFinite (infinite : Sign) {number : UnpackedFloat}
    (finite : number.isFinite = true) :
    ((infinity infinite).compare number == some .eq) = false ∧
      (number.compare (infinity infinite) == some .eq) = false := by
  cases number with
  | notANumber | infinity => cases finite
  | zero | finite => cases infinite <;> exact ⟨rfl, rfl⟩

end BlockScript.Number
