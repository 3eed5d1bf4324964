import BlockScript.Proofs.Number.Decoding

/-!
# Rounding to a number

A sum is worked out exactly and then rounded.  Around a magnitude the numbers lie on a grid, a power
of two wide; a magnitude goes to the nearer of the two grid points around it, and to the even one
from halfway between them (`nearest`).  Addition is that and nothing else (`units_add`).  Rounding
keeps the order (`nearestUnits_mono`) and leaves numbers alone (`nearestUnits_of_representable`), so
no number ever lies between a sum and what it is rounded to.
-/

open Float.Model Float.Model.UnpackedFloat

namespace BlockScript.Number

/-! ### Cutting off binary places -/

/-- The quotient by a power of two, rounded to the nearest integer and from halfway to the even
one. -/
def roundedQuotient (units places : Nat) : Nat :=
  let quotient := units / 2 ^ places
  let rest := units % 2 ^ places
  if 2 * rest < 2 ^ places then quotient
  else if 2 * rest = 2 ^ places then quotient + quotient % 2
  else quotient + 1

/-- A significand after some of its places were shifted out.  The round bit tells whether the rest is
at least half, and the sticky bit whether it is neither nothing nor exactly half. -/
theorem shifted_eq (significand places : Nat) :
    ExtendedMantissa.ofMantissaAndAccuracy significand .exact >>> places =
      ⟨significand / 2 ^ places, decide (2 ^ places ≤ 2 * (significand % 2 ^ places)),
        decide (significand % 2 ^ places ≠ 0 ∧ 2 * (significand % 2 ^ places) ≠ 2 ^ places)⟩ := by
  change places.repeat ExtendedMantissa.shiftRightOne _ = _
  induction places with
  | zero => simp [Nat.repeat, Nat.mod_one, ExtendedMantissa.ofMantissaAndAccuracy]
  | succ places ih =>
    have width : 0 < 2 ^ places := Nat.two_pow_pos places
    have below := Nat.mod_lt significand width
    rw [Nat.repeat, ih, ExtendedMantissa.shiftRightOne, Nat.div_div_eq_div_mul, Nat.mod_pow_succ,
      Nat.pow_succ]
    have parity := Nat.mod_two_eq_zero_or_one (significand / 2 ^ places)
    congr 1
    · -- The last place of the quotient is the round bit now.
      rw [Bool.eq_iff_iff]
      rcases parity with even | odd
      · simp [even]
        omega
      · simp [odd]
        omega
    · -- The round bit from before is one of the places that the sticky bit stands for.
      rw [Bool.eq_iff_iff]
      rcases parity with even | odd
      · simp [even]
        omega
      · simp [odd]
        omega

/-- To round what was shifted is to round the quotient. -/
theorem roundedMantissa_shifted (significand places : Nat) :
    (ExtendedMantissa.ofMantissaAndAccuracy significand .exact >>> places).roundedMantissa =
      roundedQuotient significand places := by
  have width : 0 < 2 ^ places := Nat.two_pow_pos places
  rw [shifted_eq, ExtendedMantissa.roundedMantissa, roundedQuotient]
  generalize significand % 2 ^ places = rest
  rcases Nat.lt_trichotomy (2 * rest) (2 ^ places) with below | half | above
  · rw [if_pos below, decide_eq_false (Nat.not_le.mpr below)]
    -- Below half, the quotient stays, whether or not there is a rest.
    by_cases none : rest = 0
    · simp [none, ExtendedMantissa.accuracy, Accuracy.roundToNearestEven]
    · simp [none, Nat.ne_of_lt below, ExtendedMantissa.accuracy, Accuracy.roundToNearestEven]
  · simp [half, ExtendedMantissa.accuracy, Accuracy.roundToNearestEven]
  · have some : rest ≠ 0 := by omega
    rw [if_neg (by omega), if_neg (by omega)]
    simp [some, Nat.le_of_lt above, Nat.ne_of_gt above, ExtendedMantissa.accuracy,
      Accuracy.roundToNearestEven]

theorem roundedQuotient_bounds (units places : Nat) :
    units / 2 ^ places ≤ roundedQuotient units places ∧
      roundedQuotient units places ≤ units / 2 ^ places + 1 := by
  rw [roundedQuotient]
  split
  · omega
  · split <;> omega

theorem roundedQuotient_mono {low high : Nat} (atMost : low ≤ high) (places : Nat) :
    roundedQuotient low places ≤ roundedQuotient high places := by
  have quotients : low / 2 ^ places ≤ high / 2 ^ places := Nat.div_le_div_right atMost
  rcases Nat.lt_or_eq_of_le quotients with less | same
  · have lowBound := (roundedQuotient_bounds low places).2
    have highBound := (roundedQuotient_bounds high places).1
    omega
  · -- Over one quotient the rests are ordered, and so is what is added for them.
    have rests : low % 2 ^ places ≤ high % 2 ^ places := by
      have lowParts := Nat.div_add_mod low (2 ^ places)
      have highParts := Nat.div_add_mod high (2 ^ places)
      rw [same] at lowParts
      omega
    simp only [roundedQuotient, same]
    grind

theorem roundedQuotient_of_dvd {units places : Nat} (whole : 2 ^ places ∣ units) :
    roundedQuotient units places = units / 2 ^ places := by
  rw [roundedQuotient, if_pos]
  rw [Nat.mod_eq_zero_of_dvd whole]
  exact Nat.two_pow_pos places

theorem roundedQuotient_scale (units places more : Nat) :
    roundedQuotient (units * 2 ^ more) (places + more) = roundedQuotient units places := by
  have width : 0 < 2 ^ more := Nat.two_pow_pos more
  have below : 2 * (units % 2 ^ places * 2 ^ more) < 2 ^ places * 2 ^ more ↔
      2 * (units % 2 ^ places) < 2 ^ places := by
    rw [← Nat.mul_assoc, Nat.mul_lt_mul_right width]
  have half : 2 * (units % 2 ^ places * 2 ^ more) = 2 ^ places * 2 ^ more ↔
      2 * (units % 2 ^ places) = 2 ^ places := by
    rw [← Nat.mul_assoc, Nat.mul_left_inj (Nat.ne_of_gt width)]
  simp only [roundedQuotient, Nat.pow_add, Nat.mul_mod_mul_right, Nat.mul_div_mul_right _ _ width,
    below, half]

/-! ### The nearest number -/

/-- The numbers around a magnitude are the multiples of `2 ^ gridPlaces`. -/
def gridPlaces (units : Nat) : Nat :=
  units.log2 - 52

/-- The number nearest to a magnitude, and the even one of two that are equally near. -/
def nearest (units : Nat) : Nat :=
  roundedQuotient units (gridPlaces units) * 2 ^ gridPlaces units

/-- The magnitude of the nearest number.  A quotient that rounding made one place longer carries
over to the exponent field. -/
def nearestMagnitude (units : Nat) : Magnitude :=
  .ofBits (gridPlaces units * 2 ^ 52 + roundedQuotient units (gridPlaces units))

theorem two_pow_le_of_gridPlaces {units : Nat} (coarse : gridPlaces units ≠ 0) :
    2 ^ (52 + gridPlaces units) ≤ units := by
  have places : 52 + gridPlaces units = units.log2 := by
    simp only [gridPlaces] at coarse ⊢
    omega
  rw [places]
  apply Nat.log2_self_le
  rintro rfl
  simp [gridPlaces] at coarse

theorem lt_two_pow_gridPlaces (units : Nat) : units < 2 ^ (53 + gridPlaces units) :=
  Nat.lt_of_lt_of_le Nat.lt_log2_self
    (Nat.pow_le_pow_right Nat.two_pos (by simp only [gridPlaces]; omega))

theorem roundedQuotient_grid_le (units : Nat) :
    roundedQuotient units (gridPlaces units) ≤ 2 ^ 53 := by
  have quotient : units / 2 ^ gridPlaces units < 2 ^ 53 := by
    rw [Nat.div_lt_iff_lt_mul (Nat.two_pow_pos _), ← Nat.pow_add]
    exact lt_two_pow_gridPlaces units
  have := (roundedQuotient_bounds units (gridPlaces units)).2
  omega

theorem le_roundedQuotient_grid {units : Nat} (coarse : gridPlaces units ≠ 0) :
    2 ^ 52 ≤ roundedQuotient units (gridPlaces units) := by
  have quotient : 2 ^ 52 ≤ units / 2 ^ gridPlaces units := by
    rw [Nat.le_div_iff_mul_le (Nat.two_pow_pos _), ← Nat.pow_add]
    exact two_pow_le_of_gridPlaces coarse
  exact Nat.le_trans quotient (roundedQuotient_bounds units (gridPlaces units)).1

/-- The two forms of the magnitude: the quotient as significand, or its only value with 54 bits. -/
theorem nearestMagnitude_cases (units : Nat) :
    (roundedQuotient units (gridPlaces units) < 2 ^ 53 ∧
      nearestMagnitude units =
        ⟨roundedQuotient units (gridPlaces units), gridPlaces units⟩) ∨
    (roundedQuotient units (gridPlaces units) = 2 ^ 53 ∧
      nearestMagnitude units = ⟨2 ^ 52, gridPlaces units + 1⟩) := by
  have leading := @le_roundedQuotient_grid units
  rcases Nat.lt_or_eq_of_le (roundedQuotient_grid_le units) with fits | carries
  · have normal : Magnitude.Normal ⟨roundedQuotient units (gridPlaces units), gridPlaces units⟩ :=
      ⟨fits, leading⟩
    exact .inl ⟨fits, normal.ofBits_bits⟩
  · have normal : Magnitude.Normal ⟨2 ^ 52, gridPlaces units + 1⟩ := by
      constructor <;> simp
    have pattern : gridPlaces units * 2 ^ 52 + 2 ^ 53 =
        Magnitude.bits ⟨2 ^ 52, gridPlaces units + 1⟩ := by
      simp only [Magnitude.bits]
      omega
    rw [nearestMagnitude, carries, pattern, normal.ofBits_bits]
    exact .inr ⟨rfl, rfl⟩

theorem units_nearestMagnitude (units : Nat) : (nearestMagnitude units).units = nearest units := by
  rcases nearestMagnitude_cases units with ⟨_, same⟩ | ⟨carries, same⟩
  · rw [same, Magnitude.units_eq_mul, nearest]
  · rw [same, Magnitude.units_eq_mul, nearest, carries]
    simp only [Nat.pow_succ 2 (gridPlaces units)]
    omega

theorem normal_nearestMagnitude (units : Nat) : (nearestMagnitude units).Normal :=
  Magnitude.normal_ofBits _

/-! ### Rounding as it is carried out -/

theorem log2_mul_two_pow {significand : Nat} (some : significand ≠ 0) (shift : Nat) :
    (significand * 2 ^ shift).log2 = significand.log2 + shift := by
  have width : 0 < 2 ^ shift := Nat.two_pow_pos shift
  rw [Nat.log2_eq_iff (Nat.mul_ne_zero some (Nat.ne_of_gt width))]
  constructor
  · rw [Nat.pow_add]
    exact Nat.mul_le_mul_right _ (Nat.log2_self_le some)
  · rw [Nat.add_right_comm, Nat.pow_add]
    exact Nat.mul_lt_mul_of_pos_right Nat.lt_log2_self width

theorem targetExponent_eq (significand shift : Nat) :
    Format.binary64.targetExponent (totalExponent significand (shift - unitPlaces)) =
      (significand.log2 + shift - 52 : Nat) - unitPlaces := by
  have bits : Format.binary64.mantissaBits = 53 := rfl
  simp only [Format.targetExponent, totalExponent, bits, Format.minExponent, unitPlaces]
  omega

theorem shiftToTargetExponent_eq (significand shift : Nat) :
    shiftToTargetExponent .binary64 significand (shift - unitPlaces) .exact =
      (ExtendedMantissa.ofMantissaAndAccuracy significand .exact >>>
          (significand.log2 + shift - 52 - shift),
        ((max shift (significand.log2 + shift - 52) : Nat) : Int) - unitPlaces) := by
  have amount : (((significand.log2 + shift - 52 : Nat) - unitPlaces : Int) -
      (shift - unitPlaces)).toNat = significand.log2 + shift - 52 - shift := by
    omega
  simp only [shiftToTargetExponent, targetExponent_eq, shiftToExponent, amount]
  congr 1
  omega

/-- The shift behind rounding takes back a place that the quotient was carried into. -/
theorem shiftToTargetExponent_roundedQuotient (units : Nat) :
    (shiftToTargetExponent .binary64 (roundedQuotient units (gridPlaces units))
        (gridPlaces units - unitPlaces) .exact).1.mantissa = (nearestMagnitude units).significand ∧
      (shiftToTargetExponent .binary64 (roundedQuotient units (gridPlaces units))
        (gridPlaces units - unitPlaces) .exact).2 = (nearestMagnitude units).shift - unitPlaces := by
  simp only [shiftToTargetExponent_eq, shifted_eq]
  rcases nearestMagnitude_cases units with ⟨fits, same⟩ | ⟨carries, same⟩
  · rw [same]
    generalize roundedQuotient units (gridPlaces units) = rounded at fits ⊢
    have short : rounded.log2 ≤ 52 := by
      by_cases zero : rounded = 0
      · simp [zero]
      · exact Nat.le_of_lt_succ ((Nat.log2_lt zero).mpr fits)
    have inPlace : rounded.log2 + gridPlaces units - 52 ≤ gridPlaces units := by omega
    rw [Nat.sub_eq_zero_of_le inPlace, Nat.max_eq_left inPlace]
    simp
  · have onePlace : 53 + gridPlaces units - 52 = gridPlaces units + 1 := by omega
    rw [same, carries, Nat.log2_two_pow, onePlace, Nat.add_sub_cancel_left,
      Nat.max_eq_right (Nat.le_succ _)]
    simp

/-- Rounding shifts twice: once to the grid, and again in case the quotient was carried into another
place. -/
theorem roundWithAccuracy_of_shifts {sign : Sign} {significand rounded : Nat}
    {exponent place : Int} {accuracy : Accuracy} {magnitude : Magnitude}
    (first : (shiftToTargetExponent .binary64 significand exponent accuracy).1.roundedMantissa =
      rounded)
    (firstPlace : (shiftToTargetExponent .binary64 significand exponent accuracy).2 = place)
    (second : (shiftToTargetExponent .binary64 rounded place .exact).1.mantissa =
      magnitude.significand)
    (secondPlace : (shiftToTargetExponent .binary64 rounded place .exact).2 =
      magnitude.shift - unitPlaces) :
    roundWithAccuracy .binary64 sign significand exponent accuracy = magnitude.unpacked sign := by
  subst first firstPlace
  exact Magnitude.unpacked_eq second secondPlace

/-- A magnitude that is at least as fine as the grid goes to the nearest number. -/
theorem roundWithAccuracy_eq (sign : Sign) {significand shift : Nat} (some : significand ≠ 0)
    (fine : shift ≤ gridPlaces (significand * 2 ^ shift)) :
    roundWithAccuracy .binary64 sign significand (shift - unitPlaces) .exact =
      (nearestMagnitude (significand * 2 ^ shift)).unpacked sign := by
  have grid : significand.log2 + shift - 52 = gridPlaces (significand * 2 ^ shift) := by
    rw [gridPlaces, log2_mul_two_pow some]
  have quotient : roundedQuotient significand (gridPlaces (significand * 2 ^ shift) - shift) =
      roundedQuotient (significand * 2 ^ shift) (gridPlaces (significand * 2 ^ shift)) := by
    rw [← roundedQuotient_scale _ _ shift, Nat.sub_add_cancel fine]
  obtain ⟨mantissa, exponent⟩ :=
    shiftToTargetExponent_roundedQuotient (significand * 2 ^ shift)
  refine roundWithAccuracy_of_shifts ?_ ?_ mantissa exponent
  · rw [shiftToTargetExponent_eq, roundedMantissa_shifted, grid, quotient]
  · rw [shiftToTargetExponent_eq, grid, Nat.max_eq_right fine]

/-- Every magnitude goes to the nearest number; one that is coarser than the grid is refined
first. -/
theorem round_eq (sign : Sign) {significand : Nat} (some : significand ≠ 0) (shift : Nat) :
    UnpackedFloat.round .binary64 sign significand (shift - unitPlaces) =
      (nearestMagnitude (significand * 2 ^ shift)).unpacked sign := by
  have grid : significand.log2 + shift - 52 = gridPlaces (significand * 2 ^ shift) := by
    rw [gridPlaces, log2_mul_two_pow some]
  have refined : significand * 2 ^ (shift - gridPlaces (significand * 2 ^ shift)) *
      2 ^ min shift (gridPlaces (significand * 2 ^ shift)) = significand * 2 ^ shift := by
    rw [Nat.mul_assoc, ← Nat.pow_add]
    congr 2
    omega
  have amount : ((shift - unitPlaces : Int) -
      (gridPlaces (significand * 2 ^ shift) - unitPlaces)).toNat =
        shift - gridPlaces (significand * 2 ^ shift) := by
    omega
  have exponent : (shift - unitPlaces : Int) -
      (shift - gridPlaces (significand * 2 ^ shift) : Nat) =
        (min shift (gridPlaces (significand * 2 ^ shift)) : Nat) - unitPlaces := by
    omega
  have some' : significand * 2 ^ (shift - gridPlaces (significand * 2 ^ shift)) ≠ 0 :=
    Nat.mul_ne_zero some (Nat.ne_of_gt (Nat.two_pow_pos _))
  simp only [UnpackedFloat.round, targetExponent_eq, grid, decreaseExponent, amount, exponent,
    Nat.shiftLeft_eq]
  rw [roundWithAccuracy_eq sign some' (by rw [refined]; exact Nat.min_le_right _ _), refined]

/-! ### Numbers are left alone, and the order is kept -/

theorem nearest_of_dvd {units : Nat} (onGrid : 2 ^ gridPlaces units ∣ units) :
    nearest units = units := by
  rw [nearest, roundedQuotient_of_dvd onGrid, Nat.div_mul_cancel onGrid]

@[simp] theorem nearest_zero : nearest 0 = 0 :=
  nearest_of_dvd (Nat.dvd_zero _)

/-- What has at most 53 places above its last one is a number. -/
theorem nearest_of_lt {units places : Nat} (whole : 2 ^ places ∣ units)
    (bounded : units < 2 ^ (53 + places)) : nearest units = units := by
  by_cases zero : units = 0
  · rw [zero, nearest_zero]
  · have short : units.log2 < 53 + places := (Nat.log2_lt zero).mpr bounded
    have fine : gridPlaces units ≤ places := by
      simp only [gridPlaces]
      omega
    exact nearest_of_dvd (Nat.dvd_trans (Nat.pow_dvd_pow 2 fine) whole)

theorem gridPlaces_mono {low high : Nat} (atMost : low ≤ high) :
    gridPlaces low ≤ gridPlaces high := by
  by_cases fine : gridPlaces low = 0
  · omega
  · have below : 2 ^ (52 + gridPlaces low) < 2 ^ (53 + gridPlaces high) :=
      calc 2 ^ (52 + gridPlaces low)
          ≤ low := two_pow_le_of_gridPlaces fine
        _ ≤ high := atMost
        _ < 2 ^ (53 + gridPlaces high) := lt_two_pow_gridPlaces high
    have := (Nat.pow_lt_pow_iff_right (Nat.lt_add_one 1)).mp below
    omega

theorem nearest_mono {low high : Nat} (atMost : low ≤ high) : nearest low ≤ nearest high := by
  rcases Nat.lt_or_eq_of_le (gridPlaces_mono atMost) with finer | same
  · -- The last number on the finer grid is not above the first one on the coarser grid.
    calc nearest low
        ≤ 2 ^ 53 * 2 ^ gridPlaces low := Nat.mul_le_mul_right _ (roundedQuotient_grid_le low)
      _ = 2 ^ (53 + gridPlaces low) := (Nat.pow_add ..).symm
      _ ≤ 2 ^ (52 + gridPlaces high) := Nat.pow_le_pow_right Nat.two_pos (by omega)
      _ = 2 ^ 52 * 2 ^ gridPlaces high := Nat.pow_add ..
      _ ≤ nearest high := Nat.mul_le_mul_right _ (le_roundedQuotient_grid (by omega))
  · -- On one grid only the quotients are rounded.
    rw [nearest, nearest, same]
    exact Nat.mul_le_mul_right _ (roundedQuotient_mono atMost _)

theorem nearest_units {magnitude : Magnitude} (normal : magnitude.Normal) :
    nearest magnitude.units = magnitude.units := by
  apply nearest_of_lt _ normal.units_lt
  rw [Magnitude.units_eq_mul]
  exact Nat.dvd_mul_left _ _

/-- A whole number of units, rounded to the nearest number; what is too large is worth as much as
infinity. -/
def nearestUnits (units : Int) : Int :=
  units.sign * (min (nearest units.natAbs) Magnitude.infinite.units : Nat)

theorem nearestUnits_natCast (units : Nat) :
    nearestUnits units = (min (nearest units) Magnitude.infinite.units : Nat) := by
  rcases Nat.eq_zero_or_pos units with zero | positive
  · simp [zero, nearestUnits]
  · rw [nearestUnits, Int.sign_natCast_of_ne_zero (Nat.ne_of_gt positive), Int.one_mul,
      Int.natAbs_natCast]

theorem nearestUnits_neg (units : Int) : nearestUnits (-units) = -nearestUnits units := by
  rw [nearestUnits, nearestUnits, Int.sign_neg, Int.natAbs_neg, Int.neg_mul]

theorem nearestUnits_apply (sign : Sign) (units : Nat) :
    nearestUnits (sign.apply units) =
      sign.apply (min (nearest units) Magnitude.infinite.units : Nat) := by
  cases sign with
  | negative => rw [Sign.apply, nearestUnits_neg, nearestUnits_natCast, Sign.apply]
  | positive => exact nearestUnits_natCast units

theorem nearestUnits_mono {low high : Int} (atMost : low ≤ high) :
    nearestUnits low ≤ nearestUnits high := by
  have upward : ∀ {low high : Nat}, low ≤ high → nearestUnits low ≤ nearestUnits high := by
    intro low high atMost
    rw [nearestUnits_natCast, nearestUnits_natCast]
    have := nearest_mono atMost
    omega
  have nonnegative : ∀ units : Nat, 0 ≤ nearestUnits units := by
    intro units
    rw [nearestUnits_natCast]
    exact Int.natCast_nonneg _
  -- Below zero the order of the magnitudes is reversed, and so is that of the results.
  rcases Int.le_total 0 low with lowPositive | lowNegative
  · obtain ⟨lowUnits, rfl⟩ := Int.eq_ofNat_of_zero_le lowPositive
    obtain ⟨highUnits, rfl⟩ := Int.eq_ofNat_of_zero_le (Int.le_trans lowPositive atMost)
    exact upward (Int.ofNat_le.mp atMost)
  · obtain ⟨lowUnits, rfl⟩ := Int.exists_eq_neg_ofNat lowNegative
    rw [nearestUnits_neg]
    rcases Int.le_total 0 high with highPositive | highNegative
    · obtain ⟨highUnits, rfl⟩ := Int.eq_ofNat_of_zero_le highPositive
      exact Int.le_trans (Int.neg_nonpos_of_nonneg (nonnegative lowUnits)) (nonnegative highUnits)
    · obtain ⟨highUnits, rfl⟩ := Int.exists_eq_neg_ofNat highNegative
      rw [nearestUnits_neg]
      exact Int.neg_le_neg (upward (by omega))

/-- Numbers of units that a finite number is worth, and the first power of two that is too large. -/
def Representable (units : Int) : Prop :=
  ∃ places < Magnitude.infinite.shift,
    ((2 ^ places : Nat) : Int) ∣ units ∧ units.natAbs ≤ 2 ^ (53 + places)

theorem nearestUnits_of_representable {units : Int} (exact : Representable units) :
    nearestUnits units = units := by
  obtain ⟨places, inRange, whole, bounded⟩ := exact
  have same : nearest units.natAbs = units.natAbs := by
    rcases Nat.lt_or_eq_of_le bounded with below | power
    · exact nearest_of_lt (Int.ofNat_dvd_left.mp whole) below
    · -- The power of two has one place more and is its own last one.
      rw [power]
      apply nearest_of_lt (Nat.dvd_refl _)
      exact Nat.pow_lt_pow_right (Nat.lt_add_one 1) (by omega)
  have fits : units.natAbs ≤ Magnitude.infinite.units := by
    rw [Magnitude.units_infinite]
    exact Nat.le_trans bounded (Nat.pow_le_pow_right Nat.two_pos (by omega))
  rw [nearestUnits, same, Nat.min_eq_left fits, Int.sign_mul_natAbs]

/-! ### Addition -/

theorem apply_zero (sign : Sign) : sign.apply (0 : Nat) = 0 := by
  cases sign <;> rfl

theorem apply_mul (sign : Sign) (units factor : Int) :
    sign.apply units * factor = sign.apply (units * factor) := by
  cases sign with
  | negative => exact Int.neg_mul ..
  | positive => rfl

theorem units_pack_round (sign : Sign) {significand : Nat} (some : significand ≠ 0) (shift : Nat) :
    units (.ofModel (.pack (UnpackedFloat.round .binary64 sign significand (shift - unitPlaces)))) =
      nearestUnits (sign.apply (significand * 2 ^ shift : Nat)) := by
  rw [round_eq sign some, units_pack sign (normal_nearestMagnitude _), units_nearestMagnitude,
    nearestUnits_apply]

theorem units_pack_zero (sign : Sign) : units (.ofModel (.pack (.zero sign))) = 0 := by
  have normal : Magnitude.Normal ⟨0, 0⟩ := by
    constructor <;> simp
  rw [← @Magnitude.unpacked_of_zero ⟨0, 0⟩ rfl sign, units_pack sign normal,
    Magnitude.units_of_zero rfl, Nat.zero_min, apply_zero]

theorem units_pack_normalize (significand : Int) (shift : Nat) :
    units (.ofModel (.pack
        (UnpackedFloat.normalize .binary64 significand (shift - unitPlaces) .positive))) =
      nearestUnits (significand * (2 ^ shift : Nat)) := by
  rw [UnpackedFloat.normalize]
  rcases Int.lt_trichotomy significand 0 with negative | zero | positive
  · obtain ⟨size, rfl⟩ := Int.exists_eq_neg_ofNat (Int.le_of_lt negative)
    rw [Int.compare_eq_lt.mpr negative]
    simp only [Int.neg_neg, Int.toNat_natCast]
    rw [units_pack_round _ (by omega), Sign.apply, Int.natCast_mul, Int.neg_mul]
  · rw [Int.compare_eq_eq.mpr zero, zero, Int.zero_mul]
    exact units_pack_zero .positive
  · obtain ⟨size, rfl⟩ := Int.eq_ofNat_of_zero_le (Int.le_of_lt positive)
    rw [Int.compare_eq_gt.mpr positive]
    simp only [Int.toNat_natCast]
    rw [units_pack_round _ (by omega), Sign.apply, Int.natCast_mul]

/-- A refined significand stands for the same magnitude. -/
theorem decreaseExponent_eq (magnitude : Magnitude) {shift : Nat} (finer : shift ≤ magnitude.shift) :
    (decreaseExponent magnitude.significand (magnitude.shift - unitPlaces)
      (shift - unitPlaces)).1 * 2 ^ shift = magnitude.units := by
  have amount : ((magnitude.shift - unitPlaces : Int) - (shift - unitPlaces)).toNat =
      magnitude.shift - shift := by
    omega
  rw [decreaseExponent, amount, Magnitude.units_eq_mul, Nat.shiftLeft_eq, Nat.mul_assoc,
    ← Nat.pow_add, Nat.sub_add_cancel finer]

/-- Other numbers than zeros are refined to the smaller exponent and added there. -/
theorem add_finite (first second : Sign) {left right : Nat} (place other : Int)
    (leftPos : 0 < left) (rightPos : 0 < right) :
    UnpackedFloat.add .binary64 (.finite first left place leftPos)
        (.finite second right other rightPos) =
      normalize .binary64
        (first.apply (decreaseExponent left place (min place other)).1 +
          second.apply (decreaseExponent right other (min place other)).1)
        (min place other) .positive :=
  rfl

/-- Addition of unpacked numbers, its shortcuts for zeros included. -/
theorem units_pack_add (leftSign rightSign : Sign) {left right : Magnitude}
    (leftNormal : left.Normal) (rightNormal : right.Normal) :
    units (.ofModel (.pack
        (UnpackedFloat.add .binary64 (left.unpacked leftSign) (right.unpacked rightSign)))) =
      nearestUnits (leftSign.apply left.units + rightSign.apply right.units) := by
  by_cases leftZero : left.significand = 0
  · rw [Magnitude.units_of_zero leftZero, apply_zero, Int.zero_add]
    by_cases rightZero : right.significand = 0
    · rw [Magnitude.units_of_zero rightZero, apply_zero, Magnitude.unpacked_of_zero leftZero,
        Magnitude.unpacked_of_zero rightZero]
      cases leftSign <;> cases rightSign <;> exact units_pack_zero _
    · rw [nearestUnits_apply, nearest_units rightNormal, ← units_pack rightSign rightNormal,
        Magnitude.unpacked_of_zero leftZero, Magnitude.unpacked_of_ne_zero rightZero]
      rfl
  · by_cases rightZero : right.significand = 0
    · rw [Magnitude.units_of_zero rightZero, apply_zero, Int.add_zero, nearestUnits_apply,
        nearest_units leftNormal, ← units_pack leftSign leftNormal,
        Magnitude.unpacked_of_ne_zero leftZero, Magnitude.unpacked_of_zero rightZero]
      rfl
    · -- Both significands are refined to the smaller shift, and the sum is that of the units.
      have smaller : min (left.shift - unitPlaces : Int) (right.shift - unitPlaces) =
          (min left.shift right.shift : Nat) - unitPlaces := by
        omega
      have leftUnits := decreaseExponent_eq left (Nat.min_le_left left.shift right.shift)
      have rightUnits := decreaseExponent_eq right (Nat.min_le_right left.shift right.shift)
      rw [Magnitude.unpacked_of_ne_zero leftZero, Magnitude.unpacked_of_ne_zero rightZero,
        add_finite, smaller, units_pack_normalize, Int.add_mul, apply_mul, apply_mul,
        ← Int.natCast_mul, ← Int.natCast_mul, leftUnits, rightUnits]

/-- A sum of finite numbers is the exact sum, rounded to the nearest number. -/
theorem units_add {left right : Float} (leftFinite : left.isFinite) (rightFinite : right.isFinite) :
    units (left + right) = nearestUnits (units left + units right) := by
  have sum : left + right = .ofModel (.pack
      (UnpackedFloat.add .binary64 left.toModel.unpack right.toModel.unpack)) :=
    rfl
  rw [sum, unpack_of_isFinite leftFinite, unpack_of_isFinite rightFinite,
    units_pack_add _ _ (normal_magnitude left) (normal_magnitude right), units_eq, units_eq]

end BlockScript.Number
