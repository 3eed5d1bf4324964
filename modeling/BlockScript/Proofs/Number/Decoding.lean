import BlockScript.Number.Units
import Mathlib.Algebra.Group.Nat.Defs

/-!
# Numbers as bits

A finite number is a sign and a magnitude, and its bits are the sign bit and the bits of the
magnitude.  Here both directions are tied to the unpacked form on which arithmetic is done: a
finite number unpacks to its sign and magnitude (`unpack_of_isFinite`), and what is packed is worth
what went in, up to the first power of two that is too large (`units_pack`).  The greatest integer
below a number is a quotient of its units (`floor_eq`).
-/

open Float.Model Float.Model.UnpackedFloat

namespace BlockScript.Number

/-! ### The three fields of a bit pattern -/

section Fields

variable (bits : BitVec Format.binary64.numBits)

theorem toNat_unpackMantissa : (unpackMantissa bits).toNat = bits.toNat % 2 ^ 52 := by
  change (bits.extractLsb 51 0).toNat = _
  simp [BitVec.extractLsb_toNat]

theorem toNat_unpackExponent : (unpackExponent bits).toNat = bits.toNat / 2 ^ 52 % 2 ^ 11 := by
  change (bits.extractLsb 62 52).toNat = _
  simp [BitVec.extractLsb_toNat, Nat.shiftRight_eq_div_pow]

theorem toNat_unpackSign : (unpackSign bits).toNat = bits.toNat / 2 ^ 63 := by
  have bounded : bits.toNat < 2 ^ 64 := bits.isLt
  change (bits.extractLsb 63 63).toNat = _
  simp [BitVec.extractLsb_toNat, Nat.shiftRight_eq_div_pow]
  omega

end Fields

theorem toNat_packComponents (sign : Sign) (exponent : BitVec 11) (mantissa : BitVec 52) :
    (packComponents .binary64 sign exponent mantissa).toNat =
      sign.toBitVec.toNat * 2 ^ 63 + exponent.toNat * 2 ^ 52 + mantissa.toNat := by
  have exponentBound := exponent.isLt
  have mantissaBound := mantissa.isLt
  simp only [packComponents, BitVec.toNat_append]
  rw [← Nat.shiftLeft_add_eq_or_of_lt exponentBound, ← Nat.shiftLeft_add_eq_or_of_lt mantissaBound]
  simp only [Nat.shiftLeft_eq]
  omega

/-! ### Magnitudes and their bits -/

namespace Magnitude

/-- At most 53 bits, and all of them wherever the significand is shifted: the form in which every
value has one magnitude. -/
structure Normal (magnitude : Magnitude) : Prop where
  bounded : magnitude.significand < 2 ^ 53
  leading : magnitude.shift ≠ 0 → 2 ^ 52 ≤ magnitude.significand

/-- The bits of a normal magnitude.  Its leading one, if it has one, adds itself to the exponent
field. -/
def bits (magnitude : Magnitude) : Nat :=
  magnitude.shift * 2 ^ 52 + magnitude.significand

/-- The bits of infinity, read as a magnitude: the first power of two that is too large. -/
def infinite : Magnitude :=
  ⟨2 ^ 52, 2046⟩

theorem ofBits_of_lt {bits : Nat} (small : bits < 2 ^ 52) : ofBits bits = ⟨bits, 0⟩ :=
  if_pos (Nat.div_eq_of_lt small)

theorem ofBits_of_le {bits : Nat} (large : 2 ^ 52 ≤ bits) :
    ofBits bits = ⟨bits % 2 ^ 52 + 2 ^ 52, bits / 2 ^ 52 - 1⟩ :=
  if_neg (Nat.ne_of_gt (Nat.div_pos large (Nat.two_pow_pos 52)))

theorem normal_ofBits (bits : Nat) : (ofBits bits).Normal := by
  rcases Nat.lt_or_ge bits (2 ^ 52) with small | large
  · rw [ofBits_of_lt small]
    exact ⟨Nat.lt_trans small (by decide), fun shifted => absurd rfl shifted⟩
  · rw [ofBits_of_le large]
    exact ⟨by simp only; omega, fun _ => Nat.le_add_left ..⟩

@[simp] theorem bits_ofBits (bits : Nat) : (ofBits bits).bits = bits := by
  rcases Nat.lt_or_ge bits (2 ^ 52) with small | large
  · simp [ofBits_of_lt small, Magnitude.bits]
  · simp only [ofBits_of_le large, Magnitude.bits]
    omega

theorem Normal.ofBits_bits {magnitude : Magnitude} (normal : magnitude.Normal) :
    ofBits magnitude.bits = magnitude := by
  obtain ⟨bounded, leading⟩ := normal
  obtain ⟨significand, shift⟩ := magnitude
  simp only at bounded leading
  rcases Nat.lt_or_ge (shift * 2 ^ 52 + significand) (2 ^ 52) with small | large
  · rw [Magnitude.bits, ofBits_of_lt small]
    simp
    omega
  · rw [Magnitude.bits, ofBits_of_le large]
    simp
    omega

theorem Normal.eq_of_bits_eq {left right : Magnitude} (leftNormal : left.Normal)
    (rightNormal : right.Normal) (same : left.bits = right.bits) : left = right := by
  rw [← leftNormal.ofBits_bits, same, rightNormal.ofBits_bits]

theorem Normal.bits_lt_infinite {magnitude : Magnitude} (normal : magnitude.Normal) :
    magnitude.bits < infinite.bits ↔ magnitude.shift < infinite.shift := by
  obtain ⟨bounded, leading⟩ := normal
  simp only [bits, infinite]
  omega

theorem normal_infinite : infinite.Normal := by
  constructor <;> simp [infinite]

theorem units_eq_mul (magnitude : Magnitude) :
    magnitude.units = magnitude.significand * 2 ^ magnitude.shift :=
  Nat.shiftLeft_eq ..

theorem units_of_zero {magnitude : Magnitude} (zero : magnitude.significand = 0) :
    magnitude.units = 0 := by
  rw [units_eq_mul, zero, Nat.zero_mul]

theorem units_leadingOne (shift : Nat) : units ⟨2 ^ 52, shift⟩ = 2 ^ (52 + shift) := by
  rw [units_eq_mul, Nat.pow_add]

theorem units_infinite : infinite.units = 2 ^ (52 + infinite.shift) :=
  units_leadingOne infinite.shift

theorem Normal.units_lt {magnitude : Magnitude} (normal : magnitude.Normal) :
    magnitude.units < 2 ^ (53 + magnitude.shift) := by
  rw [units_eq_mul, Nat.pow_add]
  exact Nat.mul_lt_mul_of_pos_right normal.bounded (Nat.two_pow_pos _)

theorem Normal.le_units {magnitude : Magnitude} (normal : magnitude.Normal)
    (shifted : magnitude.shift ≠ 0) : 2 ^ (52 + magnitude.shift) ≤ magnitude.units := by
  rw [units_eq_mul, Nat.pow_add]
  exact Nat.mul_le_mul_right _ (normal.leading shifted)

/-- Patterns are ordered as the magnitudes they stand for. -/
theorem Normal.units_lt_units {low high : Magnitude} (lowNormal : low.Normal)
    (highNormal : high.Normal) (less : low.bits < high.bits) : low.units < high.units := by
  have lowBounded := lowNormal.bounded
  have highBounded := highNormal.bounded
  simp only [bits] at less
  rcases Nat.lt_trichotomy low.shift high.shift with shorter | same | longer
  · calc low.units
        < 2 ^ (53 + low.shift) := lowNormal.units_lt
      _ ≤ 2 ^ (52 + high.shift) := Nat.pow_le_pow_right Nat.two_pos (by omega)
      _ ≤ high.units := highNormal.le_units (by omega)
  · rw [units_eq_mul, units_eq_mul, same]
    exact Nat.mul_lt_mul_of_pos_right (by omega) (Nat.two_pow_pos _)
  · -- A longer shift is one more in the exponent field, which no significand makes up for.
    have full : 2 ^ 52 ≤ low.significand := lowNormal.leading (by omega)
    omega

theorem Normal.units_le_units {low high : Magnitude} (lowNormal : low.Normal)
    (highNormal : high.Normal) (atMost : low.bits ≤ high.bits) : low.units ≤ high.units := by
  rcases Nat.lt_or_eq_of_le atMost with less | same
  · exact Nat.le_of_lt (lowNormal.units_lt_units highNormal less)
  · exact Nat.le_of_eq (congrArg units (lowNormal.eq_of_bits_eq highNormal same))

/-- The unpacked number with a given sign and magnitude. -/
def unpacked (sign : Sign) (magnitude : Magnitude) : UnpackedFloat :=
  if zero : magnitude.significand = 0 then .zero sign
  else .finite sign magnitude.significand (magnitude.shift - unitPlaces) (Nat.pos_of_ne_zero zero)

theorem unpacked_of_zero {magnitude : Magnitude} (zero : magnitude.significand = 0) (sign : Sign) :
    magnitude.unpacked sign = .zero sign :=
  dif_pos zero

theorem unpacked_of_ne_zero {magnitude : Magnitude} (some : magnitude.significand ≠ 0)
    (sign : Sign) :
    magnitude.unpacked sign = .finite sign magnitude.significand (magnitude.shift - unitPlaces)
      (Nat.pos_of_ne_zero some) :=
  dif_neg some

/-- Whatever is computed with the significand and the exponent of a magnitude is that magnitude,
unpacked. -/
theorem unpacked_eq {sign : Sign} {magnitude : Magnitude} {significand : Nat} {exponent : Int}
    (same : significand = magnitude.significand)
    (place : exponent = magnitude.shift - unitPlaces) :
    (if zero : significand = 0 then .zero sign
      else .finite sign significand exponent (Nat.pos_of_ne_zero zero)) =
        magnitude.unpacked sign := by
  subst same place
  rfl

end Magnitude

/-! ### Unpacking -/

section Unpacking

variable (bits : BitVec Format.binary64.numBits)

theorem unpackExponent_eq_iff (field : BitVec 11) :
    unpackExponent bits = field ↔ bits.toNat / 2 ^ 52 % 2 ^ 11 = field.toNat := by
  rw [← BitVec.toNat_inj, toNat_unpackExponent]

theorem ofBitVec_unpackSign :
    Sign.ofBitVec (unpackSign bits) =
      if bits.toNat / 2 ^ 63 = 0 then .positive else .negative := by
  simp only [Sign.ofBitVec, ← BitVec.toNat_inj, toNat_unpackSign]
  rfl

theorem toNat_append_leadingOne (mantissa : BitVec 52) :
    (1#1 ++ mantissa).toNat = mantissa.toNat + 2 ^ 52 := by
  rw [BitVec.toNat_append, ← Nat.shiftLeft_add_eq_or_of_lt mantissa.isLt, Nat.add_comm]
  rfl

/-- Without an exponent the mantissa stands for itself. -/
theorem unpack_of_subnormal (small : bits.toNat % 2 ^ 63 < 2 ^ 52) :
    UnpackedFloat.unpack .binary64 bits =
      Magnitude.unpacked (.ofBitVec (unpackSign bits)) ⟨bits.toNat % 2 ^ 63, 0⟩ := by
  have mantissa := toNat_unpackMantissa bits
  have subnormal : unpackExponent bits = 0#11 := by
    rw [unpackExponent_eq_iff]
    simp
    omega
  have notAllOnes : ¬unpackExponent bits = -1#11 := by
    rw [subnormal]
    decide
  have same : (unpackMantissa bits).toNat = bits.toNat % 2 ^ 63 := by omega
  have zero_iff : unpackMantissa bits = 0#52 ↔ bits.toNat % 2 ^ 63 = 0 := by
    rw [← BitVec.toNat_inj, same]
    rfl
  have exponent : ((unpackExponent bits).toNat : Int) - (1023 + 52) + 1 = 0 - 1074 := by
    rw [subnormal]
    rfl
  delta UnpackedFloat.unpack
  rw [if_neg notAllOnes, if_pos subnormal, Magnitude.unpacked]
  by_cases zero : bits.toNat % 2 ^ 63 = 0
  · rw [dif_pos (zero_iff.mpr zero), dif_pos zero]
  · rw [dif_neg (mt zero_iff.mp zero), dif_neg zero]
    exact (UnpackedFloat.finite.injEq ..).mpr ⟨rfl, same, exponent⟩

/-- With an exponent below that of infinity a leading one is put in front of the mantissa. -/
theorem unpack_of_normal (large : 2 ^ 52 ≤ bits.toNat % 2 ^ 63)
    (finite : bits.toNat % 2 ^ 63 < Magnitude.infinite.bits) :
    UnpackedFloat.unpack .binary64 bits =
      Magnitude.unpacked (.ofBitVec (unpackSign bits))
        ⟨bits.toNat % 2 ^ 63 % 2 ^ 52 + 2 ^ 52, bits.toNat % 2 ^ 63 / 2 ^ 52 - 1⟩ := by
  simp only [Magnitude.infinite, Magnitude.bits] at finite
  have exponent := toNat_unpackExponent bits
  have mantissa := toNat_unpackMantissa bits
  have notAllOnes : ¬unpackExponent bits = -1#11 := by
    rw [unpackExponent_eq_iff]
    simp
    omega
  have normal : ¬unpackExponent bits = 0#11 := by
    rw [unpackExponent_eq_iff]
    simp
    omega
  have significand : (1#1 ++ unpackMantissa bits).toNat =
      bits.toNat % 2 ^ 63 % 2 ^ 52 + 2 ^ 52 := by
    rw [toNat_append_leadingOne]
    omega
  have shift : ((unpackExponent bits).toNat : Int) - (1023 + 52) =
      (bits.toNat % 2 ^ 63 / 2 ^ 52 - 1 : Nat) - 1074 := by
    omega
  delta UnpackedFloat.unpack
  rw [if_neg notAllOnes, if_neg normal, Magnitude.unpacked, dif_neg (by simp)]
  exact (UnpackedFloat.finite.injEq ..).mpr ⟨rfl, significand, shift⟩

/-- The unpacked form of the patterns below that of infinity. -/
theorem unpack_of_lt (finite : bits.toNat % 2 ^ 63 < Magnitude.infinite.bits) :
    UnpackedFloat.unpack .binary64 bits =
      (Magnitude.ofBits (bits.toNat % 2 ^ 63)).unpacked (.ofBitVec (unpackSign bits)) := by
  rcases Nat.lt_or_ge (bits.toNat % 2 ^ 63) (2 ^ 52) with small | large
  · rw [Magnitude.ofBits_of_lt small]
    exact unpack_of_subnormal bits small
  · rw [Magnitude.ofBits_of_le large]
    exact unpack_of_normal bits large finite

/-- The patterns from that of infinity on: infinity itself, and those that are no numbers. -/
theorem unpack_of_le (large : Magnitude.infinite.bits ≤ bits.toNat % 2 ^ 63) :
    UnpackedFloat.unpack .binary64 bits =
      if unpackMantissa bits = 0#52 then .infinity (.ofBitVec (unpackSign bits))
      else .notANumber := by
  have bounded : bits.toNat < 2 ^ 64 := bits.isLt
  simp only [Magnitude.infinite, Magnitude.bits] at large
  have allOnes : unpackExponent bits = -1#11 := by
    rw [unpackExponent_eq_iff]
    simp
    omega
  delta UnpackedFloat.unpack
  rw [if_pos allOnes]

theorem isFinite_unpack_of_le (large : Magnitude.infinite.bits ≤ bits.toNat % 2 ^ 63) :
    (UnpackedFloat.unpack .binary64 bits).isFinite = false := by
  rw [unpack_of_le bits large]
  split <;> rfl

end Unpacking

/-- The sign of a number, that of zero included. -/
def sign (number : Float) : Sign :=
  if signBit number then .negative else .positive

theorem magnitude_eq (number : Float) :
    magnitude number = .ofBits (number.toBits.toNat % 2 ^ 63) := by
  simp only [magnitude, UInt64.toNat_and]
  congr 1
  exact Nat.and_two_pow_sub_one_eq_mod _ 63

theorem bits_magnitude (number : Float) :
    (magnitude number).bits = number.toBits.toNat % 2 ^ 63 := by
  rw [magnitude_eq, Magnitude.bits_ofBits]

theorem normal_magnitude (number : Float) : (magnitude number).Normal := by
  rw [magnitude_eq]
  exact Magnitude.normal_ofBits _

theorem sign_eq (number : Float) :
    sign number = if number.toBits.toNat / 2 ^ 63 = 0 then .positive else .negative := by
  have bounded : number.toBits.toNat < 2 ^ 64 := number.toBits.toNat_lt
  have negative : signBit number = true ↔ ¬number.toBits.toNat / 2 ^ 63 = 0 := by
    simp [signBit, ← UInt64.toNat_inj, Nat.shiftRight_eq_div_pow]
    omega
  by_cases positive : number.toBits.toNat / 2 ^ 63 = 0
  · rw [sign, if_neg (mt negative.mp (not_not_intro positive)), if_pos positive]
  · rw [sign, if_pos (negative.mpr positive), if_neg positive]

theorem isFinite_unpacked (sign : Sign) (magnitude : Magnitude) :
    (magnitude.unpacked sign).isFinite = true := by
  by_cases zero : magnitude.significand = 0
  · rw [Magnitude.unpacked_of_zero zero]
    rfl
  · rw [Magnitude.unpacked_of_ne_zero zero]
    rfl

theorem isFinite_iff (number : Float) :
    number.isFinite = true ↔ (magnitude number).bits < Magnitude.infinite.bits := by
  rw [bits_magnitude]
  change (UnpackedFloat.unpack .binary64 number.toBits.toBitVec).isFinite = true ↔ _
  rcases Nat.lt_or_ge (number.toBits.toNat % 2 ^ 63) Magnitude.infinite.bits with finite | large
  · rw [unpack_of_lt _ finite]
    exact iff_of_true (isFinite_unpacked _ _) finite
  · rw [isFinite_unpack_of_le _ large]
    exact iff_of_false Bool.false_ne_true (Nat.not_lt.mpr large)

/-- A finite number unpacks to its sign and its magnitude. -/
theorem unpack_of_isFinite {number : Float} (finite : number.isFinite) :
    number.toModel.unpack = (magnitude number).unpacked (sign number) := by
  have below := (isFinite_iff number).mp finite
  rw [bits_magnitude] at below
  rw [magnitude_eq, sign_eq]
  refine (unpack_of_lt number.toBits.toBitVec below).trans ?_
  rw [ofBitVec_unpackSign]
  rfl

/-- A number is its sign and its magnitude. -/
theorem eq_of_sign_magnitude {left right : Float} (sameSign : sign left = sign right)
    (sameMagnitude : magnitude left = magnitude right) : left = right := by
  have leftBound : left.toBits.toNat < 2 ^ 64 := left.toBits.toNat_lt
  have rightBound : right.toBits.toNat < 2 ^ 64 := right.toBits.toNat_lt
  have low : left.toBits.toNat % 2 ^ 63 = right.toBits.toNat % 2 ^ 63 := by
    rw [← bits_magnitude, ← bits_magnitude, sameMagnitude]
  have high : left.toBits.toNat / 2 ^ 63 = right.toBits.toNat / 2 ^ 63 := by
    rw [sign_eq, sign_eq] at sameSign
    split at sameSign <;> split at sameSign <;> first | omega | contradiction
  have sameBits : left.toBits = right.toBits := UInt64.toNat_inj.mp (by omega)
  -- A number holds nothing besides its bits.
  obtain ⟨⟨_, _⟩⟩ := left
  obtain ⟨⟨_, _⟩⟩ := right
  cases sameBits
  rfl

/-! ### Packing -/

theorem toNat_packedInfinity (sign : Sign) :
    (packedInfinity .binary64 sign).toNat =
      sign.toBitVec.toNat * 2 ^ 63 + Magnitude.infinite.bits := by
  rw [packedInfinity, toNat_packComponents]
  simp [Magnitude.infinite, Magnitude.bits]

/-- A finite number is packed into its fields, or as infinity if its exponent is too large. -/
theorem pack_finite (sign : Sign) (significand : Nat) (exponent : Int) (pos : 0 < significand) :
    UnpackedFloat.pack .binary64 (.finite sign significand exponent pos) =
      if 2 ^ 11 ≤ (exponent + 1023 + 52).toNat + 1 then packedInfinity .binary64 sign
      else if significand.log2 + 1 = 53 then
        packComponents .binary64 sign (.ofNat 11 (exponent + 1023 + 52).toNat)
          (.ofNat 52 significand)
      else packComponents .binary64 sign 0#11 (.ofNat 52 significand) :=
  rfl

/-- A normal magnitude is packed into its bits; the bits of what is too large are those of
infinity. -/
theorem toNat_pack (sign : Sign) {magnitude : Magnitude} (normal : magnitude.Normal) :
    (UnpackedFloat.pack .binary64 (magnitude.unpacked sign)).toNat =
      sign.toBitVec.toNat * 2 ^ 63 + min magnitude.bits Magnitude.infinite.bits := by
  have small := normal.bits_lt_infinite
  obtain ⟨bounded, leading⟩ := normal
  rw [Magnitude.unpacked]
  by_cases zero : magnitude.significand = 0
  · have noBits : magnitude.bits = 0 := by
      simp only [Magnitude.bits]
      omega
    rw [dif_pos zero]
    change (packedZero .binary64 sign).toNat = _
    rw [packedZero, toNat_packComponents, noBits]
    simp
  · have biased : ((magnitude.shift - unitPlaces : Int) + 1023 + 52).toNat = magnitude.shift + 1 := by
      simp only [unitPlaces]
      omega
    have full : magnitude.significand.log2 + 1 = 53 ↔ 2 ^ 52 ≤ magnitude.significand := by
      have below := (Nat.log2_lt zero).mpr bounded
      rw [← Nat.le_log2 zero]
      omega
    rw [dif_neg zero, pack_finite, biased]
    simp only [full]
    rcases Nat.lt_or_ge magnitude.shift Magnitude.infinite.shift with fits | overflows
    · rw [Nat.min_eq_left (Nat.le_of_lt (small.mpr fits))]
      simp only [Magnitude.infinite] at fits
      rw [if_neg (by omega)]
      -- The leading one is dropped from the mantissa and counts as one in the exponent field.
      split
      · simp only [toNat_packComponents, BitVec.toNat_ofNat, Magnitude.bits]
        omega
      · simp only [toNat_packComponents, BitVec.toNat_ofNat, Magnitude.bits]
        omega
    · have above : Magnitude.infinite.bits ≤ magnitude.bits := by omega
      rw [Nat.min_eq_right above]
      simp only [Magnitude.infinite] at overflows
      rw [if_pos (by omega), toNat_packedInfinity]

/-- The sign and the magnitude of a number that was packed are the ones it was packed from, and
infinity's magnitude where that one is too large. -/
theorem sign_magnitude_pack (sign : Sign) {magnitude : Magnitude} (normal : magnitude.Normal) :
    Number.sign (.ofModel (.pack (magnitude.unpacked sign))) = sign ∧
      Number.magnitude (.ofModel (.pack (magnitude.unpacked sign))) =
        .ofBits (min magnitude.bits Magnitude.infinite.bits) := by
  have small : min magnitude.bits Magnitude.infinite.bits < 2 ^ 63 := by
    simp only [Magnitude.infinite, Magnitude.bits]
    omega
  have packed : (Float.ofModel (.pack (magnitude.unpacked sign))).toBits.toNat =
      sign.toBitVec.toNat * 2 ^ 63 + min magnitude.bits Magnitude.infinite.bits :=
    toNat_pack sign normal
  constructor
  · rw [sign_eq, packed]
    cases sign
    · simp [Sign.toBitVec]
    · simp [Sign.toBitVec]
      omega
  · rw [magnitude_eq, packed]
    congr 1
    omega

theorem units_eq (number : Float) :
    units number = (sign number).apply (magnitude number).units := by
  simp only [units, sign]
  split <;> rfl

theorem natAbs_units (number : Float) :
    (units number).natAbs = (magnitude number).units := by
  rw [units_eq]
  cases sign number with
  | negative => rw [Sign.apply, Int.natAbs_neg, Int.natAbs_natCast]
  | positive => rfl

/-- What is packed is worth its magnitude, but never more than infinity is. -/
theorem units_pack (sign : Sign) {magnitude : Magnitude} (normal : magnitude.Normal) :
    units (.ofModel (.pack (magnitude.unpacked sign))) =
      sign.apply (min magnitude.units Magnitude.infinite.units : Nat) := by
  obtain ⟨sameSign, sameMagnitude⟩ := sign_magnitude_pack sign normal
  rw [units_eq, sameSign, sameMagnitude]
  rcases Nat.le_total magnitude.bits Magnitude.infinite.bits with fits | overflows
  · rw [Nat.min_eq_left fits, normal.ofBits_bits,
      Nat.min_eq_left (normal.units_le_units Magnitude.normal_infinite fits)]
  · rw [Nat.min_eq_right overflows, Magnitude.normal_infinite.ofBits_bits,
      Nat.min_eq_right (Magnitude.normal_infinite.units_le_units normal overflows)]

/-! ### The greatest integer below a number -/

theorem unitsPerOne_eq : unitsPerOne = 2 ^ unitPlaces := by
  unfold unitsPerOne
  generalize unitPlaces = places
  rfl

theorem unitsPerOne_pos : 0 < unitsPerOne := by
  rw [unitsPerOne_eq]
  exact Nat.two_pow_pos _

namespace Magnitude

/-- Either the point stands inside the significand or behind it. -/
theorem units_eq_cases (magnitude : Magnitude) :
    (magnitude.shift ≤ unitPlaces ∧
      unitsPerOne = 2 ^ magnitude.places * 2 ^ magnitude.shift) ∨
    (unitPlaces < magnitude.shift ∧ magnitude.places = 0 ∧
      magnitude.units = magnitude.significand <<< (magnitude.shift - unitPlaces) * unitsPerOne) := by
  rw [unitsPerOne_eq]
  rcases Nat.lt_or_ge unitPlaces magnitude.shift with above | behind
  · refine .inr ⟨above, ?_, ?_⟩
    · exact Nat.sub_eq_zero_of_le (Nat.le_of_lt above)
    · rw [units_eq_mul, Nat.shiftLeft_eq, Nat.mul_assoc, ← Nat.pow_add,
        Nat.sub_add_cancel (Nat.le_of_lt above)]
  · refine .inl ⟨behind, ?_⟩
    rw [places, ← Nat.pow_add, Nat.sub_add_cancel behind]

theorem whole_eq (magnitude : Magnitude) : magnitude.whole = magnitude.units / unitsPerOne := by
  rcases magnitude.units_eq_cases with ⟨behind, one⟩ | ⟨above, _, units⟩
  · rw [whole, if_pos behind, one, units_eq_mul, Nat.shiftRight_eq_div_pow,
      Nat.mul_div_mul_right _ _ (Nat.two_pow_pos _)]
  · rw [whole, if_neg (Nat.not_le.mpr above), units, Nat.mul_div_cancel _ unitsPerOne_pos]

theorem isWhole_iff (magnitude : Magnitude) :
    magnitude.isWhole = true ↔ unitsPerOne ∣ magnitude.units := by
  rw [isWhole, Nat.shiftLeft_eq, Nat.shiftRight_eq_div_pow, beq_iff_eq, ← Nat.dvd_iff_div_mul_eq]
  rcases magnitude.units_eq_cases with ⟨_, one⟩ | ⟨_, noPlaces, units⟩
  · rw [one, units_eq_mul, Nat.mul_dvd_mul_iff_right (Nat.two_pow_pos _)]
  · rw [noPlaces, units]
    exact ⟨fun _ => Nat.dvd_mul_left _ _, fun _ => Nat.one_dvd _⟩

end Magnitude

theorem floor_eq (number : Float) : floor number = units number / unitsPerOne := by
  have one_pos : (0 : Int) < unitsPerOne := Int.natCast_pos.mpr unitsPerOne_pos
  simp only [floor, units, Magnitude.whole_eq, Magnitude.isWhole_iff]
  split
  · simp only [Int.neg_ediv, Int.sign_eq_one_of_pos one_pos, Int.natCast_ediv,
      Int.natCast_dvd_natCast]
    split
    · rw [Int.sub_zero]
    · rfl
  · rw [Int.natCast_ediv]

end BlockScript.Number
