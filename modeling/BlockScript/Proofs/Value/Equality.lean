import BlockScript.Proofs.Number.Order
import BlockScript.Proofs.Number.Positional
import BlockScript.Value

/-!
# Equality and printing

Numbers are equal if and only if they are printed alike, for what is printed of a number rounds to
it and to no other number (`beq_iff_printedNumber`).  So the equality of the language, which compares
numbers as numbers and all else by its text, agrees with printing wherever it is asked, and apart
from what is not a number it is an equivalence (`looseEq_agrees_with_printed`).
-/

open Float.Model.UnpackedFloat

namespace BlockScript

open Number Value

namespace Number

variable {left right number : Float}

/-! ### Integers -/

theorem units_of_integer? {integer : Int} (found : integer? number = some integer) :
    units number = integer * unitsPerOne := by
  unfold integer? at found
  split at found
  · next whole =>
    cases found
    have divides := (Magnitude.isWhole_iff _).mp (Bool.and_eq_true_iff.mp whole).2
    have dvd : (unitsPerOne : Int) ∣ units number := by
      rw [Int.natCast_dvd, natAbs_units]
      exact divides
    rw [floor_eq, Int.ediv_mul_cancel dvd]
  · cases found

/-- Zero is an integer, whatever its sign is. -/
theorem printedNumber_of_zero (finite : number.isFinite = true) (zero : units number = 0) :
    printedNumber number = "0" := by
  have nothing : (magnitude number).units = 0 := by rw [← natAbs_units, zero]; rfl
  have whole : (magnitude number).isWhole = true := by
    rw [Magnitude.isWhole_iff, nothing]
    exact Nat.dvd_zero _
  have integer : integer? number = some 0 := by
    rw [integer?, finite, whole, floor_eq, zero, Int.zero_ediv]
    rfl
  rw [printedNumber, integer]
  rfl

/-! ### The text of a finite number -/

/-- A text that starts with a digit, or with a minus sign and a digit. -/
def StartsWithDigit (text : List Char) : Prop :=
  ∃ digit rest, digit.isDigit = true ∧ (text = digit :: rest ∨ text = '-' :: digit :: rest)

/-- What is printed of a finite number rounds to it. -/
structure Tells (number : Float) (text : List Char) : Prop where
  starts : StartsWithDigit text
  reads : ∃ scaled : Nat, reading text = (sign number).apply scaled ∧
    if (magnitude number).significand = 0 then scaled = 0 else (magnitude number).Near scaled

theorem tells_toString {integer : Int} (found : integer? number = some integer) :
    Tells number (toString integer).toList := by
  constructor
  · cases integer with
    | ofNat natural =>
      have digits := digits_toString natural
      obtain ⟨digit, rest, text⟩ := List.exists_cons_of_ne_nil digits.ne_nil
      exact ⟨digit, rest, digits.all digit (text ▸ List.mem_cons_self), .inl text⟩
    | negSucc less =>
      have digits := digits_toString (less + 1)
      obtain ⟨digit, rest, text⟩ := List.exists_cons_of_ne_nil digits.ne_nil
      refine ⟨digit, rest, digits.all digit (text ▸ List.mem_cons_self), .inr ?_⟩
      rw [toList_toString_negSucc, text]
  · refine ⟨(magnitude number).scaled, ?_, ?_⟩
    · -- An integer is printed in full, so its text is worth the number itself.
      have ten : (10 : Int) ^ unitPlaces = unitsPerOne * 5 ^ unitPlaces := by
        rw [unitsPerOne_eq, Nat.cast_pow, ← mul_pow]
        rfl
      have apply_mul (sign : Sign) (first : Int) (second : Int) :
          sign.apply (first * second) = sign.apply first * second := by
        cases sign with
        | positive => rfl
        | negative => exact (Int.neg_mul _ _).symm
      rw [reading_toString, ten, ← Int.mul_assoc, ← units_of_integer? found, units_eq,
        Magnitude.scaled, Nat.cast_mul, Nat.cast_pow, apply_mul]
      rfl
    · split
      · next zero => rw [Magnitude.scaled, Magnitude.units_of_zero zero, Nat.zero_mul]
      · next some => exact near_scaled some

/-- The digits of a finite number, without its sign. -/
theorem body_tells (number : Float) :
    let body := if (magnitude number).significand = 0 then "0"
      else (shortest (magnitude number)).positional
    (∃ digit rest, body.toList = digit :: rest ∧ digit.isDigit = true) ∧
      if (magnitude number).significand = 0 then written body.toList = 0
      else (magnitude number).Near (written body.toList) := by
  dsimp only
  split
  · have worth := written_of_digits (digits_toString 0)
    rw [digitsValue_toString, Nat.zero_mul] at worth
    exact ⟨⟨'0', [], rfl, by decide⟩, worth⟩
  · next some =>
    rw [written_positional]
    exact ⟨positional_eq_cons _, near_shortest some⟩

theorem tells_text (kind : number.isNaN = false ∧ number.isInf = false) :
    Tells number (text number).toList := by
  obtain ⟨⟨digit, rest, characters, isDigit⟩, worth⟩ := body_tells number
  have text_eq : text number = (if signBit number then "-" else "") ++
      if (magnitude number).significand = 0 then "0"
        else (shortest (magnitude number)).positional := by
    rw [text, kind.1, kind.2]
    rfl
  rw [text_eq, String.toList_append]
  generalize (if (magnitude number).significand = 0 then "0"
    else (shortest (magnitude number)).positional) = body at *
  -- The sign bit decides on the minus sign in front of the digits.
  cases signed : signBit number with
  | true =>
    have negative : sign number = .negative := by rw [sign, signed]; rfl
    refine ⟨⟨digit, rest, isDigit, .inr (by rw [characters]; rfl)⟩, _, ?_, worth⟩
    rw [negative]
    rfl
  | false =>
    have positive : sign number = .positive := by rw [sign, signed]; rfl
    refine ⟨⟨digit, rest, isDigit, .inl (by rw [characters]; rfl)⟩, _, ?_, worth⟩
    rw [positive]
    change reading body.toList = _
    rw [characters, reading_of_digit isDigit]
    rfl

theorem tells_printedNumber (finite : number.isFinite = true) :
    Tells number (printedNumber number).toList := by
  have number_kind : number.isNaN = false ∧ number.isInf = false := by
    cases kind number with
    | nan _ _ infinite | infinite _ _ _ infinite => rw [finite] at infinite; cases infinite
    | finite no_nan no_infinity => exact ⟨no_nan, no_infinity⟩
  unfold printedNumber
  split
  · next integer found =>
    split
    · exact tells_toString found
    · exact tells_text number_kind
  · exact tells_text number_kind

/-- A text tells one number, or both zeros. -/
theorem Tells.units_eq {text : List Char} (tells : Tells left text) (other : Tells right text) :
    units left = units right := by
  obtain ⟨scaled, reads, worth⟩ := tells.reads
  obtain ⟨again, readsOther, worthOther⟩ := other.reads
  obtain ⟨rfl, signs⟩ := eq_of_apply_eq (reads.symm.trans readsOther)
  -- One size is near two magnitudes, or it is zero and so are both numbers.
  rw [Number.units_eq, Number.units_eq]
  split at worth
  · next zero =>
    split at worthOther
    · next zeroOther =>
      rw [Magnitude.units_of_zero zero, Magnitude.units_of_zero zeroOther]
      cases sign left <;> cases sign right <;> rfl
    · next some => exact absurd worth (Nat.ne_of_gt (scaled_pos_of_near some worthOther))
  · next some =>
    have positive := scaled_pos_of_near some worth
    split at worthOther
    · omega
    · have same := worth.unique (normal_magnitude left) (normal_magnitude right) worthOther
      rw [signs (Nat.ne_of_gt positive), same]

/-- Finite numbers are equal if and only if they are printed alike. -/
theorem beq_iff_printedNumber_of_isFinite (leftFinite : left.isFinite = true)
    (rightFinite : right.isFinite = true) :
    (left == right) = true ↔ printedNumber left = printedNumber right := by
  rw [beq_iff_units leftFinite rightFinite]
  constructor
  · intro same
    -- Zeros have two signs but one text; all other numbers of one worth are the same.
    by_cases zero : units left = 0
    · rw [printedNumber_of_zero leftFinite zero, printedNumber_of_zero rightFinite (same ▸ zero)]
    · rw [eq_of_units_eq same zero]
  · intro same
    have tells := tells_printedNumber leftFinite
    rw [same] at tells
    exact tells.units_eq (tells_printedNumber rightFinite)

/-! ### Texts of other numbers -/

theorem printedNumber_of_not_isFinite (infinite : number.isFinite = false) :
    printedNumber number = text number := by
  have no_integer : integer? number = none := by simp [integer?, infinite]
  rw [printedNumber, no_integer]

theorem printedNumber_of_isNaN (nan : number.isNaN = true) (infinite : number.isFinite = false) :
    printedNumber number = "NaN" := by
  rw [printedNumber_of_not_isFinite infinite, text, nan]
  rfl

theorem printedNumber_of_isInf (no_nan : number.isNaN = false) (infinity : number.isInf = true)
    (infinite : number.isFinite = false) :
    printedNumber number = match sign number with | .negative => "-inf" | .positive => "inf" := by
  rw [printedNumber_of_not_isFinite infinite, text, no_nan, infinity, sign]
  cases signBit number <;> rfl

theorem not_startsWithDigit {text : String} (word : text ∈ ["NaN", "inf", "-inf"]) :
    ¬StartsWithDigit text.toList := by
  simp only [List.mem_cons, List.not_mem_nil, or_false] at word
  rintro ⟨digit, rest, isDigit, same | same⟩ <;> rcases word with rfl | rfl | rfl
  -- Where the digit would stand there is a letter or the minus sign.
  all_goals simp at same
  all_goals
    obtain ⟨rfl, -⟩ := same
    simp at isDigit

/-- Nothing but a finite number is printed with digits. -/
theorem printedNumber_ne (leftInfinite : left.isFinite = false) (rightFinite : right.isFinite = true) :
    printedNumber left ≠ printedNumber right := by
  intro same
  have word : printedNumber left ∈ ["NaN", "inf", "-inf"] := by
    cases kind left with
    | nan _ nan infinite => simp [printedNumber_of_isNaN nan infinite]
    | infinite _ number infinity infinite =>
      rw [printedNumber_of_isInf number infinity infinite]
      cases sign left <;> simp
    | finite _ _ finite => rw [leftInfinite] at finite; cases finite
  rw [same] at word
  exact not_startsWithDigit word (tells_printedNumber rightFinite).starts

/-- Numbers are equal if and only if they are printed alike.  What is not a number is printed like
itself and equal to nothing. -/
theorem beq_iff_printedNumber (numbers : ¬(left.isNaN = true ∧ right.isNaN = true)) :
    (left == right) = true ↔ printedNumber left = printedNumber right := by
  -- Where the kinds of the two differ so do their texts, and they are not equal.
  cases kind left with
  | nan _ leftNaN leftInfinite =>
    rw [beq_of_isNaN (.inl leftNaN)]
    cases kind right with
    | nan _ rightNaN => exact absurd ⟨leftNaN, rightNaN⟩ numbers
    | infinite _ rightNumber infinity infinite =>
      rw [printedNumber_of_isNaN leftNaN leftInfinite,
        printedNumber_of_isInf rightNumber infinity infinite]
      cases sign right <;> simp
    | finite _ _ finite => simp [printedNumber_ne leftInfinite finite]
  | infinite leftUnpacked leftNumber leftInfinity leftInfinite =>
    cases kind right with
    | nan _ rightNaN rightInfinite =>
      rw [beq_of_isNaN (.inr rightNaN), printedNumber_of_isNaN rightNaN rightInfinite,
        printedNumber_of_isInf leftNumber leftInfinity leftInfinite]
      cases sign left <;> simp
    | infinite rightUnpacked rightNumber rightInfinity rightInfinite =>
      rw [beq_eq, leftUnpacked, rightUnpacked, compare_infinity,
        printedNumber_of_isInf leftNumber leftInfinity leftInfinite,
        printedNumber_of_isInf rightNumber rightInfinity rightInfinite]
      cases sign left <;> cases sign right <;> simp
    | finite _ _ finite =>
      rw [beq_eq, leftUnpacked, (compare_infinity_isFinite _ finite).1]
      simp [printedNumber_ne leftInfinite finite]
  | finite _ _ leftFinite =>
    cases kind right with
    | nan _ rightNaN rightInfinite =>
      rw [beq_of_isNaN (.inr rightNaN)]
      simp [(printedNumber_ne rightInfinite leftFinite).symm]
    | infinite rightUnpacked _ _ rightInfinite =>
      rw [beq_eq, rightUnpacked, (compare_infinity_isFinite _ leftFinite).2]
      simp [(printedNumber_ne rightInfinite leftFinite).symm]
    | finite _ _ rightFinite => exact beq_iff_printedNumber_of_isFinite leftFinite rightFinite

end Number

/-! ### Equality of the language -/

/-- Whether a value is the number that is not a number. -/
def Value.isNaN : Value → Bool
  | .number value => value.isNaN
  | _ => false

namespace Value

variable {left right : Value}

theorem looseEq_nil_left : nil.looseEq right = true ↔ right = nil := by
  cases right <;> simp [looseEq]

theorem looseEq_nil_right : left.looseEq nil = true ↔ left = nil := by
  cases left <;> simp [looseEq]

/-- Away from nil and from what is not a number, equality is that of the texts. -/
theorem looseEq_iff_printed (leftNil : left ≠ nil) (rightNil : right ≠ nil)
    (numbers : ¬(left.isNaN = true ∧ right.isNaN = true)) :
    left.looseEq right = true ↔ left.printed = right.printed := by
  cases left with
  | nil => exact absurd rfl leftNil
  | bool | string => cases right <;> simp_all [looseEq]
  | number first =>
    cases right with
    | nil => exact absurd rfl rightNil
    | bool | string => simp [looseEq]
    | number second => exact Number.beq_iff_printedNumber numbers

theorem looseEq_of_isNaN (leftNaN : left.isNaN = true) (rightNaN : right.isNaN = true) :
    left.looseEq right = false := by
  cases left with
  | number first =>
    cases right with
    | number second => exact Number.beq_of_isNaN (.inl leftNaN)
    | nil | bool | string => cases rightNaN
  | nil | bool | string => cases leftNaN

theorem looseEq_comm (left right : Value) : left.looseEq right = right.looseEq left := by
  rw [Bool.eq_iff_iff]
  by_cases leftNil : left = nil
  · rw [leftNil, looseEq_nil_left, looseEq_nil_right]
  · by_cases rightNil : right = nil
    · rw [rightNil, looseEq_nil_left, looseEq_nil_right]
    · by_cases numbers : left.isNaN = true ∧ right.isNaN = true
      · rw [looseEq_of_isNaN numbers.1 numbers.2, looseEq_of_isNaN numbers.2 numbers.1]
      · rw [looseEq_iff_printed leftNil rightNil numbers,
          looseEq_iff_printed rightNil leftNil fun swapped => numbers swapped.symm]
        exact eq_comm

theorem looseEq_refl {value : Value} (number : value.isNaN = false) :
    value.looseEq value = true := by
  by_cases isNil : value = nil
  · rw [isNil, looseEq_nil_left]
  · exact (looseEq_iff_printed isNil isNil (by simp [number])).mpr rfl

theorem looseEq_trans {middle : Value} (leftNumber : left.isNaN = false)
    (middleNumber : middle.isNaN = false) (first : left.looseEq middle = true)
    (second : middle.looseEq right = true) : left.looseEq right = true := by
  by_cases middleNil : middle = nil
  · -- Nil is equal to nil alone.
    subst middleNil
    rw [looseEq_nil_right.mp first]
    exact second
  · have leftNil : left ≠ nil := by
      rintro rfl
      exact middleNil (looseEq_nil_left.mp first)
    have rightNil : right ≠ nil := by
      rintro rfl
      exact middleNil (looseEq_nil_right.mp second)
    rw [looseEq_iff_printed leftNil middleNil (by simp [leftNumber])] at first
    rw [looseEq_iff_printed middleNil rightNil (by simp [middleNumber])] at second
    rw [looseEq_iff_printed leftNil rightNil (by simp [leftNumber])]
    exact first.trans second

end Value

/-- Equality is symmetric.  Apart from what is not a number it is also reflexive and transitive, and
values other than nil are equal if and only if they are printed alike, unless both of them are what
is not a number. -/
theorem looseEq_agrees_with_printed :
    (∀ left right : Value, left.looseEq right = right.looseEq left) ∧
      (∀ value : Value, value.isNaN = false → value.looseEq value = true) ∧
      (∀ left middle right : Value,
        left.isNaN = false → middle.isNaN = false → right.isNaN = false →
        left.looseEq middle = true → middle.looseEq right = true → left.looseEq right = true) ∧
      ∀ left right : Value, left ≠ .nil → right ≠ .nil →
        ¬(left.isNaN = true ∧ right.isNaN = true) →
        (left.looseEq right = true ↔ left.printed = right.printed) := by
  refine ⟨Value.looseEq_comm, fun _ number => Value.looseEq_refl number, ?_,
    fun _ _ leftNil rightNil numbers => Value.looseEq_iff_printed leftNil rightNil numbers⟩
  intro left middle right leftNumber middleNumber _ first second
  exact Value.looseEq_trans leftNumber middleNumber first second

end BlockScript
