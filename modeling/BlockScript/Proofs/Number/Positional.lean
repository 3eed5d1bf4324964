import BlockScript.Proofs.Number.Literals
import BlockScript.Proofs.Number.Neighbourhoods
import Mathlib.Data.List.Induction
import Mathlib.Data.List.TakeWhile

/-!
# Reading what is printed

The text of a decimal in positional notation tells the decimal, up to zeros at its end
(`written_positional`), and that of an integer tells the integer (`reading_toString`).  Both are read
in the scale of decimals, so that a text with a point and one without can be compared.
-/

namespace BlockScript.Number

/-! ### Digits -/

theorem digitsValue_append (first second : List Char) :
    digitsValue (first ++ second) =
      digitsValue first * 10 ^ second.length + digitsValue second := by
  -- The value is a fold from the left, so digits are added at the end.
  induction second using List.reverseRecOn with
  | nil => simp [digitsValue]
  | append_singleton second digit ih =>
    have last (digits : List Char) :
        digitsValue (digits ++ [digit]) = 10 * digitsValue digits + (digit.toNat - '0'.toNat) := by
      rw [digitsValue, List.foldl_append]
      rfl
    rw [← List.append_assoc, last, ih, last, List.length_append, Nat.pow_add]
    simp only [List.length_singleton, Nat.pow_one]
    ring

theorem digitsValue_zeros (count : Nat) : digitsValue (List.replicate count '0') = 0 := by
  induction count with
  | zero => rfl
  | succ count ih =>
    rw [List.replicate_succ', digitsValue_append, ih]
    rfl

/-! ### Texts with a point -/

/-- What a row of digits, perhaps with a point, is worth in the scale of decimals. -/
def written (text : List Char) : Nat :=
  let whole := text.takeWhile (· ≠ '.')
  let fraction := (text.dropWhile (· ≠ '.')).drop 1
  digitsValue (whole ++ fraction) * 10 ^ (unitPlaces - fraction.length)

/-- A row of digits, the first of which is there. -/
structure Digits (text : List Char) : Prop where
  all : ∀ character ∈ text, character.isDigit = true
  ne_nil : text ≠ []

theorem Digits.no_point {text : List Char} (digits : Digits text) :
    ∀ character ∈ text, decide (character ≠ '.') = true := by
  intro character member
  refine decide_eq_true ?_
  rintro rfl
  exact absurd (digits.all '.' member) (by decide)

theorem digits_toString (natural : Nat) : Digits (toString natural).toList :=
  ⟨fun _ => isDigit_of_mem_toString, toString_ne_nil natural⟩

theorem isDigit_of_mem_zeros {count : Nat} {character : Char}
    (member : character ∈ List.replicate count '0') : character.isDigit = true := by
  rw [List.eq_of_mem_replicate member]
  decide

theorem written_of_digits {text : List Char} (digits : Digits text) :
    written text = digitsValue text * 10 ^ unitPlaces := by
  have whole : text.takeWhile (· ≠ '.') = text := List.takeWhile_eq_self_iff.mpr digits.no_point
  have fraction : text.dropWhile (· ≠ '.') = [] := List.dropWhile_eq_nil_iff.mpr digits.no_point
  simp only [written, whole, fraction]
  simp

theorem written_of_point {whole : List Char} (digits : Digits whole) (fraction : List Char) :
    written (whole ++ '.' :: fraction) =
      digitsValue (whole ++ fraction) * 10 ^ (unitPlaces - fraction.length) := by
  have front : (whole ++ '.' :: fraction).takeWhile (· ≠ '.') = whole := by
    rw [List.takeWhile_append_of_pos digits.no_point]
    simp
  have back : (whole ++ '.' :: fraction).dropWhile (· ≠ '.') = '.' :: fraction := by
    rw [List.dropWhile_append_of_pos digits.no_point]
    simp
  simp only [written, front, back, List.drop_one, List.tail_cons]

/-! ### Decimals -/

variable {decimal : Decimal}

theorem positional_of_le (le : unitPlaces ≤ decimal.grid) :
    decimal.positional.toList =
      (toString decimal.coefficient).toList ++ List.replicate (decimal.grid - unitPlaces) '0' := by
  simp only [Decimal.positional, if_pos le, String.toList_append, zeros, String.toList_ofList]

/-- The digits of a decimal, with zeros in front of them if there are too few. -/
def Decimal.padded (decimal : Decimal) : List Char :=
  List.replicate (unitPlaces - decimal.grid + 1 - (toString decimal.coefficient).length) '0' ++
    (toString decimal.coefficient).toList

theorem positional_of_lt (lt : decimal.grid < unitPlaces) :
    decimal.positional.toList =
      decimal.padded.take (decimal.padded.length - (unitPlaces - decimal.grid)) ++
        '.' :: decimal.padded.drop (decimal.padded.length - (unitPlaces - decimal.grid)) := by
  unfold Decimal.positional
  dsimp only
  rw [if_neg (Nat.not_le.mpr lt)]
  generalize same : zeros (unitPlaces - decimal.grid + 1 - (toString decimal.coefficient).length) ++
    toString decimal.coefficient = text
  have padded : text.toList = decimal.padded := by
    rw [← same, String.toList_append, zeros, String.toList_ofList, Decimal.padded]
  have point : ".".toList = ['.'] := rfl
  simp only [String.toList_append, String.toList_ofList, ← String.length_toList, padded, point,
    List.append_assoc, List.singleton_append]

theorem digits_padded (decimal : Decimal) : Digits decimal.padded := by
  have digits := digits_toString decimal.coefficient
  refine ⟨fun character member => ?_, ?_⟩
  · exact (List.mem_append.mp member).elim isDigit_of_mem_zeros (digits.all character)
  · exact List.append_ne_nil_of_right_ne_nil _ digits.ne_nil

theorem lt_length_padded (decimal : Decimal) :
    unitPlaces - decimal.grid < decimal.padded.length := by
  rw [Decimal.padded, List.length_append, List.length_replicate, String.length_toList]
  omega

/-- There is a digit in front of the point. -/
theorem digits_take_padded (decimal : Decimal) :
    Digits (decimal.padded.take (decimal.padded.length - (unitPlaces - decimal.grid))) := by
  have long := lt_length_padded decimal
  refine ⟨fun character member => (digits_padded decimal).all character (List.mem_of_mem_take member),
    ?_⟩
  intro nothing
  have length := congrArg List.length nothing
  rw [List.length_take, List.length_nil] at length
  omega

/-- The text of a decimal starts with a digit. -/
theorem positional_eq_cons (decimal : Decimal) :
    ∃ digit rest, decimal.positional.toList = digit :: rest ∧ digit.isDigit = true := by
  have first {text behind : List Char} (digits : Digits text) :
      ∃ digit rest, text ++ behind = digit :: rest ∧ digit.isDigit = true := by
    obtain ⟨digit, rest, rfl⟩ := List.exists_cons_of_ne_nil digits.ne_nil
    exact ⟨digit, rest ++ behind, rfl, digits.all digit List.mem_cons_self⟩
  rcases Nat.lt_or_ge decimal.grid unitPlaces with lt | le
  · rw [positional_of_lt lt]
    exact first (digits_take_padded decimal)
  · rw [positional_of_le le]
    exact first (digits_toString decimal.coefficient)

/-- The text of a decimal is worth what the decimal is. -/
theorem written_positional (decimal : Decimal) :
    written decimal.positional.toList = decimal.scaled := by
  have value := digitsValue_toString decimal.coefficient
  rcases Nat.lt_or_ge decimal.grid unitPlaces with lt | le
  · -- As many digits stand behind the point as the grid has places.
    have long := lt_length_padded decimal
    have places : (decimal.padded.drop
        (decimal.padded.length - (unitPlaces - decimal.grid))).length = unitPlaces - decimal.grid := by
      rw [List.length_drop]
      omega
    have kept : unitPlaces - (unitPlaces - decimal.grid) = decimal.grid := by omega
    rw [positional_of_lt lt, written_of_point (digits_take_padded decimal), places,
      List.take_append_drop, kept, Decimal.padded, digitsValue_append, digitsValue_zeros, value,
      Nat.zero_mul, Nat.zero_add, Decimal.scaled]
  · -- Without places there is no point, but there may be zeros behind the coefficient.
    have digits : Digits ((toString decimal.coefficient).toList ++
        List.replicate (decimal.grid - unitPlaces) '0') := by
      have own := digits_toString decimal.coefficient
      refine ⟨fun character member => ?_, List.append_ne_nil_of_left_ne_nil own.ne_nil _⟩
      exact (List.mem_append.mp member).elim (own.all character) isDigit_of_mem_zeros
    rw [positional_of_le le, written_of_digits digits, digitsValue_append, digitsValue_zeros, value,
      List.length_replicate, Nat.add_zero, Nat.mul_assoc, ← Nat.pow_add, Nat.sub_add_cancel le,
      Decimal.scaled]

/-! ### Signs -/

/-- What the text of a number is worth in the scale of decimals. -/
def reading : List Char → Int
  | '-' :: rest => -(written rest : Int)
  | text => written text

theorem reading_of_digit {digit : Char} (isDigit : digit.isDigit = true) (rest : List Char) :
    reading (digit :: rest) = written (digit :: rest) := by
  unfold reading
  split
  · next minus =>
    obtain ⟨rfl, -⟩ := List.cons.inj minus
    exact absurd isDigit (by decide)
  · rfl

theorem reading_toString (integer : Int) :
    reading (toString integer).toList = integer * 10 ^ unitPlaces := by
  cases integer with
  | ofNat natural =>
    have digits := digits_toString natural
    have worth : written (toString natural).toList = natural * 10 ^ unitPlaces := by
      rw [written_of_digits digits, digitsValue_toString]
    obtain ⟨digit, rest, text⟩ := List.exists_cons_of_ne_nil digits.ne_nil
    have first := digits.all digit (text ▸ List.mem_cons_self)
    change reading (toString natural).toList = _
    rw [text, reading_of_digit first, ← text, worth]
    push_cast
    rfl
  | negSucc less =>
    have worth : written (toString (less + 1)).toList = (less + 1) * 10 ^ unitPlaces := by
      rw [written_of_digits (digits_toString (less + 1)), digitsValue_toString]
    rw [toList_toString_negSucc, reading, worth, Int.negSucc_eq]
    push_cast
    ring

end BlockScript.Number
