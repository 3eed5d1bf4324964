import BlockScript.Numeral
import Mathlib.Data.Nat.Digits.Defs
import Mathlib.Tactic.Ring

/-!
# Numerals as words

Digits are put behind a word one after the other, and the first overflow ends the reading.  Nothing
is lost by that: a number that is too great for a word stays too great with more digits behind it
(`foldlM_push?_eq_some_iff`).  So a numeral is read if and only if the number that it stands for is
a word, however many zeros it starts with (`unsigned?_eq_some_iff`).
-/

namespace BlockScript.Numeral

/-! ### Rows of digits -/

/-- How a digit is written. -/
def character (digit : Fin 10) : Char :=
  Nat.digitChar digit

/-- The number that a row of digits stands for; the last one counts ones. -/
def value (digits : List (Fin 10)) : Nat :=
  Nat.ofDigits 10 (digits.map Fin.val).reverse

theorem toNat_character (digit : Fin 10) : (character digit).toNat = '0'.toNat + digit :=
  Nat.toNat_digitChar_of_lt_ten digit.isLt

theorem character_injective : Function.Injective character := by
  intro first second same
  have codes := congrArg Char.toNat same
  simp only [toNat_character] at codes
  omega

theorem isDigit_character (digit : Fin 10) : (character digit).isDigit = true := by
  simp [character, Nat.isDigit_digitChar]

theorem exists_character {c : Char} (isDigit : c.isDigit = true) : ∃ digit, c = character digit := by
  obtain ⟨low, high⟩ := Char.isDigit_iff_toNat.mp isDigit
  have small : c.toNat - '0'.toNat < 10 := Nat.sub_lt_left_of_lt_add low (Nat.lt_succ_of_le high)
  use ⟨c.toNat - '0'.toNat, small⟩
  rw [← Char.toNat_inj, toNat_character, Nat.add_sub_cancel' low]

theorem value_cons (digit : Fin 10) (digits : List (Fin 10)) :
    value (digit :: digits) = digit * 10 ^ digits.length + value digits := by
  rw [value, List.map_cons, Nat.ofDigits_reverse_cons, List.length_map, ← value]
  ring

theorem character_eq_zero_iff {digit : Fin 10} : character digit = '0' ↔ digit.val = 0 := by
  have zero : character 0 = '0' := by decide
  rw [← zero, character_injective.eq_iff, Fin.ext_iff, Fin.val_zero]

/-- Only zeros stand for zero. -/
theorem value_eq_zero_iff {digits : List (Fin 10)} :
    value digits = 0 ↔ digits.map character = List.replicate digits.length '0' := by
  induction digits with
  | nil => simp [value]
  | cons digit digits ih =>
    simp [value_cons, List.replicate_succ, character_eq_zero_iff, ih]

/-! ### Reading rows of digits -/

theorem toWord?_eq_some_iff {number : Nat} {word : UInt64} :
    toWord? number = some word ↔ word.toNat = number := by
  unfold toWord?
  split
  · next fits =>
    rw [Option.some_inj, ← UInt64.toNat_inj, UInt64.toNat_ofNat_of_lt' fits]
    exact eq_comm
  · next large =>
    have := word.toNat_lt
    simp only [UInt64.size] at large
    simp
    omega

/-- What is not above a word is a word. -/
theorem exists_toNat_eq {number : Nat} {bound : UInt64} (le : number ≤ bound.toNat) :
    ∃ word : UInt64, word.toNat = number :=
  ⟨.ofNat number, UInt64.toNat_ofNat_of_lt' (Nat.lt_of_le_of_lt le bound.toNat_lt)⟩

/-- A digit is put behind a word if and only if the longer number is a word. -/
theorem push?_eq_some_iff {word next : UInt64} {c : Char} :
    push? word c = some next ↔
      ∃ digit, c = character digit ∧ next.toNat = 10 * word.toNat + digit := by
  constructor
  · intro pushed
    obtain ⟨shifted, shift, added⟩ := Option.bind_eq_some_iff.mp pushed
    split at added
    · next isDigit =>
      obtain ⟨digit, rfl⟩ := exists_character isDigit
      have sum := toWord?_eq_some_iff.mp added
      rw [toWord?_eq_some_iff.mp shift, toNat_character, Nat.add_sub_cancel_left] at sum
      exact ⟨digit, rfl, sum⟩
    · cases added
  · rintro ⟨digit, rfl, sum⟩
    -- The product is not above the sum, which is a word.
    obtain ⟨shifted, product⟩ : ∃ shifted : UInt64, shifted.toNat = 10 * word.toNat :=
      exists_toNat_eq (sum ▸ Nat.le_add_right ..)
    have shift : toWord? (10 * word.toNat) = some shifted := toWord?_eq_some_iff.mpr product
    have added : toWord? (shifted.toNat + digit) = some next := by
      rw [toWord?_eq_some_iff, product, sum]
    simp [push?, shift, isDigit_character, toNat_character, added]

/-- Digits are read behind a word if and only if the number that comes of all of them is a word. -/
theorem foldlM_push?_eq_some_iff {text : List Char} {word result : UInt64} :
    text.foldlM push? word = some result ↔
      ∃ digits, text = digits.map character ∧
        result.toNat = word.toNat * 10 ^ digits.length + value digits := by
  -- The word is what has been read before, so it changes from digit to digit.
  induction text generalizing word with
  | nil =>
    constructor
    · intro read
      obtain rfl : word = result := by simpa using read
      exact ⟨[], rfl, by simp [value]⟩
    · rintro ⟨digits, same, total⟩
      obtain rfl := List.map_eq_nil_iff.mp same.symm
      have kept : result = word := by simpa [value, UInt64.toNat_inj] using total
      rw [kept, List.foldlM_nil]
      rfl
  | cons c text ih =>
    rw [List.foldlM_cons, Option.bind_eq_bind, Option.bind_eq_some_iff]
    constructor
    · rintro ⟨next, pushed, read⟩
      obtain ⟨digit, rfl, sum⟩ := push?_eq_some_iff.mp pushed
      obtain ⟨digits, rfl, total⟩ := ih.mp read
      use digit :: digits
      constructor
      · rfl
      · rw [total, sum, value_cons, List.length_cons]
        ring
    · rintro ⟨row, same, total⟩
      obtain ⟨digit, digits, rfl, rfl, rfl⟩ := List.map_eq_cons_iff.mp same.symm
      have regrouped : result.toNat =
          (10 * word.toNat + digit) * 10 ^ digits.length + value digits := by
        rw [total, value_cons, List.length_cons]
        ring
      -- What the first digit makes of the word is not above the result, which is a word.
      obtain ⟨next, sum⟩ : ∃ next : UInt64, next.toNat = 10 * word.toNat + digit := by
        apply exists_toNat_eq
        rw [regrouped]
        exact Nat.le_add_right_of_le (Nat.le_mul_of_pos_right _ (Nat.pow_pos (by decide)))
      use next
      constructor
      · exact push?_eq_some_iff.mpr ⟨digit, rfl, sum⟩
      · exact ih.mpr ⟨digits, rfl, by rw [sum, regrouped]⟩

theorem word?_eq_some_iff {text : List Char} {word : UInt64} :
    word? text = some word ↔
      ∃ digits, digits ≠ [] ∧ text = digits.map character ∧ value digits = word.toNat := by
  by_cases empty : text = []
  · simp [word?, empty]
  · rw [word?, if_neg empty, foldlM_push?_eq_some_iff]
    constructor
    · rintro ⟨digits, rfl, total⟩
      exact ⟨digits, by simpa using empty, rfl, by simpa using total.symm⟩
    · rintro ⟨digits, -, rfl, total⟩
      exact ⟨digits, rfl, by simpa using total.symm⟩

/-! ### Signs -/

/-- A row of digits, perhaps behind a plus sign. -/
inductive Signed (row : List Char) : List Char → Prop where
  | plain : Signed row row
  | plus : Signed row ('+' :: row)

/-- The ways to write a number: digits, at least one, behind an optional plus sign. -/
def Writes (text : List Char) (number : Nat) : Prop :=
  ∃ digits, digits ≠ [] ∧ Signed (digits.map character) text ∧ value digits = number

def behindSign : List Char → List Char
  | '+' :: row => row
  | row => row

theorem isDigit_of_mem {digits : List (Fin 10)} {c : Char} (member : c ∈ digits.map character) :
    c.isDigit = true := by
  obtain ⟨digit, -, rfl⟩ := List.mem_map.mp member
  exact isDigit_character digit

/-- No digit is a sign, so a sign in front of digits can only be that. -/
theorem signed_iff {digits : List (Fin 10)} {text : List Char} :
    Signed (digits.map character) text ↔ behindSign text = digits.map character := by
  constructor
  · intro signed
    cases signed with
    | plus => rfl
    | plain =>
      unfold behindSign
      split
      · next row same =>
        have digit : '+'.isDigit = true := isDigit_of_mem (same ▸ List.mem_cons_self)
        exact absurd digit (by decide)
      · rfl
  · intro same
    rw [← same]
    unfold behindSign
    split
    · exact .plus
    · exact .plain

theorem unsigned?_eq (text : List Char) : unsigned? text = word? (behindSign text) := by
  fun_cases unsigned? text with
  | case1 row => rfl
  | case2 row unsigned => simp [behindSign]

/-- A numeral is read to its number if that is a word, and nothing else is read. -/
theorem unsigned?_eq_some_iff {text : List Char} {word : UInt64} :
    unsigned? text = some word ↔ Writes text word.toNat := by
  simp only [unsigned?_eq, word?_eq_some_iff, Writes, signed_iff]

/-- Nothing but its size keeps a numeral from being read. -/
theorem exists_unsigned? {text : List Char} {number : Nat} (writes : Writes text number)
    (fits : number < UInt64.size) : ∃ word, unsigned? text = some word ∧ word.toNat = number := by
  have same := UInt64.toNat_ofNat_of_lt' fits
  exact ⟨.ofNat number, unsigned?_eq_some_iff.mpr (by rwa [same]), same⟩

section Writes

variable {text : List Char} {number other : Nat}

theorem Writes.unique (writes : Writes text number) (also : Writes text other) :
    number = other := by
  obtain ⟨digits, -, signed, rfl⟩ := writes
  obtain ⟨row, -, also_signed, rfl⟩ := also
  have same := (signed_iff.mp signed).symm.trans (signed_iff.mp also_signed)
  rw [(List.map_inj_right fun _ _ => @character_injective _ _).mp same]

theorem Writes.ne_nil (writes : Writes text number) : text ≠ [] := by
  obtain ⟨digits, some, signed, -⟩ := writes
  cases signed <;> simp [some]

theorem Writes.isDigit_of_mem (writes : Writes text number) {c : Char} (member : c ∈ text)
    (unsigned : c ≠ '+') : c.isDigit = true := by
  obtain ⟨digits, -, signed, -⟩ := writes
  cases signed with
  | plain => exact Numeral.isDigit_of_mem member
  | plus => exact Numeral.isDigit_of_mem (List.mem_of_ne_of_mem unsigned member)

/-- Zero is written with zeros only. -/
theorem writes_zero_iff : Writes text 0 ↔ ∃ count, Signed (List.replicate (count + 1) '0') text := by
  constructor
  · rintro ⟨digits, some, signed, zero⟩
    rw [value_eq_zero_iff.mp zero] at signed
    use digits.length - 1
    rwa [Nat.sub_add_cancel (List.length_pos_iff.mpr some)]
  · rintro ⟨count, signed⟩
    have zeros : (List.replicate (count + 1) 0).map character = List.replicate (count + 1) '0' :=
      List.map_replicate
    rw [← zeros] at signed
    exact ⟨_, by simp, signed, value_eq_zero_iff.mpr (by simpa using zeros)⟩

end Writes

end BlockScript.Numeral
