import BlockScript.Limits.Setting
import BlockScript.Proofs.Numeral
import Mathlib.Data.List.DropRight
import Mathlib.Data.List.Forall2

/-!
# Limits from the environment

Texts outside of the program set its limits.  Which texts do what is described without the functions
that read them: by the characters that are white space (`White`), by what is left of a text between
them (`Trims`), by the case of a word (`InAnyCase`) and by the ways to write a number
(`Numeral.Writes`).  A text takes a limit away, sets it or is ignored by this description alone, and
each limit follows the text of its own variable (`environment_sets_limits`).
-/

namespace BlockScript

/-! ### White space -/

/-- The characters with the Unicode property `White_Space`, one by one. -/
def White (character : Char) : Prop :=
  character.toNat ∈ [0x9, 0xA, 0xB, 0xC, 0xD, 0x20, 0x85, 0xA0, 0x1680, 0x2000, 0x2001, 0x2002,
    0x2003, 0x2004, 0x2005, 0x2006, 0x2007, 0x2008, 0x2009, 0x200A, 0x2028, 0x2029, 0x202F, 0x205F,
    0x3000]

instance : DecidablePred White :=
  fun character => inferInstanceAs (Decidable (character.toNat ∈ _))

theorem isWhiteSpace_iff {character : Char} : isWhiteSpace character = true ↔ White character := by
  have controls : ∀ code, 9 ≤ code ∧ code ≤ 13 ↔
      code = 9 ∨ code = 10 ∨ code = 11 ∨ code = 12 ∨ code = 13 := by omega
  have spaces : ∀ code, 8192 ≤ code ∧ code ≤ 8202 ↔
      code = 8192 ∨ code = 8193 ∨ code = 8194 ∨ code = 8195 ∨ code = 8196 ∨ code = 8197 ∨
        code = 8198 ∨ code = 8199 ∨ code = 8200 ∨ code = 8201 ∨ code = 8202 := by omega
  simp only [isWhiteSpace, White, Bool.or_eq_true, Bool.and_eq_true, decide_eq_true_eq, beq_iff_eq,
    List.mem_cons, List.not_mem_nil, or_false, controls, spaces, or_assoc]

/-- `Trims text core` says that a text is its core with white space around it, and that the core
neither starts nor ends with any. -/
structure Trims (text core : List Char) : Prop where
  cut : ∃ before behind, text = before ++ core ++ behind ∧
    (∀ character ∈ before, White character) ∧ ∀ character ∈ behind, White character
  first : ∀ character ∈ core.head?, ¬ White character
  last : ∀ character ∈ core.getLast?, ¬ White character

theorem trimWhiteSpace_eq (text : List Char) :
    trimWhiteSpace text = (text.dropWhile isWhiteSpace).rdropWhile isWhiteSpace :=
  rfl

theorem trims_trimWhiteSpace (text : List Char) : Trims text (trimWhiteSpace text) := by
  rw [trimWhiteSpace_eq]
  constructor
  · use text.takeWhile isWhiteSpace, (text.dropWhile isWhiteSpace).rtakeWhile isWhiteSpace
    constructor
    · rw [List.append_assoc, List.rdropWhile_append_rtakeWhile, List.takeWhile_append_dropWhile]
    · constructor
      · exact fun _ member => isWhiteSpace_iff.mp (List.mem_takeWhile_imp member)
      · exact fun _ member => isWhiteSpace_iff.mp (List.mem_rtakeWhile_imp member)
  · intro character first
    -- What starts the core also starts what is left once the white space in front is cut off.
    obtain ⟨behind, whole⟩ := List.rdropWhile_prefix isWhiteSpace (l := text.dropWhile isWhiteSpace)
    have starts : (text.dropWhile isWhiteSpace).head? = some character := by
      rw [← whole, List.head?_append, Option.mem_def.mp first, Option.some_or]
    have stopped := List.head?_dropWhile_not isWhiteSpace text
    rw [starts] at stopped
    simpa [← isWhiteSpace_iff] using stopped
  · intro character last
    obtain ⟨some, rfl⟩ := List.mem_getLast?_eq_getLast last
    rw [← isWhiteSpace_iff]
    exact List.rdropWhile_last_not _ _ some

/-- There is only one way to cut off the white space around a text. -/
theorem Trims.eq {text core : List Char} (trims : Trims text core) : trimWhiteSpace text = core := by
  obtain ⟨⟨before, behind, rfl, front, back⟩, first, last⟩ := trims
  simp only [← isWhiteSpace_iff] at front back first last
  rw [trimWhiteSpace_eq, List.append_assoc, List.dropWhile_append_of_pos front]
  cases core with
  -- All of the text is white, so it may be cut off from the front already.
  | nil => simp [List.dropWhile_eq_nil_iff.mpr back]
  | cons head tail =>
    have kept : (head :: tail ++ behind).dropWhile isWhiteSpace = head :: tail ++ behind :=
      List.dropWhile_cons_of_neg (first head rfl)
    have dropped : (head :: tail ++ behind).rdropWhile isWhiteSpace =
        (head :: tail).rdropWhile isWhiteSpace := by
      rw [List.rdropWhile, List.reverse_append, List.dropWhile_append_of_pos (by simpa using back)]
      rfl
    rw [kept, dropped, List.rdropWhile_eq_self_iff]
    exact fun some => last _ (List.getLast_mem_getLast? some)

/-! ### Words -/

/-- A word in small ASCII letters, any of which may be replaced by the capital. -/
def InAnyCase (word text : List Char) : Prop :=
  List.Forall₂ (fun small letter => letter = small ∨ letter = small.toUpper) word text

theorem isUpper_iff {c : Char} : c.isUpper = true ↔ 65 ≤ c.toNat ∧ c.toNat ≤ 90 :=
  decide_eq_true_iff

theorem isLower_iff {c : Char} : c.isLower = true ↔ 97 ≤ c.toNat ∧ c.toNat ≤ 122 := by
  change (decide _ && decide _) = true ↔ _
  rw [Bool.and_eq_true, decide_eq_true_iff, decide_eq_true_iff]
  rfl

theorem isAlpha_iff {c : Char} :
    c.isAlpha = true ↔ (65 ≤ c.toNat ∧ c.toNat ≤ 90) ∨ (97 ≤ c.toNat ∧ c.toNat ≤ 122) := by
  rw [← isUpper_iff, ← isLower_iff, ← Bool.or_eq_true]
  rfl

theorem toNat_toLower (c : Char) :
    c.toLower.toNat = if 65 ≤ c.toNat ∧ c.toNat ≤ 90 then c.toNat + 32 else c.toNat := by
  delta Char.toLower
  split
  case isTrue capital =>
    have codes : 65 ≤ c.toNat ∧ c.toNat ≤ 90 := capital
    have sum : (c.val + ('a'.val - 'A'.val)).toNat = (c.toNat + 32) % 2 ^ 32 :=
      UInt32.toNat_add ..
    rw [if_pos codes]
    exact sum.trans (by omega)
  case isFalse other => exact (if_neg other).symm

theorem toNat_toUpper (c : Char) :
    c.toUpper.toNat = if 97 ≤ c.toNat ∧ c.toNat ≤ 122 then c.toNat - 32 else c.toNat := by
  delta Char.toUpper
  split
  case isTrue small =>
    have codes : 97 ≤ c.toNat ∧ c.toNat ≤ 122 := small
    -- The difference of the cases is negative, so the sum wraps around.
    have sum : (c.val + ('A'.val - 'a'.val)).toNat = (c.toNat + (2 ^ 32 - 32)) % 2 ^ 32 :=
      UInt32.toNat_add ..
    rw [if_pos codes]
    exact sum.trans (by omega)
  case isFalse other => exact (if_neg other).symm

theorem toLower_eq_iff {small letter : Char} (lower : small.isLower = true) :
    letter.toLower = small ↔ letter = small ∨ letter = small.toUpper := by
  rw [isLower_iff] at lower
  rw [← Char.toNat_inj, ← Char.toNat_inj, ← Char.toNat_inj, toNat_toLower, toNat_toUpper,
    if_pos lower]
  split <;> omega

section Words

variable {word text : List Char} (lower : ∀ small ∈ word, small.isLower = true)

include lower

theorem isWord_iff : Setting.isWord word text = true ↔ InAnyCase word text := by
  rw [Setting.isWord, beq_iff_eq, InAnyCase]
  induction word generalizing text with
  | nil => simp
  | cons small word ih =>
    rw [List.forall_mem_cons] at lower
    cases text with
    | nil => simp
    | cons letter text => simp [toLower_eq_iff lower.1, ih lower.2]

theorem InAnyCase.isAlpha (spelled : InAnyCase word text) : ∀ c ∈ text, c.isAlpha = true := by
  unfold InAnyCase at spelled
  induction spelled with
  | nil => simp
  | @cons small letter word text same _ ih =>
    rw [List.forall_mem_cons] at lower
    have alpha : letter.isAlpha = true := by
      have small_iff := isLower_iff.mp lower.1
      rw [isAlpha_iff]
      rcases same with rfl | rfl
      · omega
      · rw [toNat_toUpper, if_pos small_iff]
        omega
    simpa [alpha] using ih lower.2

end Words

/-! ### Texts -/

namespace Setting

/-- A text that takes a limit away: the word `none`, or zeros behind an optional plus sign. -/
def Lifts (text : String) : Prop :=
  ∃ core, Trims text.toList core ∧
    (InAnyCase ['n', 'o', 'n', 'e'] core ∨
      ∃ count, Numeral.Signed (List.replicate (count + 1) '0') core)

/-- A text that sets a limit: a number from one up to the greatest of 64 bits. -/
def Sets (text : String) (limit : Nat) : Prop :=
  ∃ core, Trims text.toList core ∧ Numeral.Writes core limit ∧ 1 ≤ limit ∧ limit ≤ 2 ^ 64 - 1

theorem exists_trims_iff {text : List Char} {property : List Char → Prop} :
    (∃ core, Trims text core ∧ property core) ↔ property (trimWhiteSpace text) := by
  constructor
  · rintro ⟨core, trims, holds⟩
    rwa [trims.eq]
  · exact fun holds => ⟨_, trims_trimWhiteSpace text, holds⟩

theorem lower_none : ∀ small ∈ ['n', 'o', 'n', 'e'], small.isLower = true :=
  List.all_eq_true.mp (by decide)

variable {text : String} {core : List Char} {number : Nat}

theorem not_writes_of_inAnyCase (spelled : InAnyCase ['n', 'o', 'n', 'e'] core) :
    ¬ Numeral.Writes core number := by
  intro writes
  -- A numeral starts with a digit or a sign, and the word with a letter.
  obtain ⟨c, rest, rfl⟩ := List.exists_cons_of_ne_nil writes.ne_nil
  have alpha := spelled.isAlpha lower_none c List.mem_cons_self
  have unsigned : c ≠ '+' := by
    rintro rfl
    exact absurd alpha (by decide)
  have digit := Char.isDigit_iff_toNat.mp (writes.isDigit_of_mem List.mem_cons_self unsigned)
  have nine : '9'.toNat = 57 := rfl
  rw [isAlpha_iff] at alpha
  omega

theorem ofText_eq_unlimited_iff : ofText text = .unlimited ↔ Lifts text := by
  rw [Lifts, exists_trims_iff, ← Numeral.writes_zero_iff, ← isWord_iff lower_none, ofText]
  generalize trimWhiteSpace text.toList = core
  split
  · next spelled => simp [spelled]
  · next other =>
    have zero : Numeral.unsigned? core = some 0 ↔ Numeral.Writes core 0 :=
      Numeral.unsigned?_eq_some_iff
    cases read : Numeral.unsigned? core <;> simp [other, ← zero, read]

theorem ofText_eq_limited_iff : ofText text = .limited number ↔ Sets text number := by
  rw [Sets, exists_trims_iff, ofText]
  generalize trimWhiteSpace text.toList = core
  split
  -- The word is looked for first, but it is no numeral.
  · next spelled => simp [not_writes_of_inAnyCase ((isWord_iff lower_none).mp spelled)]
  · next other =>
    constructor
    · intro result
      cases read : Numeral.unsigned? core with
      | none => simp [read] at result
      | some word =>
        by_cases zero : word = 0
        -- Zero does not set a limit but takes it away.
        · simp [read, zero] at result
        · obtain rfl : word.toNat = number := by simpa [read, zero] using result
          have positive : word.toNat ≠ 0 := fun same => zero (UInt64.toNat_inj.mp same)
          have small := word.toNat_lt
          exact ⟨Numeral.unsigned?_eq_some_iff.mp read, by omega, by omega⟩
    · rintro ⟨writes, positive, small⟩
      have fits : number < UInt64.size := Nat.lt_of_le_pred (by decide) small
      obtain ⟨word, read, rfl⟩ := Numeral.exists_unsigned? writes fits
      have some : word ≠ 0 := by
        rintro rfl
        exact absurd positive (by decide)
      simp [read, some]

/-- A text is ignored if it does neither. -/
theorem ofText_eq_ignored_iff :
    ofText text = .ignored ↔ ¬ Lifts text ∧ ∀ limit, ¬ Sets text limit := by
  simp only [← ofText_eq_unlimited_iff, ← ofText_eq_limited_iff]
  cases ofText text <;> simp

/-- What is heeded consists of letters and digits, apart from the sign. -/
theorem plain_of_heeded
    (heeded : InAnyCase ['n', 'o', 'n', 'e'] core ∨ Numeral.Writes core number) :
    core ≠ [] ∧ ∀ c ∈ core, c = '+' ∨ c.isAlphanum = true := by
  rcases heeded with spelled | writes
  · constructor
    · rintro rfl
      cases spelled
    · intro c member
      simp [Char.isAlphanum, spelled.isAlpha lower_none c member]
  · constructor
    · exact writes.ne_nil
    · intro c member
      by_cases sign : c = '+'
      · exact .inl sign
      · simp [Char.isAlphanum, writes.isDigit_of_mem member sign]

theorem not_white_of_plain {c : Char} (plain : c = '+' ∨ c.isAlphanum = true) :
    c ≠ '-' ∧ ¬ White c := by
  rcases plain with rfl | alphanum
  · decide
  · constructor
    · rintro rfl
      exact absurd alphanum (by decide)
    · rw [Char.isAlphanum, Bool.or_eq_true, isAlpha_iff, Char.isDigit_iff_toNat] at alphanum
      have zero : '0'.toNat = 48 := rfl
      have nine : '9'.toNat = 57 := rfl
      simp only [White, List.mem_cons, List.not_mem_nil, or_false]
      omega

/-- What is left of a text that is not ignored. -/
theorem heeded_of_ne_ignored (trims : Trims text.toList core) (heeded : ofText text ≠ .ignored) :
    ∃ number < 2 ^ 64, InAnyCase ['n', 'o', 'n', 'e'] core ∨ Numeral.Writes core number := by
  cases said : ofText text with
  | ignored => exact absurd said heeded
  | unlimited =>
    obtain ⟨other, also, lifts⟩ := ofText_eq_unlimited_iff.mp said
    rw [← also.eq, trims.eq, ← Numeral.writes_zero_iff] at lifts
    exact ⟨0, by decide, lifts⟩
  | limited number =>
    obtain ⟨other, also, writes, -, small⟩ := ofText_eq_limited_iff.mp said
    rw [← also.eq, trims.eq] at writes
    exact ⟨number, by omega, .inr writes⟩

/-- Numbers that are too great, minus signs and white space within a text are not heeded, and
neither is an empty text. -/
theorem ofText_eq_ignored_of_strange (trims : Trims text.toList core)
    (strange : core = [] ∨ '-' ∈ core ∨ (∃ c ∈ core, White c) ∨
      ∃ number, Numeral.Writes core number ∧ 2 ^ 64 ≤ number) :
    ofText text = .ignored := by
  by_contra heeded
  obtain ⟨small, less, said⟩ := heeded_of_ne_ignored trims heeded
  obtain ⟨some, plain⟩ := plain_of_heeded said
  rcases strange with empty | minus | ⟨c, member, white⟩ | ⟨great, writes, more⟩
  · exact some empty
  · exact (not_white_of_plain (plain _ minus)).1 rfl
  · exact (not_white_of_plain (plain _ member)).2 white
  · rcases said with spelled | written
    · exact not_writes_of_inAnyCase spelled writes
    · have := written.unique writes
      omega

/-! ### Variables -/

/-- `Governs text? before after` says what the text of a variable makes of a limit.  A limit stays
as it is if its variable is not set. -/
inductive Governs : Option String → Option Nat → Option Nat → Prop where
  | unset {limit} : Governs none limit limit
  | ignored {text limit} : ¬ Lifts text → (∀ number, ¬ Sets text number) →
      Governs (some text) limit limit
  | lifted {text limit} : Lifts text → Governs (some text) limit none
  | set {text limit number} : Sets text number → Governs (some text) limit (some number)

theorem heed_eq_iff {text? : Option String} {before after : Option Nat} :
    Limits.heed before text? = after ↔ Governs text? before after := by
  constructor
  · rintro rfl
    cases text? with
    | none => exact .unset
    | some text =>
      rw [Limits.heed]
      cases said : ofText text with
      | ignored =>
        obtain ⟨stays, kept⟩ := ofText_eq_ignored_iff.mp said
        exact .ignored stays kept
      | unlimited => exact .lifted (ofText_eq_unlimited_iff.mp said)
      | limited number => exact .set (ofText_eq_limited_iff.mp said)
  · intro governs
    cases governs with
    | unset => rfl
    | ignored stays kept => simp [Limits.heed, ofText_eq_ignored_iff.mpr ⟨stays, kept⟩, apply]
    | lifted lifts => simp [Limits.heed, ofText_eq_unlimited_iff.mpr lifts, apply]
    | set sets => simp [Limits.heed, ofText_eq_limited_iff.mpr sets, apply]

end Setting

open Setting

/-- A text takes a limit away if and only if it is the word `none` in any case or a numeral of zeros
only, with white space around it; it sets a limit if and only if it is the numeral of a positive
number of at most 64 bits, and then to that number; any other text is ignored.  Each limit of a
program follows the variable of its own name in this way and is otherwise the default. -/
theorem environment_sets_limits :
    (∀ text : String,
      (Setting.ofText text = .unlimited ↔ Lifts text) ∧
      (∀ number, Setting.ofText text = .limited number ↔ Sets text number) ∧
      (Setting.ofText text = .ignored ↔ ¬ Lifts text ∧ ∀ number, ¬ Sets text number)) ∧
    (∀ (text : String) (core : List Char), Trims text.toList core →
      (core = [] ∨ '-' ∈ core ∨ (∃ c ∈ core, White c) ∨
        ∃ number, Numeral.Writes core number ∧ 2 ^ 64 ≤ number) →
      Setting.ofText text = .ignored) ∧
    ∀ (lookup : String → Option String) (limit : Option Nat),
      ((Id.run (Limits.ofEnvironment lookup)).maxSteps = limit ↔
        Governs (lookup "MINIBLOCKS_MAX_STEPS") (some 10000000) limit) ∧
      ((Id.run (Limits.ofEnvironment lookup)).maxInstructions = limit ↔
        Governs (lookup "MINIBLOCKS_MAX_INSTRUCTIONS") none limit) := by
  constructor
  · exact fun text => ⟨ofText_eq_unlimited_iff, fun _ => ofText_eq_limited_iff,
      ofText_eq_ignored_iff⟩
  · constructor
    · exact fun text core trims strange => ofText_eq_ignored_of_strange trims strange
    · exact fun lookup limit => ⟨heed_eq_iff, heed_eq_iff⟩

/-- The least number of 65 bits, behind a space that does not break and a plus sign. -/
theorem environment_sets_limits_of_overflow :
    let text := "\u00a0+018446744073709551616\n"
    let core := "+018446744073709551616".toList
    Trims text.toList core ∧ Numeral.Writes core (2 ^ 64) ∧ Setting.ofText text = .ignored := by
  intro text core
  have cut : trimWhiteSpace text.toList = core := by decide
  have trims : Trims text.toList core := cut ▸ trims_trimWhiteSpace text.toList
  have writes : Numeral.Writes core (2 ^ 64) := by
    have signed : core = '+' :: [0, 1, 8, 4, 4, 6, 7, 4, 4, 0, 7, 3, 7, 0, 9, 5, 5, 1, 6, 1, 6].map
      Numeral.character := by decide
    rw [signed]
    exact ⟨_, by decide, .plus, by decide⟩
  exact ⟨trims, writes, environment_sets_limits.2.1 text core trims
    (.inr (.inr (.inr ⟨_, writes, Nat.le_refl _⟩)))⟩

end BlockScript
