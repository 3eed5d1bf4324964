/-!
# JSON texts

A strict reader of JSON that keeps what the text says: numbers as they are written, object fields
in order with repetitions.  The reader is total, since whatever it reads it takes off the front of
the text.
-/

namespace BlockScript

/-- What a JSON text says.  A number keeps its spelling.  A string has no text if an escape in it
names half of a surrogate pair and so no character. -/
inductive Json where
  | null
  | bool (value : Bool)
  | number (spelling : String)
  | string (text? : Option String)
  | array (elements : List Json)
  | object (fields : List (Option String × Json))

namespace Json

/-- Something read off the front of a text, and the rest of the text, shorter than a bound. -/
structure Reading (bound : Nat) (α : Type) where
  value : α
  rest : List Char
  shorter : rest.length < bound

namespace Reading

def map {α β : Type} {bound : Nat} (change : α → β) (reading : Reading bound α) :
    Reading bound β :=
  ⟨change reading.value, reading.rest, reading.shorter⟩

def within {α : Type} {tighter bound : Nat} (reading : Reading tighter α)
    (le : tighter ≤ bound) : Reading bound α :=
  ⟨reading.value, reading.rest, Nat.lt_of_lt_of_le reading.shorter le⟩

end Reading

/-- The characters that may stand between the parts of a JSON text. -/
def isBlank (character : Char) : Bool :=
  character == ' ' || character == '\t' || character == '\n' || character == '\r'

/-- Drops blanks from the front of a text. -/
def skip (text : List Char) : List Char :=
  text.dropWhile isBlank

theorem length_skip_le (text : List Char) : (skip text).length ≤ text.length :=
  (List.dropWhile_suffix isBlank).length_le

/-! ### Numbers -/

/-- The digits that a text starts with, at least one. -/
def digits? (text : List Char) : Option (Reading text.length (List Char)) :=
  match text with
  | [] => none
  | character :: rest =>
    if character.isDigit then
      some ⟨character :: rest.takeWhile Char.isDigit, rest.dropWhile Char.isDigit,
        Nat.lt_succ_of_le (List.dropWhile_suffix _).length_le⟩
    else none

/-- The whole part of a number: a zero alone, or digits that do not start with a zero. -/
def whole? (text : List Char) : Option (Reading text.length (List Char)) :=
  match text with
  | '0' :: rest => some ⟨['0'], rest, Nat.lt_succ_self _⟩
  | other => digits? other

/-- The fraction of a number, if there is one: a point and digits. -/
def fraction? (text : List Char) : Option (Reading (text.length + 1) (List Char)) :=
  match text with
  | '.' :: rest =>
    (digits? rest).map fun digits =>
      (digits.map ('.' :: ·)).within (by simp only [List.length_cons]; omega)
  | other => some ⟨[], other, Nat.lt_succ_self _⟩

/-- The exponent of a number, if there is one: the letter, an optional sign, and digits. -/
def exponent? (text : List Char) : Option (Reading (text.length + 1) (List Char)) :=
  match text with
  | [] => some ⟨[], [], Nat.lt_succ_self _⟩
  | letter :: rest =>
    if letter = 'e' ∨ letter = 'E' then
      match rest with
      | '+' :: unsigned =>
        (digits? unsigned).map fun digits =>
          (digits.map ([letter, '+'] ++ ·)).within (by simp only [List.length_cons]; omega)
      | '-' :: unsigned =>
        (digits? unsigned).map fun digits =>
          (digits.map ([letter, '-'] ++ ·)).within (by simp only [List.length_cons]; omega)
      | unsigned =>
        (digits? unsigned).map fun digits =>
          (digits.map (letter :: ·)).within (by simp only [List.length_cons]; omega)
    else some ⟨[], letter :: rest, Nat.lt_succ_self _⟩

/-- A number without its sign. -/
def unsigned? (text : List Char) : Option (Reading text.length (List Char)) := do
  let whole ← whole? text
  let fraction ← fraction? whole.rest
  let exponent ← exponent? fraction.rest
  return ⟨whole.value ++ fraction.value ++ exponent.value, exponent.rest, by
    have := whole.shorter
    have := fraction.shorter
    have := exponent.shorter
    omega⟩

/-- A number, as it is written. -/
def number? (text : List Char) : Option (Reading text.length Json) :=
  let spelled (characters : List Char) : Json := .number (String.ofList characters)
  match text with
  | '-' :: rest =>
    (unsigned? rest).map fun number =>
      (number.map fun characters => spelled ('-' :: characters)).within (by simp)
  | other => (unsigned? other).map (·.map spelled)

/-! ### Strings -/

def hexDigit? (character : Char) : Option Nat :=
  if character.isDigit then some (character.toNat - '0'.toNat)
  else if 'a' ≤ character ∧ character ≤ 'f' then some (character.toNat - 'a'.toNat + 10)
  else if 'A' ≤ character ∧ character ≤ 'F' then some (character.toNat - 'A'.toNat + 10)
  else none

def hexValue? (first second third fourth : Char) : Option Nat := do
  let a ← hexDigit? first
  let b ← hexDigit? second
  let c ← hexDigit? third
  let d ← hexDigit? fourth
  return ((a * 16 + b) * 16 + c) * 16 + d

/-- The character that a backslash and the given letter stand for. -/
def escape? : Char → Option Char
  | '"' => some '"'
  | '\\' => some '\\'
  | '/' => some '/'
  | 'b' => some '\x08'
  | 'f' => some '\x0c'
  | 'n' => some '\n'
  | 'r' => some '\r'
  | 't' => some '\t'
  | _ => none

/-- Joins surrogate pairs; there is no text if half of a pair stands alone. -/
def joinSurrogates (read : List Char) : List Nat → Option String
  | [] => some (String.ofList read.reverse)
  | [code] =>
    if 0xD800 ≤ code ∧ code ≤ 0xDFFF then none
    else some (String.ofList (Char.ofNat code :: read).reverse)
  | code :: next :: rest =>
    if 0xD800 ≤ code ∧ code ≤ 0xDBFF then
      if 0xDC00 ≤ next ∧ next ≤ 0xDFFF then
        joinSurrogates (Char.ofNat (0x10000 + (code - 0xD800) * 0x400 + (next - 0xDC00)) :: read)
          rest
      else none
    else if 0xDC00 ≤ code ∧ code ≤ 0xDFFF then none
    else joinSurrogates (Char.ofNat code :: read) (next :: rest)

/-- The codes of a string from behind its opening quote, behind codes already read, the last one
first.  Control characters must be escaped. -/
def codes? (bound : Nat) (read : List Nat) (text : List Char) (le : text.length ≤ bound) :
    Option (Reading bound (List Nat)) :=
  match text with
  | [] => none
  | '"' :: rest => some ⟨read.reverse, rest, le⟩
  | '\\' :: 'u' :: first :: second :: third :: fourth :: rest =>
    match hexValue? first second third fourth with
    | some code => codes? bound (code :: read) rest (by simp only [List.length_cons] at le; omega)
    | none => none
  | '\\' :: letter :: rest =>
    match escape? letter with
    | some character =>
      codes? bound (character.toNat :: read) rest (by simp only [List.length_cons] at le; omega)
    | none => none
  | character :: rest =>
    if character.toNat < 0x20 ∨ character = '\\' then none
    else codes? bound (character.toNat :: read) rest (by simp only [List.length_cons] at le; omega)

/-- A string from behind its opening quote. -/
def string? (text : List Char) : Option (Reading text.length (Option String)) :=
  (codes? text.length [] text (Nat.le_refl _)).map (·.map (joinSurrogates []))

/-! ### Values -/

mutual

/-- The value that a text starts with. -/
def value? (text : List Char) : Option (Reading text.length Json) :=
  match text with
  | 'n' :: 'u' :: 'l' :: 'l' :: rest => some ⟨.null, rest, by simp; omega⟩
  | 't' :: 'r' :: 'u' :: 'e' :: rest => some ⟨.bool true, rest, by simp; omega⟩
  | 'f' :: 'a' :: 'l' :: 's' :: 'e' :: rest => some ⟨.bool false, rest, by simp; omega⟩
  | '"' :: rest => (string? rest).map fun text => (text.map .string).within (by simp)
  | '[' :: rest =>
    match _behind : skip rest with
    | ']' :: closed =>
      have := length_skip_le rest
      some ⟨.array [], closed, by simp_all; omega⟩
    | _ => (elements? (rest.length + 1) [] rest (Nat.lt_succ_self _)).map (·.map .array)
  | '\x7b' :: rest =>
    match _behind : skip rest with
    | '\x7d' :: closed =>
      have := length_skip_le rest
      some ⟨.object [], closed, by simp_all; omega⟩
    | _ => (fields? (rest.length + 1) [] rest (Nat.lt_succ_self _)).map (·.map .object)
  | other => number? other
termination_by 2 * text.length
decreasing_by all_goals simp only [List.length_cons]; omega

/-- The elements of an array up to its closing bracket, behind elements already read, the last one
first. -/
def elements? (bound : Nat) (read : List Json) (text : List Char) (lt : text.length < bound) :
    Option (Reading bound (List Json)) :=
  match value? (skip text) with
  | none => none
  | some ⟨element, rest, shorter⟩ =>
    have := length_skip_le text
    have := length_skip_le rest
    match _behind : skip rest with
    | ',' :: others => elements? bound (element :: read) others (by simp_all; omega)
    | ']' :: closed => some ⟨(element :: read).reverse, closed, by simp_all; omega⟩
    | _ => none
termination_by 2 * text.length + 1
decreasing_by
  · have := length_skip_le text; omega
  · simp_all; omega

/-- The fields of an object up to its closing brace, behind fields already read, the last one
first. -/
def fields? (bound : Nat) (read : List (Option String × Json)) (text : List Char)
    (lt : text.length < bound) : Option (Reading bound (List (Option String × Json))) :=
  have := length_skip_le text
  match _quote : skip text with
  | '"' :: quoted =>
    match string? quoted with
    | none => none
    | some ⟨key, keyed, keyShorter⟩ =>
      have := length_skip_le keyed
      match _colon : skip keyed with
      | ':' :: behindKey =>
        have := length_skip_le behindKey
        match value? (skip behindKey) with
        | none => none
        | some ⟨value, rest, shorter⟩ =>
          have := length_skip_le rest
          match _behind : skip rest with
          | ',' :: others => fields? bound ((key, value) :: read) others (by simp_all; omega)
          | '\x7d' :: closed =>
            some ⟨((key, value) :: read).reverse, closed, by simp_all; omega⟩
          | _ => none
      | _ => none
  | _ => none
termination_by 2 * text.length + 1
decreasing_by all_goals simp_all; omega

end

/-- What a JSON text says: one value with nothing but blanks around it. -/
def parse? (source : String) : Option Json := do
  let reading ← value? (skip source.toList)
  if (skip reading.rest).isEmpty then some reading.value else none

end Json

end BlockScript
