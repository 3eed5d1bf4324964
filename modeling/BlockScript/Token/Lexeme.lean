import BlockScript.Token

/-!
# Lexemes

`Lexeme.first` cuts the first lexeme off a text: a token, or a piece of blank text or comment that
stands between tokens.  The longest symbol, number or word is taken.  What is cut off and what is
left are together the text (`Lexeme.text_append_rest`), and something is always cut off
(`Lexeme.length_rest_lt`), so cutting ends.
-/

namespace BlockScript

/-- Why a text has no first lexeme. -/
inductive LexFault where
  /-- A character that starts nothing. -/
  | unexpected (character : Char)
  /-- A character that means something only when written twice. -/
  | single (character : Char)
  /-- A string without its closing quote. -/
  | unterminatedString
  /-- A fault that is stated in words. -/
  | stated (message : String)
  deriving DecidableEq, Repr

/-- The first lexeme of a text: the kind of its token, or none for blanks and comments, its
characters, and the text behind it. -/
structure Lexeme where
  kind? : Option TokenKind
  text : List Char
  rest : List Char

namespace Lexeme

/-- The characters that stand between tokens and mean nothing. -/
def isBlank (character : Char) : Bool :=
  character == ' ' || character == '\r' || character == '\t' || character == '\n'

/-- The characters that start a name or a reserved word. -/
def startsWord (character : Char) : Bool :=
  character.isAlpha || character == '_'

/-- The characters that continue a name or a reserved word. -/
def continuesWord (character : Char) : Bool :=
  character.isAlphanum || character == '_'

/-- Walks to the end of a block comment, or to the end of the text if the comment is not closed.
Comments do not nest.  Yields the characters read, the last one first, and the text behind. -/
def blockComment (read : List Char) : List Char → List Char × List Char
  | '*' :: '/' :: rest => ('/' :: '*' :: read, rest)
  | character :: rest => blockComment (character :: read) rest
  | [] => (read, [])

/-- The character that a backslash and the given character stand for. -/
def unescape : Char → Char
  | 'n' => '\n'
  | 't' => '\t'
  | character => character

/-- A string from behind its opening quote: the characters read and those they stand for, both the
last one first, and the text behind the closing quote.  A backslash takes the next character with
it, so a quote behind one does not close the string. -/
def stringBody? (read value : List Char) : List Char → Option (List Char × List Char × List Char)
  | [] => none
  | '"' :: rest => some ('"' :: read, value, rest)
  | '\\' :: [] => none
  | '\\' :: escaped :: rest => stringBody? (escaped :: '\\' :: read) (unescape escaped :: value) rest
  | character :: rest => stringBody? (character :: read) (character :: value) rest

/-- The fraction of a number behind its whole part: a point that a digit follows, and all digits
from there.  Without one the fraction is empty and nothing is taken. -/
def fraction : List Char → List Char
  | '.' :: rest => rest.takeWhile Char.isDigit
  | _ => []

/-- The lexeme of a number, whose text starts with a digit. -/
def number (text : List Char) : Lexeme :=
  let whole := text.takeWhile Char.isDigit
  let rest := text.dropWhile Char.isDigit
  match fraction rest with
  | [] => ⟨some (.number (Number.ofDigits whole [])), whole, rest⟩
  | digits =>
    ⟨some (.number (Number.ofDigits whole digits)), whole ++ '.' :: digits,
      rest.drop (digits.length + 1)⟩

def wordKind (word : String) : TokenKind :=
  match Keyword.ofSpelling? word with
  | some keyword => .keyword keyword
  | none => .identifier word

/-- The lexeme of a name or a reserved word, whose text starts with a letter or an underscore. -/
def word (text : List Char) : Lexeme :=
  let characters := text.takeWhile continuesWord
  ⟨some (wordKind (String.ofList characters)), characters, text.dropWhile continuesWord⟩

/-- The lexeme that starts with a given character in front of a text, if it is a symbol. -/
def symbol? (character : Char) (rest : List Char) : Option Lexeme :=
  match rest with
  | second :: behind =>
    -- The longer symbol is tried first.
    match Symbol.ofPair? character second with
    | some symbol => some ⟨some (.symbol symbol), [character, second], behind⟩
    | none => (Symbol.ofChar? character).map fun symbol =>
        ⟨some (.symbol symbol), [character], rest⟩
  | [] => (Symbol.ofChar? character).map fun symbol => ⟨some (.symbol symbol), [character], []⟩

/-- The lexeme that a text with the given first character starts with, if it is neither blank nor a
comment. -/
def token (character : Char) (rest : List Char) : Except LexFault Lexeme :=
  if character = '"' then
    match stringBody? ['"'] [] rest with
    | some (read, value, behind) =>
      .ok ⟨some (.string (String.ofList value.reverse)), read.reverse, behind⟩
    | none => .error .unterminatedString
  else if character.isDigit then .ok (number (character :: rest))
  else if startsWord character then .ok (word (character :: rest))
  else
    match symbol? character rest with
    | some lexeme => .ok lexeme
    | none =>
      if character = '&' ∨ character = '|' then .error (.single character)
      else .error (.unexpected character)

/-- The first lexeme of a text that consists of a character and the text behind it. -/
def first (character : Char) (rest : List Char) : Except LexFault Lexeme :=
  if isBlank character then .ok ⟨none, [character], rest⟩
  else
    match character, rest with
    -- The newline that ends a line comment is a blank of its own.
    | '/', '/' :: comment =>
      .ok ⟨none, '/' :: '/' :: comment.takeWhile (· ≠ '\n'), comment.dropWhile (· ≠ '\n')⟩
    | '/', '*' :: comment =>
      let (read, behind) := blockComment ['*', '/'] comment
      .ok ⟨none, read.reverse, behind⟩
    | _, _ => token character rest

/-! ### Tokens -/

/-- A token that a text starts with: a string, a number, a word or a symbol, as its first character
has it. -/
inductive Starts (character : Char) (rest : List Char) (lexeme : Lexeme) : Prop where
  | string {read value behind} : character = '"' →
      stringBody? ['"'] [] rest = some (read, value, behind) →
      ⟨some (.string (String.ofList value.reverse)), read.reverse, behind⟩ = lexeme →
      Starts character rest lexeme
  | number : character ≠ '"' → character.isDigit = true → number (character :: rest) = lexeme →
      Starts character rest lexeme
  | word : character ≠ '"' → ¬character.isDigit = true → startsWord character = true →
      word (character :: rest) = lexeme → Starts character rest lexeme
  | symbol : character ≠ '"' → ¬character.isDigit = true → ¬startsWord character = true →
      symbol? character rest = some lexeme → Starts character rest lexeme

theorem token_eq_ok_iff {character : Char} {rest : List Char} {lexeme : Lexeme} :
    token character rest = .ok lexeme ↔ Starts character rest lexeme := by
  unfold token
  constructor
  · intro found
    -- Each test is made only where the ones before it have failed, which the cases keep.
    split at found
    · next quote =>
      split at found
      · next body => exact .string quote body (Except.ok.inj found)
      · cases found
    · next no_quote =>
      split at found
      · next digit => exact .number no_quote digit (Except.ok.inj found)
      · next no_digit =>
        split at found
        · next starts => exact .word no_quote no_digit starts (Except.ok.inj found)
        · next no_word =>
          split at found
          · next symbol =>
            exact .symbol no_quote no_digit no_word (Except.ok.inj found ▸ symbol)
          · split at found <;> cases found
  · intro starts
    cases starts with
    | string quote body same =>
      rw [if_pos quote, body]
      exact congrArg Except.ok same
    | number no_quote digit same => rw [if_neg no_quote, if_pos digit, same]
    | word no_quote no_digit starts same =>
      rw [if_neg no_quote, if_neg no_digit, if_pos starts, same]
    | symbol no_quote no_digit no_word found =>
      rw [if_neg no_quote, if_neg no_digit, if_neg no_word, found]

/-! ### Nothing is lost -/

theorem blockComment_append (read text : List Char) :
    (blockComment read text).1.reverse ++ (blockComment read text).2 = read.reverse ++ text := by
  fun_induction blockComment read text <;> simp_all

theorem stringBody?_append {read value text readAll valueAll rest : List Char}
    (body : stringBody? read value text = some (readAll, valueAll, rest)) :
    readAll.reverse ++ rest = read.reverse ++ text := by
  fun_induction stringBody? read value text <;> simp_all
  obtain ⟨rfl, _, rfl⟩ := body
  simp

theorem fraction_append {text : List Char} (some_digits : fraction text ≠ []) :
    '.' :: fraction text ++ text.drop ((fraction text).length + 1) = text := by
  unfold fraction at *
  split at some_digits
  · next rest =>
    have whole := rest.takeWhile_append_dropWhile (p := Char.isDigit)
    have behind := congrArg (List.drop (rest.takeWhile Char.isDigit).length) whole
    rw [List.drop_left] at behind
    simp [← behind]
  · contradiction

theorem number_append (text : List Char) : (number text).text ++ (number text).rest = text := by
  have whole := text.takeWhile_append_dropWhile (p := Char.isDigit)
  unfold number
  dsimp only
  split
  · exact whole
  · next digits some_digits =>
    have behind := fraction_append some_digits
    dsimp only
    rw [List.append_assoc, List.cons_append, ← List.cons_append, behind, whole]

theorem word_append (text : List Char) : (word text).text ++ (word text).rest = text :=
  List.takeWhile_append_dropWhile

theorem symbol?_append {character : Char} {rest : List Char} {lexeme : Lexeme}
    (found : symbol? character rest = some lexeme) :
    lexeme.text ++ lexeme.rest = character :: rest := by
  unfold symbol? at found
  split at found
  · split at found
    · cases found; rfl
    · obtain ⟨mark, _, rfl⟩ := Option.map_eq_some_iff.mp found; rfl
  · obtain ⟨mark, _, rfl⟩ := Option.map_eq_some_iff.mp found; rfl

theorem token_append {character : Char} {rest : List Char} {lexeme : Lexeme}
    (found : token character rest = .ok lexeme) :
    lexeme.text ++ lexeme.rest = character :: rest := by
  cases token_eq_ok_iff.mp found with
  | string quote body same =>
    subst same
    simpa [quote] using stringBody?_append body
  | number _ _ same => exact same ▸ number_append _
  | word _ _ _ same => exact same ▸ word_append _
  | symbol _ _ _ symbol => exact symbol?_append symbol

/-- What is cut off and what is left are together the text. -/
theorem text_append_rest {character : Char} {rest : List Char} {lexeme : Lexeme}
    (found : first character rest = .ok lexeme) :
    lexeme.text ++ lexeme.rest = character :: rest := by
  unfold first at found
  split at found
  · cases found; rfl
  · split at found
    · cases found; simp
    · cases found
      next comment _ => simpa using blockComment_append ['*', '/'] comment
    · exact token_append found

/-! ### Something is cut off -/

theorem stringBody?_ne_nil {read value text readAll valueAll rest : List Char}
    (body : stringBody? read value text = some (readAll, valueAll, rest)) : readAll ≠ [] := by
  fun_induction stringBody? read value text <;> simp_all
  obtain ⟨rfl, _, _⟩ := body
  simp

theorem symbol?_text_ne_nil {character : Char} {rest : List Char} {lexeme : Lexeme}
    (found : symbol? character rest = some lexeme) : lexeme.text ≠ [] := by
  unfold symbol? at found
  split at found
  · split at found
    · cases found; simp
    · obtain ⟨mark, _, rfl⟩ := Option.map_eq_some_iff.mp found; simp
  · obtain ⟨mark, _, rfl⟩ := Option.map_eq_some_iff.mp found; simp

theorem token_text_ne_nil {character : Char} {rest : List Char} {lexeme : Lexeme}
    (found : token character rest = .ok lexeme) : lexeme.text ≠ [] := by
  cases token_eq_ok_iff.mp found with
  | string _ body same =>
    subst same
    simpa using stringBody?_ne_nil body
  | number _ digit same =>
    subst same
    unfold number
    dsimp only
    split <;> simp [digit]
  | word _ _ starts same =>
    -- What starts a word can also go on with one.
    have continues : continuesWord character = true := by
      simp only [startsWord, continuesWord, Char.isAlphanum, Bool.or_eq_true] at starts ⊢
      exact starts.imp_left Or.inl
    subst same
    simp [word, continues]
  | symbol _ _ _ symbol => exact symbol?_text_ne_nil symbol

theorem text_ne_nil {character : Char} {rest : List Char} {lexeme : Lexeme}
    (found : first character rest = .ok lexeme) : lexeme.text ≠ [] := by
  unfold first at found
  split at found
  · cases found; simp
  · split at found
    · cases found; simp
    · cases found
      next comment _ =>
        intro empty
        have whole := congrArg List.length (blockComment_append ['*', '/'] comment)
        have shorter : ∀ read text, (blockComment read text).2.length ≤ text.length := by
          intro read text
          fun_induction blockComment read text <;> simp_all <;> omega
        have := shorter ['*', '/'] comment
        simp only [List.reverse_eq_nil_iff] at empty
        simp [empty] at whole
        omega
    · exact token_text_ne_nil found

/-- The text behind a lexeme is shorter than the text it was cut off from. -/
theorem length_rest_lt {character : Char} {rest : List Char} {lexeme : Lexeme}
    (found : first character rest = .ok lexeme) :
    lexeme.rest.length < (character :: rest).length := by
  have whole := congrArg List.length (text_append_rest found)
  have cut := List.length_pos_iff.mpr (text_ne_nil found)
  rw [List.length_append] at whole
  omega

end Lexeme

end BlockScript
