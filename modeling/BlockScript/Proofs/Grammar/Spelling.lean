import BlockScript.Proofs.Grammar.Programs
import BlockScript.Proofs.Number.Literals
import BlockScript.Proofs.Token.Truncation

/-!
# Programs by their spelling

What a text that is put together of known pieces is read as.  The pieces give the kinds of its tokens
(`Spells`), and where these are sentences the text is the program of their statements
(`Program.ofSource_of_spells`).
-/

namespace BlockScript

/-- A row of digits goes on up to a character that is neither a digit nor a point. -/
theorem Lexeme.number_of_digits {digits : List Char} {next : Char}
    (all_digits : ∀ digit ∈ digits, digit.isDigit = true) (no_digit : next.isDigit = false)
    (no_point : next ≠ '.') (rest : List Char) :
    number (digits ++ next :: rest) =
      ⟨some (.number (Number.ofDigits digits [])), digits, next :: rest⟩ := by
  have stops : ¬next.isDigit = true := by rw [no_digit]; decide
  have whole : (digits ++ next :: rest).takeWhile Char.isDigit = digits := by
    rw [List.takeWhile_append_of_pos all_digits, List.takeWhile_cons_of_neg stops, List.append_nil]
  have behind : (digits ++ next :: rest).dropWhile Char.isDigit = next :: rest := by
    rw [List.dropWhile_append_of_pos all_digits, List.dropWhile_cons_of_neg stops]
  have no_fraction : fraction (next :: rest) = [] := by
    unfold fraction
    split
    · next point => exact absurd (List.cons.inj point).1 no_point
    · rfl
  rw [number_of_no_fraction (by rw [behind, no_fraction]), whole, behind]

/-! ### The kinds of the tokens of a text -/

/-- A text is scanned to tokens of the given kinds, wherever it stands. -/
def Spells (text : List Char) (kinds : List TokenKind) : Prop :=
  ∀ position, ∃ tokens, Token.scanFrom position [] text = .ok tokens ∧
    tokens.map (·.kind) = kinds ++ [.eof]

/-- A piece of a text: its characters, and the kind of the token that they are, if they are one. -/
abbrev Part := List Char × Option TokenKind

namespace Part

def textAll (parts : List Part) : List Char := parts.flatMap (·.1)

def kinds (parts : List Part) : List TokenKind := parts.filterMap (·.2)

/-- Each piece is the first lexeme of the text that it and those behind it make up. -/
def Lead : List Part → List Char → Prop
  | [], _ => True
  | (characters, kind?) :: parts, tail =>
    (∃ character rest, characters ++ (textAll parts ++ tail) = character :: rest ∧
      Lexeme.first character rest = .ok ⟨kind?, characters, textAll parts ++ tail⟩) ∧
    Lead parts tail

end Part

namespace Spells

theorem nil : Spells [] [] := by
  intro position
  exact ⟨[Token.endAt position], by rw [Token.scanFrom]; rfl, rfl⟩

variable {character : Char} {rest characters behind : List Char} {kind : TokenKind}
  {kinds : List TokenKind}

theorem token (found : Lexeme.first character rest = .ok ⟨some kind, characters, behind⟩)
    (spells : Spells behind kinds) : Spells (character :: rest) (kind :: kinds) := by
  intro position
  obtain ⟨tokens, scanned, same⟩ := spells (position.after characters)
  refine ⟨⟨kind, String.ofList characters, position⟩ :: tokens, ?_, congrArg (kind :: ·) same⟩
  rw [Token.scanFrom_of_kinded found rfl, scanned]
  rfl

theorem trivia (found : Lexeme.first character rest = .ok ⟨none, characters, behind⟩)
    (spells : Spells behind kinds) : Spells (character :: rest) kinds := by
  intro position
  rw [Token.scanFrom_of_unkinded found rfl]
  exact spells _

/-- A comma and the blank behind it. -/
theorem comma (spells : Spells rest kinds) :
    Spells (',' :: ' ' :: rest) (.symbol .comma :: kinds) := by
  have found : Lexeme.first ',' (' ' :: rest) = .ok ⟨some (.symbol .comma), [','], ' ' :: rest⟩ :=
    rfl
  exact token found (trivia (@Lexeme.first_blank ' ' (by decide) rest) spells)

/-- A whole number in front of what is neither a digit nor a point. -/
theorem natural (natural : Nat) {next : Char} (no_digit : next.isDigit = false)
    (no_point : next ≠ '.') (spells : Spells (next :: rest) kinds) :
    Spells ((toString natural).toList ++ next :: rest)
      (.number (Float.ofNat natural) :: kinds) := by
  have all_digits : ∀ digit ∈ (toString natural).toList, digit.isDigit = true :=
    fun _ => Number.isDigit_of_mem_toString
  have read := Lexeme.number_of_digits all_digits no_digit no_point rest
  rw [Number.ofDigits_toString] at read
  cases digits : (toString natural).toList with
  | nil => exact absurd digits (Number.toString_ne_nil natural)
  | cons digit others =>
    rw [digits] at all_digits read
    have found := Lexeme.first_of_isDigit (all_digits digit List.mem_cons_self)
      (others ++ next :: rest)
    rw [← List.cons_append, read] at found
    exact token found spells

/-- Pieces of a text, one after the other. -/
theorem parts {parts : List Part} (lead : Part.Lead parts rest) (spells : Spells rest kinds) :
    Spells (Part.textAll parts ++ rest) (Part.kinds parts ++ kinds) := by
  induction parts with
  | nil => exact spells
  | cons part parts ih =>
    obtain ⟨characters, kind?⟩ := part
    obtain ⟨⟨character, text, whole, found⟩, others⟩ := lead
    have text_eq : Part.textAll ((characters, kind?) :: parts) ++ rest = character :: text := by
      rw [← whole, Part.textAll, List.flatMap_cons, List.append_assoc]
      rfl
    rw [text_eq]
    cases kind? with
    | none => exact trivia found (ih others)
    | some kind => exact token found (ih others)

end Spells

/-! ### From kinds to programs -/

/-- Whatever binds most tightly may stand for an expression of any rank. -/
theorem Phrase.of_primary {rank : Rank} {source : List TokenKind} {value : Expression}
    (phrase : Phrase .primary source value) : Phrase rank source value :=
  @Rank.from_tightest (Phrase · source value) phrase .ofPrimary (fun _ => .ofOperand) .ofOperators
    .ofConditional rank

theorem Phrase.of_unary {source : List TokenKind} {value : Expression}
    (phrase : Phrase .unary source value) : Phrase .assignment source value :=
  .ofConditional <| .ofOperators <| .ofOperand <| .ofOperand <| .ofOperand <| .ofOperand <|
    .ofOperand <| .ofOperand phrase

theorem Phrase.Within.of_primary {room : Nat} {source : List TokenKind} {value : Expression}
    (phrase : Phrase .primary source value) (flat : value.nesting ≤ room) :
    Phrase.Within room source value :=
  ⟨phrase.of_primary, flat⟩

/-- A text that spells sentences is the program of their statements. -/
theorem Program.ofSource_of_spells {source : String} {items : List (List TokenKind × Statement)}
    (spells : Spells source.toList (items.flatMap (·.1))) (proper : .eof ∉ items.flatMap (·.1))
    (sentences : ∀ item ∈ items, Sentence .item maxNesting item.1 item.2) :
    Program.ofSource source = .ok ⟨items.map (·.2)⟩ := by
  obtain ⟨tokens, scanned, same⟩ := spells .start
  have others : ∀ kind ∈ items.flatMap (·.1), decide (kind ≠ .eof) = true :=
    fun kind member => decide_eq_true fun last => proper (last ▸ member)
  have kinds_eq : (Cursor.ofTokens tokens).kinds = items.flatMap (·.1) := by
    rw [Cursor.kinds_ofTokens, same, List.takeWhile_append_of_pos others]
    exact List.append_nil _
  have parsed : Program.ofTokens tokens = .ok ⟨items.map (·.2)⟩ :=
    Cursor.program_of_items sentences [] kinds_eq (Nat.zero_add _)
  rw [Program.ofSource, Token.scan, scanned]
  simp only [parsed]

end BlockScript
