import BlockScript.Proofs.Grammar.Spelling
import BlockScript.Proofs.Runner.Validation
import BlockScript.Proofs.Token.Strings

/-!
# Printed commands as programs

A printed command is a statement.  Its coordinates are literals of whole numbers, with a minus sign
in front of the negative ones, and its name is written between quotes as it is.  If the name can be
written so, the statement is read back and emits the command (`yields_printed`).
-/

namespace BlockScript

/-! ### Lexemes of a printed command -/

namespace Lexeme

/-- The word for setting a block, in front of the values for it. -/
theorem first_setBlock (rest : List Char) :
    first 's' ("etBlock".toList ++ '(' :: rest) =
      .ok ⟨some (.keyword .setBlock), "setBlock".toList, '(' :: rest⟩ := rfl

theorem encodes_self {name : List Char} (no_quote : '"' ∉ name) (no_backslash : '\\' ∉ name) :
    Encodes name name := by
  induction name with
  | nil => exact .nil
  | cons character name ih =>
    rw [List.mem_cons, not_or] at no_quote no_backslash
    exact .cons (.plain (Ne.symm no_quote.1) (Ne.symm no_backslash.1))
      (ih no_quote.2 no_backslash.2)

end Lexeme

/-! ### Integers in a program -/

/-- The tokens of an integer: its size, behind a minus sign if it is negative. -/
def TokenKind.integer : Int → List TokenKind
  | .ofNat natural => [.number (Float.ofNat natural)]
  | .negSucc less => [.symbol .minus, .number (Float.ofNat (less + 1))]

/-- What the tokens of an integer are read as. -/
def Expression.integer : Int → Expression
  | .ofNat natural => .number (Float.ofNat natural)
  | .negSucc less => .unary .neg (.number (Float.ofNat (less + 1)))

theorem Spells.integer {rest : List Char} {kinds : List TokenKind} (integer : Int)
    (spells : Spells (',' :: rest) kinds) :
    Spells ((toString integer).toList ++ ',' :: rest) (TokenKind.integer integer ++ kinds) := by
  cases integer with
  | ofNat natural => exact spells.natural natural (by decide) (by decide)
  | negSucc less =>
    have found (behind : List Char) :
        Lexeme.first '-' behind = .ok ⟨some (.symbol .minus), ['-'], behind⟩ := by
      cases behind <;> rfl
    rw [Number.toList_toString_negSucc]
    exact .token (found _) (.natural (less + 1) (by decide) (by decide) spells)

theorem Phrase.Within.integer (integer : Int) :
    Phrase.Within maxNesting (TokenKind.integer integer) (.integer integer) := by
  cases integer with
  | ofNat natural => exact .of_primary (.atom rfl) (Nat.zero_le _)
  | negSucc less =>
    have operand : Phrase .unary [.number (Float.ofNat (less + 1))]
        (.number (Float.ofNat (less + 1))) := .ofPrimary (.atom rfl)
    exact ⟨.of_unary (@Phrase.unary .neg _ _ operand), (by decide : 1 ≤ maxNesting)⟩

theorem Phrase.Within.string (value : String) :
    Phrase.Within maxNesting [.string value] (.string value) :=
  .of_primary (.atom rfl) (Nat.zero_le _)

open Number

/-- What the tokens of an integer are read as has that integer for its value. -/
theorem Expression.evaluate_integer {integer : Int} (small : integer.natAbs < 2 ^ 53) :
    ∃ number, units number = integer * unitsPerOne ∧
      ∀ environment, (Expression.integer integer).evaluate environment =
        .ok (.number number) environment := by
  cases integer with
  | ofNat natural => exact ⟨Float.ofNat natural, units_ofNat small, fun _ => rfl⟩
  | negSucc less =>
    have whole : units (Float.ofNat (less + 1)) = (less + 1 : Nat) * unitsPerOne :=
      units_ofNat small
    have finite := isFinite_of_units whole (Nat.le_of_lt small)
    refine ⟨-Float.ofNat (less + 1), ?_, fun _ => rfl⟩
    rw [units_neg finite, whole, ← Int.neg_mul]
    rfl

theorem Expression.coordinate_integer (axis : Char) (coordinate : Int32)
    (environment : Environment) :
    (Expression.integer coordinate.toInt).coordinate axis environment =
      .ok coordinate environment := by
  have least := coordinate.le_toInt
  have most := coordinate.toInt_lt
  obtain ⟨number, whole, evaluates⟩ := @Expression.evaluate_integer coordinate.toInt (by omega)
  have read := toCoordinate_of_units whole least (by omega) axis
  rw [Int32.ofInt_toInt] at read
  simp only [Expression.coordinate, bind, EStateM.bind, evaluates, Evaluation.ofExcept, read]

/-! ### Printed commands -/

namespace Command

/-- The tokens of a printed command with a semicolon behind it. -/
def kinds (command : Command) : List TokenKind :=
  .keyword .setBlock :: .symbol .leftParen :: TokenKind.integer command.x.toInt ++
    .symbol .comma :: TokenKind.integer command.y.toInt ++
    .symbol .comma :: TokenKind.integer command.z.toInt ++
    .symbol .comma :: [.string command.name] ++ [.symbol .rightParen, .symbol .semicolon]

/-- The statement that a printed command is read as. -/
def statement (command : Command) : Statement :=
  .setBlock (.integer command.x.toInt) (.integer command.y.toInt) (.integer command.z.toInt)
    (.string command.name)

theorem toList_printed (command : Command) :
    (command.printed ++ ";").toList =
      's' :: ("etBlock".toList ++ '(' :: ((toString command.x.toInt).toList ++ ',' :: ' ' ::
        ((toString command.y.toInt).toList ++ ',' :: ' ' ::
          ((toString command.z.toInt).toList ++ ',' :: ' ' ::
            '"' :: (command.name.toList ++ '"' :: ')' :: [';']))))) := by
  have parts : command.printed = "setBlock(" ++ toString command.x.toInt ++ ", " ++
      toString command.y.toInt ++ ", " ++ toString command.z.toInt ++ ", \"" ++ command.name ++
      "\")" := rfl
  simp only [parts, String.toList_append, List.append_assoc]
  rfl

theorem spells_printed {command : Command} (no_quote : '"' ∉ command.name.toList)
    (no_backslash : '\\' ∉ command.name.toList) :
    Spells (command.printed ++ ";").toList command.kinds := by
  have opening (rest : List Char) : Lexeme.first '(' rest =
      .ok ⟨some (.symbol .leftParen), ['('], rest⟩ := by
    cases rest <;> rfl
  have closing : Lexeme.first ')' [';'] = .ok ⟨some (.symbol .rightParen), [')'], [';']⟩ := rfl
  have ending : Lexeme.first ';' [] = .ok ⟨some (.symbol .semicolon), [';'], []⟩ := rfl
  have name := Lexeme.first_quoted (Lexeme.encodes_self no_quote no_backslash) [')', ';']
  have behind : Spells (')' :: [';']) [.symbol .rightParen, .symbol .semicolon] :=
    .token closing (.token ending .nil)
  rw [toList_printed, kinds]
  simp only [List.append_assoc, List.cons_append]
  refine .token (Lexeme.first_setBlock _) (.token (opening _) ?_)
  exact .integer _ (.comma (.integer _ (.comma (.integer _ (.comma (.token name behind))))))

theorem sentence_printed (command : Command) :
    Sentence .item maxNesting command.kinds command.statement :=
  .ofStatement (.setBlock (.integer _) (.integer _) (.integer _) (.string _))

theorem eof_not_mem_kinds (command : Command) : .eof ∉ command.kinds := by
  have integer (integer : Int) : .eof ∉ TokenKind.integer integer :=
    (Phrase.Within.integer integer).1.noEnd
  simp [kinds, integer]

theorem ofSource_printed {command : Command} (no_quote : '"' ∉ command.name.toList)
    (no_backslash : '\\' ∉ command.name.toList) :
    Program.ofSource (command.printed ++ ";") = .ok ⟨[command.statement]⟩ := by
  have sentences : ∀ item ∈ [(command.kinds, command.statement)],
      Sentence .item maxNesting item.1 item.2 :=
    List.forall_mem_singleton.mpr command.sentence_printed
  refine Program.ofSource_of_spells ?_ ?_ sentences
  · simpa using spells_printed no_quote no_backslash
  · simpa using command.eof_not_mem_kinds

theorem evaluate_printed (command : Command) (environment : Environment) :
    Command.evaluate (.integer command.x.toInt) (.integer command.y.toInt)
        (.integer command.z.toInt) (.string command.name) environment =
      .ok command environment := by
  simp only [Command.evaluate, bind, EStateM.bind, Expression.coordinate_integer]
  rfl

/-- The statement emits the command, and then the program is over. -/
theorem reaches_printed (command : Command) :
    ∃ last, (Machine.start ⟨[command.statement]⟩ .unbounded).Reaches [command] last ∧
      last.frames = [] := by
  have emits : (Machine.start ⟨[command.statement]⟩ .unbounded).step =
      (.ok (.emitted command), ⟨.empty, [.statements [] false], .unbounded, 1, 1⟩) := by
    change Machine.evaluating _ _ _ = _
    rw [Machine.evaluating, evaluate_printed]
    rfl
  exact ⟨_, .emitted emits (.advanced rfl (.refl _)), rfl⟩

theorem yields_printed (command : Command) :
    (Runner.start ⟨[command.statement]⟩ .unbounded).Yields [command] none :=
  Runner.yields_iff_reaches.mpr command.reaches_printed

end Command

end BlockScript
