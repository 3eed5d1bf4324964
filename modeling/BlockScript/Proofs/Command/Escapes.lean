import BlockScript.Proofs.Command.Printed
import BlockScript.Proofs.Evaluation

/-!
# Names that read back

A quote or a backslash in a string has to be written with backslashes.  The backslashes of a program
pay for the quotes and backslashes of all its strings, and what a statement makes of its strings has
no others.  A printed name has one backslash for each of its own, and two would be needed, so a
printed command is read back exactly if its name has neither quotes nor backslashes
(`printed_reads_back_iff`).
-/

namespace BlockScript

/-! ### Backslashes that are needed -/

/-- The least number of backslashes in a way to write a character between quotes. -/
def escapes (character : Char) : Nat :=
  if character = '"' then 1 else if character = '\\' then 2 else 0

/-- The least number of backslashes in a way to write a text between quotes. -/
def escapesAll (text : List Char) : Nat :=
  (text.map escapes).sum

@[simp] theorem escapesAll_nil : escapesAll [] = 0 := rfl

@[simp] theorem escapesAll_cons (character : Char) (text : List Char) :
    escapesAll (character :: text) = escapes character + escapesAll text :=
  List.sum_cons

@[simp] theorem escapesAll_append (first second : List Char) :
    escapesAll (first ++ second) = escapesAll first + escapesAll second := by
  rw [escapesAll, List.map_append, List.sum_append]
  rfl

/-- Each quote needs one, and each backslash two. -/
theorem escapesAll_eq (text : List Char) :
    escapesAll text = text.count '"' + 2 * text.count '\\' := by
  induction text with
  | nil => rfl
  | cons character text ih =>
    rw [escapesAll_cons, ih, List.count_cons, List.count_cons, escapes]
    by_cases quote : character = '"'
    · subst quote
      simp
      omega
    · by_cases backslash : character = '\\'
      · subst backslash
        simp
        omega
      · simp [quote, backslash]

theorem escapesAll_eq_zero {text : List Char} (none : ∀ character ∈ text, escapes character = 0) :
    escapesAll text = 0 := by
  induction text with
  | nil => rfl
  | cons character text ih =>
    rw [escapesAll_cons, none character List.mem_cons_self,
      ih fun other member => none other (List.mem_cons_of_mem _ member)]

theorem escapes_le {character : Char} {code : List Char}
    (encodes : EncodesCharacter character code) : escapes character ≤ code.count '\\' := by
  cases encodes with
  | plain no_quote no_backslash => simp [escapes, no_quote, no_backslash]
  | escaped no_n no_t =>
    unfold escapes
    split
    · next quote => simp [quote]
    · split
      · next backslash => simp [backslash]
      · exact Nat.zero_le _
  | newline | tab => decide

theorem escapesAll_le {value code : List Char} (encodes : Encodes value code) :
    escapesAll value ≤ code.count '\\' := by
  induction encodes with
  | nil => exact Nat.zero_le _
  | cons first _ ih =>
    rw [escapesAll_cons, List.count_append]
    exact Nat.add_le_add (escapes_le first) ih

/-! ### Tokens -/

/-- The backslashes that a token needs: those of its string. -/
def TokenKind.escapes : TokenKind → Nat
  | .string value => escapesAll value.toList
  | _ => 0

/-- The backslashes that the strings of a row of tokens need. -/
def escapesOf (kinds : List TokenKind) : Nat :=
  (kinds.map TokenKind.escapes).sum

@[simp] theorem escapesOf_nil : escapesOf [] = 0 := rfl

@[simp] theorem escapesOf_cons (kind : TokenKind) (kinds : List TokenKind) :
    escapesOf (kind :: kinds) = kind.escapes + escapesOf kinds :=
  List.sum_cons

@[simp] theorem escapesOf_append (first second : List TokenKind) :
    escapesOf (first ++ second) = escapesOf first + escapesOf second := by
  rw [escapesOf, List.map_append, List.sum_append]
  rfl

theorem Token.Leads.escapes_le {token : Token} {behind : List Char} (leads : token.Leads behind) :
    token.kind.escapes ≤ token.lexeme.toList.count '\\' := by
  unfold TokenKind.escapes
  split
  · next value kinded =>
    obtain ⟨code, encodes, same⟩ := leads.encodes kinded
    have inside := escapesAll_le encodes
    rw [same, quoted, String.toList_ofList]
    simpa using inside
  · exact Nat.zero_le _

theorem Spaced.Laid.escapesOf_le {position : Position} {items : List Spaced} {tail : List Char}
    (laid : Spaced.Laid position items tail) :
    escapesOf (items.map (·.token.kind)) ≤ (Spaced.textAll items).count '\\' := by
  induction laid with
  | nil => exact Nat.zero_le _
  | cons _ leads _ _ ih =>
    have here := leads.escapes_le
    rw [List.map_cons, escapesOf_cons, Spaced.textAll_cons, Spaced.text, List.count_append,
      List.count_append]
    omega

/-- Each token has backslashes of its own. -/
theorem escapesOf_scan_le {source : String} {tokens : List Token}
    (scanned : Token.scan source = .ok tokens) :
    escapesOf (tokens.map (·.kind)) ≤ source.toList.count '\\' := by
  obtain ⟨items, tail, stop, laid, source_eq, stops, outcome⟩ :=
    Spaced.laid_of_scans (Token.scans_scan source)
  rw [scanned] at outcome
  cases stops with
  | fault => cases outcome
  | finish =>
    have most := laid.escapesOf_le
    rw [Except.ok.inj outcome, source_eq, List.map_append, List.map_map, escapesOf_append,
      List.count_append]
    exact Nat.add_le_add most (Nat.zero_le _)

/-! ### Expressions -/

/-- The backslashes that the strings in an expression need. -/
def Expression.escapes : Expression → Nat
  | .string value => escapesAll value.toList
  | .assign _ value => escapes value
  | .unary _ operand => escapes operand
  | .binary _ left right => escapes left + escapes right
  | .conditional condition thenBranch elseBranch =>
    escapes condition + escapes thenBranch + escapes elseBranch
  | .grouping inner => escapes inner
  | _ => 0

/-- The strings of an expression are those of its tokens. -/
theorem Phrase.escapesOf_eq {rank : Rank} {source : List TokenKind} {value : Expression}
    (phrase : Phrase rank source value) : escapesOf source = value.escapes := by
  induction phrase with
  | assign _ inner => simpa [TokenKind.escapes, Expression.escapes] using inner
  | ofConditional _ inner | ofOperators _ inner | ofOperand _ inner | ofPrimary _ inner =>
    exact inner
  | conditional _ _ _ first second third =>
    simp only [escapesOf_append, escapesOf_cons, first, second, third, TokenKind.escapes,
      Expression.escapes]
    omega
  | binary _ _ _ first second => simp [first, second, TokenKind.escapes, Expression.escapes]
  | unary _ inner => simp [inner, TokenKind.escapes, Expression.escapes]
  | atom token =>
    unfold Expression.token? at token
    split at token <;> cases token <;> rfl
  | grouping _ inner => simp [inner, TokenKind.escapes, Expression.escapes]

/-! ### Texts of numbers -/

section Numbers

open Number

theorem escapes_of_isDigit {digit : Char} (is_digit : digit.isDigit = true) :
    escapes digit = 0 := by
  unfold escapes
  split
  · next quote =>
    subst quote
    cases is_digit
  · split
    · next backslash =>
      subst backslash
      cases is_digit
    · rfl

theorem escapesAll_natural (natural : Nat) : escapesAll (toString natural).toList = 0 :=
  escapesAll_eq_zero fun _ mem => escapes_of_isDigit (isDigit_of_mem_toString mem)

theorem escapesAll_integer (integer : Int) : escapesAll (toString integer).toList = 0 := by
  cases integer with
  | ofNat natural => exact escapesAll_natural natural
  | negSucc less =>
    rw [toList_toString_negSucc, escapesAll_cons, escapesAll_natural]
    rfl

theorem escapesAll_zeros (count : Nat) : escapesAll (zeros count).toList = 0 := by
  refine escapesAll_eq_zero fun character member => ?_
  rw [zeros, String.toList_ofList] at member
  rw [List.eq_of_mem_replicate member]
  rfl

theorem escapesAll_positional (decimal : Decimal) : escapesAll decimal.positional.toList = 0 := by
  have digits := escapesAll_natural decimal.coefficient
  unfold Decimal.positional
  dsimp only
  split
  · rw [String.toList_append, escapesAll_append, digits, escapesAll_zeros]
  · have plain (count : Nat) :
        escapesAll (zeros count ++ toString decimal.coefficient).toList = 0 := by
      rw [String.toList_append, escapesAll_append, digits, escapesAll_zeros]
    have padded_plain := plain
      (unitPlaces - decimal.grid + 1 - (toString decimal.coefficient).length)
    generalize zeros _ ++ toString decimal.coefficient = padded at padded_plain ⊢
    -- The point stands between two parts of one row of digits.
    rw [← List.take_append_drop (padded.length - (unitPlaces - decimal.grid)) padded.toList,
      escapesAll_append] at padded_plain
    have point : escapes '.' = 0 := rfl
    simpa [point] using padded_plain

theorem escapesAll_text (number : Float) : escapesAll (text number).toList = 0 := by
  unfold text
  split
  · rfl
  · rw [String.toList_append, escapesAll_append]
    have sign : escapesAll (if signBit number then "-" else "").toList = 0 := by split <;> rfl
    rw [sign, Nat.zero_add]
    split
    · rfl
    · split
      · rfl
      · exact escapesAll_positional _

theorem escapesAll_printedNumber (number : Float) :
    escapesAll (Value.printedNumber number).toList = 0 := by
  unfold Value.printedNumber
  split
  · split
    · exact escapesAll_integer _
    · exact escapesAll_text number
  · exact escapesAll_text number

end Numbers

/-! ### Values -/

/-- The backslashes that the text of a value needs. -/
def Value.escapes (value : Value) : Nat :=
  escapesAll value.printed.toList

theorem Value.escapes_of_bool (value : Bool) : (Value.bool value).escapes = 0 := by
  cases value <;> rfl

theorem UnaryOp.apply_escapes {op : UnaryOp} {operand value : Value}
    (applied : op.apply operand = .ok value) : value.escapes = 0 := by
  unfold apply at applied
  split at applied <;> cases applied
  · exact Value.escapes_of_bool _
  · exact escapesAll_printedNumber _

theorem BinaryOp.numeric_escapes {op : BinaryOp} {result : Float → Float → Value}
    {left right value : Value} (plain : ∀ first second, (result first second).escapes = 0)
    (applied : op.numeric result left right = .ok value) : value.escapes = 0 := by
  unfold numeric at applied
  split at applied <;> cases applied
  exact plain _ _

theorem BinaryOp.apply_escapes {op : BinaryOp} {left right value : Value}
    (applied : op.apply left right = .ok value) :
    value.escapes ≤ left.escapes + right.escapes := by
  have number (value : Float) : (Value.number value).escapes = 0 := escapesAll_printedNumber value
  have bool := Value.escapes_of_bool
  cases op with
  | add =>
    cases applied
    unfold sum
    split
    · rw [number]
      exact Nat.zero_le _
    · simp [Value.escapes, Value.printed]
  | sub | mul | div | mod =>
    rw [numeric_escapes (fun _ _ => number _) applied]
    exact Nat.zero_le _
  | lt | ltEq | gt | gtEq =>
    rw [numeric_escapes (fun _ _ => bool _) applied]
    exact Nat.zero_le _
  | eq | notEq | and | or =>
    cases applied
    rw [bool]
    exact Nat.zero_le _

theorem BinaryOp.decided?_escapes {op : BinaryOp} {left value : Value}
    (decided : op.decided? left = some value) : value.escapes = 0 := by
  unfold decided? at decided
  split at decided
  · split at decided <;> cases decided
    exact Value.escapes_of_bool _
  · split at decided <;> cases decided
    exact Value.escapes_of_bool _
  · cases decided

open Evaluation

/-- Without variables an expression has a value only if it assigns none, and the value is made of
its strings, each of them at most once. -/
theorem Expression.evaluate_empty {expression : Expression} {value : Value} {after : Environment}
    (evaluated : expression.evaluate .empty = .ok value after) :
    after = .empty ∧ value.escapes ≤ expression.escapes := by
  induction expression generalizing value after with
  | number amount =>
    cases evaluated
    exact ⟨rfl, Nat.le_of_eq (escapesAll_printedNumber amount)⟩
  | string text =>
    cases evaluated
    exact ⟨rfl, Nat.le_refl _⟩
  | bool truth =>
    cases evaluated
    exact ⟨rfl, Nat.le_of_eq (Value.escapes_of_bool truth)⟩
  | nil =>
    cases evaluated
    exact ⟨rfl, Nat.le_of_eq rfl⟩
  | «variable» name => cases evaluated
  | assign name given ih =>
    obtain ⟨assigned, middle, first, second⟩ := bind_eq_ok.mp evaluated
    obtain ⟨rfl, -⟩ := ih first
    -- There is no variable to assign to.
    cases second
  | grouping inner ih => exact ih evaluated
  | conditional condition thenBranch elseBranch test first second =>
    obtain ⟨decision, middle, decided, chosen⟩ := bind_eq_ok.mp evaluated
    obtain ⟨rfl, -⟩ := test decided
    split at chosen
    · obtain ⟨same, le⟩ := first chosen
      exact ⟨same, by simp only [escapes]; omega⟩
    · obtain ⟨same, le⟩ := second chosen
      exact ⟨same, by simp only [escapes]; omega⟩
  | unary op operand ih =>
    obtain ⟨given, middle, first, second⟩ := bind_eq_ok.mp evaluated
    obtain ⟨rfl, -⟩ := ih first
    obtain ⟨applied, rfl⟩ := ofExcept_eq_ok.mp second
    exact ⟨rfl, by rw [op.apply_escapes applied]; exact Nat.zero_le _⟩
  | binary op left right first second =>
    obtain ⟨leftValue, middle, evaluatedLeft, onward⟩ := bind_eq_ok.mp evaluated
    obtain ⟨rfl, leftLe⟩ := first evaluatedLeft
    -- A truth value has no strings, so it does not matter which operand decided on it.
    cases decided : op.decided? leftValue with
    | some decision =>
      simp only [decided] at onward
      cases onward
      exact ⟨rfl, by rw [op.decided?_escapes decided]; exact Nat.zero_le _⟩
    | none =>
      simp only [decided] at onward
      obtain ⟨rightValue, middle, evaluatedRight, third⟩ := bind_eq_ok.mp onward
      obtain ⟨rfl, rightLe⟩ := second evaluatedRight
      obtain ⟨applied, rfl⟩ := ofExcept_eq_ok.mp third
      exact ⟨rfl, Nat.le_trans (op.apply_escapes applied) (Nat.add_le_add leftLe rightLe)⟩

theorem Expression.coordinate_empty {axis : Char} {expression : Expression} {coordinate : Int32}
    {after : Environment} (evaluated : expression.coordinate axis .empty = .ok coordinate after) :
    after = .empty := by
  obtain ⟨value, middle, first, read⟩ := bind_eq_ok.mp evaluated
  obtain ⟨rfl, -⟩ := Expression.evaluate_empty first
  exact (ofExcept_eq_ok.mp read).2.symm

theorem Command.evaluate_empty {x y z name : Expression} {command : Command} {after : Environment}
    (evaluated : Command.evaluate x y z name .empty = .ok command after) :
    escapesAll command.name.toList ≤ name.escapes := by
  obtain ⟨_, _, first, evaluated⟩ := bind_eq_ok.mp evaluated
  obtain rfl := Expression.coordinate_empty first
  obtain ⟨_, _, second, evaluated⟩ := bind_eq_ok.mp evaluated
  obtain rfl := Expression.coordinate_empty second
  obtain ⟨_, _, third, evaluated⟩ := bind_eq_ok.mp evaluated
  obtain rfl := Expression.coordinate_empty third
  obtain ⟨value, _, fourth, evaluated⟩ := bind_eq_ok.mp evaluated
  cases evaluated
  exact (Expression.evaluate_empty fourth).2

/-! ### Programs -/

/-- What begins with the word for setting a block is such a statement. -/
theorem Sentence.setBlock_of_begins {room : Nat} {source tail : List TokenKind}
    {statement : Statement} (sentence : Sentence .item room source statement)
    (begins : source = .keyword .setBlock :: tail) :
    ∃ x y z name, statement = .setBlock x y z name ∧ name.escapes ≤ escapesOf source := by
  cases sentence with
  | declaration declared =>
    obtain ⟨_, rfl⟩ := declared.begins
    cases begins
  | ofStatement sentence =>
    cases sentence with
    | expression within =>
      obtain ⟨kind, _, rfl, starts⟩ := within.1.starts
      cases begins
      cases starts
    | setBlock withinX withinY withinZ withinName =>
      refine ⟨_, _, _, _, rfl, ?_⟩
      simp only [escapesOf_append, escapesOf_cons, withinName.1.escapesOf_eq]
      omega
    | block | branch | branchElse | loop | countedLoop => cases begins

theorem Command.evaluated_of_reaches {x y z name : Expression} {statements : List Statement}
    {command : Command} {commands : List Command} {last : Machine}
    (reaches : (Machine.start ⟨.setBlock x y z name :: statements⟩ .unbounded).Reaches
      (command :: commands) last) :
    ∃ after, Command.evaluate x y z name .empty = .ok command after := by
  have stepped : (Machine.start ⟨.setBlock x y z name :: statements⟩ .unbounded).step =
      Machine.evaluating ⟨.empty, [.statements (.setBlock x y z name :: statements) false],
          .unbounded, 1, 0⟩ (Command.evaluate x y z name) fun given environment =>
        (.ok (.emitted given), ⟨environment, [.statements statements false], .unbounded, 1, 1⟩) :=
    rfl
  rw [Machine.evaluating] at stepped
  cases evaluated : Command.evaluate x y z name .empty with
  | error error after =>
    rw [evaluated] at stepped
    cases reaches with
    | advanced next _ => cases stepped.symm.trans next
    | emitted next _ => cases stepped.symm.trans next
  | ok given after =>
    rw [evaluated] at stepped
    cases reaches with
    | advanced next _ => cases stepped.symm.trans next
    | emitted next _ =>
      cases stepped.symm.trans next
      exact ⟨after, rfl⟩

/-- A program whose first token is the word for setting a block has such a statement in front. -/
theorem setBlock_of_ofTokens {tokens : List Token} {program : Program} {tail : List TokenKind}
    (parsed : Program.ofTokens tokens = .ok program)
    (begins : tokens.map (·.kind) = .keyword .setBlock :: tail) :
    ∃ x y z name statements, program = ⟨.setBlock x y z name :: statements⟩ ∧
      name.escapes ≤ escapesOf (tokens.map (·.kind)) := by
  obtain ⟨items, sentences, statements, kinds⟩ :=
    Cursor.items_of_program parsed (Nat.zero_add maxNesting) (Cursor.noEnd_ofTokens tokens)
  have whole := (tokens.map (·.kind)).takeWhile_append_dropWhile (p := (decide <| · ≠ .eof))
  rw [← Cursor.kinds_ofTokens, kinds] at whole
  cases items with
  | nil =>
    rw [Cursor.kinds_ofTokens, begins] at kinds
    cases kinds
  | cons item items =>
    have sentence := sentences item List.mem_cons_self
    -- The first item is not empty, so the first token is its own.
    obtain ⟨kind, rest, source, -⟩ := sentence.begins
    have same := whole.trans begins
    rw [List.flatMap_cons, source] at same
    obtain ⟨rfl, -⟩ := List.cons.inj same
    obtain ⟨x, y, z, name, given, le⟩ := sentence.setBlock_of_begins source
    refine ⟨x, y, z, name, items.map (·.2), ?_, ?_⟩
    · rw [List.map_cons, given] at statements
      exact congrArg Program.mk statements
    · rw [← whole, List.flatMap_cons, escapesOf_append, escapesOf_append]
      omega

namespace Command

theorem begins_of_scan_printed {command : Command} {tokens : List Token}
    (scanned : Token.scan (command.printed ++ ";") = .ok tokens) :
    ∃ tail, tokens.map (·.kind) = .keyword .setBlock :: tail := by
  rw [Token.scan, toList_printed, Token.scanFrom_of_kinded (Lexeme.first_setBlock _) rfl] at scanned
  generalize Token.scanFrom _ _ _ = behind at scanned
  cases behind with
  | error cause => cases scanned
  | ok others =>
    cases scanned
    exact ⟨others.map (·.kind), rfl⟩

/-- Only the name of a printed command has backslashes. -/
theorem count_backslash_printed (command : Command) :
    (command.printed ++ ";").toList.count '\\' = command.name.toList.count '\\' := by
  have integer (integer : Int) : integer.repr.toList.count '\\' = 0 := by
    have none : escapesAll integer.repr.toList = 0 := escapesAll_integer integer
    rw [escapesAll_eq] at none
    omega
  rw [toList_printed]
  simp [integer]

/-- A name with quotes or backslashes is not read back from a printed command. -/
theorem plain_of_yields {command : Command} {program : Program}
    (compiled : Program.ofSource (command.printed ++ ";") = .ok program)
    (yields : (Runner.start program .unbounded).Yields [command] none) :
    '"' ∉ command.name.toList ∧ '\\' ∉ command.name.toList := by
  unfold Program.ofSource at compiled
  split at compiled
  · cases compiled
  · next tokens scanned =>
    split at compiled
    · cases compiled
    · next read parsed =>
      obtain rfl := Except.ok.inj compiled
      obtain ⟨tail, begins⟩ := begins_of_scan_printed scanned
      obtain ⟨x, y, z, name, statements, rfl, le⟩ := setBlock_of_ofTokens parsed begins
      obtain ⟨last, reaches, -⟩ := Runner.yields_iff_reaches.mp yields
      obtain ⟨after, evaluated⟩ := evaluated_of_reaches reaches
      have needed :=
        calc escapesAll command.name.toList
            ≤ name.escapes := evaluate_empty evaluated
          _ ≤ escapesOf (tokens.map (·.kind)) := le
          _ ≤ (command.printed ++ ";").toList.count '\\' := escapesOf_scan_le scanned
          _ = command.name.toList.count '\\' := command.count_backslash_printed
      -- The name needs two backslashes for each one that it has, and one for each quote.
      rw [escapesAll_eq] at needed
      exact ⟨List.count_eq_zero.mp (by omega), List.count_eq_zero.mp (by omega)⟩

end Command

/-- A printed command with a semicolon behind it is a program that emits the command and nothing
else, for all coordinates, exactly if the name of the block has neither quotes nor backslashes. -/
theorem printed_reads_back_iff (command : Command) :
    (∃ program, Program.ofSource (command.printed ++ ";") = .ok program ∧
      (Runner.start program .unbounded).Yields [command] none) ↔
    '"' ∉ command.name.toList ∧ '\\' ∉ command.name.toList := by
  constructor
  · rintro ⟨program, compiled, yields⟩
    exact command.plain_of_yields compiled yields
  · rintro ⟨no_quote, no_backslash⟩
    exact ⟨_, command.ofSource_printed no_quote no_backslash, command.yields_printed⟩

/-- The quote within a name is written as it is and closes the string. -/
theorem printed_quote_not_read_back :
    let command : Command := ⟨0, 0, 0, "a\"b"⟩
    command.printed ++ ";" = "setBlock(0, 0, 0, \"a\"b\");" ∧
      ¬ ∃ program, Program.ofSource (command.printed ++ ";") = .ok program ∧
        (Runner.start program .unbounded).Yields [command] none := by
  refine ⟨by decide, ?_⟩
  rintro ⟨program, compiled, yields⟩
  exact absurd (Command.plain_of_yields compiled yields).1 (by decide)

end BlockScript
