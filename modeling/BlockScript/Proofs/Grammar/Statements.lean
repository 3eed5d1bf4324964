import BlockScript.Proofs.Grammar.Expressions
import BlockScript.Syntax.Statements

/-!
# The readers of statements read the grammar

As for expressions, the readers are taken apart, then shown to give nothing but sentences, then to
give every sentence that there is room for.
-/

namespace BlockScript

/-- The token that starts a kind of statement. -/
def Opening.mark : Opening → TokenKind
  | .block => .symbol .leftBrace
  | .branch => .keyword .if
  | .conditionalLoop => .keyword .while
  | .countedLoop => .keyword .for
  | .setBlock => .keyword .setBlock

theorem opening_ofToken?_eq_some {kind : TokenKind} {opening : Opening} :
    Opening.ofToken? kind = some opening ↔ kind = opening.mark := by
  constructor
  · intro found
    unfold Opening.ofToken? at found
    split at found <;> cases found <;> rfl
  · rintro rfl
    cases opening <;> rfl

namespace Cursor

variable {room : Nat} {start last : Cursor}

open Outcome

/-! ### The readers of statements taken apart -/

section Openings

variable {after : Cursor} {given : Statement}

theorem statement_of_lacks (lacks : start.Lacks Opening.ofToken?) :
    statement start = expressionStatement start .afterExpression := by
  rw [statement, take?_eq_none_iff.mpr lacks]

theorem statement_setBlock (takes : start.Takes Opening.ofToken? .setBlock after) :
    (statement start).Gives given last ↔ (setBlock after).Gives given last := by
  rw [statement, takes.2]
  exact within_gives

theorem statement_block (takes : start.Takes Opening.ofToken? .block after) :
    (statement start).Gives given last ↔
      ∃ full body behind next fits,
        (listed start.rest.length [] (after.deeper full) fits).Gives body behind ∧
          behind.Takes (TokenKind.exactly (.symbol .rightBrace)) () next ∧
            given = .block body ∧ last = next.leave := by
  rw [statement, takes.2]
  constructor
  · intro gives
    obtain ⟨full, inner, inside, rfl⟩ := nested_gives.mp gives
    obtain ⟨body, behind, reads, inside⟩ := andThen_gives.mp inside
    obtain ⟨⟨⟩, next, closed, inside⟩ := andThen_gives.mp inside
    obtain ⟨rfl, rfl⟩ := ok_gives.mp inside
    exact ⟨full, body, behind, _, _, reads, symbol_gives.mp closed, rfl, rfl⟩
  · rintro ⟨full, body, behind, next, fits, reads, closed, rfl, rfl⟩
    refine nested_gives.mpr ⟨full, next, ?_, rfl⟩
    refine andThen_gives.mpr ⟨body, behind, reads, ?_⟩
    exact andThen_gives.mpr ⟨(), next, symbol_gives.mpr closed, ok_gives.mpr ⟨rfl, rfl⟩⟩

theorem statement_branch (takes : start.Takes Opening.ofToken? .branch after) :
    (statement start).Gives given last ↔
      ∃ full test first thenBranch behind,
        (condition (after.deeper full) .afterIf .afterIfCondition).Gives test first ∧
          (statement first).Gives thenBranch behind ∧
            ((behind.Lacks (TokenKind.exactly (.keyword .else)) ∧
              given = .branch test thenBranch none ∧ last = behind.leave) ∨
              ∃ second elseBranch inner,
                behind.Takes (TokenKind.exactly (.keyword .else)) () second ∧
                  (statement second).Gives elseBranch inner ∧
                    given = .branch test thenBranch (some elseBranch) ∧ last = inner.leave) := by
  rw [statement, takes.2]
  constructor
  · intro gives
    obtain ⟨full, inner, inside, rfl⟩ := nested_gives.mp gives
    obtain ⟨test, first, readsTest, inside⟩ := andThen_gives.mp inside
    obtain ⟨thenBranch, behind, readsThen, inside⟩ := andThen_gives.mp inside
    refine ⟨full, test, first, thenBranch, behind, readsTest, readsThen, ?_⟩
    rcases behind.take?_cases (TokenKind.exactly (.keyword .else)) with
      ⟨found, lacks⟩ | ⟨⟨⟩, second, takesElse, found⟩
    · rw [found] at inside
      obtain ⟨rfl, rfl⟩ := ok_gives.mp inside
      exact .inl ⟨lacks, rfl, rfl⟩
    · rw [found] at inside
      obtain ⟨elseBranch, next, readsElse, inside⟩ := andThen_gives.mp inside
      obtain ⟨rfl, rfl⟩ := ok_gives.mp inside
      exact .inr ⟨second, elseBranch, _, takesElse, readsElse, rfl, rfl⟩
  · rintro ⟨full, test, first, thenBranch, behind, readsTest, readsThen, branches⟩
    rcases branches with ⟨lacks, rfl, rfl⟩ | ⟨second, elseBranch, inner, takesElse, readsElse, rfl,
      rfl⟩
    · refine nested_gives.mpr ⟨full, behind, ?_, rfl⟩
      refine andThen_gives.mpr ⟨test, first, readsTest, ?_⟩
      refine andThen_gives.mpr ⟨thenBranch, behind, readsThen, ?_⟩
      rw [take?_eq_none_iff.mpr lacks]
      exact ok_gives.mpr ⟨rfl, rfl⟩
    · refine nested_gives.mpr ⟨full, inner, ?_, rfl⟩
      refine andThen_gives.mpr ⟨test, first, readsTest, ?_⟩
      refine andThen_gives.mpr ⟨thenBranch, behind, readsThen, ?_⟩
      rw [takesElse.2]
      exact andThen_gives.mpr ⟨elseBranch, inner, readsElse, ok_gives.mpr ⟨rfl, rfl⟩⟩

theorem statement_conditionalLoop (takes : start.Takes Opening.ofToken? .conditionalLoop after) :
    (statement start).Gives given last ↔
      ∃ full test first body inner,
        (condition (after.deeper full) .afterWhile .afterLoopCondition).Gives test first ∧
          (statement first).Gives body inner ∧ given = .loop test body ∧ last = inner.leave := by
  rw [statement, takes.2]
  constructor
  · intro gives
    obtain ⟨full, inner, inside, rfl⟩ := nested_gives.mp gives
    obtain ⟨test, first, readsTest, inside⟩ := andThen_gives.mp inside
    obtain ⟨body, next, readsBody, inside⟩ := andThen_gives.mp inside
    obtain ⟨rfl, rfl⟩ := ok_gives.mp inside
    exact ⟨full, test, first, body, _, readsTest, readsBody, rfl, rfl⟩
  · rintro ⟨full, test, first, body, inner, readsTest, readsBody, rfl, rfl⟩
    refine nested_gives.mpr ⟨full, inner, ?_, rfl⟩
    refine andThen_gives.mpr ⟨test, first, readsTest, ?_⟩
    exact andThen_gives.mpr ⟨body, inner, readsBody, ok_gives.mpr ⟨rfl, rfl⟩⟩

theorem statement_countedLoop (takes : start.Takes Opening.ofToken? .countedLoop after) :
    (statement start).Gives given last ↔
      ∃ full head first body inner, (loopHead (after.deeper full)).Gives head first ∧
        (statement first).Gives body inner ∧ given = head.statement body ∧ last = inner.leave := by
  rw [statement, takes.2]
  constructor
  · intro gives
    obtain ⟨full, inner, inside, rfl⟩ := nested_gives.mp gives
    obtain ⟨head, first, readsHead, inside⟩ := andThen_gives.mp inside
    obtain ⟨body, next, readsBody, inside⟩ := andThen_gives.mp inside
    obtain ⟨rfl, rfl⟩ := ok_gives.mp inside
    exact ⟨full, head, first, body, _, readsHead, readsBody, rfl, rfl⟩
  · rintro ⟨full, head, first, body, inner, readsHead, readsBody, rfl, rfl⟩
    refine nested_gives.mpr ⟨full, inner, ?_, rfl⟩
    refine andThen_gives.mpr ⟨head, first, readsHead, ?_⟩
    exact andThen_gives.mpr ⟨body, inner, readsBody, ok_gives.mpr ⟨rfl, rfl⟩⟩

end Openings

/-! ### Expressions within statements -/

theorem within_of_expression {value : Expression} (gives : (expression start).Gives value last)
    (levels : start.depth + room = maxNesting) :
    ∃ source, Phrase.Within room source value ∧ start.Spans source last := by
  obtain ⟨source, phrase, spans, bound⟩ := sound start .assignment gives
  exact ⟨source, ⟨phrase, by omega⟩, spans⟩

theorem expression_of_within {source : List TokenKind} {value : Expression} {mark : Symbol}
    {rest : List TokenKind} (within : Phrase.Within room source value)
    (kinds : start.kinds = source ++ .symbol mark :: rest)
    (levels : start.depth + room = maxNesting)
    (closing : mark ∈ [Symbol.rightParen, .comma, .colon, .semicolon]) :
    (expression start).Leaves value (.symbol mark :: rest) start.depth := by
  have nesting := within.2
  exact within.1.readable.1 kinds (by omega) (.of_closing closing)

/-! ### What is read is a sentence -/

theorem declaration_of_declared {statement : Statement}
    (gives : (declared start).Gives statement last) (levels : start.depth + room = maxNesting) :
    ∃ source, Declaration room (.keyword .let :: source) statement ∧ start.Spans source last := by
  obtain ⟨name, behind, named, rest⟩ := andThen_gives.mp gives
  obtain ⟨_, found, kinds, depth⟩ := (take_gives.mp named).kinds_eq
  obtain rfl := name?_eq_some.mp found
  have spansName : start.Spans [.identifier name] behind := ⟨kinds, depth⟩
  rcases behind.take?_cases (TokenKind.exactly (.symbol .equal)) with
    ⟨found, _⟩ | ⟨⟨⟩, after, takes, found⟩
  · rw [found] at rest
    obtain ⟨rfl, rfl⟩ := ok_gives.mp rest
    exact ⟨_, .plain, spansName⟩
  · rw [found] at rest
    obtain ⟨value, next, reads, rest⟩ := andThen_gives.mp rest
    obtain ⟨rfl, rfl⟩ := ok_gives.mp rest
    have spansMark := spansName.append takes.spans
    obtain ⟨source, within, spans⟩ := within_of_expression reads (spansMark.levels levels)
    exact ⟨_, .initialized within, spansMark.append spans⟩

theorem within_of_expressionStatement {place : Place} {statement : Statement}
    (gives : (expressionStatement start place).Gives statement last)
    (levels : start.depth + room = maxNesting) :
    ∃ source value, Phrase.Within room source value ∧ statement = .expression value ∧
      start.Spans (source ++ [.symbol .semicolon]) last := by
  obtain ⟨value, behind, reads, gives⟩ := andThen_gives.mp gives
  obtain ⟨⟨⟩, next, closed, gives⟩ := andThen_gives.mp gives
  obtain ⟨rfl, rfl⟩ := ok_gives.mp gives
  obtain ⟨source, within, spans⟩ := within_of_expression reads levels
  exact ⟨source, value, within, rfl, spans.append (symbol_gives.mp closed).spans⟩

theorem declaration_of_declarationStatement {place : Place} {statement : Statement}
    (gives : (declarationStatement start place).Gives statement last)
    (levels : start.depth + room = maxNesting) :
    ∃ source, Declaration room (.keyword .let :: source) statement ∧
      start.Spans (source ++ [.symbol .semicolon]) last := by
  obtain ⟨_, behind, reads, gives⟩ := andThen_gives.mp gives
  obtain ⟨⟨⟩, next, closed, gives⟩ := andThen_gives.mp gives
  obtain ⟨rfl, rfl⟩ := ok_gives.mp gives
  obtain ⟨source, declaration, spans⟩ := declaration_of_declared reads levels
  exact ⟨source, declaration, spans.append (symbol_gives.mp closed).spans⟩

theorem within_of_condition {opened closed : Place} {value : Expression}
    (gives : (condition start opened closed).Gives value last)
    (levels : start.depth + room = maxNesting) :
    ∃ source, Phrase.Within room source value ∧
      start.Spans (.symbol .leftParen :: source ++ [.symbol .rightParen]) last := by
  obtain ⟨⟨⟩, after, opening, gives⟩ := andThen_gives.mp gives
  obtain ⟨_, behind, reads, gives⟩ := andThen_gives.mp gives
  obtain ⟨⟨⟩, next, closing, gives⟩ := andThen_gives.mp gives
  obtain ⟨rfl, rfl⟩ := ok_gives.mp gives
  have spansOpening := (symbol_gives.mp opening).spans
  obtain ⟨source, within, spans⟩ := within_of_expression reads (spansOpening.levels levels)
  exact ⟨source, within, (spansOpening.append spans).append (symbol_gives.mp closing).spans⟩

theorem loopStart_of_loopInitializer {initializer : Option Statement}
    (gives : (loopInitializer start).Gives initializer last)
    (levels : start.depth + room = maxNesting) :
    ∃ source, LoopStart room source initializer ∧
      start.Spans (source ++ [.symbol .semicolon]) last := by
  unfold loopInitializer at gives
  rcases start.take?_cases (TokenKind.exactly (.symbol .semicolon)) with
    ⟨found, _⟩ | ⟨⟨⟩, after, takes, found⟩
  · rw [found] at gives
    rcases start.take?_cases (TokenKind.exactly (.keyword .let)) with
      ⟨found, _⟩ | ⟨⟨⟩, after, takes, found⟩
    · rw [found] at gives
      obtain ⟨_, reads, rfl⟩ := map_gives.mp gives
      obtain ⟨source, value, within, rfl, spans⟩ := within_of_expressionStatement reads levels
      exact ⟨source, .expression within, spans⟩
    · rw [found] at gives
      obtain ⟨_, reads, rfl⟩ := map_gives.mp (within_gives.mp gives)
      obtain ⟨source, declaration, spans⟩ :=
        declaration_of_declarationStatement reads (takes.spans.levels levels)
      exact ⟨_, .declaration declaration, takes.spans.append spans⟩
  · rw [found] at gives
    obtain ⟨rfl, rfl⟩ := ok_gives.mp gives
    exact ⟨[], .absent, takes.spans⟩

theorem loopTest_of_loopCondition {test : Expression}
    (gives : (loopCondition start).Gives test last) (levels : start.depth + room = maxNesting) :
    ∃ source, LoopTest room source test ∧
      start.Spans (source ++ [.symbol .semicolon]) last := by
  unfold loopCondition at gives
  rcases start.take?_cases (TokenKind.exactly (.symbol .semicolon)) with
    ⟨found, _⟩ | ⟨⟨⟩, after, takes, found⟩
  · rw [found] at gives
    obtain ⟨_, behind, reads, gives⟩ := andThen_gives.mp gives
    obtain ⟨⟨⟩, next, closing, gives⟩ := andThen_gives.mp gives
    obtain ⟨rfl, rfl⟩ := ok_gives.mp gives
    obtain ⟨source, within, spans⟩ := within_of_expression reads levels
    exact ⟨source, .expression within, spans.append (symbol_gives.mp closing).spans⟩
  · rw [found] at gives
    obtain ⟨rfl, rfl⟩ := ok_gives.mp gives
    exact ⟨[], .absent, takes.spans⟩

theorem loopUpdate_of_loopIncrement {increment : Option Expression}
    (gives : (loopIncrement start).Gives increment last)
    (levels : start.depth + room = maxNesting) :
    ∃ source, LoopUpdate room source (increment.map .expression) ∧
      start.Spans (source ++ [.symbol .rightParen]) last := by
  unfold loopIncrement at gives
  rcases start.take?_cases (TokenKind.exactly (.symbol .rightParen)) with
    ⟨found, _⟩ | ⟨⟨⟩, after, takes, found⟩
  · rw [found] at gives
    obtain ⟨_, behind, reads, gives⟩ := andThen_gives.mp gives
    obtain ⟨⟨⟩, next, closing, gives⟩ := andThen_gives.mp gives
    obtain ⟨rfl, rfl⟩ := ok_gives.mp gives
    obtain ⟨source, within, spans⟩ := within_of_expression reads levels
    exact ⟨source, .expression within, spans.append (symbol_gives.mp closing).spans⟩
  · rw [found] at gives
    obtain ⟨rfl, rfl⟩ := ok_gives.mp gives
    exact ⟨[], .absent, takes.spans⟩

theorem clauses_of_loopHead {head : LoopHead} (gives : (loopHead start).Gives head last)
    (levels : start.depth + room = maxNesting) :
    ∃ first second third, LoopStart room first head.initializer ∧
      LoopTest room second head.condition ∧
      LoopUpdate room third (head.increment.map .expression) ∧
      start.Spans (.symbol .leftParen :: first ++ .symbol .semicolon :: second ++
        .symbol .semicolon :: third ++ [.symbol .rightParen]) last := by
  obtain ⟨⟨⟩, after, opening, gives⟩ := andThen_gives.mp gives
  obtain ⟨_, behindStart, readsStart, gives⟩ := andThen_gives.mp gives
  obtain ⟨_, behindTest, readsTest, gives⟩ := andThen_gives.mp gives
  obtain ⟨_, behindUpdate, readsUpdate, gives⟩ := andThen_gives.mp gives
  obtain ⟨rfl, rfl⟩ := ok_gives.mp gives
  have spansOpening := (symbol_gives.mp opening).spans
  obtain ⟨first, loopStart, spansStart⟩ :=
    loopStart_of_loopInitializer readsStart (spansOpening.levels levels)
  have spansFirst := spansOpening.append spansStart
  obtain ⟨second, loopTest, spansTest⟩ :=
    loopTest_of_loopCondition readsTest (spansFirst.levels levels)
  have spansSecond := spansFirst.append spansTest
  obtain ⟨third, loopUpdate, spansUpdate⟩ :=
    loopUpdate_of_loopIncrement readsUpdate (spansSecond.levels levels)
  refine ⟨first, second, third, loopStart, loopTest, loopUpdate, ?_⟩
  simpa using spansSecond.append spansUpdate

theorem sentence_of_setBlock {statement : Statement} (gives : (setBlock start).Gives statement last)
    (levels : start.depth + room = maxNesting) :
    ∃ source, Sentence (.statement false) room (.keyword .setBlock :: source) statement ∧
      start.Spans source last := by
  obtain ⟨⟨⟩, _, opening, gives⟩ := andThen_gives.mp gives
  obtain ⟨x, _, readsX, gives⟩ := andThen_gives.mp gives
  obtain ⟨⟨⟩, _, commaX, gives⟩ := andThen_gives.mp gives
  obtain ⟨y, _, readsY, gives⟩ := andThen_gives.mp gives
  obtain ⟨⟨⟩, _, commaY, gives⟩ := andThen_gives.mp gives
  obtain ⟨z, _, readsZ, gives⟩ := andThen_gives.mp gives
  obtain ⟨⟨⟩, _, commaZ, gives⟩ := andThen_gives.mp gives
  obtain ⟨name, _, readsName, gives⟩ := andThen_gives.mp gives
  obtain ⟨⟨⟩, _, closing, gives⟩ := andThen_gives.mp gives
  obtain ⟨⟨⟩, _, closed, gives⟩ := andThen_gives.mp gives
  obtain ⟨rfl, rfl⟩ := ok_gives.mp gives
  -- What has been read so far spans more with each operand and each mark.
  have spansOpening := (symbol_gives.mp opening).spans
  obtain ⟨first, withinX, spansX⟩ := within_of_expression readsX (spansOpening.levels levels)
  have spansX := (spansOpening.append spansX).append (symbol_gives.mp commaX).spans
  obtain ⟨second, withinY, spansY⟩ := within_of_expression readsY (spansX.levels levels)
  have spansY := (spansX.append spansY).append (symbol_gives.mp commaY).spans
  obtain ⟨third, withinZ, spansZ⟩ := within_of_expression readsZ (spansY.levels levels)
  have spansZ := (spansY.append spansZ).append (symbol_gives.mp commaZ).spans
  obtain ⟨fourth, withinName, spansName⟩ := within_of_expression readsName (spansZ.levels levels)
  have spansName := (spansZ.append spansName).append (symbol_gives.mp closing).spans
  refine ⟨_, .setBlock withinX withinY withinZ withinName, ?_⟩
  simpa using spansName.append (symbol_gives.mp closed).spans

/-- Whatever the reader of statements gives is a statement; behind one that is open at its end, no
`else` stands. -/
def SoundStatement (start : Cursor) : Prop :=
  ∀ ⦃room : Nat⦄ ⦃given : Statement⦄ ⦃last : Cursor⦄, start.depth + room = maxNesting →
    (statement start).Gives given last →
      ∃ opens source, Sentence (.statement opens) room source given ∧ start.Spans source last ∧
        (opens = true → last.Lacks (TokenKind.exactly (.keyword .else)))

/-- Whatever the reader of declarations gives is a declaration or a statement. -/
def SoundItem (start : Cursor) : Prop :=
  ∀ ⦃room : Nat⦄ ⦃given : Statement⦄ ⦃last : Cursor⦄, start.depth + room = maxNesting →
    (declaration start).Gives given last →
      ∃ source, Sentence .item room source given ∧ start.Spans source last

theorem SoundStatement.item (sound : start.SoundStatement) : start.SoundItem := by
  intro room given last levels gives
  rw [declaration] at gives
  rcases start.take?_cases (TokenKind.exactly (.keyword .let)) with
    ⟨found, _⟩ | ⟨⟨⟩, after, takes, found⟩
  · rw [found] at gives
    obtain ⟨opens, source, sentence, spans, _⟩ := sound levels gives
    exact ⟨source, .ofStatement sentence, spans⟩
  · rw [found] at gives
    obtain ⟨source, declaration, spans⟩ :=
      declaration_of_declarationStatement (within_gives.mp gives) (takes.spans.levels levels)
    exact ⟨_, .declaration declaration, takes.spans.append spans⟩

theorem kind_eq_head (cursor : Cursor) : cursor.kind = cursor.kinds.head?.getD .eof := by
  obtain ⟨rest, stop, depth, depth_le⟩ := cursor
  cases rest <;> rfl

theorem listed_gives {bound : Nat} {read body : List Statement}
    {fits : start.rest.length < bound} :
    (listed bound read start fits).Gives body last ↔
      ((start.kind = .symbol .rightBrace ∨ start.kind = .eof) ∧ body = read.reverse ∧
        last = start) ∨
        (¬ (start.kind = .symbol .rightBrace ∨ start.kind = .eof) ∧
          ∃ item next fits, (declaration start).Gives item next ∧
            (listed bound (item :: read) next fits).Gives body last) := by
  rw [listed]
  split
  case isTrue ends => simp [ends]
  case isFalse goes =>
    simp only [goes, false_and, not_false_eq_true, true_and, false_or]
    cases declared : declaration start with
    | ok item next shorter =>
      constructor
      · intro gives
        exact ⟨item, next, _, ok_gives.mpr ⟨rfl, rfl⟩, gives⟩
      · rintro ⟨_, _, _, gives, rest⟩
        obtain ⟨rfl, rfl⟩ := ok_gives.mp gives
        exact rest
    | error cause next => simp

/-- Reading a list goes on from what was read before it up to a closing brace or the end. -/
theorem items_of_listed {bound : Nat} {read body : List Statement} {start last : Cursor}
    {fits : start.rest.length < bound}
    (sound : ∀ cursor : Cursor, cursor.rest.length ≤ start.rest.length → cursor.SoundItem)
    (gives : (listed bound read start fits).Gives body last)
    (levels : start.depth + room = maxNesting) :
    ∃ items : List (List TokenKind × Statement),
      (∀ item ∈ items, Sentence .item room item.1 item.2) ∧
        body = read.reverse ++ items.map (·.2) ∧ start.Spans (items.flatMap (·.1)) last := by
  rcases listed_gives.mp gives with ⟨_, rfl, rfl⟩ | ⟨_, item, next, _, declared, rest⟩
  · exact ⟨[], nofun, by simp, rfl, rfl⟩
  · -- One item, and then a list that is shorter.
    have less : next.rest.length < start.rest.length := declared.shorter
    obtain ⟨source, sentence, spans⟩ := sound start (Nat.le_refl _) levels declared
    obtain ⟨items, sentences, rfl, tail⟩ := items_of_listed
      (fun cursor le => sound cursor (Nat.le_trans le (Nat.le_of_lt less))) rest
      (spans.levels levels)
    refine ⟨(source, item) :: items, ?_, by simp, spans.append tail⟩
    rintro _ (_ | ⟨_, member⟩)
    · exact sentence
    · exact sentences _ member
termination_by start.rest.length

section Opened

variable {opening : Opening} {after : Cursor}

theorem Takes.spans_opening (takes : start.Takes Opening.ofToken? opening after) :
    start.Spans [opening.mark] after := by
  obtain ⟨_, found, kinds, depth⟩ := takes.kinds_eq
  obtain rfl := opening_ofToken?_eq_some.mp found
  exact ⟨kinds, depth⟩

/-- A level that is open behind the token of an opening is one of those that there was room for. -/
theorem Takes.levels_deeper (takes : start.Takes Opening.ofToken? opening after)
    (full : after.depth < maxNesting) (levels : start.depth + room = maxNesting) :
    ∃ inner, room = inner + 1 ∧ (after.deeper full).depth + inner = maxNesting := by
  have afterLevels := takes.spans_opening.levels levels
  refine ⟨room - 1, by omega, ?_⟩
  rw [depth_deeper]
  omega

/-- Once that level is left, what has been read begins with the token of the opening. -/
theorem Takes.spans_leave {source : List TokenKind} {full : after.depth < maxNesting}
    (takes : start.Takes Opening.ofToken? opening after)
    (spans : (after.deeper full).Spans source last) :
    start.Spans (opening.mark :: source) last.leave :=
  takes.spans_opening.append spans.leave

end Opened

/-- A statement with an `else` behind it is not open at its end: the nearest branch takes it. -/
theorem closed_of_takes {opens : Bool}
    (noElse : opens = true → start.Lacks (TokenKind.exactly (.keyword .else)))
    (takes : start.Takes (TokenKind.exactly (.keyword .else)) () last) : opens = false := by
  cases opens with
  | true => exact absurd takes (noElse rfl).not_takes
  | false => rfl

section Sound

variable {start after : Cursor} {given : Statement}
  (shorter : ∀ cursor : Cursor, cursor.rest.length < start.rest.length → cursor.SoundStatement)
include shorter

theorem sentence_of_block (takes : start.Takes Opening.ofToken? .block after)
    (levels : start.depth + room = maxNesting) (gives : (statement start).Gives given last) :
    ∃ source, Sentence (.statement false) room source given ∧ start.Spans source last := by
  obtain ⟨full, body, behind, next, fits, reads, closed, rfl, rfl⟩ :=
    (statement_block takes).mp gives
  obtain ⟨inner, rfl, innerLevels⟩ := takes.levels_deeper full levels
  -- The items may be as long as what stands behind the brace, which is already shorter.
  have items (cursor : Cursor) (le : cursor.rest.length ≤ (after.deeper full).rest.length) :
      cursor.SoundItem := (shorter cursor (Nat.lt_of_le_of_lt le takes.shorter)).item
  obtain ⟨items, sentences, rfl, spans⟩ := items_of_listed items reads innerLevels
  exact ⟨_, .block sentences, takes.spans_leave (spans.append closed.spans)⟩

theorem sentence_of_branch (takes : start.Takes Opening.ofToken? .branch after)
    (levels : start.depth + room = maxNesting) (gives : (statement start).Gives given last) :
    ∃ opens source, Sentence (.statement opens) room source given ∧ start.Spans source last ∧
      (opens = true → last.Lacks (TokenKind.exactly (.keyword .else))) := by
  obtain ⟨full, test, first, thenBranch, behind, readsTest, readsThen, branches⟩ :=
    (statement_branch takes).mp gives
  obtain ⟨inner, rfl, innerLevels⟩ := takes.levels_deeper full levels
  obtain ⟨front, within, spansTest⟩ := within_of_condition readsTest innerLevels
  have firstShorter : first.rest.length < start.rest.length :=
    Nat.lt_trans readsTest.shorter takes.shorter
  obtain ⟨opens, second, thenSentence, spansThen, noElse⟩ :=
    shorter first firstShorter (spansTest.levels innerLevels) readsThen
  have spansBranch := spansTest.append spansThen
  rcases branches with ⟨lacks, rfl, rfl⟩ | ⟨other, elseBranch, next, takesElse, readsElse, rfl, rfl⟩
  · -- Without an `else` the sentence stays open at its end, where none stands.
    refine ⟨true, _, .branch within thenSentence, ?_, fun _ => lacks⟩
    simpa [Opening.mark] using takes.spans_leave spansBranch
  · -- With one, the first branch is closed and the sentence is as open as the second branch.
    obtain rfl := closed_of_takes noElse takesElse
    have spansElse := spansBranch.append takesElse.spans
    have otherShorter : other.rest.length < start.rest.length :=
      Nat.lt_trans takesElse.shorter (Nat.lt_trans readsThen.shorter firstShorter)
    obtain ⟨opens, third, elseSentence, spansOther, noElse⟩ :=
      shorter other otherShorter (spansElse.levels innerLevels) readsElse
    refine ⟨opens, _, .branchElse within thenSentence elseSentence, ?_, noElse⟩
    simpa [Opening.mark] using takes.spans_leave (spansElse.append spansOther)

/-- A loop is open at its end if its body is. -/
theorem sentence_of_conditionalLoop (takes : start.Takes Opening.ofToken? .conditionalLoop after)
    (levels : start.depth + room = maxNesting) (gives : (statement start).Gives given last) :
    ∃ opens source, Sentence (.statement opens) room source given ∧ start.Spans source last ∧
      (opens = true → last.Lacks (TokenKind.exactly (.keyword .else))) := by
  obtain ⟨full, test, first, body, next, readsTest, readsBody, rfl, rfl⟩ :=
    (statement_conditionalLoop takes).mp gives
  obtain ⟨inner, rfl, innerLevels⟩ := takes.levels_deeper full levels
  obtain ⟨front, within, spansTest⟩ := within_of_condition readsTest innerLevels
  obtain ⟨opens, second, sentence, spansBody, noElse⟩ :=
    shorter first (Nat.lt_trans readsTest.shorter takes.shorter) (spansTest.levels innerLevels)
      readsBody
  refine ⟨opens, _, .loop within sentence, ?_, noElse⟩
  simpa [Opening.mark] using takes.spans_leave (spansTest.append spansBody)

theorem sentence_of_countedLoop (takes : start.Takes Opening.ofToken? .countedLoop after)
    (levels : start.depth + room = maxNesting) (gives : (statement start).Gives given last) :
    ∃ opens source, Sentence (.statement opens) room source given ∧ start.Spans source last ∧
      (opens = true → last.Lacks (TokenKind.exactly (.keyword .else))) := by
  obtain ⟨full, head, first, body, next, readsHead, readsBody, rfl, rfl⟩ :=
    (statement_countedLoop takes).mp gives
  obtain ⟨inner, rfl, innerLevels⟩ := takes.levels_deeper full levels
  obtain ⟨_, _, _, loopStart, loopTest, loopUpdate, spansHead⟩ :=
    clauses_of_loopHead readsHead innerLevels
  obtain ⟨opens, fourth, sentence, spansBody, noElse⟩ :=
    shorter first (Nat.lt_trans readsHead.shorter takes.shorter) (spansHead.levels innerLevels)
      readsBody
  refine ⟨opens, _, .countedLoop loopStart loopTest loopUpdate sentence, ?_, noElse⟩
  simpa [Opening.mark] using takes.spans_leave (spansHead.append spansBody)

theorem soundStatement_of_shorter : start.SoundStatement := by
  intro room given last levels gives
  rcases start.take?_cases Opening.ofToken? with ⟨_, lacks⟩ | ⟨opening, after, takes, _⟩
  · rw [statement_of_lacks lacks] at gives
    obtain ⟨source, value, within, rfl, spans⟩ := within_of_expressionStatement gives levels
    exact ⟨false, _, .expression within, spans, nofun⟩
  cases opening with
  | setBlock =>
    have spansOpening := takes.spans_opening
    obtain ⟨source, sentence, spans⟩ :=
      sentence_of_setBlock ((statement_setBlock takes).mp gives) (spansOpening.levels levels)
    exact ⟨false, _, sentence, spansOpening.append spans, nofun⟩
  | block =>
    obtain ⟨source, sentence, spans⟩ := sentence_of_block shorter takes levels gives
    exact ⟨false, source, sentence, spans, nofun⟩
  | branch => exact sentence_of_branch shorter takes levels gives
  | conditionalLoop => exact sentence_of_conditionalLoop shorter takes levels gives
  | countedLoop => exact sentence_of_countedLoop shorter takes levels gives

end Sound

theorem soundStatement (start : Cursor) : start.SoundStatement :=
  soundStatement_of_shorter fun cursor _ => soundStatement cursor
termination_by start.rest.length

theorem program_eq_ok {read : List Statement} {given : Program} :
    program read start = .ok given ↔
      (start.kind = .eof ∧ given = ⟨read.reverse⟩) ∨
        (start.kind ≠ .eof ∧ ∃ item next, (declaration start).Gives item next ∧
          program (item :: read) next = .ok given) := by
  rw [program]
  split
  case isTrue ends => simp [ends, eq_comm]
  case isFalse goes =>
    simp only [goes, false_and, ne_eq, not_false_eq_true, true_and, false_or]
    cases declared : declaration start with
    | ok item next shorter =>
      constructor
      · intro rest
        exact ⟨item, next, ok_gives.mpr ⟨rfl, rfl⟩, rest⟩
      · rintro ⟨_, _, gives, rest⟩
        obtain ⟨rfl, rfl⟩ := ok_gives.mp gives
        exact rest
    | error cause next => simp

/-- Reading a program goes on from what was read before it up to the last token. -/
theorem items_of_program {read : List Statement} {given : Program} {start : Cursor}
    (accepted : program read start = .ok given) (levels : start.depth + room = maxNesting)
    (noEnd : .eof ∉ start.kinds) :
    ∃ items : List (List TokenKind × Statement),
      (∀ item ∈ items, Sentence .item room item.1 item.2) ∧
        given.statements = read.reverse ++ items.map (·.2) ∧
          start.kinds = items.flatMap (·.1) := by
  rcases program_eq_ok.mp accepted with ⟨ends, rfl⟩ | ⟨_, item, next, declared, rest⟩
  · -- Without an end token among the kinds, the end is where nothing is left.
    refine ⟨[], nofun, by simp, ?_⟩
    rw [kind_eq_head] at ends
    cases here : start.kinds with
    | nil => rfl
    | cons kind tail =>
      rw [here] at ends noEnd
      exact absurd (ends ▸ List.mem_cons_self) noEnd
  · have less : next.rest.length < start.rest.length := declared.shorter
    obtain ⟨source, sentence, spans⟩ := (soundStatement start).item levels declared
    have noEndBehind : .eof ∉ next.kinds := by
      intro here
      rw [spans.kinds] at noEnd
      exact noEnd (List.mem_append_right _ here)
    obtain ⟨items, sentences, given_eq, kinds⟩ :=
      items_of_program rest (spans.levels levels) noEndBehind
    refine ⟨(source, item) :: items, ?_, by simp [given_eq], ?_⟩
    · rintro _ (_ | ⟨_, member⟩)
      · exact sentence
      · exact sentences _ member
    · rw [spans.kinds, kinds]
      rfl
termination_by start.rest.length

end Cursor

end BlockScript
