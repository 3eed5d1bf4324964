import Mathlib.Data.List.TakeWhile
import BlockScript.Proofs.Grammar.Programs
import BlockScript.Proofs.Grammar.Tracing

/-!
# Where a program stops being one

The readers of statements are traced as those of expressions are.  So the reader of programs reports
an error at the first token that no program goes on with (`error_at_first_offense`), apart from an
error in a value that is assigned to something else than a name.
-/

namespace BlockScript

open Cursor Reading

instance : Nonempty Statement :=
  ⟨.block []⟩

instance : Nonempty LoopHead :=
  ⟨⟨none, .nil, none⟩⟩

/-- The reader of expressions as a reading. -/
abbrev Reading.value : Reading Expression :=
  Rank.assignment.reading

/-! ### The readers of statements put together -/

theorem reading_declared : Reading.of declared =
    (Reading.take TokenKind.name? .variableName).andThen fun name =>
      look (TokenKind.exactly (.symbol .equal))
        (fun _ => value.andThen fun initial => Reading.pure (.declare name initial))
        (Reading.pure (.declare name .nil)) := by
  funext start
  refine Outcome.result_andThen rfl fun name behind named => ?_
  rcases behind.take?_cases (TokenKind.exactly (.symbol .equal)) with
    ⟨none, lacks⟩ | ⟨⟨⟩, after, takes, some⟩
  · rw [none, look_of_lacks lacks]
    rfl
  · rw [some, look_of_takes takes]
    exact Outcome.result_andThen rfl fun _ _ _ => rfl

theorem reading_declarationStatement (place : Place) : Reading.of (declarationStatement · place) =
    (Reading.of declared).andThen fun declaration =>
      (Reading.symbol .semicolon place).andThen fun _ => Reading.pure declaration := by
  funext start
  refine Outcome.result_andThen rfl fun _ _ _ => ?_
  exact Outcome.result_andThen rfl fun _ _ _ => rfl

theorem reading_expressionStatement (place : Place) : Reading.of (expressionStatement · place) =
    value.andThen fun given =>
      (Reading.symbol .semicolon place).andThen fun _ => Reading.pure (.expression given) := by
  funext start
  refine Outcome.result_andThen rfl fun _ _ _ => ?_
  exact Outcome.result_andThen rfl fun _ _ _ => rfl

theorem reading_condition (opened closed : Place) : Reading.of (condition · opened closed) =
    (Reading.symbol .leftParen opened).andThen fun _ => value.andThen fun test =>
      (Reading.symbol .rightParen closed).andThen fun _ => Reading.pure test := by
  funext start
  refine Outcome.result_andThen rfl fun _ _ _ => ?_
  refine Outcome.result_andThen rfl fun _ _ _ => ?_
  exact Outcome.result_andThen rfl fun _ _ _ => rfl

theorem reading_loopInitializer : Reading.of loopInitializer =
    look (TokenKind.exactly (.symbol .semicolon)) (fun _ => Reading.pure none)
      (look (TokenKind.exactly (.keyword .let))
        (fun _ => (Reading.of (declarationStatement · .afterLoopInitializer)).andThen fun given =>
          Reading.pure (some given))
        ((Reading.of (expressionStatement · .afterLoopInitializer)).andThen fun given =>
          Reading.pure (some given))) := by
  funext start
  unfold Reading.of loopInitializer
  rcases start.take?_cases (TokenKind.exactly (.symbol .semicolon)) with
    ⟨none, lacks⟩ | ⟨⟨⟩, after, takes, some⟩
  · rw [none, look_of_lacks lacks]
    rcases start.take?_cases (TokenKind.exactly (.keyword .let)) with
      ⟨none, lacks⟩ | ⟨⟨⟩, after, takes, some⟩
    · rw [none, look_of_lacks lacks]
      exact Outcome.result_map rfl
    · rw [some, look_of_takes takes]
      exact Outcome.result_within.trans (Outcome.result_map rfl)
  · rw [some, look_of_takes takes]
    rfl

theorem reading_loopCondition : Reading.of loopCondition =
    look (TokenKind.exactly (.symbol .semicolon)) (fun _ => Reading.pure (.bool true))
      (value.andThen fun test =>
        (Reading.symbol .semicolon .afterLoopCondition).andThen fun _ => Reading.pure test) := by
  funext start
  unfold Reading.of loopCondition
  rcases start.take?_cases (TokenKind.exactly (.symbol .semicolon)) with
    ⟨none, lacks⟩ | ⟨⟨⟩, after, takes, some⟩
  · rw [none, look_of_lacks lacks]
    refine Outcome.result_andThen rfl fun _ _ _ => ?_
    exact Outcome.result_andThen rfl fun _ _ _ => rfl
  · rw [some, look_of_takes takes]
    rfl

theorem reading_loopIncrement : Reading.of loopIncrement =
    look (TokenKind.exactly (.symbol .rightParen)) (fun _ => Reading.pure none)
      (value.andThen fun given =>
        (Reading.symbol .rightParen .afterForClauses).andThen fun _ =>
          Reading.pure (some given)) := by
  funext start
  unfold Reading.of loopIncrement
  rcases start.take?_cases (TokenKind.exactly (.symbol .rightParen)) with
    ⟨none, lacks⟩ | ⟨⟨⟩, after, takes, some⟩
  · rw [none, look_of_lacks lacks]
    refine Outcome.result_andThen rfl fun _ _ _ => ?_
    exact Outcome.result_andThen rfl fun _ _ _ => rfl
  · rw [some, look_of_takes takes]
    rfl

theorem reading_loopHead : Reading.of loopHead =
    (Reading.symbol .leftParen .afterFor).andThen fun _ =>
      (Reading.of loopInitializer).andThen fun initializer =>
        (Reading.of loopCondition).andThen fun test =>
          (Reading.of loopIncrement).andThen fun increment =>
            Reading.pure ⟨initializer, test, increment⟩ := by
  funext start
  refine Outcome.result_andThen rfl fun _ _ _ => ?_
  refine Outcome.result_andThen rfl fun _ _ _ => ?_
  refine Outcome.result_andThen rfl fun _ _ _ => ?_
  exact Outcome.result_andThen rfl fun _ _ _ => rfl

theorem reading_setBlock : Reading.of setBlock =
    (Reading.symbol .leftParen .afterSetBlock).andThen fun _ => value.andThen fun x =>
      (Reading.symbol .comma .afterX).andThen fun _ => value.andThen fun y =>
        (Reading.symbol .comma .afterY).andThen fun _ => value.andThen fun z =>
          (Reading.symbol .comma .afterZ).andThen fun _ => value.andThen fun name =>
            (Reading.symbol .rightParen .afterSetBlockArguments).andThen fun _ =>
              (Reading.symbol .semicolon .afterSetBlockCall).andThen fun _ =>
                Reading.pure (.setBlock x y z name) := by
  funext start
  refine Outcome.result_andThen rfl fun _ _ _ => ?_
  refine Outcome.result_andThen rfl fun _ _ _ => ?_
  refine Outcome.result_andThen rfl fun _ _ _ => ?_
  refine Outcome.result_andThen rfl fun _ _ _ => ?_
  refine Outcome.result_andThen rfl fun _ _ _ => ?_
  refine Outcome.result_andThen rfl fun _ _ _ => ?_
  refine Outcome.result_andThen rfl fun _ _ _ => ?_
  refine Outcome.result_andThen rfl fun _ _ _ => ?_
  refine Outcome.result_andThen rfl fun _ _ _ => ?_
  exact Outcome.result_andThen rfl fun _ _ _ => rfl

/-- A token that ends a list of statements. -/
abbrev EndsList (kind : TokenKind) : Prop :=
  kind = .symbol .rightBrace ∨ kind = .eof

/-- The statements up to a token that ends them, behind some already read. -/
def listing (ends : TokenKind → Prop) [DecidablePred ends] (read : List Statement)
    (start : Cursor) : Except (Option SyntaxError) (List Statement × Cursor) :=
  if ends start.kind then .ok (read.reverse, start)
  else
    match declaration start with
    | .ok item next _shorter => listing ends (item :: read) next
    | .error cause _ => .error (if cause.fault = .tooDeep then none else some cause)
termination_by start.rest.length

section Listing

variable {ends : TokenKind → Prop} [DecidablePred ends] {read : List Statement} {start : Cursor}

theorem listing_of_ends (ended : ends start.kind) :
    listing ends read start = .ok (read.reverse, start) := by
  rw [listing, if_pos ended]

theorem listing_of_goes (goes : ¬ ends start.kind) :
    listing ends read start =
      ((Reading.of declaration).andThen fun item => listing ends (item :: read)) start := by
  rw [listing, if_neg goes]
  unfold Reading.andThen Reading.of
  cases declaration start <;> rfl

end Listing

/-- The reader of a list, whatever its bound, reads up to a token that ends the list. -/
theorem result_listed {bound : Nat} {read : List Statement} {start : Cursor}
    (fits : start.rest.length < bound) :
    (listed bound read start fits).result = listing EndsList read start := by
  by_cases ends : EndsList start.kind
  · rw [listing_of_ends ends, listed, if_pos ends]
    rfl
  · rw [listing, listed, if_neg ends, if_neg ends]
    cases declaration start with
    | error => rfl
    | ok item next fewer => exact result_listed _
termination_by start.rest.length

/-- The reader of programs reads up to the end token. -/
theorem program_eq_listing (read : List Statement) (start : Cursor) :
    (∀ given, Cursor.program read start = .ok given ↔
      ∃ last, listing (· = .eof) read start = .ok (given.statements, last)) ∧
    ∀ cause, cause.fault ≠ .tooDeep → Cursor.program read start = .error cause →
      listing (· = .eof) read start = .error (some cause) := by
  rw [Cursor.program]
  split
  · next ends =>
    rw [listing_of_ends ends]
    constructor
    · rintro ⟨statements⟩
      simp
    · intro cause _ fails
      cases fails
  · next goes =>
    rw [listing, if_neg goes]
    cases declaration start with
    | error cause =>
      refine ⟨fun _ => by simp, ?_⟩
      rintro _ shallow ⟨⟩
      exact congrArg Except.error (if_neg shallow)
    | ok item next fewer => exact program_eq_listing (item :: read) next
termination_by start.rest.length

/-- What stands behind the word or the brace that opens a statement. -/
def Opening.reading : Opening → Reading Statement
  | .setBlock => .of Cursor.setBlock
  | .block => Reading.deeper <| Reading.andThen (listing EndsList []) fun body =>
      (Reading.symbol .rightBrace .afterBlock).andThen fun _ => Reading.pure (.block body)
  | .branch => Reading.deeper <|
      (Reading.of (Cursor.condition · .afterIf .afterIfCondition)).andThen fun test =>
        (Reading.of Cursor.statement).andThen fun thenBranch =>
          look (TokenKind.exactly (.keyword .else))
            (fun _ => (Reading.of Cursor.statement).andThen fun elseBranch =>
              Reading.pure (.branch test thenBranch (some elseBranch)))
            (Reading.pure (.branch test thenBranch none))
  | .conditionalLoop => Reading.deeper <|
      (Reading.of (Cursor.condition · .afterWhile .afterLoopCondition)).andThen fun test =>
        (Reading.of Cursor.statement).andThen fun body => Reading.pure (.loop test body)
  | .countedLoop => Reading.deeper <| (Reading.of loopHead).andThen fun head =>
      (Reading.of Cursor.statement).andThen fun body => Reading.pure (head.statement body)

theorem reading_statement : Reading.of Cursor.statement =
    look Opening.ofToken? Opening.reading
      (Reading.of (expressionStatement · .afterExpression)) := by
  funext start
  change (Cursor.statement start).result = _
  rcases start.take?_cases Opening.ofToken? with ⟨_, lacks⟩ | ⟨opening, after, takes, some⟩
  · rw [look_of_lacks lacks, statement_of_lacks lacks]
    rfl
  rw [look_of_takes takes, Cursor.statement, some]
  cases opening with
  | setBlock => exact Outcome.result_within
  | block =>
    refine result_nested fun inside same => ?_
    refine Outcome.result_andThen (result_listed _) fun _ _ _ => ?_
    exact Outcome.result_andThen rfl fun _ _ _ => rfl
  | branch =>
    refine result_nested fun inside same => ?_
    refine Outcome.result_andThen rfl fun _ _ _ => ?_
    refine Outcome.result_andThen rfl fun _ behind _ => ?_
    rcases behind.take?_cases (TokenKind.exactly (.keyword .else)) with
      ⟨none, lacks⟩ | ⟨⟨⟩, after, takes, some⟩
    · rw [none, look_of_lacks lacks]
      rfl
    · rw [some, look_of_takes takes]
      exact Outcome.result_andThen rfl fun _ _ _ => rfl
  | conditionalLoop =>
    refine result_nested fun inside same => ?_
    refine Outcome.result_andThen rfl fun _ _ _ => ?_
    exact Outcome.result_andThen rfl fun _ _ _ => rfl
  | countedLoop =>
    refine result_nested fun inside same => ?_
    refine Outcome.result_andThen rfl fun _ _ _ => ?_
    exact Outcome.result_andThen rfl fun _ _ _ => rfl

theorem reading_declaration : Reading.of declaration =
    look (TokenKind.exactly (.keyword .let))
      (fun _ => Reading.of (declarationStatement · .afterDeclaration))
      (Reading.of Cursor.statement) := by
  funext start
  change (declaration start).result = _
  rw [declaration]
  rcases start.take?_cases (TokenKind.exactly (.keyword .let)) with
    ⟨none, lacks⟩ | ⟨⟨⟩, after, takes, some⟩
  · rw [none, look_of_lacks lacks]
    rfl
  · rw [some, look_of_takes takes]
    exact Outcome.result_within

/-! ### The parts of statements are traced -/

open Rank

section Parts

variable {bound : Nat} {follows : TokenKind → Prop}

/-- A value and a symbol that closes it. -/
theorem traced_value_symbol {α : Type} {step : Expression → Reading α} {default : List TokenKind}
    (mark : Symbol) (place : Place)
    (closing : mark ∈ [Symbol.rightParen, .comma, .colon, .semicolon])
    (back : ∀ given, Traced bound (step given) follows default) :
    Traced bound (value.andThen fun given =>
      (Reading.symbol mark place).andThen fun _ => step given) follows
        (word :: .symbol mark :: default) :=
  (Rank.traced bound .assignment).andThen
    (fun given => Traced.symbol_andThen mark place (back given)) fun _ _ => Ends.of_closing closing

theorem traced_declared :
    Traced bound (.of declared) (· = .symbol .semicolon) [word] := by
  have name : Traced bound (Reading.take TokenKind.name? .variableName) (fun _ => True) [word] :=
    Traced.take rfl rfl
  rw [reading_declared]
  refine name.closed_andThen fun name => Traced.optional rfl ?_ ?_
  · rintro _ rfl
    rfl
  · intro start _ after fits takes
    have initial := ((Rank.traced bound .assignment).map (Statement.declare name)).traces after
      (Nat.lt_trans takes.shorter fits)
    refine initial.mono ?_
    rintro _ rfl
    exact Ends.of_closing (by decide)

theorem traced_declarationStatement (place : Place) :
    Traced bound (.of (declarationStatement · place)) follows [word, .symbol .semicolon] := by
  rw [reading_declarationStatement]
  exact traced_declared.andThen
    (fun given => Traced.symbol_andThen .semicolon place (Traced.pure given)) fun _ _ => rfl

theorem traced_expressionStatement (place : Place) :
    Traced bound (.of (expressionStatement · place)) follows [word, .symbol .semicolon] := by
  rw [reading_expressionStatement]
  exact traced_value_symbol .semicolon place (by decide) fun _ => Traced.pure _

theorem traced_condition (opened closed : Place) :
    Traced bound (.of (Cursor.condition · opened closed)) follows
      [.symbol .leftParen, word, .symbol .rightParen] := by
  rw [reading_condition]
  exact Traced.symbol_andThen .leftParen opened
    (traced_value_symbol .rightParen closed (by decide) fun _ => Traced.pure _)

theorem traced_loopInitializer :
    Traced bound (.of loopInitializer) follows [word, .symbol .semicolon] := by
  rw [reading_loopInitializer]
  have declaration : Traced bound _ follows _ :=
    (traced_declarationStatement .afterLoopInitializer).map some
  have expression : Traced bound _ follows _ :=
    (traced_expressionStatement .afterLoopInitializer).map some
  exact Traced.look rfl (fun _ => ⟨_, Traced.pure _⟩)
    (Traced.look rfl (fun _ => ⟨_, declaration⟩) expression rfl) rfl

theorem traced_loopCondition :
    Traced bound (.of loopCondition) follows [word, .symbol .semicolon] := by
  rw [reading_loopCondition]
  exact Traced.look rfl (fun _ => ⟨_, Traced.pure _⟩)
    (traced_value_symbol .semicolon _ (by decide) fun _ => Traced.pure _) rfl

theorem traced_loopIncrement :
    Traced bound (.of loopIncrement) follows [word, .symbol .rightParen] := by
  rw [reading_loopIncrement]
  exact Traced.look rfl (fun _ => ⟨_, Traced.pure _⟩)
    (traced_value_symbol .rightParen _ (by decide) fun _ => Traced.pure _) rfl

theorem traced_loopHead :
    ∃ default, Traced bound (.of loopHead) follows default := by
  rw [reading_loopHead]
  exact ⟨_, Traced.symbol_andThen .leftParen _ <|
    traced_loopInitializer.closed_andThen fun initializer =>
      traced_loopCondition.closed_andThen fun test =>
        traced_loopIncrement.map fun increment => LoopHead.mk initializer test increment⟩

theorem traced_setBlock : ∃ default, Traced bound (.of Cursor.setBlock) follows default := by
  rw [reading_setBlock]
  exact ⟨_, Traced.symbol_andThen .leftParen _ <|
    traced_value_symbol .comma _ (by decide) fun x =>
      traced_value_symbol .comma _ (by decide) fun y =>
        traced_value_symbol .comma _ (by decide) fun z =>
          traced_value_symbol .rightParen _ (by decide) fun name =>
            Traced.symbol_andThen .semicolon _ (Traced.pure (Statement.setBlock x y z name))⟩

end Parts

/-! ### Statements are traced -/

/-- A name and a semicolon, the shortest statement. -/
abbrev shortest : List TokenKind :=
  [word, .symbol .semicolon]

/-- A token that does not go on with a statement. -/
def NoElse (kind : TokenKind) : Prop :=
  kind ≠ .keyword .else

theorem noElse_of_endsList {kind : TokenKind} (ends : EndsList kind) : NoElse kind := by
  rcases ends with rfl | rfl <;> nofun

section Statements

variable {bound : Nat}

theorem traced_declaration
    (statement : Traced bound (.of Cursor.statement) NoElse shortest) :
    Traced bound (.of declaration) NoElse shortest := by
  rw [reading_declaration]
  exact Traced.look rfl (fun _ => ⟨_, traced_declarationStatement _⟩) statement rfl

section Listing

variable {ends : TokenKind → Prop} [DecidablePred ends]

theorem accepts_listing (read : List Statement) (depth : Nat) :
    Accepts (listing ends read) ends depth [] := by
  intro start rest _ kinds ended
  refine ⟨read.reverse, start, listing_of_ends ?_, kinds, rfl⟩
  rwa [start.kind_eq_first, kinds]

theorem traced_listing (item : Traced bound (.of declaration) NoElse shortest)
    (noElse : ∀ kind, ends kind → NoElse kind) (size : Nat) (le : size ≤ bound)
    (read : List Statement) : Traced size (listing ends read) ends [] := by
  refine ⟨?_, accepts_listing read, List.not_mem_nil, nofun⟩
  intro start fits
  by_cases ended : ends start.kind
  · refine (traces_pure read.reverse start).of_same_kind ?_ List.not_mem_nil
      (accepts_listing read _) (.inr fun place => listing_of_ends)
    exact fun place same => listing_of_ends (same ▸ ended)
  · -- A declaration takes tokens, so the rest of the list is traced by induction.
    have onward {given : Statement} {next : Cursor}
        (gives : Reading.of declaration start = .ok (given, next)) :
        next.rest.length < start.rest.length := moves_of declaration start gives
    have rest (given : Statement) {next : Cursor}
        (fewer : next.rest.length < start.rest.length) :
        Traces (listing ends (given :: read)) ends next :=
      (traced_listing item noElse start.rest.length (Nat.le_trans (Nat.le_of_lt fits) le) _).traces
        next fewer
    have joins : Joins NoElse (fun given => listing ends (given :: read)) ends start [] :=
      ⟨fun given => accepts_listing _ _, List.not_mem_nil, fun _ => noElse _, nofun⟩
    have both := (item.traces start (Nat.lt_of_lt_of_le fits le)).andThen
      (fun given next gives => rest given (onward gives)) joins
    refine both.of_same_kind ?_ List.not_mem_nil (accepts_listing read _) (.inl ?_)
    · exact fun place same => listing_of_goes (same ▸ ended)
    · intro body last given
      rw [listing_of_goes ended] at given
      obtain ⟨given, next, gives, reads⟩ := andThen_eq_ok given
      obtain ⟨_, settles⟩ := (rest given (onward gives)).ok reads
      exact Nat.lt_of_le_of_lt settles.passes.length_le (onward gives)
termination_by size

end Listing

/-- What an opening token starts is traced if the statements behind it are. -/
theorem traces_opening (inner : Traced bound (.of Cursor.statement) NoElse shortest)
    (opening : Opening) {after : Cursor} (fits : after.rest.length < bound) :
    opening.reading.Traces NoElse after := by
  cases opening with
  | setBlock =>
    obtain ⟨_, traced⟩ := @traced_setBlock bound NoElse
    exact traced.traces after fits
  | block =>
    have statements := traced_listing (traced_declaration inner) (fun _ => noElse_of_endsList)
      bound (Nat.le_refl _) []
    have body := statements.andThen
      (fun body => Traced.symbol_andThen .rightBrace .afterBlock (.pure (Statement.block body)))
      (fun _ (_ : NoElse _) => .inl rfl)
    exact Traces.deeper fun room => body.traces (after.deeper room) fits
  | branch =>
    have noElse (kind : TokenKind) (follows : NoElse kind) :
        TokenKind.exactly (.keyword .else) kind = none := exactly_eq_none.mpr follows
    -- The second branch is missing only where no `else` follows, so none may follow the whole.
    have otherwise (test : Expression) (thenBranch : Statement) :
        Traced bound (look (TokenKind.exactly (.keyword .else))
          (fun _ => (Reading.of Cursor.statement).andThen fun elseBranch =>
            Reading.pure (Statement.branch test thenBranch (some elseBranch)))
          (Reading.pure (.branch test thenBranch none))) NoElse [] := by
      refine Traced.optional rfl noElse fun start _ after fits takes => ?_
      have elseBranch := inner.map fun given => Statement.branch test thenBranch (some given)
      exact elseBranch.traces after (Nat.lt_trans takes.shorter fits)
    have body := (traced_condition .afterIf .afterIfCondition).closed_andThen fun test =>
      inner.andThen (otherwise test) fun _ follows => follows
    exact Traces.deeper fun room => body.traces (after.deeper room) fits
  | conditionalLoop =>
    have body := (traced_condition .afterWhile .afterLoopCondition).closed_andThen fun test =>
      inner.map fun body => Statement.loop test body
    exact Traces.deeper fun room => body.traces (after.deeper room) fits
  | countedLoop =>
    obtain ⟨_, head⟩ := @traced_loopHead bound fun _ => True
    have body := head.closed_andThen fun head => inner.map fun body => head.statement body
    exact Traces.deeper fun room => body.traces (after.deeper room) fits

theorem traced_statement (bound : Nat) :
    Traced bound (.of Cursor.statement) NoElse shortest := by
  have simple {bound : Nat} :
      Traced bound (.of (expressionStatement · .afterExpression)) NoElse shortest :=
    traced_expressionStatement .afterExpression
  have accepts (depth : Nat) :
      (Reading.of Cursor.statement).Accepts NoElse depth shortest := by
    intro start rest level kinds follows
    have lacks : start.Lacks Opening.ofToken? := by
      refine lacks_of_kind ?_
      rw [start.kind_eq_first, kinds]
      rfl
    obtain ⟨given, last, gives, left⟩ := (@simple 0).accepts depth start rest level kinds follows
    rw [reading_statement]
    exact ⟨given, last, (look_of_lacks lacks).trans gives, left⟩
  refine ⟨?_, accepts, by simp [word], fun _ start _ => moves_of _ start⟩
  -- What stands inside a statement has fewer tokens than the statement.
  induction bound with
  | zero => exact fun start fits => absurd fits (Nat.not_lt_zero _)
  | succ bound inner =>
    intro start fits
    have inner : Traced bound (.of Cursor.statement) NoElse shortest :=
      ⟨inner, accepts, by simp [word], fun _ start _ => moves_of _ start⟩
    have moves := moves_of Cursor.statement start
    have accepts := accepts start.depth
    rw [reading_statement] at accepts moves ⊢
    rcases start.take?_cases Opening.ofToken? with ⟨_, lacks⟩ | ⟨opening, after, takes, _⟩
    · exact traces_look_of_lacks rfl lacks (simple.traces start fits) (by simp [word]) accepts
        (.inl moves)
    · exact traces_look_of_takes takes <| traces_opening inner opening <|
        Nat.lt_of_lt_of_le takes.shorter (Nat.le_of_lt_succ fits)

end Statements

/-! ### Where a list of tokens stops being a program -/

/-- A list of tokens with an end token, which is added behind the last token unless that is one. -/
def Token.closed (tokens : List Token) : List Token :=
  match tokens.getLast? with
  | none => [⟨.eof, "", .start⟩]
  | some ⟨kind, lexeme, ⟨line, column⟩⟩ =>
    if kind = .eof then tokens else tokens ++ [⟨.eof, "", ⟨line, column + lexeme.length⟩⟩]

/-- A row of kinds that some list of tokens which is read as a program begins with.  The beginning
of a viable row is viable, so there is one first token at which a row stops being viable. -/
def Program.Viable (kinds : List TokenKind) : Prop :=
  ∃ tokens program, Program.ofTokens tokens = .ok program ∧
    kinds <+: (Token.closed tokens).map (·.kind)

/-- An error in a value that is assigned to something else than a name.  The value is read before
the target is looked at, so the error at the equals sign is never told. -/
structure HiddenTarget (before : List Token) (equals : Token) (after : List Token)
    (error : SyntaxError) : Prop where
  equals : equals.kind = .symbol .equal
  target : ∃ front target value, before.map (·.kind) = front ++ target ∧
    Phrase .conditional target value ∧ ∀ name, value ≠ .variable name
  value : ∃ inside next : Cursor, inside.rest = (Cursor.ofTokens after).rest ∧
    inside.stop = (Cursor.ofTokens after).stop ∧ inside.expression = .error error next

theorem Token.closed_eq_append (tokens : List Token) :
    ∃ more, Token.closed tokens = tokens ++ more := by
  unfold Token.closed
  split
  · next none =>
    rw [List.getLast?_eq_none_iff.mp none]
    exact ⟨_, rfl⟩
  · split
    · exact ⟨[], (List.append_nil _).symm⟩
    · exact ⟨_, rfl⟩

/-- Nothing behind an end token is looked at. -/
theorem Cursor.ofTokens_of_end {before after : List Token} {stop : Token}
    (noEnd : ∀ token ∈ before, token.kind ≠ .eof) (isEnd : stop.kind = .eof) :
    (Cursor.ofTokens (before ++ stop :: after)).rest = before ∧
      (Cursor.ofTokens (before ++ stop :: after)).stop = stop.position := by
  have others : ∀ token ∈ before, ¬ decide (token.kind = .eof) = true := by simpa using noEnd
  have found : (before ++ stop :: after).find? (·.kind = .eof) = some stop := by
    rw [List.find?_append, List.find?_eq_none.mpr others, Option.none_or]
    exact List.find?_cons_of_pos (decide_eq_true isEnd)
  refine ⟨?_, by simp only [ofTokens, found]⟩
  have kept : ∀ token ∈ before, decide (token.kind ≠ .eof) = true := by simpa using noEnd
  refine (List.takeWhile_append_of_pos kept).trans ?_
  rw [List.takeWhile_cons_of_neg (by simpa using isEnd), List.append_nil]

/-- The cursor stands in front of the tokens up to the first end token. -/
theorem Token.closed_eq (tokens : List Token) : ∃ stop after, stop.kind = .eof ∧
    stop.position = (Cursor.ofTokens tokens).stop ∧
      Token.closed tokens = (Cursor.ofTokens tokens).rest ++ stop :: after := by
  cases found : tokens.find? (·.kind = .eof) with
  | some stop =>
    obtain ⟨isEnd, before, after, rfl, others⟩ := List.find?_eq_some_iff_append.mp found
    have noEnd : ∀ token ∈ before, token.kind ≠ .eof := by simpa using others
    obtain ⟨rest, position⟩ := @Cursor.ofTokens_of_end before after stop noEnd
      (of_decide_eq_true isEnd)
    obtain ⟨more, closed⟩ := Token.closed_eq_append (before ++ stop :: after)
    refine ⟨stop, after ++ more, of_decide_eq_true isEnd, position.symm, ?_⟩
    rw [rest, closed, List.append_assoc, List.cons_append]
  | none =>
    have noEnd : ∀ token ∈ tokens, token.kind ≠ .eof := by simpa using found
    have all : (Cursor.ofTokens tokens).rest = tokens :=
      List.takeWhile_eq_self_iff.mpr fun token member => decide_eq_true (noEnd token member)
    rw [all]
    unfold Token.closed Cursor.ofTokens
    rw [found]
    -- An end token is put behind the last token, or at the start if there are no tokens.
    cases last : tokens.getLast? with
    | none => exact ⟨_, [], rfl, rfl, by rw [List.getLast?_eq_none_iff.mp last]; rfl⟩
    | some token =>
      have other := noEnd token (List.mem_of_getLast? last)
      refine ⟨⟨.eof, "", token.position.line, token.position.column + token.lexeme.length⟩, [],
        rfl, rfl, ?_⟩
      exact if_neg other

/-- A place behind the first tokens, with what stands there and behind it. -/
theorem Cursor.Passes.closed_eq {tokens : List Token} {source : List TokenKind} {here : Cursor}
    (passes : (Cursor.ofTokens tokens).Passes source here) :
    ∃ before token after, Token.closed tokens = before ++ token :: after ∧
      before.map (·.kind) = source ∧ token.kind = here.kind ∧ token.position = here.position ∧
        ∀ kind next, here.Passes [kind] next → (Cursor.ofTokens after).rest = next.rest ∧
          (Cursor.ofTokens after).stop = next.stop := by
  obtain ⟨⟨before, row, rfl⟩, same⟩ := passes
  obtain ⟨stop, more, isEnd, position, closed⟩ := Token.closed_eq tokens
  have noEnd : ∀ token ∈ here.rest, token.kind ≠ .eof := by
    rintro token member isEnd
    have member : token ∈ (Cursor.ofTokens tokens).rest := row ▸ List.mem_append_right _ member
    exact Cursor.noEnd_ofTokens tokens (isEnd ▸ List.mem_map_of_mem member)
  rw [row, List.append_assoc] at closed
  obtain ⟨rest, last, depth, depth_le⟩ := here
  -- What stands at the place is the next token, or the end token if there is none.
  cases rest with
  | nil =>
    refine ⟨before, stop, more, closed, rfl, isEnd, position.trans same.symm, ?_⟩
    rintro kind next ⟨⟨read, taken, kinds⟩, _⟩
    simp_all
  | cons token rest =>
    refine ⟨before, token, rest ++ stop :: more, closed, rfl, rfl, rfl, ?_⟩
    rintro kind next ⟨⟨read, taken, kinds⟩, ends⟩
    obtain ⟨_, rfl, _⟩ := List.map_eq_singleton_iff.mp kinds
    obtain ⟨rfl, rfl⟩ := List.cons.inj taken
    obtain ⟨rest_eq, stop_eq⟩ := @Cursor.ofTokens_of_end _ more stop
      (fun other member => noEnd other (List.mem_cons_of_mem _ member)) isEnd
    exact ⟨rest_eq, stop_eq.trans (position.trans (same.symm.trans ends.symm))⟩

section Offense

variable {tokens : List Token} {error : SyntaxError}

theorem viable_of_accepts {source more : List TokenKind} (noEnd : .eof ∉ source ++ more)
    (accepts : Accepts (listing (· = .eof) []) (· = .eof) 0 (source ++ more)) :
    Program.Viable source := by
  -- Only the kinds are read, so the tokens may stand anywhere.
  let tokens : List Token := (source ++ more).map fun kind => ⟨kind, "", .start⟩
  have kinds : tokens.map (·.kind) = source ++ more := (List.map_map ..).trans (List.map_id _)
  have row : (Cursor.ofTokens tokens).kinds = source ++ more ++ [] := by
    rw [Cursor.kinds_ofTokens, kinds, List.append_nil]
    refine List.takeWhile_eq_self_iff.mpr fun kind member => decide_eq_true fun isEnd => ?_
    exact noEnd (isEnd ▸ member)
  obtain ⟨statements, last, reads, _⟩ := accepts (Cursor.ofTokens tokens) [] rfl row rfl
  have accepted :=
    ((program_eq_listing [] (Cursor.ofTokens tokens)).1 ⟨statements⟩).mpr ⟨last, reads⟩
  obtain ⟨ending, closed⟩ := Token.closed_eq_append tokens
  refine ⟨tokens, ⟨statements⟩, accepted, ?_⟩
  rw [closed, List.map_append, kinds, List.append_assoc]
  exact List.prefix_append _ _

theorem not_viable_of_blocked {source : List TokenKind} {kind : TokenKind} (noEnd : .eof ∉ source)
    (blocked : ∀ other : Cursor, other.depth = 0 → source ++ [kind] <+: other.kinds ++ [.eof] →
      ∀ result, listing (· = .eof) [] other ≠ .ok result) :
    ¬ Program.Viable (source ++ [kind]) := by
  rintro ⟨tokens, ⟨statements⟩, accepted, goes⟩
  obtain ⟨last, reads⟩ := ((program_eq_listing [] _).1 _).mp accepted
  obtain ⟨stop, after, isEnd, _, closed⟩ := Token.closed_eq tokens
  have row : (Token.closed tokens).map (·.kind) =
      (Cursor.ofTokens tokens).kinds ++ [.eof] ++ after.map (·.kind) := by
    rw [closed, List.map_append, List.map_cons, isEnd, List.append_assoc]
    rfl
  rw [row] at goes
  refine blocked (Cursor.ofTokens tokens) rfl ?_ _ reads
  rcases List.prefix_or_prefix_of_prefix goes (List.prefix_append _ _) with short | long
  · exact short
  · -- Nothing behind the end token is read, and there is none in front of the blocked token.
    rcases List.prefix_concat_iff.mp long with same | short
    · exact same ▸ List.prefix_rfl
    · exact absurd (short.subset (by simp)) noEnd

/-- An error, unless it is that the nesting is too deep, is reported at the first token that no
program goes on with.  The exception is an error in a value that is assigned to something else than
a name. -/
theorem error_at_first_offense (rejected : Program.ofTokens tokens = .error error)
    (shallow : error.fault ≠ .tooDeep) :
    ∃ before token after, Token.closed tokens = before ++ token :: after ∧
      Program.Viable (before.map (·.kind)) ∧
        ¬ Program.Viable (before.map (·.kind) ++ [token.kind]) ∧
          (error.position = token.position ∨ HiddenTarget before token after error) := by
  -- A program is a list of statements that ends with the end token.
  let start := Cursor.ofTokens tokens
  have failed := (program_eq_listing [] start).2 error shallow rejected
  have statements := traced_declaration (traced_statement (start.rest.length + 1))
  have traced := @traced_listing _ (· = .eof) _ statements
    (fun _ ended => noElse_of_endsList (.inr ended)) _ (Nat.le_refl _) []
  obtain ⟨source, here, stuck⟩ := (traced.traces start (Nat.lt_succ_self _)).error failed
  -- The place of the error is turned into a token of the list.
  have noEnd : .eof ∉ source := by
    have row := Cursor.noEnd_ofTokens tokens
    rw [stuck.passes.kinds] at row
    exact fun member => row (List.mem_append_left _ member)
  obtain ⟨before, token, after, closed, rfl, kind, position, behind⟩ := stuck.passes.closed_eq
  refine ⟨before, token, after, closed, ?_, ?_, ?_⟩
  · obtain ⟨more, noEndMore, accepts⟩ := stuck.completed
    exact viable_of_accepts (by simp [noEnd, noEndMore]) accepts
  · exact kind ▸ not_viable_of_blocked noEnd stuck.blocked
  · rcases stuck.reported with same | ⟨target, next, takes, inside, last, rest, stop, fails⟩
    · exact .inl (same.trans position.symm)
    · obtain ⟨equals, wanted, passes⟩ := takes.passes
      obtain ⟨afterRest, afterStop⟩ := behind equals next passes
      exact .inr ⟨kind.trans takes.kind, target, inside, last, rest.trans afterRest.symm,
        stop.trans afterStop.symm, fails⟩

/-- A brace where a semicolon is expected is the first token that no program goes on with. -/
theorem error_at_first_offense_stray_brace :
    let tokens : List Token :=
      [⟨.identifier "x", "x", ⟨1, 1⟩⟩, ⟨.symbol .rightBrace, "\x7d", ⟨1, 3⟩⟩]
    let error : SyntaxError :=
      ⟨⟨1, 3⟩, .expected (.symbol .semicolon .afterExpression) (.symbol .rightBrace)⟩
    Program.ofTokens tokens = .error error ∧
      ∃ before token after, Token.closed tokens = before ++ token :: after ∧
        Program.Viable (before.map (·.kind)) ∧
          ¬ Program.Viable (before.map (·.kind) ++ [token.kind]) ∧
            (error.position = token.position ∨ HiddenTarget before token after error) := by
  intro tokens error
  have rejected : Program.ofTokens tokens = .error error := by cbv
  exact ⟨rejected, error_at_first_offense rejected (by decide)⟩

end Offense

/-! ### Targets of assignments -/

section Target

variable {source rest : List TokenKind} {target : Expression}

theorem value_ne_ok_of_target {start : Cursor} (phrase : Phrase .conditional source target)
    (noName : ∀ name, target ≠ .variable name) (room : start.depth + target.nesting ≤ maxNesting)
    (kinds : start.kinds = source ++ .symbol .equal :: rest) (result : Expression × Cursor) :
    value start ≠ .ok result := by
  intro given
  obtain ⟨behind, reads, left, _⟩ := phrase.readable.1 kinds room .conditional_equal
  obtain ⟨after, takes, _⟩ := takes_exactly left
  have first : Rank.conditional.reading start = .ok (target, behind) :=
    Outcome.result_eq_ok.mpr reads
  rw [value, reading_assignment, andThen_of_ok first] at given
  exact assigned_ne_ok noName takes _ given

/-- No program begins with an assignment to an expression that is no name. -/
theorem not_viable_of_target (phrase : Phrase .conditional source target)
    (noName : ∀ name, target ≠ .variable name) (room : target.nesting ≤ maxNesting) :
    ¬ Program.Viable (source ++ [.symbol .equal]) := by
  refine not_viable_of_blocked phrase.noEnd fun other level goes result given => ?_
  obtain ⟨rest, kinds⟩ := exists_tail_of_isPrefix goes nofun
  have within : Phrase.Within maxNesting source target := ⟨.ofConditional phrase, room⟩
  have goesOn : other.kind ≠ .eof := by
    obtain ⟨kind, tail, rfl, starts⟩ := phrase.starts
    rw [other.kind_eq_first, kinds]
    rintro rfl
    cases starts
  rw [listing_of_goes goesOn] at given
  obtain ⟨_, _, given, _⟩ := andThen_eq_ok given
  rw [reading_declaration, look_of_lacks (lacks_of_starts within kinds rfl), reading_statement,
    look_of_lacks (lacks_opening within kinds), reading_expressionStatement] at given
  obtain ⟨_, _, given, _⟩ := andThen_eq_ok given
  exact value_ne_ok_of_target phrase noName (by rwa [level, Nat.zero_add]) kinds _ given

/-- Where the value is missing as well, only that is told, behind the first offending token. -/
theorem error_behind_first_offense :
    let word : Token := ⟨.keyword .nil, "nil", ⟨1, 1⟩⟩
    let equals : Token := ⟨.symbol .equal, "=", ⟨1, 5⟩⟩
    let semicolon : Token := ⟨.symbol .semicolon, ";", ⟨1, 7⟩⟩
    let error : SyntaxError := ⟨⟨1, 7⟩, .expected .expression (.symbol .semicolon)⟩
    Program.ofTokens [word, equals, semicolon] = .error error ∧ error.fault ≠ .tooDeep ∧
      Program.Viable [word.kind] ∧ ¬ Program.Viable [word.kind, equals.kind] ∧
        error.position ≠ equals.position := by
  intro word equals semicolon error
  refine ⟨by cbv, by decide, ?_, ?_, by decide⟩
  · exact ⟨[word, semicolon], ⟨[.expression .nil]⟩, by cbv, by decide⟩
  · have target : Phrase .conditional [.keyword .nil] .nil :=
      Rank.from_tightest (motive := fun rank => Phrase rank [.keyword .nil] .nil) (.atom rfl)
        .ofPrimary (fun _ => .ofOperand) .ofOperators .ofConditional .conditional
    have noName : ∀ name, Expression.nil ≠ .variable name := by simp
    exact not_viable_of_target target noName (Nat.zero_le _)

end Target

end BlockScript
