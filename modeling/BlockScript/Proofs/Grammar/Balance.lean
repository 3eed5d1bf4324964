import BlockScript.Proofs.Grammar.Beside
import BlockScript.Proofs.Grammar.Kinds

/-!
# Levels are balanced

The number of open levels is a plain counter of a parser that keeps its place by number: some readers
count down what they have counted up, and the reader of a chain goes back to what it found.  Either
way a reader leaves the counter as it was, and never above the limit (`Parser.Balanced`).
-/

namespace BlockScript

namespace Parser

variable {α β : Type} {levels : Nat → Prop} {fuel : Nat}

/-! ### What is left open -/

/-- How a parser stops as far as its levels go.  Behind a value and at a fault there are as many open
as is said.  A run that is cut off, because the row of kinds ends there or for lack of fuel, has no
more of them than may be either, and never closes one that is not open. -/
inductive Closes (levels : Nat → Prop) : EStateM.Result Halt Parser α → Prop where
  | ok {value after} : levels after.depth → after.depth ≤ maxNesting →
      Closes levels (.ok value after)
  | error {index fault after} : levels after.depth → after.depth ≤ maxNesting →
      Closes levels (.error (.error index fault) after)
  | mishap {cause after} : cause ≠ .noLevel → after.depth ≤ maxNesting →
      Closes levels (.error (.mishap cause) after)
  | outOfFuel {after} : after.depth ≤ maxNesting → Closes levels (.error .outOfFuel after)

/-- A reader leaves as many levels open as it finds. -/
def Balanced (read : Parse α) : Prop :=
  ∀ parser, parser.depth ≤ maxNesting → Closes (· = parser.depth) (read parser)

/-- A reader never leaves more levels open than may be. -/
def Bounded (read : Parse α) : Prop :=
  ∀ parser, parser.depth ≤ maxNesting → Closes (fun _ => True) (read parser)

theorem Closes.mono {more : Nat → Prop} {result : EStateM.Result Halt Parser α}
    (closes : Closes levels result) (weaker : ∀ depth, levels depth → more depth) :
    Closes more result := by
  cases closes with
  | ok level le => exact .ok (weaker _ level) le
  | error level le => exact .error (weaker _ level) le
  | mishap other le => exact .mishap other le
  | outOfFuel le => exact .outOfFuel le

theorem Closes.bind {more : Nat → Prop} {x : Parse β} {step : β → Parse α} {parser : Parser}
    (first : Closes levels (x parser)) (weaker : ∀ depth, levels depth → more depth)
    (onward : ∀ value after, levels after.depth → after.depth ≤ maxNesting →
      Closes more (step value after)) :
    Closes more ((x >>= step) parser) := by
  generalize given : x parser = result at first
  cases first with
  | ok level le =>
    rw [bind_of_ok given]
    exact onward _ _ level le
  | error level le =>
    rw [bind_of_error given]
    exact .error (weaker _ level) le
  | mishap other le =>
    rw [bind_of_error given]
    exact .mishap other le
  | outOfFuel le =>
    rw [bind_of_error given]
    exact .outOfFuel le

theorem Balanced.bounded {read : Parse α} (balanced : Balanced read) : Bounded read :=
  fun parser le => (balanced parser le).mono fun _ _ => trivial

theorem Bounded.bind {x : Parse β} {step : β → Parse α} (first : Bounded x)
    (onward : ∀ value, Bounded (step value)) : Bounded (x >>= step) :=
  fun parser le => (first parser le).bind (fun _ _ => trivial) fun value after _ inside =>
    onward value after inside

theorem Balanced.bind {x : Parse β} {step : β → Parse α} (first : Balanced x)
    (onward : ∀ value, Balanced (step value)) : Balanced (x >>= step) := by
  intro parser le
  refine (first parser le).bind (fun _ level => level) fun value after level inside => ?_
  rw [← level]
  exact onward value after inside

theorem balanced_pure (value : α) : Balanced (pure value) :=
  fun _ le => .ok rfl le

theorem balanced_outOfFuel : Balanced (throw .outOfFuel : Parse α) :=
  fun _ le => .outOfFuel le

theorem balanced_fault (index : Nat) (fault : SyntaxFault) :
    Balanced (throw (.error index fault) : Parse α) :=
  fun _ le => .error rfl le

theorem Balanced.map {x : Parse β} {change : β → α} (first : Balanced x) :
    Balanced (x >>= fun value => pure (change value)) :=
  first.bind fun _ => balanced_pure _

/-! ### Single tokens -/

theorem peek_cases (parser : Parser) : (∃ kind, peek parser = .ok kind parser) ∨
    ∃ cause, cause ≠ .noLevel ∧ peek parser = .error (.mishap cause) parser := by
  unfold peek
  split
  · exact .inr ⟨.passedEnd, nofun, rfl⟩
  · split
    · exact .inl ⟨_, rfl⟩
    · exact .inr ⟨.outOfRange, nofun, rfl⟩

theorem balanced_peek : Balanced peek := by
  intro parser le
  obtain ⟨kind, peeked⟩ | ⟨cause, other, peeked⟩ := parser.peek_cases
  · rw [peeked]
    exact .ok rfl le
  · rw [peeked]
    exact .mishap other le

theorem balanced_previous : Balanced previous := by
  intro parser le
  unfold previous
  split
  · exact .mishap nofun le
  · split
    · exact .ok rfl le
    · exact .mishap nofun le

theorem balanced_advance : Balanced advance := by
  refine balanced_peek.bind fun kind => ?_
  split
  · exact balanced_previous
  · refine Balanced.bind (fun parser le => ?_) fun _ => balanced_previous
    exact .ok rfl le

theorem balanced_check (want : TokenKind → Option α) : Balanced (check want) :=
  balanced_peek.map

theorem balanced_accept (want : TokenKind → Option α) : Balanced (accept want) := by
  refine (balanced_check want).bind fun found => ?_
  cases found with
  | none => exact balanced_pure _
  | some value => exact balanced_advance.map

theorem balanced_stop (fault : SyntaxFault) : Balanced (stop fault : Parse α) :=
  fun _ le => .error rfl le

theorem balanced_expected (what : Expectation) : Balanced (expected what : Parse α) :=
  balanced_peek.bind fun _ => balanced_stop _

theorem balanced_consume (mark : Symbol) (place : Place) : Balanced (consume mark place) := by
  refine (balanced_check _).bind fun found => ?_
  cases found with
  | none => exact balanced_expected _
  | some => exact balanced_advance.map

theorem balanced_name : Balanced name := by
  refine (balanced_check _).bind fun found => ?_
  cases found with
  | none => exact balanced_expected _
  | some => exact balanced_advance.map

/-! ### Levels -/

/-- A level is opened only if there is room for one. -/
theorem enter_cases (parser : Parser) (le : parser.depth ≤ maxNesting) :
    (parser.depth < maxNesting ∧ enter parser = .ok () (parser.onLevel (parser.depth + 1))) ∨
      ∃ halt, enter parser = .error halt parser ∧
        ∀ α, Closes (· = parser.depth) (.error halt parser : EStateM.Result Halt Parser α) := by
  by_cases room : parser.depth < maxNesting
  · refine .inl ⟨room, ?_⟩
    change (if parser.depth < maxNesting then _ else _ : Parse Unit) parser = _
    rw [if_pos room]
    rfl
  · have full : enter parser = (peek >>= fun _ => stop .tooDeep : Parse Unit) parser := by
      change (if parser.depth < maxNesting then _ else _ : Parse Unit) parser = _
      rw [if_neg room]
    rw [full]
    obtain ⟨kind, peeked⟩ | ⟨cause, other, peeked⟩ := parser.peek_cases
    · exact .inr ⟨_, bind_of_ok peeked, fun _ => .error rfl le⟩
    · exact .inr ⟨_, bind_of_error peeked, fun _ => .mishap other le⟩

theorem bounded_enter : Bounded enter := by
  intro parser le
  obtain ⟨room, entered⟩ | ⟨halt, full, closes⟩ := parser.enter_cases le
  · rw [entered]
    exact .ok trivial room
  · rw [full]
    exact (closes Unit).mono fun _ _ => trivial

/-- What is done behind a reader, and behind a fault in it, decides how many levels are left. -/
theorem Closes.lastly {read : Parse α} {last : Parse Unit} {parser : Parser} {depth : Nat}
    (closes : Closes levels (read parser)) (le : depth ≤ maxNesting)
    (back : ∀ after : Parser, levels after.depth → last after = .ok () (after.onLevel depth)) :
    Closes (· = depth) (lastly read last parser) := by
  unfold Parser.lastly
  generalize read parser = result at closes
  cases closes with
  | @ok value after level =>
    change Closes _ ((last >>= fun _ => pure value) after)
    rw [bind_of_ok (back after level)]
    exact .ok rfl le
  | @error index fault after level =>
    change Closes _ ((last >>= fun _ => throw (.error index fault)) after)
    rw [bind_of_ok (back after level)]
    exact .error rfl le
  | mishap other le => exact .mishap other le
  | outOfFuel le => exact .outOfFuel le

/-- Counting up in front of a reader and down behind it. -/
theorem Balanced.nested {read : Parse α} (balanced : Balanced read) : Balanced (nested read) := by
  intro parser le
  obtain ⟨room, entered⟩ | ⟨halt, full, closes⟩ := parser.enter_cases le
  · rw [Parser.nested, bind_of_ok entered]
    refine (balanced (parser.onLevel (parser.depth + 1)) room).lastly le fun after level => ?_
    rw [leave, level]
    rfl
  · rw [Parser.nested, bind_of_error full]
    exact closes α

/-- Going back to the levels that there were, whatever a reader leaves open. -/
theorem Bounded.keeping {read : Parse α} (bounded : Bounded read) {depth : Nat}
    (room : depth ≤ maxNesting) {parser : Parser} (le : parser.depth ≤ maxNesting) :
    Closes (· = depth) (keeping depth read parser) :=
  (bounded parser le).lastly room fun _ _ => rfl

/-! ### Expressions -/

/-- The readers of expressions leave as many levels open as they find.  Only the links of a chain
do not, and the reader of the chain makes up for it. -/
structure ExpressionsBalanced (fuel : Nat) : Prop where
  expression : Balanced (expression fuel)
  conditional : Balanced (conditional fuel)
  chain : ∀ levels, Balanced (chain fuel levels)
  links : ∀ level tighter left, Bounded (links fuel level tighter left)
  unary : Balanced (unary fuel)
  primary : Balanced (primary fuel)

section Expressions

variable (inner : ExpressionsBalanced fuel)

include inner

theorem balanced_expression : Balanced (expression (fuel + 1)) := by
  rw [expression]
  refine inner.conditional.bind fun target => (balanced_check _).bind fun found => ?_
  cases found with
  | none => exact balanced_pure _
  | some =>
    refine balanced_advance.bind fun equals => inner.expression.nested.bind fun value => ?_
    cases target with
    | «variable» => exact balanced_pure _
    | _ => exact balanced_fault _ _

theorem balanced_conditional : Balanced (conditional (fuel + 1)) := by
  rw [conditional]
  refine (inner.chain _).bind fun condition => (balanced_accept _).bind fun found => ?_
  cases found with
  | none => exact balanced_pure _
  | some =>
    refine Balanced.nested ?_
    refine inner.expression.bind fun thenBranch => (balanced_consume _ _).bind fun _ => ?_
    exact inner.conditional.map

theorem balanced_chain (levels : List Precedence) : Balanced (chain (fuel + 1) levels) := by
  cases levels with
  | nil => exact inner.unary
  | cons level tighter =>
    intro parser le
    -- What is gone back to is what was found in front of the first operand.
    change Closes _ ((chain fuel tighter >>= fun first =>
      keeping parser.depth (links fuel level tighter first)) parser)
    exact (inner.chain tighter parser le).bind (fun _ level => level) fun first after _ inside =>
      (inner.links level tighter first).keeping le inside

theorem bounded_links (level : Precedence) (tighter : List Precedence) (left : Expression) :
    Bounded (links (fuel + 1) level tighter left) := by
  rw [links]
  refine (balanced_accept _).bounded.bind fun found => ?_
  cases found with
  | none => exact (balanced_pure _).bounded
  | some op =>
    -- The level of this operator stays open for those behind it.
    refine bounded_enter.bind fun _ => (inner.chain tighter).bounded.bind fun right => ?_
    exact inner.links level tighter _

theorem balanced_unary : Balanced (unary (fuel + 1)) := by
  rw [unary]
  refine (balanced_accept _).bind fun found => ?_
  cases found with
  | none => exact inner.primary
  | some op => exact inner.unary.map.nested

theorem balanced_primary : Balanced (primary (fuel + 1)) := by
  rw [primary]
  refine (balanced_accept _).bind fun found => ?_
  cases found with
  | some value => exact balanced_pure _
  | none =>
    refine (balanced_check _).bind fun found => ?_
    cases found with
    | none => exact balanced_expected _
    | some =>
      refine Balanced.nested ?_
      refine balanced_advance.bind fun _ => inner.expression.bind fun _ => ?_
      exact (balanced_consume _ _).map

end Expressions

theorem expressionsBalanced (fuel : Nat) : ExpressionsBalanced fuel := by
  -- Without fuel nothing is read, and a reader hands less fuel to all that it calls.
  induction fuel with
  | zero =>
    exact {
      expression := balanced_outOfFuel
      conditional := balanced_outOfFuel
      chain := fun _ => balanced_outOfFuel
      links := fun _ _ _ => balanced_outOfFuel.bounded
      unary := balanced_outOfFuel
      primary := balanced_outOfFuel }
  | succ fuel inner =>
    exact {
      expression := balanced_expression inner
      conditional := balanced_conditional inner
      chain := balanced_chain inner
      links := bounded_links inner
      unary := balanced_unary inner
      primary := balanced_primary inner }

/-! ### The parts of statements -/

section Parts

variable (fuel : Nat)

theorem balanced_value : Balanced (expression fuel) :=
  (expressionsBalanced fuel).expression

theorem balanced_declared : Balanced (declared fuel) := by
  refine balanced_name.bind fun name => (balanced_accept _).bind fun found => ?_
  cases found with
  | none => exact balanced_pure _
  | some => exact (balanced_value fuel).map

theorem balanced_expressionStatement (place : Place) : Balanced (expressionStatement fuel place) :=
  (balanced_value fuel).bind fun _ => (balanced_consume _ _).map

theorem balanced_declarationStatement (place : Place) :
    Balanced (declarationStatement fuel place) :=
  (balanced_declared fuel).bind fun _ => (balanced_consume _ _).map

theorem balanced_condition (opened closed : Place) : Balanced (condition fuel opened closed) :=
  (balanced_consume _ _).bind fun _ => (balanced_value fuel).bind fun _ =>
    (balanced_consume _ _).map

theorem balanced_loopInitializer : Balanced (loopInitializer fuel) := by
  refine (balanced_accept _).bind fun found => ?_
  cases found with
  | some => exact balanced_pure _
  | none =>
    refine (balanced_accept _).bind fun found => ?_
    cases found with
    | some => exact (balanced_declarationStatement fuel _).map
    | none => exact (balanced_expressionStatement fuel _).map

theorem balanced_loopCondition : Balanced (loopCondition fuel) := by
  refine (balanced_check _).bind fun found => ?_
  cases found with
  | some => exact (balanced_consume _ _).map
  | none =>
    exact (balanced_value fuel).bind fun _ => (balanced_consume _ _).map

theorem balanced_loopIncrement : Balanced (loopIncrement fuel) := by
  refine (balanced_check _).bind fun found => ?_
  cases found with
  | some => exact (balanced_consume _ _).map
  | none =>
    exact (balanced_value fuel).bind fun _ => (balanced_consume _ _).map

theorem balanced_loopHead : Balanced (loopHead fuel) :=
  (balanced_consume _ _).bind fun _ => (balanced_loopInitializer fuel).bind fun _ =>
    (balanced_loopCondition fuel).bind fun _ => (balanced_loopIncrement fuel).map

theorem balanced_setBlock : Balanced (setBlock fuel) := by
  have value := balanced_value fuel
  refine (balanced_consume _ _).bind fun _ => value.bind fun x => ?_
  refine (balanced_consume _ _).bind fun _ => value.bind fun y => ?_
  refine (balanced_consume _ _).bind fun _ => value.bind fun z => ?_
  refine (balanced_consume _ _).bind fun _ => value.bind fun name => ?_
  exact (balanced_consume _ _).bind fun _ => (balanced_consume _ _).map

end Parts

/-! ### Statements -/

/-- The readers of statements leave as many levels open as they find. -/
structure StatementsBalanced (fuel : Nat) : Prop where
  declaration : Balanced (declaration fuel)
  statement : Balanced (statement fuel)
  listed : ∀ read, Balanced (listed fuel read)

section Statements

variable (inner : StatementsBalanced fuel)

include inner

theorem balanced_declaration : Balanced (declaration (fuel + 1)) := by
  rw [declaration]
  refine (balanced_accept _).bind fun found => ?_
  cases found with
  | some => exact balanced_declarationStatement fuel _
  | none => exact inner.statement

theorem balanced_statement : Balanced (statement (fuel + 1)) := by
  rw [statement]
  refine (balanced_check _).bind fun found => ?_
  cases found with
  | none => exact balanced_expressionStatement fuel _
  | some opening =>
    cases opening with
    | setBlock => exact balanced_advance.bind fun _ => balanced_setBlock fuel
    | block =>
      refine Balanced.nested (balanced_advance.bind fun _ => (inner.listed _).bind fun body => ?_)
      exact (balanced_consume _ _).map
    | branch =>
      refine Balanced.nested (balanced_advance.bind fun _ => ?_)
      refine (balanced_condition fuel _ _).bind fun test => inner.statement.bind fun first => ?_
      refine (balanced_accept _).bind fun found => ?_
      cases found with
      | none => exact balanced_pure _
      | some => exact inner.statement.map
    | conditionalLoop =>
      refine Balanced.nested (balanced_advance.bind fun _ => ?_)
      refine (balanced_condition fuel _ _).bind fun test => ?_
      exact inner.statement.map
    | countedLoop =>
      refine Balanced.nested (balanced_advance.bind fun _ => ?_)
      refine (balanced_loopHead fuel).bind fun head => ?_
      exact inner.statement.map

theorem balanced_listed (read : List Statement) : Balanced (listed (fuel + 1) read) := by
  rw [listed]
  refine (balanced_check _).bind fun found => ?_
  cases found with
  | some => exact balanced_pure _
  | none =>
    refine balanced_peek.bind fun kind => ?_
    split
    · exact balanced_pure _
    · exact inner.declaration.bind fun item => inner.listed _

end Statements

theorem statementsBalanced (fuel : Nat) : StatementsBalanced fuel := by
  induction fuel with
  | zero =>
    exact {
      declaration := balanced_outOfFuel
      statement := balanced_outOfFuel
      listed := fun _ => balanced_outOfFuel }
  | succ fuel inner =>
    exact {
      declaration := balanced_declaration inner
      statement := balanced_statement inner
      listed := balanced_listed inner }

theorem balanced_program (fuel : Nat) (read : List Statement) : Balanced (program fuel read) := by
  induction fuel generalizing read with
  | zero => exact balanced_outOfFuel
  | succ fuel ih =>
    rw [program]
    refine balanced_peek.bind fun kind => ?_
    split
    · exact balanced_pure _
    · exact (statementsBalanced fuel).declaration.bind fun item => ih _

end Parser

/-! ### The readers of both forms -/

/-- The readers that a parser is made of. -/
inductive Reader : Type → Type where
  | declaration : Reader Statement
  | statement : Reader Statement
  | listed (read : List Statement) : Reader (List Statement)
  | declared : Reader Statement
  | declarationStatement (place : Place) : Reader Statement
  | expressionStatement (place : Place) : Reader Statement
  | condition (opened closed : Place) : Reader Expression
  | loopInitializer : Reader (Option Statement)
  | loopCondition : Reader Expression
  | loopIncrement : Reader (Option Expression)
  | loopHead : Reader LoopHead
  | setBlock : Reader Statement
  | expression : Reader Expression
  | conditional : Reader Expression
  | chain (levels : List Precedence) : Reader Expression
  | unary : Reader Expression
  | primary : Reader Expression

namespace Reader

variable {α : Type}

/-- What is behind a cursor is within a bound that is greater by one. -/
theorem fits (start : Cursor) : start.rest.length < start.rest.length + 1 :=
  Nat.lt_succ_self _

/-- Where a reader that takes tokens off a list gets to, whether it has a value there or fails. -/
def reached (reader : Reader α) (start : Cursor) : Cursor :=
  match reader with
  | .declaration => start.declaration.next
  | .statement => start.statement.next
  | .listed read => (Cursor.listed _ read start (fits start)).next
  | .declared => start.declared.next
  | .declarationStatement place => (start.declarationStatement place).next
  | .expressionStatement place => (start.expressionStatement place).next
  | .condition opened closed => (start.condition opened closed).next
  | .loopInitializer => start.loopInitializer.next
  | .loopCondition => start.loopCondition.next
  | .loopIncrement => start.loopIncrement.next
  | .loopHead => start.loopHead.next
  | .setBlock => start.setBlock.next
  | .expression => start.expression.next
  | .conditional => start.conditional.next
  | .chain levels => (start.chain levels).next
  | .unary => start.unary.next
  | .primary => start.primary.next

/-- The reader that keeps its place by number. -/
def parse (reader : Reader α) (fuel : Nat) : Parse α :=
  match reader with
  | .declaration => Parser.declaration fuel
  | .statement => Parser.statement fuel
  | .listed read => Parser.listed fuel read
  | .declared => Parser.declared fuel
  | .declarationStatement place => Parser.declarationStatement fuel place
  | .expressionStatement place => Parser.expressionStatement fuel place
  | .condition opened closed => Parser.condition fuel opened closed
  | .loopInitializer => Parser.loopInitializer fuel
  | .loopCondition => Parser.loopCondition fuel
  | .loopIncrement => Parser.loopIncrement fuel
  | .loopHead => Parser.loopHead fuel
  | .setBlock => Parser.setBlock fuel
  | .expression => Parser.expression fuel
  | .conditional => Parser.conditional fuel
  | .chain levels => Parser.chain fuel levels
  | .unary => Parser.unary fuel
  | .primary => Parser.primary fuel

theorem beside_reached (reader : Reader α) (start : Cursor) :
    start.Beside (reader.reached start) := by
  have expressions := start.expressionsStay
  have statements := start.statementsStay
  cases reader with
  | listed read => exact statements.listed _ _
  | declaration => exact statements.declaration
  | statement => exact statements.statement
  | declared => exact start.beside_declared
  | declarationStatement place => exact start.beside_declarationStatement place
  | expressionStatement place => exact start.beside_expressionStatement place
  | condition opened closed => exact start.beside_condition opened closed
  | loopInitializer => exact start.beside_loopInitializer
  | loopCondition => exact start.beside_loopCondition
  | loopIncrement => exact start.beside_loopIncrement
  | loopHead => exact start.beside_loopHead
  | setBlock => exact start.beside_setBlock
  | expression => exact expressions.expression
  | conditional => exact expressions.conditional
  | chain levels => exact expressions.chain levels
  | unary => exact expressions.unary
  | primary => exact expressions.primary

theorem balanced_parse (reader : Reader α) (fuel : Nat) : Parser.Balanced (reader.parse fuel) := by
  have expressions := Parser.expressionsBalanced fuel
  have statements := Parser.statementsBalanced fuel
  cases reader with
  | declaration => exact statements.declaration
  | statement => exact statements.statement
  | listed read => exact statements.listed read
  | declared => exact Parser.balanced_declared fuel
  | declarationStatement place => exact Parser.balanced_declarationStatement fuel place
  | expressionStatement place => exact Parser.balanced_expressionStatement fuel place
  | condition opened closed => exact Parser.balanced_condition fuel opened closed
  | loopInitializer => exact Parser.balanced_loopInitializer fuel
  | loopCondition => exact Parser.balanced_loopCondition fuel
  | loopIncrement => exact Parser.balanced_loopIncrement fuel
  | loopHead => exact Parser.balanced_loopHead fuel
  | setBlock => exact Parser.balanced_setBlock fuel
  | expression => exact expressions.expression
  | conditional => exact expressions.conditional
  | chain levels => exact expressions.chain levels
  | unary => exact expressions.unary
  | primary => exact expressions.primary

end Reader

/-! ### All readers -/

/-- What it means that readers balance the levels that they open and close. -/
structure LevelsBalance : Prop where
  /-- A reader that takes tokens off a list ends on the level that it starts on. -/
  reached : ∀ {α : Type} (reader : Reader α) (start : Cursor), start.Beside (reader.reached start)
  /-- So does a parser that counts levels, from whatever token on.  It never counts more of them than
  may be: the row of kinds may end at any token, which is where the run is cut off then. -/
  counted : ∀ {α : Type} (reader : Reader α) (fuel : Nat), Parser.Balanced (reader.parse fuel)
  program : ∀ fuel read, Parser.Balanced (Parser.program fuel read)
  /-- Statements that are listed one after the other all start on one level. -/
  siblings : ∀ start items last, Cursor.Declares start items last → start.Beside last
  /-- What is listed inside a block is rejected because of a statement that is, on that level. -/
  listed : ∀ {bound : Nat} read (start : Cursor) (fits : start.rest.length < bound) error next,
    Cursor.listed bound read start fits = .error error next → ∃ items last,
      start.Declares items last ∧ last.declaration = .error error next
  /-- Behind declarations a program is read as if there were no others in front of it. -/
  behind : ∀ tokens items last, (Cursor.ofTokens tokens).Declares items last →
    Program.ofTokens tokens = (Program.ofTokens last.remaining).map fun others =>
      ⟨items ++ others.statements⟩
  /-- A list of tokens is rejected because of a declaration that would be rejected alone. -/
  rejected : ∀ tokens error, Program.ofTokens tokens = .error error → ∃ items last next,
    (Cursor.ofTokens tokens).Declares items last ∧ last.declaration = .error error next ∧
      Program.ofTokens last.remaining = .error error

/-- Every reader closes the levels that it opens, whether it has a value or not, and there are never
more of them than may be.  So nothing is too deep because of what has been closed in front of it. -/
theorem levels_are_balanced : LevelsBalance := by
  have alone {tokens items last} (declares : (Cursor.ofTokens tokens).Declares items last) :
      Program.ofTokens last.remaining = Cursor.program [] last := by
    rw [Program.ofTokens, declares.ofTokens_remaining]
  -- The last two say of programs what is said of cursors: the tokens that are left are a list too.
  refine ⟨Reader.beside_reached, Reader.balanced_parse, Parser.balanced_program,
    fun _ _ _ declares => declares.beside, fun _ _ _ _ _ => Cursor.exists_of_listed_error, ?_, ?_⟩
  · intro tokens items last declares
    rw [alone declares, ← declares.program_eq, Program.ofTokens]
  · intro tokens error rejected
    obtain ⟨items, last, next, declares, goes, fails⟩ := Cursor.exists_of_program_error rejected
    refine ⟨items, last, next, declares, fails, ?_⟩
    rw [alone declares, Cursor.program, if_neg goes, fails]

set_option maxRecDepth 8000 in
/-- A block that is closed, and behind it more operators than may be nested; and a parser that has
as many levels open as may be. -/
theorem levels_are_balanced_of_operators :
    let block : List Token :=
      [⟨.symbol .leftBrace, "\x7b", ⟨1, 1⟩⟩, ⟨.symbol .rightBrace, "\x7d", ⟨1, 2⟩⟩]
    let operators : List Token := List.replicate 129 ⟨.symbol .bang, "!", ⟨2, 1⟩⟩
    let last : Cursor := ⟨operators, ⟨2, 2⟩, 0, Nat.zero_le _⟩
    let full : Parser := ⟨[.symbol .bang], 0, maxNesting⟩
    let error : SyntaxError := ⟨⟨2, 2⟩, .tooDeep⟩
    (Cursor.ofTokens (block ++ operators)).Declares [.block []] last ∧
      (Cursor.ofTokens (block ++ operators)).Beside last ∧
      Program.ofTokens (block ++ operators) = .error error ∧
      Program.ofTokens (block ++ operators) = (Program.ofTokens last.remaining).map (fun others =>
        ⟨[.block []] ++ others.statements⟩) ∧
      (∃ items last next, (Cursor.ofTokens (block ++ operators)).Declares items last ∧
        last.declaration = .error error next ∧ Program.ofTokens last.remaining = .error error) ∧
      (∃ items here, last.Declares items here ∧
        here.declaration = .error error ⟨[], ⟨2, 2⟩, 0, Nat.zero_le _⟩) ∧
      Parser.Closes (· = maxNesting) (Parser.unary 1 full) := by
  intro block operators last full error
  have declares : (Cursor.ofTokens (block ++ operators)).Declares [.block []] last :=
    .cons (by decide) ⟨by decide, by cbv⟩ (.nil last)
  have rejected : Program.ofTokens (block ++ operators) = .error error := by cbv
  have inside : Cursor.listed 130 [] last (by decide) =
      .error error ⟨[], ⟨2, 2⟩, 0, Nat.zero_le _⟩ := by cbv
  exact ⟨declares, levels_are_balanced.siblings _ _ last declares, rejected,
    levels_are_balanced.behind _ _ last declares, levels_are_balanced.rejected _ _ rejected,
    levels_are_balanced.listed _ last _ _ _ inside,
    levels_are_balanced.counted .unary 1 full (Nat.le_refl _)⟩

end BlockScript
