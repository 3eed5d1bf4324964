import BlockScript.Proofs.Grammar.Statements

/-!
# Every sentence is read

The other direction for statements, and with it the two directions for programs: the reader accepts
the rows of tokens that the grammar derives with room for their levels, and builds the tree that the
grammar says.

A reader looks at one token to choose its way, so what has to be known of a row is how it begins.
-/

namespace BlockScript

/-! ### How phrases and sentences begin -/

/-- A token that may begin an expression. -/
def TokenKind.starts : TokenKind → Bool
  | .number _ | .string _ | .identifier _ => true
  | .keyword .true | .keyword .false | .keyword .nil => true
  | .symbol .minus | .symbol .bang | .symbol .leftParen => true
  | _ => false

theorem Phrase.starts {rank source value} (phrase : Phrase rank source value) :
    ∃ kind tail, source = kind :: tail ∧ kind.starts = true := by
  induction phrase with
  | assign _ _ => exact ⟨_, _, rfl, rfl⟩
  | ofConditional _ inner | ofOperators _ inner | ofOperand _ inner | ofPrimary _ inner =>
    exact inner
  | conditional _ _ _ inner _ _ | binary _ _ _ inner _ =>
    obtain ⟨kind, tail, rfl, starts⟩ := inner
    exact ⟨kind, _, rfl, starts⟩
  | @unary op _ _ _ _ =>
    refine ⟨_, _, rfl, ?_⟩
    cases op <;> rfl
  | atom token =>
    refine ⟨_, _, rfl, ?_⟩
    unfold Expression.token? at token
    split at token <;> cases token <;> rfl
  | grouping _ _ => exact ⟨_, _, rfl, rfl⟩

theorem Phrase.noEnd {rank source value} (phrase : Phrase rank source value) :
    .eof ∉ source := by
  induction phrase with
  | assign _ inner | unary _ inner | grouping _ inner => simpa using inner
  | ofConditional _ inner | ofOperators _ inner | ofOperand _ inner | ofPrimary _ inner =>
    exact inner
  | conditional _ _ _ first second third => simp [first, second, third]
  | binary _ _ _ first second => simp [first, second]
  | @atom kind value token =>
    intro member
    obtain rfl := List.mem_singleton.mp member
    unfold Expression.token? at token
    split at token <;> cases token

/-- A token that may begin a sentence. -/
def Form.begins (form : Form) : TokenKind → Bool
  | .keyword .let => form = .item
  | .symbol .leftBrace | .keyword .if | .keyword .while | .keyword .for | .keyword .setBlock => true
  | kind => kind.starts

theorem Form.begins_of_starts {form : Form} {kind : TokenKind} (starts : kind.starts = true) :
    form.begins kind = true := by
  unfold Form.begins
  split
  · cases starts
  all_goals first | rfl | exact starts

theorem Declaration.begins {room source given} (declaration : Declaration room source given) :
    ∃ tail, source = .keyword .let :: tail := by
  cases declaration <;> exact ⟨_, rfl⟩

theorem Sentence.begins {form room source statement}
    (sentence : Sentence form room source statement) :
    ∃ kind tail, source = kind :: tail ∧ form.begins kind = true := by
  induction sentence with
  | declaration declared =>
    obtain ⟨tail, rfl⟩ := declared.begins
    exact ⟨_, _, rfl, rfl⟩
  | ofStatement _ inner =>
    obtain ⟨kind, tail, rfl, begins⟩ := inner
    refine ⟨kind, tail, rfl, ?_⟩
    unfold Form.begins at begins ⊢
    split at begins <;> first | rfl | exact begins
  | expression within =>
    obtain ⟨kind, tail, rfl, starts⟩ := within.1.starts
    exact ⟨kind, _, rfl, Form.begins_of_starts starts⟩
  | _ => exact ⟨_, _, rfl, rfl⟩

/-- What begins with one token does not begin with another. -/
theorem head_ne_of_begins {form : Form} {source rest : List TokenKind} {other : TokenKind}
    (begins : ∃ kind tail, source = kind :: tail ∧ form.begins kind = true)
    (not_begins : form.begins other = false) : other ∉ (source ++ rest).head? := by
  obtain ⟨kind, tail, rfl, begins⟩ := begins
  rintro ⟨⟩
  rw [begins] at not_begins
  cases not_begins

namespace Cursor

open Outcome

variable {room : Nat} {start : Cursor} {source rest : List TokenKind}

theorem lacks_of_starts {kind : TokenKind} {value : Expression}
    (within : Phrase.Within room source value) (kinds : start.kinds = source ++ rest)
    (not_starts : kind.starts = false) : start.Lacks (TokenKind.exactly kind) := by
  obtain ⟨first, tail, rfl, starts⟩ := within.1.starts
  rw [lacks_exactly, kinds]
  rintro ⟨⟩
  rw [starts] at not_starts
  cases not_starts

/-! ### The parts of statements -/

theorem symbol_of_kinds {mark : Symbol} (place : Place)
    (kinds : start.kinds = .symbol mark :: rest) :
    (symbol start mark place).Leaves () rest start.depth := by
  obtain ⟨last, takes, behind, depth⟩ := takes_exactly kinds
  exact ⟨last, symbol_gives.mpr takes, behind, depth⟩

theorem declared_of_declaration {given : Statement}
    (declaration : Declaration room (.keyword .let :: source) given)
    (kinds : start.kinds = source ++ .symbol .semicolon :: rest)
    (levels : start.depth + room = maxNesting) :
    (declared start).Leaves given (.symbol .semicolon :: rest) start.depth := by
  cases declaration with
  | plain =>
    obtain ⟨behind, named, behindKinds, depth⟩ := takes_of_kinds kinds (name?_eq_some.mpr rfl)
    refine ⟨behind, andThen_gives.mpr ⟨_, behind, take_gives.mpr named, ?_⟩, behindKinds, depth⟩
    have lacks : behind.Lacks (TokenKind.exactly (.symbol .equal)) := by
      rw [lacks_exactly, behindKinds]
      nofun
    rw [take?_eq_none_iff.mpr lacks]
    exact ok_gives.mpr ⟨rfl, rfl⟩
  | @initialized name _ value within =>
    obtain ⟨behind, named, behindKinds, depth⟩ := takes_of_kinds kinds (name?_eq_some.mpr rfl)
    obtain ⟨after, takes, afterKinds, afterDepth⟩ := takes_exactly behindKinds
    obtain ⟨last, reads, lastKinds, lastDepth⟩ :=
      expression_of_within within afterKinds (by omega) (by decide)
    refine ⟨last, andThen_gives.mpr ⟨_, behind, take_gives.mpr named, ?_⟩, lastKinds, by omega⟩
    rw [takes.2]
    exact andThen_gives.mpr ⟨value, last, reads, ok_gives.mpr ⟨rfl, rfl⟩⟩

theorem declarationStatement_of_declaration {given : Statement} (place : Place)
    (declaration : Declaration room (.keyword .let :: source) given)
    (kinds : start.kinds = source ++ .symbol .semicolon :: rest)
    (levels : start.depth + room = maxNesting) :
    (declarationStatement start place).Leaves given rest start.depth := by
  obtain ⟨behind, reads, behindKinds, depth⟩ := declared_of_declaration declaration kinds levels
  obtain ⟨last, closed, lastKinds, lastDepth⟩ := symbol_of_kinds place behindKinds
  refine ⟨last, ?_, lastKinds, by omega⟩
  refine andThen_gives.mpr ⟨given, behind, reads, ?_⟩
  exact andThen_gives.mpr ⟨(), last, closed, ok_gives.mpr ⟨rfl, rfl⟩⟩

theorem expressionStatement_of_within {value : Expression} (place : Place)
    (within : Phrase.Within room source value)
    (kinds : start.kinds = source ++ .symbol .semicolon :: rest)
    (levels : start.depth + room = maxNesting) :
    (expressionStatement start place).Leaves (.expression value) rest start.depth := by
  obtain ⟨behind, reads, behindKinds, depth⟩ :=
    expression_of_within within kinds levels (by decide)
  obtain ⟨last, closed, lastKinds, lastDepth⟩ := symbol_of_kinds place behindKinds
  refine ⟨last, ?_, lastKinds, by omega⟩
  refine andThen_gives.mpr ⟨value, behind, reads, ?_⟩
  exact andThen_gives.mpr ⟨(), last, closed, ok_gives.mpr ⟨rfl, rfl⟩⟩

theorem condition_of_within {value : Expression} (opened closed : Place)
    (within : Phrase.Within room source value)
    (kinds : start.kinds = .symbol .leftParen :: (source ++ .symbol .rightParen :: rest))
    (levels : start.depth + room = maxNesting) :
    (condition start opened closed).Leaves value rest start.depth := by
  obtain ⟨after, opening, afterKinds, afterDepth⟩ := symbol_of_kinds opened kinds
  obtain ⟨behind, reads, behindKinds, behindDepth⟩ :=
    expression_of_within within afterKinds (by omega) (by decide)
  obtain ⟨last, closing, lastKinds, lastDepth⟩ := symbol_of_kinds closed behindKinds
  refine ⟨last, ?_, lastKinds, by omega⟩
  refine andThen_gives.mpr ⟨(), after, opening, ?_⟩
  refine andThen_gives.mpr ⟨value, behind, reads, ?_⟩
  exact andThen_gives.mpr ⟨(), last, closing, ok_gives.mpr ⟨rfl, rfl⟩⟩

theorem loopInitializer_of_loopStart {initializer : Option Statement}
    (clause : LoopStart room source initializer)
    (kinds : start.kinds = source ++ .symbol .semicolon :: rest)
    (levels : start.depth + room = maxNesting) :
    (loopInitializer start).Leaves initializer rest start.depth := by
  unfold loopInitializer
  cases clause with
  | absent =>
    obtain ⟨last, takes, lastKinds, depth⟩ := takes_exactly kinds
    refine ⟨last, ?_, lastKinds, depth⟩
    rw [takes.2]
    exact ok_gives.mpr ⟨rfl, rfl⟩
  | @declaration _ given declared =>
    -- Its first word is no semicolon, so the initializer is not taken for a missing one.
    obtain ⟨tail, rfl⟩ := declared.begins
    have noSemicolon : start.Lacks (TokenKind.exactly (.symbol .semicolon)) := by
      rw [lacks_exactly, kinds]
      nofun
    obtain ⟨after, takes, afterKinds, afterDepth⟩ := takes_exactly kinds
    obtain ⟨last, reads, lastKinds, lastDepth⟩ :=
      declarationStatement_of_declaration .afterLoopInitializer declared afterKinds (by omega)
    refine ⟨last, ?_, lastKinds, by omega⟩
    rw [take?_eq_none_iff.mpr noSemicolon, takes.2]
    exact within_gives.mpr (map_gives.mpr ⟨given, reads, rfl⟩)
  | @expression _ value within =>
    obtain ⟨last, reads, lastKinds, depth⟩ :=
      expressionStatement_of_within .afterLoopInitializer within kinds levels
    refine ⟨last, ?_, lastKinds, depth⟩
    -- An expression begins neither with a semicolon nor with the word of a declaration.
    rw [take?_eq_none_iff.mpr (lacks_of_starts within kinds rfl),
      take?_eq_none_iff.mpr (lacks_of_starts within kinds rfl)]
    exact map_gives.mpr ⟨_, reads, rfl⟩

theorem loopCondition_of_loopTest {test : Expression} (clause : LoopTest room source test)
    (kinds : start.kinds = source ++ .symbol .semicolon :: rest)
    (levels : start.depth + room = maxNesting) :
    (loopCondition start).Leaves test rest start.depth := by
  unfold loopCondition
  cases clause with
  | absent =>
    obtain ⟨last, takes, lastKinds, depth⟩ := takes_exactly kinds
    refine ⟨last, ?_, lastKinds, depth⟩
    rw [takes.2]
    exact ok_gives.mpr ⟨rfl, rfl⟩
  | expression within =>
    obtain ⟨behind, reads, behindKinds, depth⟩ :=
      expression_of_within within kinds levels (by decide)
    obtain ⟨last, closed, lastKinds, lastDepth⟩ :=
      symbol_of_kinds .afterLoopCondition behindKinds
    refine ⟨last, ?_, lastKinds, by omega⟩
    rw [take?_eq_none_iff.mpr (lacks_of_starts within kinds rfl)]
    refine andThen_gives.mpr ⟨test, behind, reads, ?_⟩
    exact andThen_gives.mpr ⟨(), last, closed, ok_gives.mpr ⟨rfl, rfl⟩⟩

theorem loopIncrement_of_loopUpdate {update : Option Statement}
    (clause : LoopUpdate room source update)
    (kinds : start.kinds = source ++ .symbol .rightParen :: rest)
    (levels : start.depth + room = maxNesting) :
    ∃ increment, update = increment.map .expression ∧
      (loopIncrement start).Leaves increment rest start.depth := by
  unfold loopIncrement
  cases clause with
  | absent =>
    obtain ⟨last, takes, lastKinds, depth⟩ := takes_exactly kinds
    refine ⟨none, rfl, last, ?_, lastKinds, depth⟩
    rw [takes.2]
    exact ok_gives.mpr ⟨rfl, rfl⟩
  | @expression _ value within =>
    obtain ⟨behind, reads, behindKinds, depth⟩ :=
      expression_of_within within kinds levels (by decide)
    obtain ⟨last, closed, lastKinds, lastDepth⟩ := symbol_of_kinds .afterForClauses behindKinds
    refine ⟨some value, rfl, last, ?_, lastKinds, by omega⟩
    rw [take?_eq_none_iff.mpr (lacks_of_starts within kinds rfl)]
    refine andThen_gives.mpr ⟨value, behind, reads, ?_⟩
    exact andThen_gives.mpr ⟨(), last, closed, ok_gives.mpr ⟨rfl, rfl⟩⟩

theorem loopHead_of_clauses {first second third : List TokenKind}
    {initializer update : Option Statement} {test : Expression}
    (loopStart : LoopStart room first initializer) (loopTest : LoopTest room second test)
    (loopUpdate : LoopUpdate room third update)
    (kinds : start.kinds = .symbol .leftParen :: (first ++ .symbol .semicolon ::
      (second ++ .symbol .semicolon :: (third ++ .symbol .rightParen :: rest))))
    (levels : start.depth + room = maxNesting) :
    ∃ increment, update = increment.map .expression ∧
      (loopHead start).Leaves ⟨initializer, test, increment⟩ rest start.depth := by
  obtain ⟨after, opening, afterKinds, afterDepth⟩ := symbol_of_kinds .afterFor kinds
  obtain ⟨behindStart, readsStart, startKinds, startDepth⟩ :=
    loopInitializer_of_loopStart loopStart afterKinds (by omega)
  obtain ⟨behindTest, readsTest, testKinds, testDepth⟩ :=
    loopCondition_of_loopTest loopTest startKinds (by omega)
  obtain ⟨increment, same, last, readsUpdate, lastKinds, lastDepth⟩ :=
    loopIncrement_of_loopUpdate loopUpdate testKinds (by omega)
  refine ⟨increment, same, last, ?_, lastKinds, by omega⟩
  refine andThen_gives.mpr ⟨(), after, opening, ?_⟩
  refine andThen_gives.mpr ⟨initializer, behindStart, readsStart, ?_⟩
  refine andThen_gives.mpr ⟨test, behindTest, readsTest, ?_⟩
  exact andThen_gives.mpr ⟨increment, last, readsUpdate, ok_gives.mpr ⟨rfl, rfl⟩⟩

theorem setBlock_of_within {first second third fourth : List TokenKind} {x y z name : Expression}
    (withinX : Phrase.Within room first x) (withinY : Phrase.Within room second y)
    (withinZ : Phrase.Within room third z) (withinName : Phrase.Within room fourth name)
    (kinds : start.kinds = .symbol .leftParen :: (first ++ .symbol .comma :: (second ++
      .symbol .comma :: (third ++ .symbol .comma :: (fourth ++ .symbol .rightParen ::
        .symbol .semicolon :: rest)))))
    (levels : start.depth + room = maxNesting) :
    (setBlock start).Leaves (.setBlock x y z name) rest start.depth := by
  obtain ⟨startX, opening, startXKinds, startXDepth⟩ := symbol_of_kinds .afterSetBlock kinds
  obtain ⟨behindX, readsX, behindXKinds, behindXDepth⟩ :=
    expression_of_within withinX startXKinds (by omega) (by decide)
  obtain ⟨startY, commaX, startYKinds, startYDepth⟩ := symbol_of_kinds .afterX behindXKinds
  obtain ⟨behindY, readsY, behindYKinds, behindYDepth⟩ :=
    expression_of_within withinY startYKinds (by omega) (by decide)
  obtain ⟨startZ, commaY, startZKinds, startZDepth⟩ := symbol_of_kinds .afterY behindYKinds
  obtain ⟨behindZ, readsZ, behindZKinds, behindZDepth⟩ :=
    expression_of_within withinZ startZKinds (by omega) (by decide)
  obtain ⟨startName, commaZ, nameKinds, nameDepth⟩ := symbol_of_kinds .afterZ behindZKinds
  obtain ⟨behindName, readsName, behindNameKinds, behindNameDepth⟩ :=
    expression_of_within withinName nameKinds (by omega) (by decide)
  obtain ⟨behindCall, closing, callKinds, callDepth⟩ :=
    symbol_of_kinds .afterSetBlockArguments behindNameKinds
  obtain ⟨last, closed, lastKinds, lastDepth⟩ := symbol_of_kinds .afterSetBlockCall callKinds
  -- Every part is read where the one before it ends; put together they are the whole.
  refine ⟨last, ?_, lastKinds, by omega⟩
  refine andThen_gives.mpr ⟨(), startX, opening, ?_⟩
  refine andThen_gives.mpr ⟨x, behindX, readsX, ?_⟩
  refine andThen_gives.mpr ⟨(), startY, commaX, ?_⟩
  refine andThen_gives.mpr ⟨y, behindY, readsY, ?_⟩
  refine andThen_gives.mpr ⟨(), startZ, commaY, ?_⟩
  refine andThen_gives.mpr ⟨z, behindZ, readsZ, ?_⟩
  refine andThen_gives.mpr ⟨(), startName, commaZ, ?_⟩
  refine andThen_gives.mpr ⟨name, behindName, readsName, ?_⟩
  refine andThen_gives.mpr ⟨(), behindCall, closing, ?_⟩
  exact andThen_gives.mpr ⟨(), last, closed, ok_gives.mpr ⟨rfl, rfl⟩⟩

/-! ### Sentences -/

/-- A row of tokens is read as a sentence of a form wherever there is room for the levels that it
opens and no `else` stands behind it that would belong to it. -/
def SentenceReadable : Form → Nat → List TokenKind → Statement → Prop
  | .item, room, source, given =>
    ∀ ⦃start : Cursor⦄ ⦃rest : List TokenKind⦄, start.kinds = source ++ rest →
      start.depth + room = maxNesting → .keyword .else ∉ rest.head? →
        (declaration start).Leaves given rest start.depth
  | .statement opens, room, source, given =>
    ∀ ⦃start : Cursor⦄ ⦃rest : List TokenKind⦄, start.kinds = source ++ rest →
      start.depth + room = maxNesting → (opens = true → .keyword .else ∉ rest.head?) →
        (statement start).Leaves given rest start.depth

/-- No `else` stands behind an item of a list: the next item begins with another token. -/
theorem noElse_of_items {items : List (List TokenKind × Statement)}
    (sentences : ∀ item ∈ items, Sentence .item room item.1 item.2)
    (noElse : .keyword .else ∉ rest.head?) :
    .keyword .else ∉ (items.flatMap (·.1) ++ rest).head? := by
  cases items with
  | nil => exact noElse
  | cons item items =>
    rw [List.flatMap_cons, List.append_assoc]
    exact head_ne_of_begins (sentences item List.mem_cons_self).begins rfl

theorem listed_of_items {items : List (List TokenKind × Statement)} {bound : Nat}
    (sentences : ∀ item ∈ items, Sentence .item room item.1 item.2)
    (readable : ∀ item ∈ items, SentenceReadable .item room item.1 item.2) :
    ∀ {start : Cursor} (read : List Statement) (fits : start.rest.length < bound),
      start.kinds = items.flatMap (·.1) ++ .symbol .rightBrace :: rest →
        start.depth + room = maxNesting →
          (listed bound read start fits).Leaves (read.reverse ++ items.map (·.2))
            (.symbol .rightBrace :: rest) start.depth := by
  induction items with
  | nil =>
    intro start read fits kinds levels
    refine ⟨start, listed_gives.mpr (.inl ⟨.inl ?_, by simp, rfl⟩), kinds, rfl⟩
    rw [kind_eq_head, kinds]
    rfl
  | cons item items tail =>
    intro start read fits kinds levels
    have sentence := sentences item List.mem_cons_self
    have others (other : List TokenKind × Statement) (member : other ∈ items) :
        Sentence .item room other.1 other.2 := sentences other (List.mem_cons_of_mem _ member)
    rw [List.flatMap_cons, List.append_assoc] at kinds
    obtain ⟨next, declared, nextKinds, nextDepth⟩ :=
      readable item List.mem_cons_self kinds levels (noElse_of_items others nofun)
    -- No item begins with what would end the list.
    have goes : ¬ (start.kind = .symbol .rightBrace ∨ start.kind = .eof) := by
      obtain ⟨kind, _, source, begins⟩ := sentence.begins
      rw [kind_eq_head, kinds, source]
      rintro (rfl | rfl) <;> cases begins
    have behind : next.rest.length < bound := Nat.lt_trans declared.shorter fits
    obtain ⟨last, reads, lastKinds, lastDepth⟩ :=
      tail others (fun other member => readable other (List.mem_cons_of_mem _ member))
        (item.2 :: read) behind nextKinds (by omega)
    have reads : (listed bound (item.2 :: read) next behind).Gives
        (read.reverse ++ (item :: items).map (·.2)) last := by simpa using reads
    exact ⟨last, listed_gives.mpr (.inr ⟨goes, item.2, next, behind, declared, reads⟩), lastKinds,
      by omega⟩

theorem opening_of_kinds (opening : Opening) (kinds : start.kinds = opening.mark :: rest) :
    ∃ after, start.Takes Opening.ofToken? opening after ∧ after.kinds = rest ∧
      after.depth = start.depth :=
  takes_of_kinds kinds (opening_ofToken?_eq_some.mpr rfl)

/-- A level is opened behind the token of an opening, as there is room for it. -/
theorem deeper_of_kinds (opening : Opening) (kinds : start.kinds = opening.mark :: rest)
    (levels : start.depth + (room + 1) = maxNesting) :
    ∃ after, start.Takes Opening.ofToken? opening after ∧ ∃ full : after.depth < maxNesting,
      (after.deeper full).kinds = rest ∧ (after.deeper full).depth + room = maxNesting := by
  obtain ⟨after, takes, afterKinds, depth⟩ := opening_of_kinds opening kinds
  have full : after.depth < maxNesting := by omega
  refine ⟨after, takes, full, (kinds_deeper full).trans afterKinds, ?_⟩
  rw [depth_deeper]
  omega

/-- Branches and loops read a condition on the level that they open. -/
theorem deeper_condition_of_within {value : Expression} (opening : Opening) (opened closed : Place)
    (within : Phrase.Within room source value)
    (kinds : start.kinds =
      opening.mark :: .symbol .leftParen :: (source ++ .symbol .rightParen :: rest))
    (levels : start.depth + (room + 1) = maxNesting) :
    ∃ after, start.Takes Opening.ofToken? opening after ∧ ∃ full first,
      (condition (after.deeper full) opened closed).Gives value first ∧ first.kinds = rest ∧
        first.depth + room = maxNesting := by
  obtain ⟨after, takes, full, afterKinds, innerLevels⟩ := deeper_of_kinds opening kinds levels
  obtain ⟨first, reads, firstKinds, firstDepth⟩ :=
    condition_of_within opened closed within afterKinds innerLevels
  exact ⟨after, takes, full, first, reads, firstKinds, by rw [firstDepth]; exact innerLevels⟩

/-- A statement that has opened a level leaves it behind its last token. -/
theorem leaves_of_leave {given : Statement} {next : Cursor}
    (gives : (statement start).Gives given next.leave) (kinds : next.kinds = rest)
    (levels : start.depth + (room + 1) = maxNesting)
    (innerLevels : next.depth + room = maxNesting) :
    (statement start).Leaves given rest start.depth := by
  refine ⟨next.leave, gives, kinds, ?_⟩
  rw [depth_leave]
  omega

theorem lacks_opening {value : Expression} (within : Phrase.Within room source value)
    (kinds : start.kinds = source ++ rest) : start.Lacks Opening.ofToken? := by
  obtain ⟨kind, tail, rfl, starts⟩ := within.1.starts
  unfold Lacks
  rw [kinds]
  rintro _ ⟨⟩
  cases found : Opening.ofToken? kind with
  | none => rfl
  | some opening =>
    obtain rfl := opening_ofToken?_eq_some.mp found
    -- None of the words and braces that open a statement begins an expression.
    cases opening <;> cases starts

section Readable

variable {first second third : List TokenKind} {opens : Bool} {value : Expression}
  {given thenBranch elseBranch body : Statement}

theorem readable_declaration (declared : Declaration room source given) :
    SentenceReadable .item room (source ++ [.symbol .semicolon]) given := by
  intro start rest kinds levels _
  obtain ⟨tail, rfl⟩ := declared.begins
  rw [List.append_assoc] at kinds
  obtain ⟨after, takes, afterKinds, afterDepth⟩ := takes_exactly kinds
  obtain ⟨last, reads, lastKinds, lastDepth⟩ :=
    declarationStatement_of_declaration .afterDeclaration declared afterKinds (by omega)
  refine ⟨last, ?_, lastKinds, by omega⟩
  rw [declaration, takes.2]
  exact within_gives.mpr reads

theorem readable_ofStatement (sentence : Sentence (.statement opens) room source given)
    (readable : SentenceReadable (.statement opens) room source given) :
    SentenceReadable .item room source given := by
  intro start rest kinds levels noElse
  obtain ⟨last, reads, lastKinds, depth⟩ := readable kinds levels fun _ => noElse
  refine ⟨last, ?_, lastKinds, depth⟩
  -- No statement begins like a declaration.
  have noLet : start.Lacks (TokenKind.exactly (.keyword .let)) := by
    rw [lacks_exactly, kinds]
    exact head_ne_of_begins sentence.begins rfl
  rw [declaration, take?_eq_none_iff.mpr noLet]
  exact reads

theorem readable_expression (within : Phrase.Within room source value) :
    SentenceReadable (.statement false) room (source ++ [.symbol .semicolon])
      (.expression value) := by
  intro start rest kinds levels _
  rw [List.append_assoc] at kinds
  rw [statement_of_lacks (lacks_opening within kinds)]
  exact expressionStatement_of_within .afterExpression within kinds levels

theorem readable_setBlock {fourth : List TokenKind} {x y z name : Expression}
    (withinX : Phrase.Within room first x) (withinY : Phrase.Within room second y)
    (withinZ : Phrase.Within room third z) (withinName : Phrase.Within room fourth name) :
    SentenceReadable (.statement false) room
      (.keyword .setBlock :: .symbol .leftParen :: first ++ .symbol .comma :: second ++
        .symbol .comma :: third ++ .symbol .comma :: fourth ++
        [.symbol .rightParen, .symbol .semicolon])
      (.setBlock x y z name) := by
  intro start rest kinds levels _
  simp only [List.append_assoc, List.cons_append, List.nil_append] at kinds
  obtain ⟨after, takes, afterKinds, afterDepth⟩ := opening_of_kinds .setBlock kinds
  obtain ⟨last, reads, lastKinds, lastDepth⟩ :=
    setBlock_of_within withinX withinY withinZ withinName afterKinds (by omega)
  exact ⟨last, (statement_setBlock takes).mpr reads, lastKinds, by omega⟩

theorem readable_block {items : List (List TokenKind × Statement)}
    (sentences : ∀ item ∈ items, Sentence .item room item.1 item.2)
    (readable : ∀ item ∈ items, SentenceReadable .item room item.1 item.2) :
    SentenceReadable (.statement false) (room + 1)
      (.symbol .leftBrace :: items.flatMap (·.1) ++ [.symbol .rightBrace])
      (.block (items.map (·.2))) := by
  intro start rest kinds levels _
  simp only [List.append_assoc, List.cons_append, List.nil_append] at kinds
  obtain ⟨after, takes, full, afterKinds, innerLevels⟩ := deeper_of_kinds .block kinds levels
  have fits : (after.deeper full).rest.length < start.rest.length := takes.shorter
  obtain ⟨behind, reads, behindKinds, behindDepth⟩ :=
    listed_of_items sentences readable [] fits afterKinds innerLevels
  obtain ⟨next, closed, nextKinds, nextDepth⟩ := takes_exactly behindKinds
  refine leaves_of_leave ?_ nextKinds levels (by omega)
  exact (statement_block takes).mpr ⟨full, _, behind, next, _, reads, closed, rfl, rfl⟩

theorem readable_branch (within : Phrase.Within room first value)
    (readable : SentenceReadable (.statement opens) room second thenBranch) :
    SentenceReadable (.statement true) (room + 1)
      (.keyword .if :: .symbol .leftParen :: first ++ .symbol .rightParen :: second)
      (.branch value thenBranch none) := by
  intro start rest kinds levels noElse
  simp only [List.append_assoc, List.cons_append] at kinds
  obtain ⟨after, takes, full, inside, readsTest, insideKinds, insideLevels⟩ :=
    deeper_condition_of_within .branch .afterIf .afterIfCondition within kinds levels
  -- The sentence is open, so no `else` stands behind it: neither its own nor one of its branch.
  obtain ⟨behind, readsThen, behindKinds, behindDepth⟩ :=
    readable insideKinds insideLevels fun _ => noElse rfl
  have lacks : behind.Lacks (TokenKind.exactly (.keyword .else)) := by
    rw [lacks_exactly, behindKinds]
    exact noElse rfl
  refine leaves_of_leave ?_ behindKinds levels (by omega)
  exact (statement_branch takes).mpr
    ⟨full, _, inside, _, behind, readsTest, readsThen, .inl ⟨lacks, rfl, rfl⟩⟩

theorem readable_branchElse (within : Phrase.Within room first value)
    (readableThen : SentenceReadable (.statement false) room second thenBranch)
    (readableElse : SentenceReadable (.statement opens) room third elseBranch) :
    SentenceReadable (.statement opens) (room + 1)
      (.keyword .if :: .symbol .leftParen :: first ++ .symbol .rightParen :: second ++
        .keyword .else :: third)
      (.branch value thenBranch (some elseBranch)) := by
  intro start rest kinds levels noElse
  simp only [List.append_assoc, List.cons_append] at kinds
  obtain ⟨after, takes, full, inside, readsTest, insideKinds, insideLevels⟩ :=
    deeper_condition_of_within .branch .afterIf .afterIfCondition within kinds levels
  -- The `else` behind the first branch does not belong to it, as that branch is not open.
  obtain ⟨behind, readsThen, behindKinds, behindDepth⟩ :=
    readableThen insideKinds insideLevels nofun
  obtain ⟨other, takesElse, otherKinds, otherDepth⟩ := takes_exactly behindKinds
  obtain ⟨next, readsElse, nextKinds, nextDepth⟩ :=
    readableElse otherKinds (by omega) noElse
  refine leaves_of_leave ?_ nextKinds levels (by omega)
  exact (statement_branch takes).mpr ⟨full, _, inside, _, behind, readsTest, readsThen,
    .inr ⟨other, _, next, takesElse, readsElse, rfl, rfl⟩⟩

theorem readable_loop (within : Phrase.Within room first value)
    (readable : SentenceReadable (.statement opens) room second body) :
    SentenceReadable (.statement opens) (room + 1)
      (.keyword .while :: .symbol .leftParen :: first ++ .symbol .rightParen :: second)
      (.loop value body) := by
  intro start rest kinds levels noElse
  simp only [List.append_assoc, List.cons_append] at kinds
  obtain ⟨after, takes, full, inside, readsTest, insideKinds, insideLevels⟩ :=
    deeper_condition_of_within .conditionalLoop .afterWhile .afterLoopCondition within kinds levels
  obtain ⟨next, readsBody, nextKinds, nextDepth⟩ := readable insideKinds insideLevels noElse
  refine leaves_of_leave ?_ nextKinds levels (by omega)
  exact (statement_conditionalLoop takes).mpr
    ⟨full, _, inside, _, next, readsTest, readsBody, rfl, rfl⟩

theorem readable_countedLoop {fourth : List TokenKind} {initializer update : Option Statement}
    (loopStart : LoopStart room first initializer) (loopTest : LoopTest room second value)
    (loopUpdate : LoopUpdate room third update)
    (readable : SentenceReadable (.statement opens) room fourth body) :
    SentenceReadable (.statement opens) (room + 1)
      (.keyword .for :: .symbol .leftParen :: first ++ .symbol .semicolon :: second ++
        .symbol .semicolon :: third ++ .symbol .rightParen :: fourth)
      (.block (initializer.toList ++ [.loop value (.block (body :: update.toList))])) := by
  intro start rest kinds levels noElse
  simp only [List.append_assoc, List.cons_append] at kinds
  obtain ⟨after, takes, full, afterKinds, innerLevels⟩ :=
    deeper_of_kinds .countedLoop kinds levels
  obtain ⟨increment, rfl, inside, readsHead, insideKinds, insideDepth⟩ :=
    loopHead_of_clauses loopStart loopTest loopUpdate afterKinds innerLevels
  obtain ⟨next, readsBody, nextKinds, nextDepth⟩ := readable insideKinds (by omega) noElse
  refine leaves_of_leave ?_ nextKinds levels (by omega)
  exact (statement_countedLoop takes).mpr
    ⟨full, _, inside, _, next, readsHead, readsBody, rfl, rfl⟩

end Readable

/-- Every sentence is read. -/
theorem sentenceReadable {form source given} (sentence : Sentence form room source given) :
    SentenceReadable form room source given := by
  induction sentence with
  | declaration declared => exact readable_declaration declared
  | ofStatement sentence readable => exact readable_ofStatement sentence readable
  | expression within => exact readable_expression within
  | setBlock withinX withinY withinZ withinName =>
    exact readable_setBlock withinX withinY withinZ withinName
  | block sentences readable => exact readable_block sentences readable
  | branch within _ readable => exact readable_branch within readable
  | branchElse within _ _ readableThen readableElse =>
    exact readable_branchElse within readableThen readableElse
  | loop within _ readable => exact readable_loop within readable
  | countedLoop loopStart loopTest loopUpdate _ readable =>
    exact readable_countedLoop loopStart loopTest loopUpdate readable

/-! ### Programs -/

theorem program_of_items {items : List (List TokenKind × Statement)}
    (sentences : ∀ item ∈ items, Sentence .item room item.1 item.2) :
    ∀ {start : Cursor} (read : List Statement), start.kinds = items.flatMap (·.1) →
      start.depth + room = maxNesting →
        program read start = .ok ⟨read.reverse ++ items.map (·.2)⟩ := by
  induction items with
  | nil =>
    intro start read kinds _
    refine program_eq_ok.mpr (.inl ⟨?_, by simp⟩)
    rw [kind_eq_head, kinds]
    rfl
  | cons item items tail =>
    intro start read kinds levels
    have sentence := sentences item List.mem_cons_self
    have others (other : List TokenKind × Statement) (member : other ∈ items) :
        Sentence .item room other.1 other.2 := sentences other (List.mem_cons_of_mem _ member)
    rw [List.flatMap_cons] at kinds
    have nothing : TokenKind.keyword .else ∉ ([] : List TokenKind).head? := by simp
    -- No sentence begins with an else, so none is taken for a part of the one before.
    have noElse := noElse_of_items others nothing
    rw [List.append_nil] at noElse
    obtain ⟨next, declared, nextKinds, nextDepth⟩ := sentenceReadable sentence kinds levels noElse
    have goes : start.kind ≠ .eof := by
      obtain ⟨kind, _, source, begins⟩ := sentence.begins
      rw [kind_eq_head, kinds, source]
      rintro rfl
      cases begins
    have reads := tail others (item.2 :: read) nextKinds (by omega)
    exact program_eq_ok.mpr (.inr ⟨goes, item.2, next, declared, by simpa using reads⟩)

end Cursor

theorem Cursor.kinds_ofTokens (tokens : List Token) :
    (Cursor.ofTokens tokens).kinds = (tokens.map (·.kind)).takeWhile (· ≠ .eof) := by
  rw [List.takeWhile_map]
  rfl

theorem Cursor.noEnd_ofTokens (tokens : List Token) : .eof ∉ (Cursor.ofTokens tokens).kinds := by
  rw [Cursor.kinds_ofTokens]
  intro member
  have kept := List.all_eq_true.mp List.all_takeWhile _ member
  exact absurd rfl (of_decide_eq_true kept)

/-- A list of tokens is read as a program exactly if the grammar derives that program from the kinds
in front of the first end token, with room for the levels that are open at once. -/
theorem ofTokens_eq_ok_iff_derives (tokens : List Token) (program : Program) :
    Program.ofTokens tokens = .ok program ↔
      Program.Derives maxNesting ((tokens.map (·.kind)).takeWhile (· ≠ .eof)) program := by
  have levels : (Cursor.ofTokens tokens).depth + maxNesting = maxNesting := Nat.zero_add _
  rw [← Cursor.kinds_ofTokens]
  constructor
  · intro accepted
    obtain ⟨items, sentences, statements, kinds⟩ :=
      Cursor.items_of_program accepted levels (Cursor.noEnd_ofTokens tokens)
    exact ⟨items, sentences, kinds.symm, statements.symm⟩
  · rintro ⟨items, sentences, kinds, statements⟩
    have reads := Cursor.program_of_items sentences [] kinds.symm levels
    rw [List.reverse_nil, List.nil_append, statements] at reads
    exact reads

end BlockScript
