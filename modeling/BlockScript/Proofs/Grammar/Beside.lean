import BlockScript.Proofs.Grammar.Kinds

/-!
# Readers stay on their level

Whatever a reader comes to, a value or an error, it leaves a cursor further on in the same list and
on the level that it started from (`Cursor.Beside`).  So nothing is known of what has been read but
the tokens that are left: behind some declarations a program is read as if they were not there
(`Cursor.Declares.program_eq`).
-/

namespace BlockScript

open Outcome

namespace Cursor

variable {α β : Type} {bound tighter : Nat} {start middle last cursor mark : Cursor}

/-! ### Cursors of one list -/

/-- The second cursor stands further on in the same list, on whatever level. -/
structure Behind (start last : Cursor) : Prop where
  rest : last.rest <:+ start.rest
  stop : last.stop = start.stop

/-- The second cursor stands further on in the same list, on the same level. -/
structure Beside (start last : Cursor) : Prop extends start.Behind last where
  depth : last.depth = start.depth

theorem Behind.refl (start : Cursor) : start.Behind start :=
  ⟨List.suffix_rfl, rfl⟩

theorem Behind.trans (first : start.Behind middle) (second : middle.Behind last) :
    start.Behind last :=
  ⟨second.rest.trans first.rest, second.stop.trans first.stop⟩

instance : Trans Behind Behind Behind where
  trans := Behind.trans

theorem Beside.refl (start : Cursor) : start.Beside start :=
  ⟨.refl start, rfl⟩

theorem Beside.trans (first : start.Beside middle) (second : middle.Beside last) :
    start.Beside last :=
  ⟨first.toBehind.trans second.toBehind, second.depth.trans first.depth⟩

instance : Trans Beside Beside Beside where
  trans := Beside.trans

theorem Takes.beside {want : TokenKind → Option α} {value : α}
    (takes : start.Takes want value last) : start.Beside last := by
  obtain ⟨token, -, rest, stop, depth⟩ := takes.rest_eq
  exact ⟨⟨⟨[token], rest.symm⟩, stop⟩, depth⟩

/-! ### Readers put together -/

/-- Where each of two readers leads on by the same transitive relation, so do both together. -/
theorem leads_andThen {related : Cursor → Cursor → Prop} [Trans related related related]
    {front : Outcome tighter β}
    {step : (value : β) → (next : Cursor) → next.rest.length < tighter → Outcome bound α}
    (first : related start front.next)
    (back : ∀ value (next : Cursor) shorter, related next (step value next shorter).next) :
    related start (front.andThen step).next := by
  cases front with
  | ok value next shorter => exact Trans.trans first (back value next shorter)
  | error => exact first

/-- What has been read is the value, or a part of it. -/
theorem Beside.ok {front : Outcome tighter β} {value : β → α}
    {fits : ∀ next : Cursor, next.rest.length < tighter → next.rest.length < bound}
    (first : start.Beside front.next) :
    start.Beside (front.andThen fun given next shorter =>
      .ok (value given) next (fits next shorter)).next :=
  leads_andThen first fun _ next _ => .refl next

@[simp]
theorem next_within {outcome : Outcome tighter α} {le : tighter ≤ bound} :
    (outcome.within le).next = outcome.next := by
  cases outcome <;> rfl

@[simp]
theorem next_map {outcome : Outcome bound β} {change : β → α} :
    (outcome.map change).next = outcome.next := by
  cases outcome <;> rfl

@[simp]
theorem next_leave {outcome : Outcome bound α} : outcome.leave.next = outcome.next.leave := by
  cases outcome <;> rfl

@[simp]
theorem next_restore {outcome : Outcome bound α} {depth : Nat} {depth_le : depth ≤ maxNesting} :
    (outcome.restore depth depth_le).next = outcome.next.restore depth depth_le := by
  cases outcome <;> rfl

theorem beside_take (start : Cursor) (want : TokenKind → Option α) (what : Expectation) :
    start.Beside (start.take want what).next := by
  unfold take
  rcases start.take?_cases want with ⟨missing, -⟩ | ⟨value, next, takes, found⟩
  · rw [missing]
    exact .refl start
  · rw [found]
    exact takes.beside

theorem beside_symbol (start : Cursor) (symbol : Symbol) (place : Place) :
    start.Beside (start.symbol symbol place).next :=
  beside_take start _ _

/-- A level that is opened is closed again. -/
theorem beside_nested {read : (inside : Cursor) → inside.rest = cursor.rest → Outcome bound α}
    (front : start.Beside cursor) (full : start.Beside mark)
    (inner : ∀ room, (cursor.deeper room).Beside (read (cursor.deeper room) rfl).next) :
    start.Beside (cursor.nested mark read).next := by
  unfold nested enter
  split
  case isTrue room =>
    obtain ⟨⟨rest, stop⟩, depth⟩ := inner room
    refine front.trans ?_
    rw [next_leave]
    exact ⟨⟨rest, stop⟩, Nat.sub_eq_of_eq_add depth⟩
  case isFalse => exact full

/-! ### Expressions -/

/-- The readers of expressions stay on their level. -/
structure ExpressionsStay (start : Cursor) : Prop where
  expression : start.Beside start.expression.next
  conditional : start.Beside start.conditional.next
  chain : ∀ levels, start.Beside (start.chain levels).next
  unary : start.Beside start.unary.next
  primary : start.Beside start.primary.next

section Expressions

variable (shorter : ∀ cursor : Cursor, cursor.rest.length < start.rest.length →
  cursor.ExpressionsStay)

include shorter

theorem beside_primary : start.Beside start.primary.next := by
  rw [primary]
  rcases start.take?_cases Expression.ofToken? with ⟨missing, -⟩ | ⟨value, next, takes, found⟩
  · rw [missing]
    rcases start.take?_cases (TokenKind.exactly (.symbol .leftParen)) with
      ⟨missing, -⟩ | ⟨_, after, takes, found⟩
    · rw [missing]
      exact .refl start
    · rw [found]
      refine beside_nested takes.beside (.refl start) fun room => ?_
      refine leads_andThen (shorter (after.deeper room) takes.shorter).expression
        fun _ behind _ => ?_
      exact (beside_symbol behind _ _).ok
  · rw [found]
    exact takes.beside

theorem beside_unary : start.Beside start.unary.next := by
  rw [unary]
  rcases start.take?_cases UnaryOp.ofToken? with ⟨missing, -⟩ | ⟨op, after, takes, found⟩
  · rw [missing]
    exact beside_primary shorter
  · rw [found]
    refine beside_nested takes.beside takes.beside fun room => ?_
    rw [next_within, next_map]
    exact (shorter (after.deeper room) takes.shorter).unary

/-- The operators of a chain may leave levels open. -/
theorem behind_links {bound : Nat} (level : Precedence) (levels : List Precedence)
    (left : Expression) {here : Cursor} (le : here.rest.length ≤ start.rest.length)
    (fits : here.rest.length < bound) :
    here.Behind (links bound level levels left here fits).next := by
  rw [links]
  rcases here.take?_cases level.operator? with ⟨missing, -⟩ | ⟨op, after, takes, found⟩
  · rw [missing]
    exact .refl here
  · rw [found]
    unfold enter
    dsimp only
    split
    case isTrue room =>
      have behindMark := takes.shorter
      have deeper : here.Behind (after.deeper room) :=
        ⟨takes.beside.rest, takes.beside.stop⟩
      have operand := (shorter (after.deeper room) (Nat.lt_of_lt_of_le behindMark le)).chain levels
      refine leads_andThen (deeper.trans operand.toBehind) fun right next read => ?_
      have behindOperand : next.rest.length < after.rest.length := read
      exact behind_links level levels _ (by omega) _
    case isFalse => exact takes.beside.toBehind
termination_by here.rest.length

theorem beside_chain (levels : List Precedence) : start.Beside (start.chain levels).next := by
  -- On the levels, as the first operand of a chain is read with the same tokens left.
  induction levels with
  | nil =>
    rw [chain]
    exact beside_unary shorter
  | cons level tighter ih =>
    rw [chain, next_restore]
    have all : start.Behind ((start.chain tighter).andThen fun first behind fits =>
        links start.rest.length level tighter first behind fits).next :=
      leads_andThen ih.toBehind fun first behind fits =>
        behind_links shorter level tighter first (Nat.le_of_lt fits) fits
    -- Whatever the links leave open, the level that is gone back to is the one of the start.
    exact ⟨⟨all.rest, all.stop⟩, rfl⟩

theorem beside_conditional : start.Beside start.conditional.next := by
  rw [conditional]
  refine leads_andThen (beside_chain shorter _) fun condition behind fits => ?_
  rcases behind.take?_cases (TokenKind.exactly (.symbol .question)) with
    ⟨missing, -⟩ | ⟨_, after, takes, found⟩
  · rw [missing]
    exact .refl behind
  · rw [found]
    have fewer := takes.shorter
    refine beside_nested takes.beside takes.beside fun room => ?_
    refine leads_andThen (shorter (after.deeper room) (Nat.lt_trans fewer fits)).expression
      fun _ middle readThen => ?_
    have fewerThen : middle.rest.length < after.rest.length := readThen
    refine leads_andThen (beside_symbol middle _ _) fun _ other readColon => ?_
    exact (shorter other (by omega)).conditional.ok

theorem beside_expression : start.Beside start.expression.next := by
  rw [expression]
  refine leads_andThen (beside_conditional shorter) fun target behind fits => ?_
  rcases behind.take?_cases (TokenKind.exactly (.symbol .equal)) with
    ⟨missing, -⟩ | ⟨_, after, takes, found⟩
  · rw [missing]
    exact .refl behind
  · rw [found]
    have fewer := takes.shorter
    refine leads_andThen (takes.beside.trans ?_) fun value next _ => ?_
    · refine beside_nested (.refl after) (.refl after) fun room => ?_
      rw [next_within]
      exact (shorter (after.deeper room) (Nat.lt_trans fewer fits)).expression
    · -- A wrong target is told once the level of the value has been closed.
      cases target <;> exact .refl next

end Expressions

theorem expressionsStay (start : Cursor) : start.ExpressionsStay :=
  -- Readers of tighter ranks are called in front of the same tokens, all others behind one of them.
  have shorter : ∀ cursor : Cursor, cursor.rest.length < start.rest.length →
    cursor.ExpressionsStay := fun cursor _ => expressionsStay cursor
  ⟨beside_expression shorter, beside_conditional shorter, beside_chain shorter,
    beside_unary shorter, beside_primary shorter⟩
termination_by start.rest.length

theorem beside_value (start : Cursor) : start.Beside start.expression.next :=
  start.expressionsStay.expression

/-! ### The parts of statements -/

theorem beside_declared (start : Cursor) : start.Beside start.declared.next := by
  refine leads_andThen (beside_take start _ _) fun name behind named => ?_
  rcases behind.take?_cases (TokenKind.exactly (.symbol .equal)) with
    ⟨missing, -⟩ | ⟨_, after, takes, found⟩
  · rw [missing]
    exact .refl behind
  · rw [found]
    exact (takes.beside.trans (beside_value after)).ok

theorem beside_expressionStatement (start : Cursor) (place : Place) :
    start.Beside (start.expressionStatement place).next :=
  leads_andThen (beside_value start) fun _ behind _ =>
    (beside_symbol behind _ _).ok

theorem beside_declarationStatement (start : Cursor) (place : Place) :
    start.Beside (start.declarationStatement place).next :=
  leads_andThen (beside_declared start) fun _ behind _ =>
    (beside_symbol behind _ _).ok

theorem beside_condition (start : Cursor) (opened closed : Place) :
    start.Beside (start.condition opened closed).next :=
  leads_andThen (beside_symbol start _ _) fun _ inside _ =>
    leads_andThen (beside_value inside) fun _ behind _ =>
      (beside_symbol behind _ _).ok

theorem beside_loopInitializer (start : Cursor) : start.Beside start.loopInitializer.next := by
  unfold loopInitializer
  rcases start.take?_cases (TokenKind.exactly (.symbol .semicolon)) with
    ⟨missing, -⟩ | ⟨_, next, takes, found⟩
  · rw [missing]
    rcases start.take?_cases (TokenKind.exactly (.keyword .let)) with
      ⟨missing, -⟩ | ⟨_, after, takes, found⟩
    · rw [missing, next_map]
      exact beside_expressionStatement start _
    · rw [found, next_within, next_map]
      exact takes.beside.trans (beside_declarationStatement after _)
  · rw [found]
    exact takes.beside

theorem beside_loopCondition (start : Cursor) : start.Beside start.loopCondition.next := by
  unfold loopCondition
  rcases start.take?_cases (TokenKind.exactly (.symbol .semicolon)) with
    ⟨missing, -⟩ | ⟨_, next, takes, found⟩
  · rw [missing]
    exact leads_andThen (beside_value start) fun _ behind _ =>
      (beside_symbol behind _ _).ok
  · rw [found]
    exact takes.beside

theorem beside_loopIncrement (start : Cursor) : start.Beside start.loopIncrement.next := by
  unfold loopIncrement
  rcases start.take?_cases (TokenKind.exactly (.symbol .rightParen)) with
    ⟨missing, -⟩ | ⟨_, next, takes, found⟩
  · rw [missing]
    exact leads_andThen (beside_value start) fun _ behind _ =>
      (beside_symbol behind _ _).ok
  · rw [found]
    exact takes.beside

theorem beside_loopHead (start : Cursor) : start.Beside start.loopHead.next :=
  leads_andThen (beside_symbol start _ _) fun _ first _ =>
    leads_andThen (beside_loopInitializer first) fun _ second _ =>
      leads_andThen (beside_loopCondition second) fun _ third _ =>
        (beside_loopIncrement third).ok

theorem beside_setBlock (start : Cursor) : start.Beside start.setBlock.next := by
  refine leads_andThen (beside_symbol start _ _) fun _ first _ => ?_
  refine leads_andThen (beside_value first) fun _ behindX _ => ?_
  refine leads_andThen (beside_symbol behindX _ _) fun _ second _ => ?_
  refine leads_andThen (beside_value second) fun _ behindY _ => ?_
  refine leads_andThen (beside_symbol behindY _ _) fun _ third _ => ?_
  refine leads_andThen (beside_value third) fun _ behindZ _ => ?_
  refine leads_andThen (beside_symbol behindZ _ _) fun _ fourth _ => ?_
  refine leads_andThen (beside_value fourth) fun _ behindName _ => ?_
  refine leads_andThen (beside_symbol behindName _ _) fun _ behindCall _ => ?_
  exact (beside_symbol behindCall _ _).ok

/-! ### Statements -/

/-- The readers of statements stay on their level. -/
structure StatementsStay (start : Cursor) : Prop where
  declaration : start.Beside start.declaration.next
  statement : start.Beside start.statement.next
  listed : ∀ {bound} read fits, start.Beside (listed bound read start fits).next

section Statements

variable (shorter : ∀ cursor : Cursor, cursor.rest.length < start.rest.length →
  cursor.StatementsStay)

include shorter

theorem beside_statement : start.Beside start.statement.next := by
  rw [statement]
  rcases start.take?_cases Opening.ofToken? with ⟨missing, -⟩ | ⟨opening, after, takes, found⟩
  · rw [missing]
    exact beside_expressionStatement start _
  · rw [found]
    -- All that is read from here on stands behind the token of the opening.
    have fewer := takes.shorter
    cases opening with
    | setBlock =>
      dsimp only
      rw [next_within]
      exact takes.beside.trans (beside_setBlock after)
    | block =>
      refine beside_nested takes.beside (.refl start) fun room => ?_
      refine leads_andThen ((shorter (after.deeper room) fewer).listed _ _) fun _ behind _ => ?_
      exact (beside_symbol behind _ _).ok
    | branch =>
      refine beside_nested takes.beside (.refl start) fun room => ?_
      refine leads_andThen (beside_condition _ _ _) fun _ first readCondition => ?_
      have fewerFirst : first.rest.length < after.rest.length := readCondition
      refine leads_andThen (shorter first (by omega)).statement fun _ behind readThen => ?_
      rcases behind.take?_cases (TokenKind.exactly (.keyword .else)) with
        ⟨missing, -⟩ | ⟨_, second, takes, found⟩
      · rw [missing]
        exact .refl behind
      · rw [found]
        have fewerSecond := takes.shorter
        have other := (shorter second (by omega)).statement
        exact (takes.beside.trans other).ok
    | conditionalLoop =>
      refine beside_nested takes.beside (.refl start) fun room => ?_
      refine leads_andThen (beside_condition _ _ _) fun _ first readCondition => ?_
      have fewerFirst : first.rest.length < after.rest.length := readCondition
      exact (shorter first (by omega)).statement.ok
    | countedLoop =>
      refine beside_nested takes.beside (.refl start) fun room => ?_
      refine leads_andThen (beside_loopHead _) fun _ first readHead => ?_
      have fewerFirst : first.rest.length < after.rest.length := readHead
      exact (shorter first (by omega)).statement.ok

theorem beside_declaration : start.Beside start.declaration.next := by
  rw [declaration]
  rcases start.take?_cases (TokenKind.exactly (.keyword .let)) with
    ⟨missing, -⟩ | ⟨_, after, takes, found⟩
  · rw [missing]
    exact beside_statement shorter
  · rw [found]
    dsimp only
    rw [next_within]
    exact takes.beside.trans (beside_declarationStatement after _)

theorem beside_listed {bound : Nat} (read : List Statement) (fits : start.rest.length < bound) :
    start.Beside (listed bound read start fits).next := by
  rw [listed]
  split
  · exact .refl start
  · have first := beside_declaration shorter
    split
    · next item next fewer declared =>
      rw [declared] at first
      exact first.trans ((shorter next fewer).listed _ _)
    · next declared =>
      rw [declared] at first
      exact first

end Statements

theorem statementsStay (start : Cursor) : start.StatementsStay :=
  have shorter : ∀ cursor : Cursor, cursor.rest.length < start.rest.length →
    cursor.StatementsStay := fun cursor _ => statementsStay cursor
  ⟨beside_declaration shorter, beside_statement shorter, beside_listed shorter⟩
termination_by start.rest.length

/-! ### What has been read -/

section Declares

variable {items : List Statement}

/-- Declarations that are read one after the other, up to a place. -/
inductive Declares : Cursor → List Statement → Cursor → Prop where
  | nil (start : Cursor) : Declares start [] start
  | cons {start middle last item items} :
    start.kind ≠ .eof → start.declaration.Gives item middle → Declares middle items last →
      Declares start (item :: items) last

theorem Declares.beside (declares : start.Declares items last) : start.Beside last := by
  induction declares with
  | nil start => exact .refl start
  | @cons start _ _ _ _ _ gives _ ih =>
    obtain ⟨shorter, given⟩ := gives
    have first := start.statementsStay.declaration
    rw [given] at first
    exact first.trans ih

/-- What has been read goes in front of whatever is read behind it. -/
theorem program_eq_map (read : List Statement) (start : Cursor) :
    program read start =
      (program [] start).map fun others => ⟨read.reverse ++ others.statements⟩ := by
  rw [program, program]
  split
  · simp [Except.map]
  · split
    · next item next shorter _ =>
      rw [program_eq_map (item :: read), program_eq_map [item]]
      cases program [] next <;> simp [Except.map]
    · rfl
termination_by start.rest.length

theorem Declares.program_eq (declares : start.Declares items last) :
    program [] start = (program [] last).map fun others => ⟨items ++ others.statements⟩ := by
  induction declares with
  | nil start => exact program_eq_map [] start
  | @cons start middle last item items goes gives _ ih =>
    obtain ⟨shorter, given⟩ := gives
    rw [program, if_neg goes, given]
    dsimp only
    rw [program_eq_map [item], ih]
    cases program [] last <;> simp [Except.map]

/-- An error is one of the declaration in front of which the others end. -/
theorem exists_of_program_error {read : List Statement} {start : Cursor} {error : SyntaxError}
    (rejected : program read start = .error error) :
    ∃ items last next, start.Declares items last ∧ last.kind ≠ .eof ∧
      last.declaration = .error error next := by
  rw [program] at rejected
  split at rejected
  · cases rejected
  · next goes =>
    split at rejected
    · next item next shorter given =>
      obtain ⟨items, last, behind, declares, others⟩ := exists_of_program_error rejected
      exact ⟨item :: items, last, behind, .cons goes ⟨shorter, given⟩ declares, others⟩
    · next next given =>
      cases rejected
      exact ⟨[], start, next, .nil start, goes, given⟩
termination_by start.rest.length

/-- So it is with an error inside a block. -/
theorem exists_of_listed_error {bound : Nat} {read : List Statement} {start next : Cursor}
    {fits : start.rest.length < bound} {error : SyntaxError}
    (rejected : listed bound read start fits = .error error next) :
    ∃ items last, start.Declares items last ∧ last.declaration = .error error next := by
  rw [listed] at rejected
  split at rejected
  · cases rejected
  · next goes =>
    split at rejected
    · next item middle shorter given =>
      obtain ⟨items, last, declares, fails⟩ := exists_of_listed_error rejected
      have noEnd : start.kind ≠ .eof := fun isEnd => goes (.inr isEnd)
      exact ⟨item :: items, last, .cons noEnd ⟨shorter, given⟩ declares, fails⟩
    · next given =>
      cases rejected
      exact ⟨[], start, .nil start, given⟩
termination_by start.rest.length

/-- The tokens not read yet, with an end token. -/
def remaining (cursor : Cursor) : List Token :=
  cursor.rest ++ [⟨.eof, "", cursor.stop⟩]

/-- Behind declarations of a list a program is read as if there were no other tokens. -/
theorem Declares.ofTokens_remaining {tokens : List Token}
    (declares : (Cursor.ofTokens tokens).Declares items last) :
    Cursor.ofTokens last.remaining = last := by
  have beside := declares.beside
  have noEnd : ∀ token ∈ last.rest, token.kind ≠ .eof := fun token member =>
    Parser.kind_ne_eof_of_mem (beside.rest.mem member)
  obtain ⟨rest, stop⟩ := @Cursor.ofTokens_of_end last.rest [] ⟨.eof, "", last.stop⟩ noEnd rfl
  exact Cursor.eq_of rest stop beside.depth.symm

end Declares

end Cursor

end BlockScript
