import BlockScript.Syntax.Cursor

/-!
# Reading expressions

Operators bind, from the loosest to the tightest: assignment, conditional, `||`, `&&`, equality,
comparison, sums, products, unary operators.  Operators with two operands group to the left,
assignment and conditional to the right.  Every reader takes at least one token, so the readers end.
-/

namespace BlockScript

/-- The levels at which operators with two operands bind. -/
inductive Precedence where
  | disjunction
  | conjunction
  | equality
  | comparison
  | sum
  | product
  deriving DecidableEq, Repr

namespace Precedence

/-- The levels, from the loosest to the tightest. -/
def levels : List Precedence :=
  [.disjunction, .conjunction, .equality, .comparison, .sum, .product]

/-- The operator of a level that a token is, if it is one. -/
def operator? : Precedence → TokenKind → Option BinaryOp
  | .disjunction, .symbol .orOr => some .or
  | .conjunction, .symbol .andAnd => some .and
  | .equality, .symbol .equalEqual => some .eq
  | .equality, .symbol .bangEqual => some .notEq
  | .comparison, .symbol .less => some .lt
  | .comparison, .symbol .lessEqual => some .ltEq
  | .comparison, .symbol .greater => some .gt
  | .comparison, .symbol .greaterEqual => some .gtEq
  | .sum, .symbol .plus => some .add
  | .sum, .symbol .minus => some .sub
  | .product, .symbol .star => some .mul
  | .product, .symbol .slash => some .div
  | .product, .symbol .percent => some .mod
  | _, _ => none

end Precedence

/-- The operator with one operand that a token is, if it is one. -/
def UnaryOp.ofToken? : TokenKind → Option UnaryOp
  | .symbol .bang => some .not
  | .symbol .minus => some .neg
  | _ => none

/-- The expression that a single token is, if it is one. -/
def Expression.ofToken? : TokenKind → Option Expression
  | .number value => some (.number value)
  | .string value => some (.string value)
  | .identifier name => some (.variable name)
  | .keyword .true => some (.bool true)
  | .keyword .false => some (.bool false)
  | .keyword .nil => some .nil
  | _ => none

namespace Cursor

mutual

/-- Reads an expression: an assignment to a name, or what binds tighter.  Whether the target is a
name is asked only once the assigned value has been read. -/
def expression (cursor : Cursor) : Outcome cursor.rest.length Expression :=
  (conditional cursor).andThen fun target behind shorter =>
    match behind.take? (TokenKind.exactly (.symbol .equal)) with
    | none => .ok target behind shorter
    | some ⟨_, start, taken⟩ =>
      let value : Outcome start.rest.length Expression :=
        start.nested start fun inside same =>
          (expression inside).within (Nat.le_of_eq (by rw [same]))
      value.andThen fun value next read =>
        -- The fault is at the equals sign, although the value behind it has been read.
        match target with
        | .variable name => .ok (.assign name value) next (shorter_of_three shorter taken read)
        | _ => .error ⟨behind.position, .assignmentTarget⟩ next
termination_by 16 * cursor.rest.length + 10
decreasing_by
  · omega
  · rw [same]; omega

/-- Reads a conditional expression, or what binds tighter. -/
def conditional (cursor : Cursor) : Outcome cursor.rest.length Expression :=
  (chain Precedence.levels cursor).andThen fun condition behind shorter =>
    match behind.take? (TokenKind.exactly (.symbol .question)) with
    | none => .ok condition behind shorter
    | some ⟨_, start, taken⟩ =>
      start.nested start fun inside same =>
        (expression inside).andThen fun thenBranch middle readThen =>
        (middle.symbol .colon .inConditional).andThen fun _ other readColon =>
        (conditional other).andThen fun elseBranch next readElse =>
          .ok (.conditional condition thenBranch elseBranch) next <| by
            rw [same] at readThen
            exact shorter_of_three (shorter_of_three shorter taken readThen) readColon readElse
termination_by 16 * cursor.rest.length + 9
decreasing_by
  · simp [Precedence.levels]
  · rw [same]; omega
  · rw [same] at readThen; omega

/-- Reads a chain of operators of the first level, whose operands bind tighter.  The levels that
the operators of the chain open are closed behind it. -/
def chain (levels : List Precedence) (cursor : Cursor) : Outcome cursor.rest.length Expression :=
  match levels with
  | [] => unary cursor
  | level :: tighter =>
    ((chain tighter cursor).andThen fun first behind shorter =>
      links cursor.rest.length level tighter first behind shorter).restore
        cursor.depth cursor.depth_le
termination_by 16 * cursor.rest.length + levels.length + 2
decreasing_by
  · simp
  · simp only [List.length_cons]; omega
  · simp only [List.length_cons]; omega

/-- Reads the operators of a chain and their right operands, behind what has been read of it.  Each
operator opens a level for what follows. -/
def links (bound : Nat) (level : Precedence) (tighter : List Precedence) (left : Expression)
    (cursor : Cursor) (fits : cursor.rest.length < bound) : Outcome bound Expression :=
  match cursor.take? level.operator? with
  | none => .ok left cursor fits
  | some ⟨op, start, taken⟩ =>
    start.enter start fun inside same =>
      (chain tighter inside).andThen fun right next read =>
        links bound level tighter (.binary op left right) next (by rw [same] at read; omega)
termination_by 16 * cursor.rest.length + tighter.length + 1
decreasing_by
  · rw [same]; omega
  · rw [same] at read; omega

/-- Reads a unary operator with its operand, or what binds tighter. -/
def unary (cursor : Cursor) : Outcome cursor.rest.length Expression :=
  match cursor.take? UnaryOp.ofToken? with
  | none => primary cursor
  | some ⟨op, start, taken⟩ =>
    start.nested start fun inside same =>
      ((unary inside).map (.unary op)).within (by rw [same]; omega)
termination_by 16 * cursor.rest.length + 1
decreasing_by
  · omega
  · rw [same]; omega

/-- Reads a literal, a name, or an expression in parentheses. -/
def primary (cursor : Cursor) : Outcome cursor.rest.length Expression :=
  match cursor.take? Expression.ofToken? with
  | some ⟨value, next, taken⟩ => .ok value next taken
  | none =>
    match cursor.take? (TokenKind.exactly (.symbol .leftParen)) with
    | none => cursor.expected .expression
    | some ⟨_, start, taken⟩ =>
      -- Too deep a parenthesis is reported where it opens.
      start.nested cursor fun inside same =>
        (expression inside).andThen fun inner behind read =>
        (behind.symbol .rightParen .afterExpression).andThen fun _ next closed =>
          .ok (.grouping inner) next <| by
            rw [same] at read
            exact shorter_of_three taken read closed
termination_by 16 * cursor.rest.length
decreasing_by rw [same]; omega

end

end Cursor

end BlockScript
