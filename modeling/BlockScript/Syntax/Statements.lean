import BlockScript.Syntax.Expressions

/-!
# Reading statements and programs

Declarations stand where statements are listed, that is in a program or in a block, and in the head
of a counted loop.  A counted loop is read as a block that holds its initializer and a conditional
loop, whose body ends with the increment.
-/

namespace BlockScript

/-- The words and the brace that start a statement of a kind of its own. -/
inductive Opening where
  | block
  | branch
  | conditionalLoop
  | countedLoop
  | setBlock
  deriving DecidableEq, Repr

/-- The kind of statement that a token starts, if it is not an expression. -/
def Opening.ofToken? : TokenKind → Option Opening
  | .symbol .leftBrace => some .block
  | .keyword .if => some .branch
  | .keyword .while => some .conditionalLoop
  | .keyword .for => some .countedLoop
  | .keyword .setBlock => some .setBlock
  | _ => none

/-- What stands between the parentheses of a counted loop. -/
structure LoopHead where
  initializer : Option Statement
  condition : Expression
  increment : Option Expression

/-- A counted loop as a conditional loop. -/
def LoopHead.statement (head : LoopHead) (body : Statement) : Statement :=
  .block (head.initializer.toList ++
    [.loop head.condition (.block (body :: (head.increment.map Statement.expression).toList))])

namespace Cursor

/-- Reads the name and the optional initial value of a declaration, behind the word that starts
it. -/
def declared (cursor : Cursor) : Outcome cursor.rest.length Statement :=
  (cursor.take TokenKind.name? .variableName).andThen fun name behind named =>
    match behind.take? (TokenKind.exactly (.symbol .equal)) with
    | none => .ok (.declare name .nil) behind named
    | some ⟨_, start, taken⟩ =>
      (expression start).andThen fun value next read =>
        .ok (.declare name value) next (shorter_of_three named taken read)

/-- Reads an expression that a semicolon ends. -/
def expressionStatement (cursor : Cursor) (place : Place) :
    Outcome cursor.rest.length Statement :=
  (expression cursor).andThen fun value behind read =>
  (behind.symbol .semicolon place).andThen fun _ next closed =>
    .ok (.expression value) next (by omega)

/-- Reads a declaration that a semicolon ends, behind the word that starts it. -/
def declarationStatement (cursor : Cursor) (place : Place) :
    Outcome cursor.rest.length Statement :=
  (declared cursor).andThen fun declaration behind read =>
  (behind.symbol .semicolon place).andThen fun _ next closed =>
    .ok declaration next (by omega)

/-- Reads the condition of a branch or a loop in its parentheses. -/
def condition (cursor : Cursor) (opened closed : Place) :
    Outcome cursor.rest.length Expression :=
  (cursor.symbol .leftParen opened).andThen fun _ start opening =>
  (expression start).andThen fun value behind read =>
  (behind.symbol .rightParen closed).andThen fun _ next closing =>
    .ok value next (shorter_of_three opening read closing)

/-- Reads the initializer of a counted loop, which may be missing, and its semicolon. -/
def loopInitializer (cursor : Cursor) : Outcome cursor.rest.length (Option Statement) :=
  match cursor.take? (TokenKind.exactly (.symbol .semicolon)) with
  | some ⟨_, next, taken⟩ => .ok none next taken
  | none =>
    match cursor.take? (TokenKind.exactly (.keyword .let)) with
    | some ⟨_, start, taken⟩ =>
      ((declarationStatement start .afterLoopInitializer).map some).within (by omega)
    | none => (expressionStatement cursor .afterLoopInitializer).map some

/-- Reads the condition of a counted loop, which may be missing, and its semicolon. -/
def loopCondition (cursor : Cursor) : Outcome cursor.rest.length Expression :=
  match cursor.take? (TokenKind.exactly (.symbol .semicolon)) with
  | some ⟨_, next, taken⟩ => .ok (.bool true) next taken
  | none =>
    (expression cursor).andThen fun value behind read =>
    (behind.symbol .semicolon .afterLoopCondition).andThen fun _ next closed =>
      .ok value next (by omega)

/-- Reads the increment of a counted loop, which may be missing, and the closing parenthesis. -/
def loopIncrement (cursor : Cursor) : Outcome cursor.rest.length (Option Expression) :=
  match cursor.take? (TokenKind.exactly (.symbol .rightParen)) with
  | some ⟨_, next, taken⟩ => .ok none next taken
  | none =>
    (expression cursor).andThen fun value behind read =>
    (behind.symbol .rightParen .afterForClauses).andThen fun _ next closed =>
      .ok (some value) next (by omega)

def loopHead (cursor : Cursor) : Outcome cursor.rest.length LoopHead :=
  (cursor.symbol .leftParen .afterFor).andThen fun _ start opening =>
  (loopInitializer start).andThen fun initializer second readInitializer =>
  (loopCondition second).andThen fun condition third readCondition =>
  (loopIncrement third).andThen fun increment next readIncrement =>
    .ok ⟨initializer, condition, increment⟩ next (by omega)

/-- Reads the arguments of a `setBlock` statement, behind the word that starts it. -/
def setBlock (cursor : Cursor) : Outcome cursor.rest.length Statement :=
  (cursor.symbol .leftParen .afterSetBlock).andThen fun _ start opening =>
  (expression start).andThen fun x behindX readX =>
  (behindX.symbol .comma .afterX).andThen fun _ startY commaX =>
  (expression startY).andThen fun y behindY readY =>
  (behindY.symbol .comma .afterY).andThen fun _ startZ commaY =>
  (expression startZ).andThen fun z behindZ readZ =>
  (behindZ.symbol .comma .afterZ).andThen fun _ startName commaZ =>
  (expression startName).andThen fun name behindName readName =>
  (behindName.symbol .rightParen .afterSetBlockArguments).andThen fun _ behindCall closing =>
  (behindCall.symbol .semicolon .afterSetBlockCall).andThen fun _ next closed =>
    .ok (.setBlock x y z name) next (by omega)

mutual

def declaration (cursor : Cursor) : Outcome cursor.rest.length Statement :=
  match cursor.take? (TokenKind.exactly (.keyword .let)) with
  | some ⟨_, start, taken⟩ => (declarationStatement start .afterDeclaration).within (by omega)
  | none => statement cursor
termination_by 4 * cursor.rest.length + 1
decreasing_by omega

def statement (cursor : Cursor) : Outcome cursor.rest.length Statement :=
  match cursor.take? Opening.ofToken? with
  | none => expressionStatement cursor .afterExpression
  | some ⟨.setBlock, start, taken⟩ => (setBlock start).within (by omega)
  | some ⟨.block, start, taken⟩ =>
    start.nested cursor fun inside same =>
      (listed cursor.rest.length [] inside (by rw [same]; exact taken)).andThen
        fun body behind read =>
      (behind.symbol .rightBrace .afterBlock).andThen fun _ next closed =>
        .ok (.block body) next (by omega)
  | some ⟨.branch, start, taken⟩ =>
    start.nested cursor fun inside same =>
      (condition inside .afterIf .afterIfCondition).andThen fun decision first readCondition =>
      (statement first).andThen fun thenBranch behind readThen =>
        match behind.take? (TokenKind.exactly (.keyword .else)) with
        | none => .ok (.branch decision thenBranch none) behind (by rw [same] at *; omega)
        | some ⟨_, second, readElse⟩ =>
          (statement second).andThen fun elseBranch next readOther =>
            .ok (.branch decision thenBranch (some elseBranch)) next (by rw [same] at *; omega)
  | some ⟨.conditionalLoop, start, taken⟩ =>
    start.nested cursor fun inside same =>
      (condition inside .afterWhile .afterLoopCondition).andThen
        fun decision first readCondition =>
      (statement first).andThen fun body next readBody =>
        .ok (.loop decision body) next (by rw [same] at *; omega)
  | some ⟨.countedLoop, start, taken⟩ =>
    start.nested cursor fun inside same =>
      (loopHead inside).andThen fun head first readHead =>
      (statement first).andThen fun body next readBody =>
        .ok (head.statement body) next (by rw [same] at *; omega)
termination_by 4 * cursor.rest.length
decreasing_by
  all_goals rw [same] at *
  all_goals omega

/-- Reads what is listed up to a closing brace or the end, behind statements already read, the last
one first. -/
def listed (bound : Nat) (read : List Statement) (cursor : Cursor)
    (fits : cursor.rest.length < bound) : Outcome bound (List Statement) :=
  if cursor.kind = .symbol .rightBrace ∨ cursor.kind = .eof then .ok read.reverse cursor fits
  else
    match declaration cursor with
    | .ok item next shorter => listed bound (item :: read) next (by omega)
    | .error cause next => .error cause next
termination_by 4 * cursor.rest.length + 2
decreasing_by all_goals omega

end

/-- Reads declarations and statements up to the end, behind some already read, the last one
first. -/
def program (read : List Statement) (cursor : Cursor) : Except SyntaxError Program :=
  if cursor.kind = .eof then .ok ⟨read.reverse⟩
  else
    match declaration cursor with
    | .ok item next _shorter => program (item :: read) next
    | .error cause _ => .error cause
termination_by cursor.rest.length

end Cursor

/-- The program that a list of tokens stands for. -/
def Program.ofTokens (tokens : List Token) : Except SyntaxError Program :=
  Cursor.program [] (.ofTokens tokens)

/-- The program that a text stands for. -/
def Program.ofSource (source : String) : Except Error Program :=
  match Token.scan source with
  | .error cause => .error (.lex cause)
  | .ok tokens =>
    match Program.ofTokens tokens with
    | .error cause => .error (.parse cause)
    | .ok program => .ok program

end BlockScript
