import BlockScript.Syntax.Statements

/-!
# The readers with a place by number

The readers once more, in the form in which a parser runs over the whole row of kinds: it knows the
number of the token that it looks at and counts the levels that are open, and nothing but its own
code keeps the number in the row and the count above zero.  Whatever would be a defect of it is a
`Mishap`.  Nothing says beforehand that it ends either, so it runs on fuel.
-/

namespace BlockScript

/-- What a parser must never do. -/
inductive Mishap where
  /-- Looks behind the first end token. -/
  | passedEnd
  /-- Looks for a token that is not in the row. -/
  | outOfRange
  /-- Goes back from the first token. -/
  | beforeStart
  /-- Closes a level while none is open. -/
  | noLevel

/-- Why a parser stops without a result; a fault is in the token with the given number. -/
inductive Halt where
  | error (index : Nat) (fault : SyntaxFault)
  | mishap (cause : Mishap)
  | outOfFuel

/-- A parser in front of a token of a row of kinds. -/
structure Parser where
  kinds : List TokenKind
  index : Nat
  depth : Nat

abbrev Parse := EStateM Halt Parser

namespace Parser

variable {α : Type}

/-- The kind of the token that the parser looks at. -/
def peek : Parse TokenKind := fun parser =>
  if .eof ∈ parser.kinds.take parser.index then .error (.mishap .passedEnd) parser
  else match parser.kinds[parser.index]? with
    | some kind => .ok kind parser
    | none => .error (.mishap .outOfRange) parser

/-- The number of the token in front of the one that the parser looks at. -/
def previous : Parse Nat := fun parser =>
  match parser.index with
  | 0 => .error (.mishap .beforeStart) parser
  | index + 1 =>
    if index < parser.kinds.length then .ok index parser
    else .error (.mishap .outOfRange) parser

/-- Goes on by one token, except from an end token. -/
def advance : Parse Nat := do
  let kind ← peek
  if kind = .eof then previous
  else
    modify fun parser => { parser with index := parser.index + 1 }
    previous

/-- Whether the parser looks at a wanted token, without going on. -/
def check (want : TokenKind → Option α) : Parse (Option α) := do
  let kind ← peek
  pure (if kind = .eof then none else want kind)

/-- Goes on by one token, if it is a wanted one. -/
def accept (want : TokenKind → Option α) : Parse (Option α) := do
  match ← check want with
  | some value => do
    let _ ← advance
    pure (some value)
  | none => pure none

/-- Stops at the token that the parser looks at. -/
def stop (fault : SyntaxFault) : Parse α := do
  let parser ← get
  throw (.error parser.index fault)

def expected (what : Expectation) : Parse α := do
  let kind ← peek
  stop (.expected what kind)

def consume (mark : Symbol) (place : Place) : Parse Unit := do
  match ← check (TokenKind.exactly (.symbol mark)) with
  | some _ => do
    let _ ← advance
    pure ()
  | none => expected (.symbol mark place)

def name : Parse String := do
  match ← check TokenKind.name? with
  | some name => do
    let _ ← advance
    pure name
  | none => expected .variableName

/-! ### Levels -/

/-- Opens a level, if there is room for one. -/
def enter : Parse Unit := do
  let parser ← get
  if parser.depth < maxNesting then set { parser with depth := parser.depth + 1 }
  else
    let _ ← peek
    stop .tooDeep

def leave : Parse Unit := fun parser =>
  match parser.depth with
  | 0 => .error (.mishap .noLevel) parser
  | depth + 1 => .ok () { parser with depth }

/-- Does something at the end of a reader, which it does also if there is a fault. -/
def lastly (read : Parse α) (last : Parse Unit) : Parse α := fun parser =>
  match read parser with
  | .ok value next => (do last; pure value : Parse α) next
  | .error (.error index fault) next => (do last; throw (.error index fault) : Parse α) next
  | .error halt next => .error halt next

/-- Reads one level deeper. -/
def nested (read : Parse α) : Parse α := do
  enter
  lastly read leave

/-- Goes back to a number of levels after a reader. -/
def keeping (depth : Nat) (read : Parse α) : Parse α :=
  lastly read (modify fun parser => { parser with depth })

/-! ### Expressions -/

mutual

def expression : (fuel : Nat) → Parse Expression
  | 0 => throw .outOfFuel
  | fuel + 1 => do
    let target ← conditional fuel
    match ← check (TokenKind.exactly (.symbol .equal)) with
    | none => pure target
    | some _ => do
      let equals ← advance
      let value ← nested (expression fuel)
      match target with
      | .variable name => pure (.assign name value)
      | _ => throw (.error equals .assignmentTarget)

def conditional : (fuel : Nat) → Parse Expression
  | 0 => throw .outOfFuel
  | fuel + 1 => do
    let condition ← chain fuel Precedence.levels
    match ← accept (TokenKind.exactly (.symbol .question)) with
    | none => pure condition
    | some _ => nested do
      let thenBranch ← expression fuel
      consume .colon .inConditional
      let elseBranch ← conditional fuel
      pure (.conditional condition thenBranch elseBranch)

def chain : (fuel : Nat) → List Precedence → Parse Expression
  | 0, _ => throw .outOfFuel
  | fuel + 1, [] => unary fuel
  | fuel + 1, level :: tighter => do
    let parser ← get
    let first ← chain fuel tighter
    keeping parser.depth (links fuel level tighter first)

def links : (fuel : Nat) → Precedence → List Precedence → Expression → Parse Expression
  | 0, _, _, _ => throw .outOfFuel
  | fuel + 1, level, tighter, left => do
    match ← accept level.operator? with
    | none => pure left
    | some op => do
      enter
      let right ← chain fuel tighter
      links fuel level tighter (.binary op left right)

def unary : (fuel : Nat) → Parse Expression
  | 0 => throw .outOfFuel
  | fuel + 1 => do
    match ← accept UnaryOp.ofToken? with
    | none => primary fuel
    | some op => nested do
      let operand ← unary fuel
      pure (.unary op operand)

def primary : (fuel : Nat) → Parse Expression
  | 0 => throw .outOfFuel
  | fuel + 1 => do
    match ← accept Expression.ofToken? with
    | some value => pure value
    | none => do
      match ← check (TokenKind.exactly (.symbol .leftParen)) with
      | none => expected .expression
      | some _ => nested do
        let _ ← advance
        let inner ← expression fuel
        consume .rightParen .afterExpression
        pure (.grouping inner)

end

/-! ### Statements -/

variable (fuel : Nat)

def declared : Parse Statement := do
  let name ← name
  match ← accept (TokenKind.exactly (.symbol .equal)) with
  | none => pure (.declare name .nil)
  | some _ => do
    let value ← expression fuel
    pure (.declare name value)

def expressionStatement (place : Place) : Parse Statement := do
  let value ← expression fuel
  consume .semicolon place
  pure (.expression value)

def declarationStatement (place : Place) : Parse Statement := do
  let declaration ← declared fuel
  consume .semicolon place
  pure declaration

def condition (opened closed : Place) : Parse Expression := do
  consume .leftParen opened
  let value ← expression fuel
  consume .rightParen closed
  pure value

def loopInitializer : Parse (Option Statement) := do
  match ← accept (TokenKind.exactly (.symbol .semicolon)) with
  | some _ => pure none
  | none => do
    match ← accept (TokenKind.exactly (.keyword .let)) with
    | some _ => do
      let declaration ← declarationStatement fuel .afterLoopInitializer
      pure (some declaration)
    | none => do
      let initializer ← expressionStatement fuel .afterLoopInitializer
      pure (some initializer)

def loopCondition : Parse Expression := do
  match ← check (TokenKind.exactly (.symbol .semicolon)) with
  | some _ => do
    consume .semicolon .afterLoopCondition
    pure (.bool true)
  | none => do
    let value ← expression fuel
    consume .semicolon .afterLoopCondition
    pure value

def loopIncrement : Parse (Option Expression) := do
  match ← check (TokenKind.exactly (.symbol .rightParen)) with
  | some _ => do
    consume .rightParen .afterForClauses
    pure none
  | none => do
    let value ← expression fuel
    consume .rightParen .afterForClauses
    pure (some value)

def loopHead : Parse LoopHead := do
  consume .leftParen .afterFor
  let initializer ← loopInitializer fuel
  let condition ← loopCondition fuel
  let increment ← loopIncrement fuel
  pure ⟨initializer, condition, increment⟩

def setBlock : Parse Statement := do
  consume .leftParen .afterSetBlock
  let x ← expression fuel
  consume .comma .afterX
  let y ← expression fuel
  consume .comma .afterY
  let z ← expression fuel
  consume .comma .afterZ
  let name ← expression fuel
  consume .rightParen .afterSetBlockArguments
  consume .semicolon .afterSetBlockCall
  pure (.setBlock x y z name)

mutual

def declaration : (fuel : Nat) → Parse Statement
  | 0 => throw .outOfFuel
  | fuel + 1 => do
    match ← accept (TokenKind.exactly (.keyword .let)) with
    | some _ => declarationStatement fuel .afterDeclaration
    | none => statement fuel

def statement : (fuel : Nat) → Parse Statement
  | 0 => throw .outOfFuel
  | fuel + 1 => do
    match ← check Opening.ofToken? with
    | none => expressionStatement fuel .afterExpression
    | some .setBlock => do
      let _ ← advance
      setBlock fuel
    | some .block => nested do
      let _ ← advance
      let body ← listed fuel []
      consume .rightBrace .afterBlock
      pure (.block body)
    | some .branch => nested do
      let _ ← advance
      let decision ← condition fuel .afterIf .afterIfCondition
      let thenBranch ← statement fuel
      match ← accept (TokenKind.exactly (.keyword .else)) with
      | none => pure (.branch decision thenBranch none)
      | some _ => do
        let elseBranch ← statement fuel
        pure (.branch decision thenBranch (some elseBranch))
    | some .conditionalLoop => nested do
      let _ ← advance
      let decision ← condition fuel .afterWhile .afterLoopCondition
      let body ← statement fuel
      pure (.loop decision body)
    | some .countedLoop => nested do
      let _ ← advance
      let head ← loopHead fuel
      let body ← statement fuel
      pure (head.statement body)

/-- What is listed up to a closing brace or the end, behind statements already read, the last one
first. -/
def listed : (fuel : Nat) → List Statement → Parse (List Statement)
  | 0, _ => throw .outOfFuel
  | fuel + 1, read => do
    match ← check (TokenKind.exactly (.symbol .rightBrace)) with
    | some _ => pure read.reverse
    | none => do
      let kind ← peek
      if kind = .eof then pure read.reverse
      else
        let item ← declaration fuel
        listed fuel (item :: read)

end

def program : (fuel : Nat) → List Statement → Parse Program
  | 0, _ => throw .outOfFuel
  | fuel + 1, read => do
    let kind ← peek
    if kind = .eof then pure ⟨read.reverse⟩
    else
      let item ← declaration fuel
      program fuel (item :: read)

/-- A parser in front of the first token of a row. -/
def start (kinds : List TokenKind) : Parser :=
  ⟨kinds, 0, 0⟩

end Parser

end BlockScript
