import BlockScript.Syntax.Expressions

/-!
# Grammar

Which rows of tokens form which programs, told without reading them.  `Phrase` is the grammar of
expressions, `Sentence` that of declarations and statements, and `Program.Derives` that of programs.
Statements come with the levels that they open; the levels of an expression can be told from its
tree (`Expression.nesting`).
-/

namespace BlockScript

/-! ### Expressions -/

/-- The symbol that an operator with two operands is written as. -/
def BinaryOp.mark : BinaryOp → Symbol
  | .add => .plus
  | .sub => .minus
  | .mul => .star
  | .div => .slash
  | .mod => .percent
  | .eq => .equalEqual
  | .notEq => .bangEqual
  | .lt => .less
  | .gt => .greater
  | .ltEq => .lessEqual
  | .gtEq => .greaterEqual
  | .and => .andAnd
  | .or => .orOr

/-- The level at which an operator with two operands binds. -/
def BinaryOp.precedence : BinaryOp → Precedence
  | .or => .disjunction
  | .and => .conjunction
  | .eq | .notEq => .equality
  | .lt | .gt | .ltEq | .gtEq => .comparison
  | .add | .sub => .sum
  | .mul | .div | .mod => .product

/-- The symbol that an operator with one operand is written as. -/
def UnaryOp.mark : UnaryOp → Symbol
  | .neg => .minus
  | .not => .bang

/-- The token that a literal or a name consists of. -/
def Expression.token? : Expression → Option TokenKind
  | .number value => some (.number value)
  | .string value => some (.string value)
  | .bool true => some (.keyword .true)
  | .bool false => some (.keyword .false)
  | .nil => some (.keyword .nil)
  | .variable name => some (.identifier name)
  | _ => none

/-- How tightly an expression binds, from the loosest to the tightest. -/
inductive Rank where
  | assignment
  | conditional
  | operators (level : Precedence)
  | unary
  | primary
  deriving DecidableEq, Repr

/-- How tightly the operands of a level bind, apart from the left one of a chain. -/
def Precedence.operand : Precedence → Rank
  | .disjunction => .operators .conjunction
  | .conjunction => .operators .equality
  | .equality => .operators .comparison
  | .comparison => .operators .sum
  | .sum => .operators .product
  | .product => .unary

/-- `Phrase rank source value` says that a row of tokens is an expression of a rank. -/
inductive Phrase : Rank → List TokenKind → Expression → Prop where
  | assign {name source value} :
    Phrase .assignment source value →
      Phrase .assignment (.identifier name :: .symbol .equal :: source) (.assign name value)
  | ofConditional {source value} :
    Phrase .conditional source value → Phrase .assignment source value
  | conditional {first second third condition thenBranch elseBranch} :
    Phrase (.operators .disjunction) first condition → Phrase .assignment second thenBranch →
      Phrase .conditional third elseBranch →
      Phrase .conditional (first ++ .symbol .question :: second ++ .symbol .colon :: third)
        (.conditional condition thenBranch elseBranch)
  | ofOperators {source value} :
    Phrase (.operators .disjunction) source value → Phrase .conditional source value
  | binary {op level first second left right} :
    op.precedence = level → Phrase (.operators level) first left →
      Phrase level.operand second right →
      Phrase (.operators level) (first ++ .symbol op.mark :: second) (.binary op left right)
  | ofOperand {level source value} :
    Phrase level.operand source value → Phrase (.operators level) source value
  | unary {op source operand} :
    Phrase .unary source operand →
      Phrase .unary (.symbol op.mark :: source) (.unary op operand)
  | ofPrimary {source value} : Phrase .primary source value → Phrase .unary source value
  | atom {kind value} : value.token? = some kind → Phrase .primary [kind] value
  | grouping {source inner} :
    Phrase .assignment source inner →
      Phrase .primary (.symbol .leftParen :: source ++ [.symbol .rightParen]) (.grouping inner)

namespace Expression

/-- How many operators of a level stand in the chain that an expression is. -/
def links (level : Precedence) : Expression → Nat
  | .binary op left _ => if op.precedence = level then links level left + 1 else 0
  | _ => 0

/-- How many levels are open at once while an expression is read.  An operator of a chain opens a
level that stays open to the end of the chain, so the operand behind it stands inside the levels of
all operators before it; the first operand stands outside of them. -/
def nesting : Expression → Nat
  | .assign _ value => nesting value + 1
  | .unary _ operand => nesting operand + 1
  | .binary op left right => max (nesting left) (links op.precedence left + 1 + nesting right)
  | .conditional condition thenBranch elseBranch =>
    max (nesting condition) (max (nesting thenBranch) (nesting elseBranch) + 1)
  | .grouping inner => nesting inner + 1
  | _ => 0

end Expression

/-! ### Statements -/

/-- A row of tokens is an expression that opens no more levels than there is room for. -/
def Phrase.Within (room : Nat) (source : List TokenKind) (value : Expression) : Prop :=
  Phrase .assignment source value ∧ value.nesting ≤ room

/-- A declaration without the semicolon that ends it. -/
inductive Declaration (room : Nat) : List TokenKind → Statement → Prop where
  | plain {name} : Declaration room [.keyword .let, .identifier name] (.declare name .nil)
  | initialized {name source value} :
    Phrase.Within room source value →
      Declaration room (.keyword .let :: .identifier name :: .symbol .equal :: source)
        (.declare name value)

/-- What may stand in front of the first semicolon of a counted loop. -/
inductive LoopStart (room : Nat) : List TokenKind → Option Statement → Prop where
  | absent : LoopStart room [] none
  | declaration {source statement} :
    Declaration room source statement → LoopStart room source (some statement)
  | expression {source value} :
    Phrase.Within room source value → LoopStart room source (some (.expression value))

/-- What may stand between the semicolons of a counted loop. -/
inductive LoopTest (room : Nat) : List TokenKind → Expression → Prop where
  | absent : LoopTest room [] (.bool true)
  | expression {source value} : Phrase.Within room source value → LoopTest room source value

/-- What may stand behind the second semicolon of a counted loop. -/
inductive LoopUpdate (room : Nat) : List TokenKind → Option Statement → Prop where
  | absent : LoopUpdate room [] none
  | expression {source value} :
    Phrase.Within room source value → LoopUpdate room source (some (.expression value))

/-- What a row of tokens may be in a program. -/
inductive Form where
  /-- A declaration or a statement. -/
  | item
  /-- A statement; it is open at its end if an `else` behind it would belong to it. -/
  | statement (opens : Bool)
  deriving DecidableEq, Repr

/-- `Sentence form room source statement` says that a row of tokens is a declaration or a statement
that opens no more levels than there is room for. -/
inductive Sentence : Form → Nat → List TokenKind → Statement → Prop where
  | declaration {room source statement} :
    Declaration room source statement →
      Sentence .item room (source ++ [.symbol .semicolon]) statement
  | ofStatement {opens room source statement} :
    Sentence (.statement opens) room source statement → Sentence .item room source statement
  | expression {room source value} :
    Phrase.Within room source value →
      Sentence (.statement false) room (source ++ [.symbol .semicolon]) (.expression value)
  | setBlock {room first second third fourth x y z name} :
    Phrase.Within room first x → Phrase.Within room second y → Phrase.Within room third z →
      Phrase.Within room fourth name →
      Sentence (.statement false) room
        (.keyword .setBlock :: .symbol .leftParen :: first ++ .symbol .comma :: second ++
          .symbol .comma :: third ++ .symbol .comma :: fourth ++
          [.symbol .rightParen, .symbol .semicolon])
        (.setBlock x y z name)
  | block {room} {items : List (List TokenKind × Statement)} :
    (∀ item ∈ items, Sentence .item room item.1 item.2) →
      Sentence (.statement false) (room + 1)
        (.symbol .leftBrace :: items.flatMap (·.1) ++ [.symbol .rightBrace])
        (.block (items.map (·.2)))
  | branch {opens room first second condition thenBranch} :
    Phrase.Within room first condition → Sentence (.statement opens) room second thenBranch →
      Sentence (.statement true) (room + 1)
        (.keyword .if :: .symbol .leftParen :: first ++ .symbol .rightParen :: second)
        (.branch condition thenBranch none)
  | branchElse {opens room first second third condition thenBranch elseBranch} :
    Phrase.Within room first condition → Sentence (.statement false) room second thenBranch →
      Sentence (.statement opens) room third elseBranch →
      Sentence (.statement opens) (room + 1)
        (.keyword .if :: .symbol .leftParen :: first ++ .symbol .rightParen :: second ++
          .keyword .else :: third)
        (.branch condition thenBranch (some elseBranch))
  | loop {opens room first second condition body} :
    Phrase.Within room first condition → Sentence (.statement opens) room second body →
      Sentence (.statement opens) (room + 1)
        (.keyword .while :: .symbol .leftParen :: first ++ .symbol .rightParen :: second)
        (.loop condition body)
  | countedLoop {opens room first second third fourth start test update body} :
    LoopStart room first start → LoopTest room second test → LoopUpdate room third update →
      Sentence (.statement opens) room fourth body →
      Sentence (.statement opens) (room + 1)
        (.keyword .for :: .symbol .leftParen :: first ++ .symbol .semicolon :: second ++
          .symbol .semicolon :: third ++ .symbol .rightParen :: fourth)
        (.block (start.toList ++ [.loop test (.block (body :: update.toList))]))

/-- A row of tokens is a program that opens no more levels than there is room for. -/
def Program.Derives (room : Nat) (source : List TokenKind) (program : Program) : Prop :=
  ∃ items : List (List TokenKind × Statement),
    (∀ item ∈ items, Sentence .item room item.1 item.2) ∧
      items.flatMap (·.1) = source ∧ items.map (·.2) = program.statements

end BlockScript
