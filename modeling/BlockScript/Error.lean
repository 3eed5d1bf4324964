import BlockScript.Syntax
import BlockScript.Token.Scan
import BlockScript.Value

/-!
# Errors

Everything that can go wrong, as causes.  The wording is in the `message` functions alone.
-/

namespace BlockScript

/-- The places in a program at which one particular symbol has to stand. -/
inductive Place where
  | afterDeclaration
  | afterExpression
  | afterBlock
  | afterIf
  | afterIfCondition
  | afterWhile
  | afterLoopCondition
  | afterFor
  | afterLoopInitializer
  | afterForClauses
  | afterSetBlock
  | afterX
  | afterY
  | afterZ
  | afterSetBlockArguments
  | afterSetBlockCall
  | inConditional
  deriving DecidableEq, Repr

def Place.description : Place → String
  | .afterDeclaration => "after variable declaration"
  | .afterExpression => "after expression"
  | .afterBlock => "after block"
  | .afterIf => "after `if`"
  | .afterIfCondition => "after if condition"
  | .afterWhile => "after `while`"
  | .afterLoopCondition => "after loop condition"
  | .afterFor => "after `for`"
  | .afterLoopInitializer => "after loop initializer"
  | .afterForClauses => "after for clauses"
  | .afterSetBlock => "after `setBlock`"
  | .afterX => "after x coordinate"
  | .afterY => "after y coordinate"
  | .afterZ => "after z coordinate"
  | .afterSetBlockArguments => "after setBlock arguments"
  | .afterSetBlockCall => "after setBlock call"
  | .inConditional => "in conditional expression"

/-- What has to stand somewhere in a program. -/
inductive Expectation where
  | expression
  | variableName
  | symbol (mark : Symbol) (place : Place)
  deriving DecidableEq, Repr

def Expectation.description : Expectation → String
  | .expression => "expression"
  | .variableName => "variable name"
  | .symbol mark place => (TokenKind.symbol mark).description ++ " " ++ place.description

/-- How deeply a program may be nested.  Blocks, branches, loops, parentheses, unary operators,
assignments, conditional expressions and each further operator of a chain count as one level. -/
def maxNesting : Nat := 128

/-- Why a list of tokens is no program. -/
inductive SyntaxFault where
  | expected (what : Expectation) (found : TokenKind)
  | tooDeep
  | assignmentTarget
  /-- A fault that is stated in words. -/
  | stated (message : String)
  deriving DecidableEq

/-- A place in a list of tokens at which it stops being a program. -/
structure SyntaxError where
  position : Position
  fault : SyntaxFault
  deriving DecidableEq

/-- Why a program cannot go on. -/
inductive RuntimeError where
  | undefinedVariable (name : String)
  | operandNotNumber (operator : Operator) (found : ValueType)
  | nonFiniteCoordinate (axis : Char) (value : String)
  | coordinateOutOfRange (axis : Char) (value : String)
  | invalidCoordinate (axis : Char) (value : String)
  | stepLimitExceeded (limit : Nat)
  | instructionLimitExceeded (limit : Nat)
  deriving DecidableEq, Repr

inductive Error where
  | lex (cause : LexError)
  | parse (cause : SyntaxError)
  | runtime (cause : RuntimeError)
  | config (message : String)
  deriving DecidableEq

inductive Phase where
  | lex
  | parse
  | runtime
  | config
  deriving DecidableEq, Repr

def LexFault.message : LexFault → String
  | .unexpected character => "Unexpected character '" ++ character.toString ++ "'"
  | .single character =>
    let found := character.toString
    "Unexpected character '" ++ found ++ "' (did you mean '" ++ found ++ found ++ "'?)"
  | .unterminatedString => "Unterminated string"
  | .stated message => message

def SyntaxFault.message : SyntaxFault → String
  | .expected what found => "Expected " ++ what.description ++ ", found " ++ found.description
  | .tooDeep =>
    "Expected at most " ++ toString maxNesting ++ " nested levels, found deeper nesting"
  | .assignmentTarget => "Invalid assignment target, expected a variable name before `=`"
  | .stated message => message

def Position.description (position : Position) : String :=
  "line " ++ toString position.line ++ ", column " ++ toString position.column

def RuntimeError.message : RuntimeError → String
  | .undefinedVariable name => "Undefined variable '" ++ name ++ "'"
  | .operandNotNumber operator found =>
    "Operand must be a number for operator '" ++ operator.symbol ++ "', found " ++ found.name
  | .nonFiniteCoordinate axis value =>
    "Coordinate " ++ axis.toString ++ " is not finite: " ++ value
  | .coordinateOutOfRange axis value =>
    "Coordinate " ++ axis.toString ++ " is out of range: " ++ value
  | .invalidCoordinate axis value =>
    "Expected integer-like value for coordinate " ++ axis.toString ++ ", got: " ++ value
  | .stepLimitExceeded limit => "Step limit exceeded (max: " ++ toString limit ++ " steps)"
  | .instructionLimitExceeded limit =>
    "Instruction limit exceeded (max: " ++ toString limit ++ " setBlock calls)"

namespace Error

def message : Error → String
  | .lex cause =>
    "Lex error at " ++ cause.position.description ++ ": " ++ cause.fault.message
  | .parse cause =>
    "Parse error at " ++ cause.position.description ++ ": " ++ cause.fault.message
  | .runtime cause => cause.message
  | .config message => "Configuration error: " ++ message

def phase : Error → Phase
  | .lex _ => .lex
  | .parse _ => .parse
  | .runtime _ => .runtime
  | .config _ => .config

/-- Where in the text an error lies; only errors found before a program runs lie in the text. -/
def position? : Error → Option Position
  | .lex cause => some cause.position
  | .parse cause => some cause.position
  | .runtime _ => none
  | .config _ => none

def isRuntime (error : Error) : Bool :=
  error.phase == .runtime

end Error

end BlockScript
