/-!
# Programs

The syntax trees of the language.  There is no tree for a counted loop: reading one yields a block
around a conditional loop.
-/

namespace BlockScript

inductive UnaryOp where
  | neg
  | not
  deriving DecidableEq, Repr

inductive BinaryOp where
  | add
  | sub
  | mul
  | div
  | mod
  | eq
  | notEq
  | lt
  | gt
  | ltEq
  | gtEq
  | and
  | or
  deriving DecidableEq, Repr

def UnaryOp.symbol : UnaryOp → String
  | .neg => "-"
  | .not => "!"

def BinaryOp.symbol : BinaryOp → String
  | .add => "+"
  | .sub => "-"
  | .mul => "*"
  | .div => "/"
  | .mod => "%"
  | .eq => "=="
  | .notEq => "!="
  | .lt => "<"
  | .gt => ">"
  | .ltEq => "<="
  | .gtEq => ">="
  | .and => "&&"
  | .or => "||"

inductive Operator where
  | unary (op : UnaryOp)
  | binary (op : BinaryOp)
  deriving DecidableEq, Repr

def Operator.symbol : Operator → String
  | .unary op => op.symbol
  | .binary op => op.symbol

/-- What has a value. -/
inductive Expression where
  | number (value : Float)
  | string (value : String)
  | bool (value : Bool)
  | nil
  | variable (name : String)
  | assign (name : String) (value : Expression)
  | unary (op : UnaryOp) (operand : Expression)
  | binary (op : BinaryOp) (left right : Expression)
  | conditional (condition thenBranch elseBranch : Expression)
  | grouping (inner : Expression)
  deriving DecidableEq

/-- What is carried out. -/
inductive Statement where
  | expression (value : Expression)
  | declare (name : String) (initializer : Expression)
  | block (body : List Statement)
  | branch (condition : Expression) (thenBranch : Statement) (elseBranch : Option Statement)
  | loop (condition : Expression) (body : Statement)
  | setBlock (x y z name : Expression)

/-- A program: statements that are carried out in order. -/
structure Program where
  statements : List Statement

end BlockScript
