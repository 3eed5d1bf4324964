import BlockScript.Command
import BlockScript.Environment
import BlockScript.Value.Coordinate

/-!
# Evaluation

The value of an expression in an environment.  Assignments change the environment, and what an
expression has changed before it fails stays changed.
-/

namespace BlockScript

/-- Computations on an environment, which keeps its changes when they fail. -/
abbrev Evaluation := EStateM RuntimeError Environment

namespace Evaluation

def get (name : String) : Evaluation Value := fun environment =>
  match environment.get? name with
  | some value => .ok value environment
  | none => .error (.undefinedVariable name) environment

def assign (name : String) (value : Value) : Evaluation Unit := fun environment =>
  match environment.assign? name value with
  | some changed => .ok () changed
  | none => .error (.undefinedVariable name) environment

/-- An outcome that does not depend on the environment. -/
def ofExcept {α : Type} (outcome : Except RuntimeError α) : Evaluation α := fun environment =>
  match outcome with
  | .ok value => .ok value environment
  | .error error => .error error environment

end Evaluation

def UnaryOp.apply (op : UnaryOp) (operand : Value) : Except RuntimeError Value :=
  match op, operand with
  | .not, operand => .ok (.bool !operand.truthy)
  | .neg, .number amount => .ok (.number (-amount))
  | .neg, operand => .error (.operandNotNumber (.unary .neg) operand.type)

namespace BinaryOp

/-- Applies a function to two numbers; the left operand is the first to be no number. -/
def numeric (op : BinaryOp) (result : Float → Float → Value) (left right : Value) :
    Except RuntimeError Value :=
  match left.number?, right.number? with
  | some first, some second => .ok (result first second)
  | none, _ => .error (.operandNotNumber (.binary op) left.type)
  | some _, none => .error (.operandNotNumber (.binary op) right.type)

/-- The sum of two numbers, or the texts of two other values one after the other. -/
def sum : Value → Value → Value
  | .number left, .number right => .number (left + right)
  | left, right => .string (left.printed ++ right.printed)

/-- The value of an operator once both operands have values.  The logical operators come here only
if the left operand leaves the decision to the right one. -/
def apply (op : BinaryOp) (left right : Value) : Except RuntimeError Value :=
  match op with
  | .add => .ok (sum left right)
  | .sub => numeric op (fun a b => .number (a - b)) left right
  | .mul => numeric op (fun a b => .number (a * b)) left right
  | .div => numeric op (fun a b => .number (a / b)) left right
  | .mod => numeric op (fun a b => .number (Number.remainder a b)) left right
  | .lt => numeric op (fun a b => .bool (a < b)) left right
  | .ltEq => numeric op (fun a b => .bool (a ≤ b)) left right
  | .gt => numeric op (fun a b => .bool (b < a)) left right
  | .gtEq => numeric op (fun a b => .bool (b ≤ a)) left right
  | .eq => .ok (.bool (left.looseEq right))
  | .notEq => .ok (.bool !(left.looseEq right))
  | .and => .ok (.bool right.truthy)
  | .or => .ok (.bool right.truthy)

/-- The value of an operator whose left operand decides alone. -/
def decided? (op : BinaryOp) (left : Value) : Option Value :=
  match op with
  | .and => if left.truthy then none else some (.bool false)
  | .or => if left.truthy then some (.bool true) else none
  | _ => none

end BinaryOp

namespace Expression

def evaluate : Expression → Evaluation Value
  | .number value => pure (.number value)
  | .string value => pure (.string value)
  | .bool value => pure (.bool value)
  | .nil => pure .nil
  | .variable name => Evaluation.get name
  | .assign name value => do
    -- The name is looked up last, so errors in the value come first.
    let assigned ← evaluate value
    Evaluation.assign name assigned
    pure assigned
  | .grouping inner => evaluate inner
  | .conditional condition thenBranch elseBranch => do
    let decision ← evaluate condition
    if decision.truthy then evaluate thenBranch else evaluate elseBranch
  | .unary op operand => do
    let value ← evaluate operand
    Evaluation.ofExcept (op.apply value)
  | .binary op left right => do
    let first ← evaluate left
    match op.decided? first with
    | some value => pure value
    | none => do
      let second ← evaluate right
      Evaluation.ofExcept (op.apply first second)

/-- The coordinate that an expression yields on an axis. -/
def coordinate (axis : Char) (expression : Expression) : Evaluation Int32 := do
  let value ← expression.evaluate
  Evaluation.ofExcept (value.toCoordinate axis)

end Expression

/-- The command that the four arguments of a `setBlock` statement yield, evaluated in order. -/
def Command.evaluate (x y z name : Expression) : Evaluation Command := do
  let x ← x.coordinate 'x'
  let y ← y.coordinate 'y'
  let z ← z.coordinate 'z'
  let name ← name.evaluate
  pure ⟨x, y, z, name.printed⟩

end BlockScript
