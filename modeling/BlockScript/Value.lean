import BlockScript.Number.Text

/-!
# Values

What expressions evaluate to.  Text is made of a value by `Value.printed`, which also decides
equality between values of different types.
-/

namespace BlockScript

inductive ValueType where
  | nil
  | bool
  | number
  | string
  deriving DecidableEq, Repr

def ValueType.name : ValueType → String
  | .nil => "nil"
  | .bool => "bool"
  | .number => "number"
  | .string => "string"

/-- What an expression evaluates to. -/
inductive Value where
  | nil
  | bool (value : Bool)
  | number (value : Float)
  | string (value : String)
  deriving DecidableEq

namespace Value

def type : Value → ValueType
  | .nil => .nil
  | .bool _ => .bool
  | .number _ => .number
  | .string _ => .string

/-- Whether a value counts as true: everything but nil, false and zero. -/
def truthy : Value → Bool
  | .nil => false
  | .bool value => value
  | .number value => value != 0
  | .string _ => true

/-- The number that a value is, if it is one. -/
def number? : Value → Option Float
  | .number value => some value
  | _ => none

/-- Integers from here on are printed as their shortest decimal. -/
def integerLimit : Int := 9000000000000000

/-- The text of a number.  A moderate integer is written as such, so minus zero loses its sign. -/
def printedNumber (number : Float) : String :=
  match Number.integer? number with
  | some integer =>
    if -integerLimit < integer ∧ integer < integerLimit then toString integer
    else Number.text number
  | none => Number.text number

def printed : Value → String
  | .nil => "nil"
  | .bool true => "true"
  | .bool false => "false"
  | .number value => printedNumber value
  | .string value => value

/-- Equality of the language: nil equals nil alone, numbers compare as numbers, and all else
compares by its text. -/
def looseEq : Value → Value → Bool
  -- The text `nil` does not equal nil, so nil is told apart before texts are compared.
  | .nil, .nil => true
  | .nil, _ => false
  | _, .nil => false
  | .number left, .number right => left == right
  | left, right => left.printed == right.printed

/-- Equality of type and content; numbers compare as numbers, so NaN differs from itself. -/
def strictEq : Value → Value → Bool
  | .nil, .nil => true
  | .bool left, .bool right => left == right
  | .number left, .number right => left == right
  | .string left, .string right => left == right
  | _, _ => false

end Value

end BlockScript
