import BlockScript.Json
import BlockScript.Limits
import BlockScript.Numeral

/-!
# Limits as JSON

Limits are an object with the fields `max_steps` and `max_instructions`, or an array with the two in
this order.  A limit is a whole number without sign, fraction or exponent, or null for none.  What
is missing keeps its default, other fields are skipped, and each of the two may be given once.
-/

namespace BlockScript.Limits

/-- A limit: a number, or null for none. -/
def limit? : Json → Option (Option Nat)
  | .null => some none
  | .number spelling =>
    match Numeral.natural? spelling.toList with
    | some limit => if limit ≤ greatest then some (some limit) else none
    | none => none
  | _ => none

/-- The values of all fields with a given key. -/
def fieldsOf (key : String) (fields : List (Option String × Json)) : List Json :=
  (fields.filter (·.1 == some key)).map (·.2)

/-- The limit of a given key, which is a default if it is missing and none if it is repeated. -/
def field? (key : String) (default : Option Nat) (fields : List (Option String × Json)) :
    Option (Option Nat) :=
  match fieldsOf key fields with
  | [] => some default
  | [value] => limit? value
  | _ => none

/-- The limits that a JSON value stands for. -/
def ofJson? : Json → Option Limits
  | .object fields =>
    -- A key has to be a text, even one that is skipped.
    if fields.all (·.1.isSome) then do
      let maxSteps ← field? "max_steps" default.maxSteps fields
      let maxInstructions ← field? "max_instructions" default.maxInstructions fields
      return ⟨maxSteps, maxInstructions⟩
    else none
  | .array [] => some default
  | .array [maxSteps] => (limit? maxSteps).map default.withMaxSteps
  | .array [maxSteps, maxInstructions] => do
    let maxSteps ← limit? maxSteps
    let maxInstructions ← limit? maxInstructions
    return ⟨maxSteps, maxInstructions⟩
  | _ => none

/-- The limits that a JSON text stands for. -/
def ofJsonText? (text : String) : Option Limits :=
  (Json.parse? text).bind ofJson?

end BlockScript.Limits
