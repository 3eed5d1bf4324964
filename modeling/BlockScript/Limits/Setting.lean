import BlockScript.Limits
import BlockScript.WhiteSpace
import BlockScript.Numeral

/-!
# Limits as settings

The limits of a run as the user sets them, one text for each.  Zero or the word `none` takes a limit
away, a positive numeral sets it, and a text that is neither leaves it as it is.
-/

namespace BlockScript

/-- What a setting does to a limit. -/
inductive Setting where
  | ignored
  | unlimited
  | limited (limit : Nat)
  deriving DecidableEq, Repr

namespace Setting

/-- Whether a text is a word, given in lower case, up to the case of ASCII letters. -/
def isWord (word text : List Char) : Bool :=
  text.map Char.toLower == word

/-- What a text says about a limit. -/
def ofText (text : String) : Setting :=
  let trimmed := trimWhiteSpace text.toList
  if isWord ['n', 'o', 'n', 'e'] trimmed then .unlimited
  else
    match Numeral.unsigned? trimmed with
    | some limit => if limit = 0 then .unlimited else .limited limit.toNat
    | none => .ignored

def apply (setting : Setting) (limit : Option Nat) : Option Nat :=
  match setting with
  | .ignored => limit
  | .unlimited => none
  | .limited limit => some limit

end Setting

namespace Limits

/-- A limit after its text, if it has one, has been heeded. -/
def heed (limit : Option Nat) (text? : Option String) : Option Nat :=
  match text? with
  | some text => (Setting.ofText text).apply limit
  | none => limit

/-- The default limits, changed by the texts that the user has set. -/
def ofSettings (maxSteps maxInstructions : Option String) : Limits :=
  ⟨heed default.maxSteps maxSteps, heed default.maxInstructions maxInstructions⟩

/-- The variable of the environment that sets the number of steps. -/
def maxStepsVariable : String := "MINIBLOCKS_MAX_STEPS"

/-- The variable of the environment that sets the number of commands. -/
def maxInstructionsVariable : String := "MINIBLOCKS_MAX_INSTRUCTIONS"

/-- The default limits, changed by the variables of an environment.  Looking up a variable gives its
text, if it is set to one. -/
def ofEnvironment {m : Type → Type} [Monad m] (lookup : String → m (Option String)) : m Limits := do
  let maxSteps ← lookup maxStepsVariable
  let maxInstructions ← lookup maxInstructionsVariable
  return ofSettings maxSteps maxInstructions

end Limits

end BlockScript
