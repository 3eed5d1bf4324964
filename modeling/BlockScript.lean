import BlockScript.Limits.Json
import BlockScript.Main
import BlockScript.Proofs.Build.Passes
import BlockScript.Proofs.Grammar.Height
import BlockScript.Proofs.Machine.Budget
import BlockScript.Proofs.Machine.Refinement
import BlockScript.Proofs.Token.Layout
import BlockScript.Proofs.Number.Decoding
import BlockScript.Proofs.Number.Rounding
import BlockScript.Proofs.Value.Coordinate
import BlockScript.Proofs.Evaluation
import BlockScript.Proofs.Token.Spacing
import BlockScript.Proofs.Machine.Frames
import BlockScript.Proofs.Machine.Scopes
import BlockScript.Proofs.Machine.Visibility
import BlockScript.Proofs.Grammar.Offense
import BlockScript.Proofs.Token.Strings
import BlockScript.Proofs.Machine.Calls
import BlockScript.Proofs.Runner.Pulls
import BlockScript.Proofs.Number.Literals
import BlockScript.Proofs.Command.Printed
import BlockScript.Proofs.Command.Escapes
import BlockScript.Proofs.Environment.Nesting
import BlockScript.Proofs.Evaluation.Updates
import BlockScript.Proofs.Build.StepLimit
import BlockScript.Proofs.Build.Histories
import BlockScript.Proofs.Syntax.Parts
import BlockScript.Proofs.Machine.Stack
import BlockScript.Proofs.Machine.LoopFree
import BlockScript.Proofs.Grammar.Safety
import BlockScript.Proofs.Grammar.Kinds
import BlockScript.Proofs.Token.Faults
import BlockScript.Proofs.Build.Errors
import BlockScript.Proofs.Number.Order
import BlockScript.Proofs.Machine.Counting
import BlockScript.Proofs.Number.Neighbourhoods
import BlockScript.Proofs.Number.Positional
import BlockScript.Proofs.Value.Equality
import BlockScript.Proofs.Limits.Settings
import BlockScript.Proofs.Machine.Renaming
import BlockScript.Proofs.Machine.Grouping
import BlockScript.Proofs.Machine.Wrapping
import BlockScript.Proofs.Grammar.Balance
