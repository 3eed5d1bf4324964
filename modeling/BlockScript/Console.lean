import BlockScript.Build
import BlockScript.Limits.Setting

/-!
# The console program

A script is built onto the console: every command is printed instead of being carried out.
-/

namespace BlockScript.Console

/-- What the program prints and how it ends. -/
structure Transcript where
  exitCode : Nat
  output : String
  errors : String
  deriving DecidableEq, Repr

def usage : String := "Usage: cargo run --example run_file <script.mb>"

/-- A text under a heading: each of its lines is indented. -/
def indented (text : String) : String :=
  String.join (text.toList.map fun character =>
    if character = '\n' then "\n    " else character.toString)

/-- The report of a failure, with its cause if it has one. -/
def failure (what : String) (cause : Option String) : String :=
  match cause with
  | some cause => "Error: " ++ what ++ "\n\nCaused by:\n    " ++ indented cause ++ "\n"
  | none => "Error: " ++ what ++ "\n"

/-- The program called without a script. -/
def withoutScript : Transcript := ⟨1, "", failure usage none⟩

/-- The program called with a script that cannot be read. -/
def unreadable (path cause : String) : Transcript :=
  ⟨1, "", failure ("Error reading file '" ++ path ++ "'") (some cause)⟩

def heading (path : String) : String :=
  "Building: " ++ path ++ "\n" ++ String.ofList (List.replicate 60 '=') ++ "\n"

/-- Prints commands instead of carrying them out; keeps the lines, the last one first. -/
def printer : Sink (List String) :=
  ⟨fun command (lines, cancellation) => ((command.printed ++ "\n") :: lines, cancellation)⟩

/-- What is printed behind the commands of a build that did not fail. -/
def closing : BuildOutcome → String
  | .completed placed => "\nDone: " ++ toString placed ++ " blocks placed\n"
  | .cancelled placed => "\nCancelled after " ++ toString placed ++ " blocks\n"

/-- Builds a script onto the console. -/
def run (fuel : Nat) (path source : String) (limits : Limits) : Option Transcript :=
  (printer.build fuel source limits ([], .none)).map fun (outcome, lines, _) =>
    let printed := heading path ++ String.join lines.reverse
    match outcome with
    | .ok outcome => ⟨0, printed ++ closing outcome, ""⟩
    | .error error =>
      ⟨1, printed, failure ("Failed to build '" ++ path ++ "'") (some error.message)⟩

end BlockScript.Console
