import BlockScript.Console

/-!
# Command line

The first argument names a script, which is built onto the console.  The limits come from the
variables of the environment.
-/

namespace BlockScript.CommandLine

/-- More steps than any run takes in practice. -/
def plentyOfFuel : Nat := Nat.pow 2 62

def readingFailure : IO.Error → String
  | .noFileOrDirectory .. => "No such file or directory (os error 2)"
  | .permissionDenied .. => "Permission denied (os error 13)"
  | .inappropriateType .. => "Is a directory (os error 21)"
  | error => toString error

/-- What the program prints for its arguments. -/
def transcript (arguments : List String) : IO Console.Transcript := do
  match arguments with
  | [] => return Console.withoutScript
  | path :: _ =>
    match ← (IO.FS.readBinFile path).toBaseIO with
    | .error error => return Console.unreadable path (readingFailure error)
    | .ok bytes =>
      let some source := String.fromUTF8? bytes
        | return Console.unreadable path "stream did not contain valid UTF-8"
      let limits ← Limits.ofEnvironment (m := BaseIO) IO.getEnv
      return (Console.run plentyOfFuel path source limits).getD Console.withoutScript

end BlockScript.CommandLine

def main (arguments : List String) : IO UInt32 := do
  let said ← BlockScript.CommandLine.transcript arguments
  IO.print said.output
  IO.eprint said.errors
  return said.exitCode.toUInt32
