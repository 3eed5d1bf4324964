import BlockScript.Machine

/-!
# Runners

A runner hands out the commands of a program one at a time.  After the last one, or after an error,
it has nothing more to hand out.
-/

namespace BlockScript

/-- A run whose commands are taken one at a time. -/
structure Runner where
  machine : Machine
  done : Bool

/-- What a run that ended without an error amounts to. -/
structure RunSummary where
  instructions : Nat
  steps : Nat
  deriving DecidableEq, Repr

namespace Runner

def start (program : Program) (limits : Limits) : Runner :=
  ⟨.start program limits, false⟩

def steps (runner : Runner) : Nat := runner.machine.steps

def emitted (runner : Runner) : Nat := runner.machine.emitted

/-- The next command, none at the end, or an error.  There is no answer if this takes more steps
than the fuel allows. -/
def next (fuel : Nat) (runner : Runner) :
    Option (Except RuntimeError (Option Command) × Runner) :=
  if runner.done then some (.ok none, runner)
  else
    match runner.machine.nextCommand fuel with
    | none => none
    | some (.ok (some command), machine) => some (.ok (some command), ⟨machine, false⟩)
    | some (.ok none, machine) => some (.ok none, ⟨machine, true⟩)
    | some (.error error, machine) => some (.error error, ⟨machine, true⟩)

/-- Takes commands to the end of the run, behind some already taken, the last one first.  Yields all
of them, the error if there is one, and the runner at its end.  There is no answer if one command
takes more steps, or the run has more commands, than allowed. -/
def drain (fuel : Nat) : (pulls : Nat) → (taken : List Command) → Runner →
    Option (List Command × Option RuntimeError × Runner)
  | 0, _, _ => none
  | pulls + 1, taken, runner =>
    match runner.next fuel with
    | none => none
    | some (.ok (some command), runner) => drain fuel pulls (command :: taken) runner
    | some (.ok none, runner) => some (taken.reverse, none, runner)
    | some (.error error, runner) => some (taken.reverse, some error, runner)

/-- Lets a run go to its end and forgets its commands. -/
def finish (fuel : Nat) : (pulls : Nat) → Runner → Option (Except RuntimeError Runner)
  | 0, _ => none
  | pulls + 1, runner =>
    match runner.next fuel with
    | none => none
    | some (.ok (some _), runner) => finish fuel pulls runner
    | some (.ok none, runner) => some (.ok runner)
    | some (.error error, _) => some (.error error)

end Runner

/-- Runs a program without any effect, to see whether it ends without an error.  The fuel bounds the
steps before each command and the number of commands. -/
def Program.validate (fuel : Nat) (program : Program) (limits : Limits) :
    Option (Except RuntimeError RunSummary) :=
  (Runner.finish fuel fuel (.start program limits)).map fun outcome =>
    outcome.map fun runner => ⟨runner.emitted, runner.steps⟩

end BlockScript
