import BlockScript.Runner
import BlockScript.Syntax.Statements

/-!
# Builds

Setting blocks cannot be undone.  A build therefore runs its program twice: first without any
effect, and only if that run ends without an error a second time, when the commands are carried out.
Between two commands a build heeds requests to stop, which may come from what carries them out.
-/

namespace BlockScript

/-- Whether a stop is requested; a request stands until it is withdrawn. -/
structure Cancellation where
  requested : Bool
  deriving DecidableEq, Repr

namespace Cancellation

def none : Cancellation := ⟨false⟩

def request (_ : Cancellation) : Cancellation := ⟨true⟩

def withdraw (_ : Cancellation) : Cancellation := ⟨false⟩

end Cancellation

/-- What carries commands out.  It has a state of its own, and while it carries out a command it may
also request a stop or withdraw the request. -/
structure Sink (State : Type) where
  place : Command → State × Cancellation → State × Cancellation

/-- What carries commands out without any effect. -/
def Sink.null {State : Type} : Sink State := ⟨fun _ state => state⟩

/-- How a build ends. -/
inductive BuildOutcome where
  | completed (placed : Nat)
  | cancelled (placed : Nat)
  deriving DecidableEq, Repr

namespace BuildOutcome

def placed : BuildOutcome → Nat
  | .completed placed => placed
  | .cancelled placed => placed

def isCompleted : BuildOutcome → Bool
  | .completed _ => true
  | .cancelled _ => false

end BuildOutcome

namespace Sink

/-- Carries out the commands of a run from where it is, heeding a request to stop before each of
them, and counts them on from those already carried out.  There is no answer if one command takes
more steps, or the run has more commands, than allowed. -/
def carryOut {State : Type} (sink : Sink State) (fuel : Nat) :
    (pulls : Nat) → Runner → (placed : Nat) → State × Cancellation →
      Option (Except RuntimeError BuildOutcome × State × Cancellation)
  | 0, _, _, _ => none
  | pulls + 1, runner, placed, state =>
    if state.2.requested then some (.ok (.cancelled placed), state)
    else
      match runner.next fuel with
      | none => none
      | some (.ok (some command), runner) =>
        sink.carryOut fuel pulls runner (placed + 1) (sink.place command state)
      | some (.ok none, _) => some (.ok (.completed placed), state)
      | some (.error error, _) => some (.error error, state)

/-- Runs a program without any effect and, if nothing speaks against it, carries out its
commands. -/
def execute {State : Type} (sink : Sink State) (fuel : Nat) (program : Program) (limits : Limits)
    (state : State × Cancellation) :
    Option (Except RuntimeError BuildOutcome × State × Cancellation) :=
  match null.carryOut fuel fuel (.start program limits) 0 state with
  | none => none
  | some (.error error, state) => some (.error error, state)
  | some (.ok (.cancelled _), state) => some (.ok (.cancelled 0), state)
  -- The second run goes as the first one did, so it does not fail halfway.
  | some (.ok (.completed _), state) => sink.carryOut fuel fuel (.start program limits) 0 state

/-- Reads a text as a program and executes it. -/
def build {State : Type} (sink : Sink State) (fuel : Nat) (source : String) (limits : Limits)
    (state : State × Cancellation) :
    Option (Except Error BuildOutcome × State × Cancellation) :=
  match Program.ofSource source with
  | .error error => some (.error error, state)
  | .ok program =>
    (sink.execute fuel program limits state).map fun (outcome, state) =>
      (outcome.mapError .runtime, state)

end Sink

end BlockScript
