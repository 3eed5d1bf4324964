import BlockScript.Evaluation
import BlockScript.Limits

/-!
# The machine

A run of a program, one unit of work at a time.  A stack of frames says what is left to do, so a run
can be held after any step and taken up again.  Once the stack is empty, because the program is over
or because of an error, every further step finds the run finished.
-/

namespace BlockScript

/-- Something left to do. -/
inductive Frame where
  /-- Statements to carry out in order, and whether a scope is to be left after the last one. -/
  | statements (rest : List Statement) (leavesScope : Bool)
  /-- A loop, whose condition is evaluated each time this frame is on top. -/
  | loop (condition : Expression) (body : Statement)

/-- The frame for one statement in the scope around it. -/
def Frame.single (statement : Statement) : Frame :=
  .statements [statement] false

/-- What a step does if it does not fail. -/
inductive Step where
  | emitted (command : Command)
  | advanced
  | finished
  deriving DecidableEq

/-- The state of a run. -/
structure Machine where
  environment : Environment
  frames : List Frame
  limits : Limits
  steps : Nat
  emitted : Nat

namespace Machine

/-- A run that has not begun. -/
def start (program : Program) (limits : Limits) : Machine :=
  ⟨.empty, [.statements program.statements false], limits, 0, 0⟩

def isFinished (machine : Machine) : Bool :=
  machine.frames.isEmpty

/-- The limit on steps, if it has been reached. -/
def stepLimit? (machine : Machine) : Option Nat :=
  machine.limits.maxSteps.filter (· ≤ machine.steps)

/-- The limit on commands, if it has been reached. -/
def instructionLimit? (machine : Machine) : Option Nat :=
  machine.limits.maxInstructions.filter (· ≤ machine.emitted)

/-- A run that has failed: nothing is left to do. -/
def fail (error : RuntimeError) (machine : Machine) : Except RuntimeError Step × Machine :=
  (.error error, { machine with frames := [] })

/-- A run that goes on with the given frames in the given environment. -/
def advance (machine : Machine) (environment : Environment) (frames : List Frame) :
    Except RuntimeError Step × Machine :=
  (.ok .advanced, { machine with environment, frames })

/-- Evaluates something and goes on with its value. -/
def evaluating {α : Type} (machine : Machine) (evaluation : Evaluation α)
    (next : α → Environment → Except RuntimeError Step × Machine) :
    Except RuntimeError Step × Machine :=
  match evaluation machine.environment with
  | .ok value environment => next value environment
  | .error error environment => { machine with environment }.fail error

/-- Emits a command, unless the limit on commands has been reached. -/
def emit (machine : Machine) (command : Command) : Except RuntimeError Step × Machine :=
  match machine.instructionLimit? with
  | some limit => machine.fail (.instructionLimitExceeded limit)
  | none => (.ok (.emitted command), { machine with emitted := machine.emitted + 1 })

/-- Carries out a statement, with the frames for what comes after it. -/
def dispatch (machine : Machine) (statement : Statement) (frames : List Frame) :
    Except RuntimeError Step × Machine :=
  match statement with
  | .expression value =>
    machine.evaluating value.evaluate fun _ environment => machine.advance environment frames
  | .declare name initializer =>
    machine.evaluating initializer.evaluate fun value environment =>
      machine.advance (environment.define name value) frames
  | .block body =>
    -- The scope is left by the frame that is pushed here, once its statements are over.
    machine.advance machine.environment.enter (.statements body true :: frames)
  | .branch condition thenBranch elseBranch =>
    machine.evaluating condition.evaluate fun decision environment =>
      machine.advance environment <|
        if decision.truthy then .single thenBranch :: frames
        else match elseBranch with
          | some statement => .single statement :: frames
          | none => frames
  | .loop condition body =>
    machine.advance machine.environment (.loop condition body :: frames)
  | .setBlock x y z name =>
    -- The arguments are evaluated, with their effects, even if no command may be emitted any more.
    machine.evaluating (Command.evaluate x y z name) fun command environment =>
      { machine with environment, frames }.emit command

/-- Does the work of the top frame, with the frames below it. -/
def work (machine : Machine) (frame : Frame) (below : List Frame) :
    Except RuntimeError Step × Machine :=
  match frame with
  | .loop condition body =>
    machine.evaluating condition.evaluate fun decision environment =>
      machine.advance environment <|
        -- The loop stays below its body, so that its condition comes next.
        if decision.truthy then .single body :: frame :: below else below
  | .statements [] leavesScope =>
    machine.advance (if leavesScope then machine.environment.exit else machine.environment) below
  | .statements (statement :: rest) leavesScope =>
    machine.dispatch statement (.statements rest leavesScope :: below)

/-- One unit of work: a statement is carried out, the condition of a loop is evaluated, or a list of
statements that is over is left.  Each counts as one step, also if it fails. -/
def step (machine : Machine) : Except RuntimeError Step × Machine :=
  match machine.frames with
  | [] => (.ok .finished, machine)
  | frame :: below =>
    match machine.stepLimit? with
    | some limit => machine.fail (.stepLimitExceeded limit)
    | none => { machine with steps := machine.steps + 1 }.work frame below

/-- Steps up to the next command, the end of the run (no command) or an error.  There is no answer
if this takes more steps than the fuel allows. -/
def nextCommand : (fuel : Nat) → Machine → Option (Except RuntimeError (Option Command) × Machine)
  | 0, _ => none
  | fuel + 1, machine =>
    match machine.step with
    | (.ok (.emitted command), machine) => some (.ok (some command), machine)
    | (.ok .advanced, machine) => nextCommand fuel machine
    | (.ok .finished, machine) => some (.ok none, machine)
    | (.error error, machine) => some (.error error, machine)

end Machine

end BlockScript
