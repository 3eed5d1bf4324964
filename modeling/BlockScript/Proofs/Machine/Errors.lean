import BlockScript.Proofs.Evaluation.Errors
import BlockScript.Proofs.Runner.Pulls
import BlockScript.Proofs.Syntax.Parts

/-!
# What a run fails with

All that a run ever has left to do is written in its program (`RunsOn.after`).  So a step fails
because of an expression of the program, or because of one of the limits that are set
(`RunsOn.faults`), and so does whatever takes steps.
-/

namespace BlockScript

/-! ### What is written in a program -/

/-- The expressions of a statement itself, without those of its parts. -/
def Statement.operands : Statement → List Expression
  | .expression value => [value]
  | .declare _ initializer => [initializer]
  | .block _ => []
  | .branch condition _ _ => [condition]
  | .loop condition _ => [condition]
  | .setBlock x y z name => [x, y, z, name]

namespace Program

/-- All expressions that occur in a program. -/
def expressions (program : Program) : List Expression :=
  program.inside.flatMap fun statement => statement.operands.flatMap Expression.inside

/-- The errors that a run of a program can end in. -/
inductive Faults (program : Program) (limits : Limits) : RuntimeError → Prop where
  | blames {error} : error.Blames program.expressions → Faults program limits error
  | stepLimit {limit} : limits.maxSteps = some limit →
      Faults program limits (.stepLimitExceeded limit)
  | instructionLimit {limit} : limits.maxInstructions = some limit →
      Faults program limits (.instructionLimitExceeded limit)

variable {program : Program} {statement : Statement}

theorem operands_subset (written : statement ∈ program.inside) :
    statement.operands.flatMap Expression.inside ⊆ program.expressions :=
  fun _ member => List.mem_flatMap.mpr ⟨statement, written, member⟩

end Program

/-- A frame for statements that are written in a program, or for a loop that is. -/
def Frame.WrittenIn (program : Program) : Frame → Prop
  | .statements rest _ => ∀ statement ∈ rest, statement ∈ program.inside
  | .loop condition body => .loop condition body ∈ program.inside

/-- What a frame is replaced by is written where the frame is. -/
theorem Frame.Turns.writtenIn {program : Program} {frame : Frame} {before after : Environment}
    {left : List Frame} (turns : frame.Turns before after left) (written : frame.WrittenIn program) :
    ∀ other ∈ left, other.WrittenIn program := by
  have parts {statement : Statement} (inside : statement ∈ program.inside) :
      ∀ part ∈ statement.parts, part ∈ program.inside :=
    fun _ isPart => Program.mem_inside_of_mem_parts inside isPart
  -- Each frame is replaced by what is left of its statements, with parts of the first one on top.
  cases turns with
  | simple | declare => exact List.forall_mem_singleton.mpr (List.forall_mem_cons.mp written).2
  | block =>
    obtain ⟨here, rest⟩ := List.forall_mem_cons.mp written
    exact List.forall_mem_cons.mpr ⟨parts here, List.forall_mem_singleton.mpr rest⟩
  | branch chosen =>
    obtain ⟨here, rest⟩ := List.forall_mem_cons.mp written
    refine List.forall_mem_cons.mpr ⟨?_, List.forall_mem_singleton.mpr rest⟩
    refine List.forall_mem_singleton.mpr (parts here _ ?_)
    rcases chosen with rfl | isElse
    · exact List.mem_cons_self
    · exact List.mem_cons_of_mem _ (Option.mem_toList.mpr isElse.symm)
  | loop =>
    obtain ⟨here, rest⟩ := List.forall_mem_cons.mp written
    exact List.forall_mem_cons.mpr ⟨here, List.forall_mem_singleton.mpr rest⟩
  | close | finish => simp
  | round =>
    refine List.forall_mem_cons.mpr ⟨?_, List.forall_mem_singleton.mpr written⟩
    exact List.forall_mem_singleton.mpr (parts written _ List.mem_cons_self)

namespace Machine

/-! ### One step -/

/-- A machine that runs a program within limits: what is left to do is written in the program. -/
structure RunsOn (program : Program) (limits : Limits) (machine : Machine) : Prop where
  limits_eq : machine.limits = limits
  frames : ∀ frame ∈ machine.frames, frame.WrittenIn program

theorem runsOn_start (program : Program) (limits : Limits) :
    (Machine.start program limits).RunsOn program limits :=
  ⟨rfl, List.forall_mem_singleton.mpr fun _ => Program.mem_inside_of_mem⟩

variable {program : Program} {limits : Limits} {machine next : Machine}

theorem RunsOn.step (runs : machine.RunsOn program limits) {result : Except RuntimeError Step}
    (stepped : machine.step = (result, next)) : next.RunsOn program limits := by
  refine ⟨(step_limits stepped).trans runs.limits_eq, ?_⟩
  cases result with
  | error error =>
    -- A step that fails leaves nothing to do.
    rw [(stopped_of_step stepped).frames_nil]
    exact fun _ member => absurd member List.not_mem_nil
  | ok result =>
    cases stack : machine.frames with
    | nil =>
      obtain rfl : machine = next :=
        congrArg Prod.snd ((step_of_frames_nil stack).symm.trans stepped)
      exact runs.frames
    | cons frame below =>
      obtain ⟨left, turns, frames_eq⟩ := turns_of_step stack stepped
      obtain ⟨top, others⟩ := List.forall_mem_cons.mp (stack ▸ runs.frames)
      rw [frames_eq]
      exact List.forall_mem_append.mpr ⟨turns.writtenIn top, others⟩

/-- A unit of work that fails, if it does, with an error that a run of the program can end in. -/
def FaultsOnly (program : Program) (limits : Limits)
    (outcome : Except RuntimeError Step × Machine) : Prop :=
  ∀ error, outcome.1 = .error error → program.Faults limits error

theorem faultsOnly_advance (machine : Machine) (environment : Environment) (frames : List Frame) :
    FaultsOnly program limits (machine.advance environment frames) :=
  nofun

theorem faultsOnly_emit (command : Command) (limited : machine.limits = limits) :
    FaultsOnly program limits (machine.emit command) := by
  intro error failed
  unfold emit at failed
  split at failed
  · next limit reached =>
    obtain rfl := Except.error.inj failed
    obtain ⟨isLimit, -⟩ := Option.filter_eq_some_iff.mp reached
    exact .instructionLimit (limited ▸ isLimit)
  · cases failed

theorem faultsOnly_evaluating {α : Type} {evaluation : Evaluation α}
    {onward : α → Environment → Except RuntimeError Step × Machine}
    (fails : evaluation.FailsOnly (RuntimeError.Blames program.expressions))
    (goes_on : ∀ value environment, FaultsOnly program limits (onward value environment)) :
    FaultsOnly program limits (machine.evaluating evaluation onward) := by
  intro error failed
  unfold evaluating at failed
  split at failed
  · exact goes_on _ _ error failed
  · next evaluated =>
    obtain rfl := Except.error.inj failed
    exact .blames (fails _ _ _ evaluated)

theorem faultsOnly_dispatch {statement : Statement} (frames : List Frame)
    (written : statement ∈ program.inside) (limited : machine.limits = limits) :
    FaultsOnly program limits (machine.dispatch statement frames) := by
  have operands := Program.operands_subset written
  cases statement with
  | block | loop => exact faultsOnly_advance _ _ _
  | expression | declare | branch =>
    rw [Statement.operands, List.flatMap_singleton] at operands
    exact faultsOnly_evaluating (Expression.evaluate_blames _ operands) fun _ _ =>
      faultsOnly_advance _ _ _
  | setBlock =>
    exact faultsOnly_evaluating (Command.evaluate_blames operands) fun command _ =>
      faultsOnly_emit command limited

theorem faultsOnly_work {frame : Frame} (below : List Frame) (written : frame.WrittenIn program)
    (limited : machine.limits = limits) :
    FaultsOnly program limits (machine.work frame below) := by
  cases frame with
  | loop =>
    have operands := Program.operands_subset written
    rw [Statement.operands, List.flatMap_singleton] at operands
    exact faultsOnly_evaluating (Expression.evaluate_blames _ operands) fun _ _ =>
      faultsOnly_advance _ _ _
  | statements rest leavesScope =>
    cases rest with
    | nil => exact faultsOnly_advance _ _ _
    | cons statement rest =>
      exact faultsOnly_dispatch _ (written statement List.mem_cons_self) limited

theorem RunsOn.faults (runs : machine.RunsOn program limits) :
    FaultsOnly program limits machine.step := by
  obtain ⟨-, finished⟩ | ⟨limit, reached, stopped⟩ | ⟨frame, below, stack, worked⟩ :=
    machine.step_cases
  · rw [finished]
    exact nofun
  · -- The limit on steps stops the run in front of the work.
    rw [stopped]
    intro error failed
    obtain rfl := Except.error.inj failed
    obtain ⟨isLimit, -⟩ := Option.filter_eq_some_iff.mp reached
    exact .stepLimit (runs.limits_eq ▸ isLimit)
  · rw [worked]
    exact faultsOnly_work below (runs.frames frame (stack ▸ List.mem_cons_self)) runs.limits_eq

/-! ### Runs -/

theorem RunsOn.after (runs : machine.RunsOn program limits) (steps : Nat) :
    (machine.after steps).RunsOn program limits := by
  induction steps with
  | zero => exact runs
  | succ steps ih => exact ih.step rfl

/-- Calls return no other errors than single steps do. -/
theorem RunsOn.faults_of_calls {last : Machine} {calls : List Call}
    {returned : List (Except RuntimeError Command)} {error : RuntimeError}
    (runs : machine.RunsOn program limits) (called : machine.Calls calls returned last)
    (member : .error error ∈ returned) : program.Faults limits error := by
  -- What calls return is what some step along the way had as its result.
  obtain ⟨steps, -, rfl⟩ := called.eq_after
  obtain ⟨result, isResult, returns⟩ := List.mem_filterMap.mp member
  obtain ⟨earlier, -, rfl⟩ := List.mem_map.mp isResult
  refine (runs.after earlier).faults error ?_
  rcases found : (machine.after earlier).step.1 with other | ⟨command⟩ | _ | _ <;>
    rw [found] at returns <;> cases returns
  rfl

end Machine

namespace Runner

variable {program : Program} {limits : Limits} {runner last : Runner}

/-- Neither do pulls. -/
theorem Pulls.faults {answers : List (Except RuntimeError (Option Command))} {error : RuntimeError}
    (pulls : runner.Pulls answers last) (runs : runner.machine.RunsOn program limits)
    (member : .error error ∈ answers) : program.Faults limits error := by
  induction pulls with
  | nil => cases member
  | cons pulled _ ih =>
    obtain ⟨-, rfl, rfl⟩ | ⟨-, called, -⟩ := next_cases pulled
    · rcases List.mem_cons.mp member with same | later
      · cases same
      · exact ih runs later
    · -- A pull is a call for the next command.
      have call := Machine.Calls.nextCommand called (.nil _)
      rcases List.mem_cons.mp member with rfl | later
      · exact runs.faults_of_calls call List.mem_cons_self
      · obtain ⟨steps, same, -⟩ := call.eq_after
        exact ih (same ▸ runs.after steps) later

/-- Nor does a run that is let go to its end. -/
theorem faults_of_finish {fuel pulls : Nat} {error : RuntimeError}
    (finished : (Runner.start program limits).finish fuel pulls = some (.error error)) :
    program.Faults limits error := by
  obtain ⟨commands, answer, last, pulled, ended⟩ := finish_iff_pulls.mp ⟨fuel, pulls, finished⟩
  refine pulled.faults (Machine.runsOn_start program limits) ?_
  rcases answer with _ | _ | _ <;> cases ended
  simp

end Runner

theorem Program.faults_of_validate {program : Program} {limits : Limits} {fuel : Nat}
    {error : RuntimeError} (invalid : program.validate fuel limits = some (.error error)) :
    program.Faults limits error := by
  obtain ⟨outcome, finished, mapped⟩ := Option.map_eq_some_iff.mp invalid
  cases outcome with
  | ok last => cases mapped
  | error cause =>
    obtain rfl := Except.error.inj mapped
    exact Runner.faults_of_finish finished

end BlockScript
