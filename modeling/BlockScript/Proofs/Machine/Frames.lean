import BlockScript.Proofs.Evaluation
import BlockScript.Proofs.Machine.Steps
import BlockScript.Proofs.Runner.Validation

/-!
# What a step does to frames and scopes

A step that does not fail replaces the top frame, in one of a few ways (`Frame.Turns`), and leaves
the frames below it alone (`turns_of_step`).  A step that fails leaves no frames, and the scopes as
they were (`stopped_of_step`).  What is true of all states of a run follows from that.
-/

namespace BlockScript

/-- The name that a statement declares, if it is a declaration. -/
def Statement.declared? : Statement → Option String
  | .declare name _ => some name
  | _ => none

/-! ### One step -/

/-- What carrying out some of a frame makes of the environment and of the frame itself, which is
replaced by the frames `left`, the top one first. -/
inductive Frame.Turns : (frame : Frame) → (before after : Environment) → (left : List Frame) →
    Prop where
  | simple {statement rest leaves before after} :
      statement.declared? = none → after.bindings = before.bindings →
      Turns (.statements (statement :: rest) leaves) before after [.statements rest leaves]
  | declare {name initializer value rest leaves before} {middle : Environment} :
      middle.bindings = before.bindings →
      Turns (.statements (.declare name initializer :: rest) leaves) before
        (middle.define name value) [.statements rest leaves]
  | block {body rest leaves before} :
      Turns (.statements (.block body :: rest) leaves) before before.enter
        [.statements body true, .statements rest leaves]
  | branch {condition thenBranch elseBranch chosen rest leaves before after} :
      chosen = thenBranch ∨ some chosen = elseBranch → after.bindings = before.bindings →
      Turns (.statements (.branch condition thenBranch elseBranch :: rest) leaves) before after
        [.single chosen, .statements rest leaves]
  | loop {condition body rest leaves before} :
      Turns (.statements (.loop condition body :: rest) leaves) before before
        [.loop condition body, .statements rest leaves]
  | close {leaves before} :
      Turns (.statements [] leaves) before (if leaves then before.exit else before) []
  | round {condition body before after} : after.bindings = before.bindings →
      Turns (.loop condition body) before after [.single body, .loop condition body]
  | finish {condition body before after} : after.bindings = before.bindings →
      Turns (.loop condition body) before after []

/-- A list of statements that is over leaves its scope, if it has one. -/
theorem Frame.Turns.closes {leaves : Bool} {before after : Environment} {left : List Frame}
    (turns : (Frame.statements [] leaves).Turns before after left) :
    left = [] ∧ after = if leaves then before.exit else before := by
  cases turns
  exact ⟨rfl, rfl⟩

namespace Machine

/-- A machine that has stopped: nothing is left to do, and every scope binds the names that it bound
before. -/
structure Stopped (machine stopped : Machine) : Prop where
  frames_nil : stopped.frames = []
  bindings_eq : stopped.environment.bindings = machine.environment.bindings

/-- How a unit of work for a frame comes out: the frame is replaced, or the machine stops. -/
inductive TurnsOut (machine : Machine) (frame : Frame) (below : List Frame) :
    Except RuntimeError Step × Machine → Prop where
  | turns {result next left} : frame.Turns machine.environment next.environment left →
      next.frames = left ++ below → TurnsOut machine frame below (.ok result, next)
  | fails {error next} : machine.Stopped next → TurnsOut machine frame below (.error error, next)

variable {machine next : Machine} {frame : Frame} {below : List Frame}

/-- What is done with the value of an expression decides how the work comes out. -/
theorem turnsOut_evaluating {α : Type} {evaluation : Evaluation α}
    {onward : α → Environment → Except RuntimeError Step × Machine} (keeps : evaluation.Keeps)
    (outcome : ∀ value environment, environment.bindings = machine.environment.bindings →
      machine.TurnsOut frame below (onward value environment)) :
    machine.TurnsOut frame below (machine.evaluating evaluation onward) := by
  unfold evaluating
  split
  · next evaluated => exact outcome _ _ (keeps.ok evaluated)
  · next evaluated => exact .fails ⟨rfl, keeps.error evaluated⟩

theorem turnsOut_advance {left : List Frame} {environment : Environment}
    (turns : frame.Turns machine.environment environment left) :
    machine.TurnsOut frame below (machine.advance environment (left ++ below)) :=
  .turns turns rfl

theorem turnsOut_emit {left : List Frame} {environment : Environment} (command : Command)
    (turns : frame.Turns machine.environment environment left)
    (keeps : environment.bindings = machine.environment.bindings) :
    machine.TurnsOut frame below
      ({ machine with environment, frames := left ++ below }.emit command) := by
  unfold emit
  split
  · exact .fails ⟨rfl, keeps⟩
  · exact .turns turns rfl

theorem turnsOut_dispatch (statement : Statement) (rest : List Statement) (leaves : Bool) :
    machine.TurnsOut (.statements (statement :: rest) leaves) below
      (machine.dispatch statement (.statements rest leaves :: below)) := by
  cases statement with
  | expression value =>
    exact turnsOut_evaluating value.evaluate_keeps fun _ _ keeps =>
      turnsOut_advance (.simple rfl keeps)
  | declare name initializer =>
    exact turnsOut_evaluating initializer.evaluate_keeps fun _ _ keeps =>
      turnsOut_advance (.declare keeps)
  | block body => exact turnsOut_advance .block
  | branch condition thenBranch elseBranch =>
    refine turnsOut_evaluating condition.evaluate_keeps fun decision environment keeps => ?_
    split
    · exact turnsOut_advance (.branch (.inl rfl) keeps)
    · cases elseBranch with
      | some chosen => exact turnsOut_advance (.branch (.inr rfl) keeps)
      | none => exact turnsOut_advance (.simple rfl keeps)
  | loop condition body => exact turnsOut_advance .loop
  | setBlock x y z name =>
    exact turnsOut_evaluating (Command.evaluate_keeps x y z name) fun command _ keeps =>
      turnsOut_emit command (.simple rfl keeps) keeps

theorem turnsOut_work (machine : Machine) (frame : Frame) (below : List Frame) :
    machine.TurnsOut frame below (machine.work frame below) := by
  cases frame with
  | loop condition body =>
    refine turnsOut_evaluating condition.evaluate_keeps fun decision environment keeps => ?_
    split
    · exact turnsOut_advance (.round keeps)
    · exact turnsOut_advance (.finish keeps)
  | statements rest leaves =>
    cases rest with
    | nil => exact turnsOut_advance .close
    | cons statement rest => exact turnsOut_dispatch statement rest leaves

/-- A step with something left to do replaces the top frame or stops the machine. -/
theorem turnsOut_step (stack : machine.frames = frame :: below) :
    machine.TurnsOut frame below machine.step := by
  obtain ⟨empty, -⟩ | ⟨limit, -, stopped⟩ | ⟨top, others, same, worked⟩ := machine.step_cases
  · cases empty.symm.trans stack
  · -- Too many steps: the environment has not been touched.
    rw [stopped]
    exact .fails ⟨rfl, rfl⟩
  · obtain ⟨rfl, rfl⟩ := List.cons.inj (same.symm.trans stack)
    -- The count of steps has no part in what the work does.
    have outcome := turnsOut_work { machine with steps := machine.steps + 1 } top others
    rw [← worked] at outcome
    generalize machine.step = done at outcome ⊢
    cases outcome with
    | turns turns frames_eq => exact .turns turns frames_eq
    | fails stopped => exact .fails ⟨stopped.frames_nil, stopped.bindings_eq⟩

theorem turns_of_step {result : Step} (stack : machine.frames = frame :: below)
    (stepped : machine.step = (.ok result, next)) :
    ∃ left, frame.Turns machine.environment next.environment left ∧
      next.frames = left ++ below := by
  have outcome := turnsOut_step stack
  rw [stepped] at outcome
  cases outcome with
  | turns turns frames_eq => exact ⟨_, turns, frames_eq⟩

theorem stopped_of_step {error : RuntimeError} (stepped : machine.step = (.error error, next)) :
    machine.Stopped next := by
  cases stack : machine.frames with
  | nil =>
    rw [step_of_frames_nil stack] at stepped
    cases stepped
  | cons frame below =>
    have outcome := turnsOut_step stack
    rw [stepped] at outcome
    cases outcome with
    | fails stopped => exact stopped

/-! ### Reachable states -/

/-- The states that single steps and calls for the next command lead to, as long as none of them
fails. -/
inductive Reachable (program : Program) (limits : Limits) : Machine → Prop where
  | start : Reachable program limits (.start program limits)
  | step {machine next result} : Reachable program limits machine →
      machine.step = (.ok result, next) → Reachable program limits next
  | nextCommand {machine next fuel command?} : Reachable program limits machine →
      machine.nextCommand fuel = some (.ok command?, next) → Reachable program limits next

/-- A number of steps, none of which fails. -/
def Goes (machine : Machine) (steps : Nat) : Prop :=
  ∀ earlier < steps, ∃ result, (machine.after earlier).step.1 = .ok result

theorem goes_of_reaches {last : Machine} {commands : List Command}
    (reaches : machine.Reaches commands last) :
    ∃ steps, machine.Goes steps ∧ last = machine.after steps := by
  -- A machine that reaches another one takes a step first, so the steps are counted from there.
  induction reaches with
  | refl machine => exact ⟨0, fun _ less => absurd less (Nat.not_lt_zero _), rfl⟩
  | @advanced machine next _ _ stepped _ ih | @emitted machine next _ _ _ stepped _ ih =>
    obtain ⟨steps, goes, rfl⟩ := ih
    have first : machine.after 1 = next := congrArg Prod.snd stepped
    refine ⟨1 + steps, ?_, by rw [after_add, first]⟩
    intro earlier less
    cases earlier with
    | zero => exact ⟨_, congrArg Prod.fst stepped⟩
    | succ earlier =>
      rw [Nat.add_comm, after_add, first]
      exact goes earlier (by omega)

theorem Goes.add {first second : Nat} (goes : machine.Goes first)
    (onward : (machine.after first).Goes second) : machine.Goes (first + second) := by
  intro earlier less
  by_cases before : earlier < first
  · exact goes earlier before
  · obtain ⟨more, rfl⟩ := Nat.exists_eq_add_of_le (Nat.le_of_not_lt before)
    rw [after_add]
    exact onward more (by omega)

/-- Calls for commands are single steps, so every reachable state is one that steps alone reach. -/
theorem Reachable.after {program : Program} {limits : Limits}
    (reachable : Reachable program limits machine) :
    ∃ steps, (Machine.start program limits).Goes steps ∧
      machine = (Machine.start program limits).after steps := by
  induction reachable with
  | start => exact ⟨0, fun _ less => absurd less (Nat.not_lt_zero _), rfl⟩
  | step _ stepped ih =>
    obtain ⟨steps, goes, rfl⟩ := ih
    refine ⟨steps + 1, goes.add ?_, (congrArg Prod.snd stepped).symm⟩
    intro earlier less
    obtain rfl : earlier = 0 := by omega
    exact ⟨_, congrArg Prod.fst stepped⟩
  | @nextCommand machine next fuel command? _ found ih =>
    obtain ⟨steps, goes, rfl⟩ := ih
    have reaches : ∃ commands,
        ((Machine.start program limits).after steps).Reaches commands next := by
      cases command? with
      | some command => exact ⟨_, reaches_of_nextCommand_some found⟩
      | none => exact ⟨_, (reaches_of_nextCommand_none found).1⟩
    obtain ⟨commands, reaches⟩ := reaches
    obtain ⟨more, onward, rfl⟩ := goes_of_reaches reaches
    exact ⟨steps + more, goes.add onward, (after_add _ _ _).symm⟩

end Machine

end BlockScript
