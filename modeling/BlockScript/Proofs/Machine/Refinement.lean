import BlockScript.Proofs.BigStep
import BlockScript.Proofs.Machine.Steps

/-!
# The machine refines the recursive semantics

Each frame of a machine stands for a run of the recursive semantics, and its stack for these runs
one after the other.  A step does what the run of the stack does first, at the cost of one
(`afterStep_step`).  Hence a machine finishes, or fails, just as the recursive semantics says, and
after as many steps as that costs.
-/

namespace BlockScript

open Run BigStep

/-! ### What a stack of frames stands for -/

/-- What carrying out a frame amounts to. -/
def Frame.run : Frame → Run
  | .statements rest true => Leaving (BigStep (.list rest))
  | .statements rest false => BigStep (.list rest)
  | .loop condition body => BigStep (.loop condition body)

/-- What carrying out a stack of frames amounts to. -/
def Frame.runAll : List Frame → Run
  | [] => Idle
  | frame :: below => Then frame.run (runAll below)

open BlockScript.Frame

theorem runAll_statements_nil (leavesScope : Bool) (below : List Frame)
    (before : Environment) :
    runAll (.statements [] leavesScope :: below) before =
      Tick (runAll below) (if leavesScope then before.exit else before) := by
  -- The scope is left in the same step that finds the list empty, so one tick is all it costs.
  cases leavesScope with
  | false => simp [runAll, run, list_nil, tick_then, idle_then]
  | true =>
    simp [runAll, run, list_nil, leaving_tick, leaving_idle, tick_then, changing_then, idle_then,
      tick_changing]

theorem runAll_statements_cons (statement : Statement) (rest : List Statement)
    (leavesScope : Bool) (below : List Frame) :
    runAll (.statements (statement :: rest) leavesScope :: below) =
      Then (BigStep (.statement statement)) (runAll (.statements rest leavesScope :: below)) := by
  cases leavesScope with
  | false => simp only [runAll, run, list_cons, then_assoc]
  | true => simp only [runAll, run, list_cons, leaving_then, then_assoc]

/-! ### One step -/

/-- What is still to be carried out once a step has had an outcome; the step itself costs one. -/
inductive AfterStep :
    Except RuntimeError Step × Machine → List Command → Nat → Option RuntimeError → Environment →
      Prop where
  | finished {machine} : AfterStep (.ok .finished, machine) [] 0 none machine.environment
  | advanced {machine commands cost failure after} :
    runAll machine.frames machine.environment commands cost failure after →
      AfterStep (.ok .advanced, machine) commands (cost + 1) failure after
  | emitted {machine command commands cost failure after} :
    runAll machine.frames machine.environment commands cost failure after →
      AfterStep (.ok (.emitted command), machine) (command :: commands) (cost + 1) failure after
  | failed {machine error} :
    AfterStep (.error error, machine) [] 1 (some error) machine.environment

variable {machine : Machine}

theorem afterStep_advance (environment : Environment) (frames : List Frame) :
    AfterStep (machine.advance environment frames) = Tick (runAll frames) environment := by
  funext commands cost failure after
  apply propext
  constructor
  · rintro ⟨⟩
    exact Tick.tick ‹_›
  · rintro ⟨run⟩
    exact .advanced run

theorem afterStep_emit (environment : Environment) (frames : List Frame) (command : Command)
    (unlimited : machine.limits.maxInstructions = none) :
    AfterStep ({ machine with environment, frames }.emit command) =
      Tick (Emitting command (runAll frames)) environment := by
  rw [Machine.emit_of_unlimited _ (by exact unlimited)]
  funext commands cost failure after
  apply propext
  constructor
  · rintro ⟨⟩
    exact Tick.tick (Emitting.emit ‹_›)
  · rintro ⟨⟨run⟩⟩
    exact .emitted run

theorem afterStep_evaluating {α : Type} (evaluation : Evaluation α)
    {next : α → Environment → Except RuntimeError Step × Machine} {run : α → Run}
    (runs : ∀ value environment, AfterStep (next value environment) = Tick (run value) environment) :
    AfterStep (machine.evaluating evaluation next) =
      Tick (Evaluating evaluation run) machine.environment := by
  funext commands cost failure after
  apply propext
  unfold Machine.evaluating
  constructor
  · intro step
    split at step
    next value middle evaluated =>
      rw [runs] at step
      obtain ⟨step⟩ := step
      exact Tick.tick (Evaluating.succeeds evaluated step)
    next error middle evaluated =>
      cases step
      exact Tick.tick (Evaluating.fails evaluated)
  · rintro ⟨⟨evaluated, step⟩ | evaluated⟩
    · simp only [evaluated, runs]
      exact Tick.tick step
    · simp only [evaluated]
      exact .failed

/-- Dispatching a statement does what the statement does first. -/
theorem afterStep_dispatch (statement : Statement) (frames : List Frame)
    (unlimited : machine.limits.maxInstructions = none) :
    AfterStep (machine.dispatch statement frames) =
      Then (BigStep (.statement statement)) (runAll frames) machine.environment := by
  cases statement with
  | expression value =>
    rw [statement_expression, tick_then, evaluating_then]
    apply afterStep_evaluating
    intro value environment
    rw [afterStep_advance, idle_then]
  | declare name initializer =>
    rw [statement_declare, tick_then, evaluating_then]
    apply afterStep_evaluating
    intro value environment
    rw [afterStep_advance, changing_then, idle_then, tick_changing]
  | block body =>
    rw [statement_block, tick_then, changing_then, tick_changing]
    exact afterStep_advance _ _
  | branch condition thenBranch elseBranch =>
    rw [statement_branch, tick_then, evaluating_then]
    apply afterStep_evaluating
    intro decision environment
    rw [afterStep_advance]
    congr 1
    -- A branch that is chosen gets a frame of its own; without one the frames below go on at once.
    unfold chosen
    split
    · rfl
    · cases elseBranch with
      | some statement => rfl
      | none => rw [idle_then]
  | loop condition body =>
    rw [statement_loop, tick_then]
    exact afterStep_advance _ _
  | setBlock x y z name =>
    rw [statement_setBlock, tick_then, evaluating_then]
    apply afterStep_evaluating
    intro command environment
    rw [emitting_then, idle_then]
    exact afterStep_emit environment frames command unlimited

theorem afterStep_work (frame : Frame) (below : List Frame)
    (unlimited : machine.limits.maxInstructions = none) :
    AfterStep (machine.work frame below) = runAll (frame :: below) machine.environment := by
  cases frame with
  | loop condition body =>
    rw [runAll, run, loop_eq, tick_then, evaluating_then]
    apply afterStep_evaluating
    intro decision environment
    rw [afterStep_advance]
    congr 1
    -- The loop stays below the frame of its body, where the next round will find it.
    split
    · simp only [then_assoc, Frame.single, runAll, run]
    · rw [idle_then]
  | statements rest leavesScope =>
    cases rest with
    | nil => rw [runAll_statements_nil]; exact afterStep_advance _ _
    | cons statement rest =>
      rw [runAll_statements_cons]
      exact afterStep_dispatch statement _ unlimited

/-- A step does what the stack of a machine stands for first. -/
theorem afterStep_step (unlimited : machine.limits = .unbounded) :
    AfterStep machine.step = runAll machine.frames machine.environment := by
  cases stack : machine.frames with
  | nil =>
    rw [Machine.step_of_frames_nil stack]
    funext commands cost failure after
    apply propext
    constructor
    · rintro ⟨⟩
      exact Idle.idle
    · rintro ⟨⟩
      exact .finished
  | cons frame below =>
    rw [Machine.step_of_frames_cons stack (by rw [unlimited]; rfl)]
    exact afterStep_work frame below (by simp [unlimited, Limits.unbounded])

/-! ### Whole runs -/

/-- Steps do what the stack of a machine stands for, up to what its stack stands for then. -/
theorem runAll_of_reaches {last : Machine} {commands rest : List Command} {cost : Nat}
    {failure : Option RuntimeError} {after : Environment} (unlimited : machine.limits = .unbounded)
    (reaches : machine.Reaches commands last)
    (left : runAll last.frames last.environment rest cost failure after) :
    ∃ spent, last.steps = machine.steps + spent ∧
      runAll machine.frames machine.environment (commands ++ rest) (cost + spent) failure after := by
  -- Backwards from the last machine: each step in front of it adds what it does and its cost.
  induction reaches with
  | refl machine => exact ⟨0, rfl, left⟩
  | advanced stepped _ ih =>
    obtain ⟨spent, steps, run⟩ := ih ((Machine.step_limits stepped).trans unlimited) left
    have counted := Machine.step_steps (by rw [unlimited]; rfl) stepped (by simp)
    refine ⟨spent + 1, by omega, ?_⟩
    rw [← afterStep_step unlimited, stepped]
    exact .advanced run
  | emitted stepped _ ih =>
    obtain ⟨spent, steps, run⟩ := ih ((Machine.step_limits stepped).trans unlimited) left
    have counted := Machine.step_steps (by rw [unlimited]; rfl) stepped (by simp)
    refine ⟨spent + 1, by omega, ?_⟩
    rw [← afterStep_step unlimited, stepped]
    exact .emitted run

/-- A step that ends a run: at the end of the program, or with an error. -/
def Machine.EndsWith (machine : Machine) (failure : Option RuntimeError) (last : Machine) : Prop :=
  match failure with
  | none => machine.step = (.ok .finished, last)
  | some error => machine.step = (.error error, last)

/-- All that is left to do before the last step is what that step does. -/
theorem runAll_of_endsWith {last : Machine} {failure : Option RuntimeError}
    (unlimited : machine.limits = .unbounded) (ends : machine.EndsWith failure last) :
    ∃ spent, last.steps = machine.steps + spent ∧
      runAll machine.frames machine.environment [] spent failure last.environment := by
  rw [← afterStep_step unlimited]
  cases failure with
  | none =>
    obtain ⟨-, rfl⟩ := Machine.frames_eq_nil_of_finished ends
    refine ⟨0, rfl, ?_⟩
    rw [ends]
    exact .finished
  | some error =>
    refine ⟨1, Machine.step_steps (by rw [unlimited]; rfl) ends (by simp), ?_⟩
    rw [ends]
    exact .failed

/-- What the stack of a machine stands for is what its steps do. -/
theorem reaches_of_runAll {commands : List Command} {cost : Nat} {failure : Option RuntimeError}
    {after : Environment} (unlimited : machine.limits = .unbounded)
    (run : runAll machine.frames machine.environment commands cost failure after) :
    ∃ before last, machine.Reaches commands before ∧ before.EndsWith failure last ∧
      last.environment = after ∧ last.steps = machine.steps + cost := by
  -- On the cost, as every step takes one off it and changes the whole stack.
  induction cost generalizing machine commands with
  | zero =>
    rw [← afterStep_step unlimited] at run
    cases stepped : machine.step with
    | mk result next =>
      rw [stepped] at run
      -- Nothing but the end of a run costs nothing.
      cases run
      obtain ⟨-, same⟩ := Machine.frames_eq_nil_of_finished stepped
      exact ⟨machine, next, .refl machine, stepped, rfl, by rw [same]; rfl⟩
  | succ cost ih =>
    rw [← afterStep_step unlimited] at run
    cases stepped : machine.step with
    | mk result next =>
      have limits := (Machine.step_limits stepped).trans unlimited
      have counted := Machine.step_steps (by rw [unlimited]; rfl) stepped
      rw [stepped] at run
      cases run with
      | advanced run =>
        obtain ⟨before, last, reaches, ends, environment, steps⟩ := ih limits run
        refine ⟨before, last, .advanced stepped reaches, ends, environment, ?_⟩
        rw [steps, counted (by simp)]
        omega
      | emitted run =>
        obtain ⟨before, last, reaches, ends, environment, steps⟩ := ih limits run
        refine ⟨before, last, .emitted stepped reaches, ends, environment, ?_⟩
        rw [steps, counted (by simp)]
        omega
      | failed => exact ⟨machine, next, .refl machine, stepped, rfl, counted (by simp)⟩

theorem runAll_iff_reaches {commands : List Command} {cost : Nat} {failure : Option RuntimeError}
    {after : Environment} (unlimited : machine.limits = .unbounded) :
    runAll machine.frames machine.environment commands cost failure after ↔
      ∃ before last, machine.Reaches commands before ∧ before.EndsWith failure last ∧
        last.environment = after ∧ last.steps = machine.steps + cost := by
  constructor
  · exact reaches_of_runAll unlimited
  · rintro ⟨before, last, reaches, ends, rfl, steps⟩
    obtain ⟨own, own_eq, left⟩ := runAll_of_endsWith (reaches.limits_eq.trans unlimited) ends
    obtain ⟨spent, spent_eq, run⟩ := runAll_of_reaches unlimited reaches left
    have same : cost = own + spent := by omega
    rwa [List.append_nil, ← same] at run

/-- The first stack of a machine stands for the statements of its program. -/
theorem runAll_start (program : Program) :
    runAll (Machine.start program .unbounded).frames = BigStep (.list program.statements) := by
  simp only [Machine.start, runAll, run, then_idle]

/-- A program finishes, or fails, in the recursive semantics just as it does step by step, with the
same commands in the same order, in the same environment, and at a cost that is the number of
steps. -/
theorem bigStep_iff_reaches (program : Program) (commands : List Command) (cost : Nat)
    (final : Environment) :
    (BigStep (.list program.statements) .empty commands cost none final ↔
      ∃ last, (Machine.start program .unbounded).Reaches commands last ∧
        last.step = (.ok .finished, last) ∧ last.environment = final ∧ last.steps = cost) ∧
    ∀ error, BigStep (.list program.statements) .empty commands cost (some error) final ↔
      ∃ before last, (Machine.start program .unbounded).Reaches commands before ∧
        before.step = (.error error, last) ∧ last.environment = final ∧ last.steps = cost := by
  have equivalent : ∀ failure,
      BigStep (.list program.statements) .empty commands cost failure final ↔
        ∃ before last, (Machine.start program .unbounded).Reaches commands before ∧
          before.EndsWith failure last ∧ last.environment = final ∧ last.steps = cost := by
    intro failure
    rw [← runAll_start]
    exact (runAll_iff_reaches rfl).trans (by simp only [Machine.start, Nat.zero_add])
  refine ⟨(equivalent none).trans ⟨?_, ?_⟩, fun error => equivalent (some error)⟩
  · rintro ⟨before, last, reaches, ends, environment, steps⟩
    obtain ⟨-, rfl⟩ := Machine.frames_eq_nil_of_finished ends
    exact ⟨last, reaches, ends, environment, steps⟩
  · rintro ⟨last, reaches, finished, environment, steps⟩
    exact ⟨last, last, reaches, finished, environment, steps⟩

end BlockScript
