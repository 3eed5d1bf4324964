import BlockScript.Proofs.Runner.Validation

/-!
# Runs under limits

Limits only cut a run short.  Up to the step that a limit stops, a machine under limits does what it
does without them (`after_under`), and that step fails with the limit that it reaches
(`step_of_stopsSteps`, `step_of_stopsCommands`).  So a program is valid under limits if its run
without them ends, with counts that are within the limits (`validate_under_iff`).
-/

namespace BlockScript

/-! ### Limits and counts -/

namespace Limits

/-- Numbers of steps and of commands that do not exceed the limits. -/
structure Allows (limits : Limits) (steps commands : Nat) : Prop where
  steps_le : ∀ limit, limits.maxSteps = some limit → steps ≤ limit
  commands_le : ∀ limit, limits.maxInstructions = some limit → commands ≤ limit

/-- The limit on steps stops the next step of a machine: as many steps have been taken, and
something is left to do. -/
structure StopsSteps (limits : Limits) (machine : Machine) (limit : Nat) : Prop where
  limited : limits.maxSteps = some limit
  spent : machine.steps = limit
  left : machine.frames ≠ []

/-- The limit on commands stops the next step of a machine: that step would emit one more command
than allowed, and the limit on steps does not stop it. -/
structure StopsCommands (limits : Limits) (machine : Machine) (limit : Nat) : Prop where
  limited : limits.maxInstructions = some limit
  spent : machine.emitted = limit
  emits : ∃ command, machine.step.1 = .ok (.emitted command)
  steps_left : ∀ steps, ¬limits.StopsSteps machine steps

/-- No limit stops the next step of a machine. -/
structure Passes (limits : Limits) (machine : Machine) : Prop where
  steps : ∀ limit, ¬limits.StopsSteps machine limit
  commands : ∀ limit, ¬limits.StopsCommands machine limit

/-- Limits that have been raised or removed, or left as they are. -/
structure RaisedTo (limits raised : Limits) : Prop where
  steps : ∀ limit, raised.maxSteps = some limit →
    ∃ lower, limits.maxSteps = some lower ∧ lower ≤ limit
  commands : ∀ limit, raised.maxInstructions = some limit →
    ∃ lower, limits.maxInstructions = some lower ∧ lower ≤ limit

theorem Allows.raised {limits raised : Limits} {steps commands : Nat}
    (allows : limits.Allows steps commands) (raise : limits.RaisedTo raised) :
    raised.Allows steps commands := by
  constructor
  · intro limit limited
    obtain ⟨lower, limited_lower, le⟩ := raise.steps limit limited
    exact Nat.le_trans (allows.steps_le lower limited_lower) le
  · intro limit limited
    obtain ⟨lower, limited_lower, le⟩ := raise.commands limit limited
    exact Nat.le_trans (allows.commands_le lower limited_lower) le

theorem Allows.mono {limits : Limits} {steps commands moreSteps moreCommands : Nat}
    (allows : limits.Allows moreSteps moreCommands) (le_steps : steps ≤ moreSteps)
    (le_commands : commands ≤ moreCommands) : limits.Allows steps commands where
  steps_le limit limited := Nat.le_trans le_steps (allows.steps_le limit limited)
  commands_le limit limited := Nat.le_trans le_commands (allows.commands_le limit limited)

end Limits

/-! ### One step under limits -/

namespace Machine

/-- The same machine under other limits. -/
def under (machine : Machine) (limits : Limits) : Machine :=
  { machine with limits }

variable {machine : Machine} {limits : Limits}

@[simp] theorem frames_under : (machine.under limits).frames = machine.frames := rfl

@[simp] theorem steps_under : (machine.under limits).steps = machine.steps := rfl

@[simp] theorem emitted_under : (machine.under limits).emitted = machine.emitted := rfl

/-- How a unit of work comes out under limits, given how it comes out without them after a number of
commands: the same way, or it is stopped just before it emits a command too many. -/
inductive Cuts (limits : Limits) (emitted : Nat) :
    (full cut : Except RuntimeError Step × Machine) → Prop where
  | same {full} :
    (∀ limit, limits.maxInstructions = some limit → commandCount full.1 = 1 → emitted < limit) →
      Cuts limits emitted full (full.1, full.2.under limits)
  | stopped {full cut} (limit : Nat) (command : Command) :
    limits.maxInstructions = some limit → limit ≤ emitted → full.1 = .ok (.emitted command) →
      cut.1 = .error (.instructionLimitExceeded limit) → cut.2.emitted = emitted →
      cut.2.frames = [] → Cuts limits emitted full cut

theorem cuts_fail (error : RuntimeError) (environment : Environment) :
    Cuts limits machine.emitted ({ machine with environment }.fail error)
      ({ machine.under limits with environment }.fail error) := by
  apply Cuts.same
  simp [fail, commandCount]

theorem cuts_advance (environment : Environment) (frames : List Frame) :
    Cuts limits machine.emitted (machine.advance environment frames)
      ((machine.under limits).advance environment frames) := by
  apply Cuts.same
  simp [advance, commandCount]

theorem cuts_emit (environment : Environment) (frames : List Frame) (command : Command)
    (unlimited : machine.limits.maxInstructions = none) :
    Cuts limits machine.emitted ({ machine with environment, frames }.emit command)
      ({ machine.under limits with environment, frames }.emit command) := by
  rw [emit_of_unlimited command (by exact unlimited)]
  cases reached : ({ machine.under limits with environment, frames } : Machine).instructionLimit?
    with
  | some limit =>
    obtain ⟨limited, le⟩ := Option.filter_eq_some_iff.mp reached
    rw [emit, reached]
    exact .stopped limit command limited (of_decide_eq_true le) rfl rfl rfl rfl
  | none =>
    rw [emit, reached]
    apply Cuts.same
    intro limit limited _
    have not_reached := Option.filter_eq_none_iff.mp reached limit limited
    simp only [decide_eq_true_eq] at not_reached
    exact Nat.lt_of_not_le not_reached

theorem cuts_evaluating {α : Type} (evaluation : Evaluation α)
    {next nextUnder : α → Environment → Except RuntimeError Step × Machine}
    (cuts : ∀ value environment,
      Cuts limits machine.emitted (next value environment) (nextUnder value environment)) :
    Cuts limits machine.emitted (machine.evaluating evaluation next)
      ((machine.under limits).evaluating evaluation nextUnder) := by
  unfold evaluating
  -- The environment is the same one, so both evaluations come out alike.
  cases evaluated : evaluation machine.environment with
  | ok value environment =>
    have evaluated_under : evaluation (machine.under limits).environment = .ok value environment :=
      evaluated
    rw [evaluated_under]
    exact cuts value environment
  | error error environment =>
    have evaluated_under :
        evaluation (machine.under limits).environment = .error error environment := evaluated
    rw [evaluated_under]
    exact cuts_fail error environment

theorem cuts_dispatch (statement : Statement) (frames : List Frame)
    (unlimited : machine.limits.maxInstructions = none) :
    Cuts limits machine.emitted (machine.dispatch statement frames)
      ((machine.under limits).dispatch statement frames) := by
  cases statement with
  | block | loop => exact cuts_advance _ _
  | expression | declare | branch => exact cuts_evaluating _ fun _ _ => cuts_advance _ _
  | setBlock => exact cuts_evaluating _ fun _ _ => cuts_emit _ _ _ unlimited

theorem cuts_work (frame : Frame) (below : List Frame)
    (unlimited : machine.limits.maxInstructions = none) :
    Cuts limits machine.emitted (machine.work frame below)
      ((machine.under limits).work frame below) := by
  cases frame with
  | loop => exact cuts_evaluating _ fun _ _ => cuts_advance _ _
  | statements rest leavesScope =>
    cases rest with
    | nil => exact cuts_advance _ _
    | cons statement rest => exact cuts_dispatch _ _ unlimited

/-- As long as the limit on steps does not stop a step, the limits have a say in nothing but the
command that it emits. -/
theorem cuts_step (unlimited : machine.limits = .unbounded)
    (allows : limits.Allows machine.steps machine.emitted)
    (steps_left : ∀ limit, ¬limits.StopsSteps machine limit) :
    Cuts limits machine.emitted machine.step (machine.under limits).step := by
  cases stack : machine.frames with
  | nil =>
    rw [step_of_frames_nil stack, step_of_frames_nil (frames_under.trans stack)]
    apply Cuts.same
    simp [commandCount]
  | cons frame below =>
    have not_reached : (machine.under limits).stepLimit? = none := by
      apply Option.filter_eq_none_iff.mpr
      intro limit limited
      have within := allows.steps_le limit limited
      have not_spent : machine.steps ≠ limit := fun spent =>
        steps_left limit ⟨limited, spent, by simp [stack]⟩
      have less : machine.steps < limit := by omega
      exact ne_true_of_eq_false (decide_eq_false (Nat.not_le_of_lt less))
    rw [step_of_frames_cons stack (by rw [unlimited]; rfl)]
    simp only [step, frames_under, stack, not_reached]
    exact @cuts_work { machine with steps := machine.steps + 1 } limits frame below
      (by simp [unlimited, Limits.unbounded])

/-- A step that no limit stops is the same under limits. -/
theorem step_under (unlimited : machine.limits = .unbounded)
    (allows : limits.Allows machine.steps machine.emitted) (passes : limits.Passes machine) :
    (machine.under limits).step = (machine.step.1, machine.step.2.under limits) := by
  have cuts := cuts_step unlimited allows passes.steps
  generalize outcome : (machine.under limits).step = cut at cuts
  cases cuts with
  | same => rfl
  | stopped limit command limited reached emits =>
    have spent := Nat.le_antisymm (allows.commands_le limit limited) reached
    exact absurd ⟨limited, spent, ⟨command, emits⟩, passes.steps⟩ (passes.commands limit)

/-- The limit on steps is reached before anything is done. -/
theorem step_of_stopsSteps {limit : Nat} (stops : limits.StopsSteps machine limit) :
    (machine.under limits).step = (machine.under limits).fail (.stepLimitExceeded limit) := by
  have reached : (machine.under limits).stepLimit? = some limit := by
    apply Option.filter_eq_some_iff.mpr
    exact ⟨stops.limited, by simp [under, stops.spent]⟩
  obtain ⟨frame, below, stack⟩ := List.exists_cons_of_ne_nil stops.left
  simp only [step, frames_under, stack, reached]

/-- The limit on commands is reached by a step that would emit one. -/
theorem step_of_stopsCommands {limit : Nat} (unlimited : machine.limits = .unbounded)
    (allows : limits.Allows machine.steps machine.emitted)
    (stops : limits.StopsCommands machine limit) :
    (machine.under limits).step.1 = .error (.instructionLimitExceeded limit) ∧
      (machine.under limits).step.2.emitted = limit ∧ (machine.under limits).step.2.frames = [] := by
  have cuts := cuts_step unlimited allows stops.steps_left
  generalize (machine.under limits).step = cut at cuts ⊢
  cases cuts with
  | same less =>
    obtain ⟨command, emits⟩ := stops.emits
    have below := less limit stops.limited (by rw [emits]; rfl)
    have spent := stops.spent
    omega
  | stopped reached _ limited _ _ failed counted empty =>
    obtain rfl : reached = limit := Option.some.inj (limited.symm.trans stops.limited)
    exact ⟨failed, counted.trans stops.spent, empty⟩

/-- A step that no limit stops keeps the counts within the limits. -/
theorem allows_step (unlimited : machine.limits = .unbounded)
    (allows : limits.Allows machine.steps machine.emitted) (passes : limits.Passes machine) :
    limits.Allows machine.step.2.steps machine.step.2.emitted := by
  constructor
  · intro limit limited
    have within := allows.steps_le limit limited
    cases stack : machine.frames with
    | nil => rwa [step_of_frames_nil stack]
    | cons frame below =>
      -- A machine with work left that has spent its steps would be stopped.
      have not_spent : machine.steps ≠ limit := fun spent =>
        passes.steps limit ⟨limited, spent, by simp [stack]⟩
      have counted : machine.step.2.steps = machine.steps + 1 := by
        rw [step_of_frames_cons stack (by rw [unlimited]; rfl)]
        exact (works_work _ _ _).steps_eq
      omega
  · intro limit limited
    have within := allows.commands_le limit limited
    have counted : machine.step.2.emitted = machine.emitted + commandCount machine.step.1 :=
      step_emitted rfl
    by_cases emits : ∃ command, machine.step.1 = .ok (.emitted command)
    · have not_spent : machine.emitted ≠ limit := fun spent =>
        passes.commands limit ⟨limited, spent, emits, passes.steps⟩
      obtain ⟨command, emits⟩ := emits
      rw [emits] at counted
      simp only [commandCount] at counted
      omega
    · have none_emitted : commandCount machine.step.1 = 0 := by
        unfold commandCount
        split
        · next command emitted => exact absurd ⟨command, emitted⟩ emits
        · rfl
      omega

/-! ### Runs under limits -/

/-- Up to the first step that a limit stops, a machine under limits goes the way it goes without
them. -/
theorem after_under (unlimited : machine.limits = .unbounded)
    (allows : limits.Allows machine.steps machine.emitted) {steps : Nat}
    (passes : ∀ earlier < steps, limits.Passes (machine.after earlier)) :
    (machine.under limits).after steps = (machine.after steps).under limits ∧
      limits.Allows (machine.after steps).steps (machine.after steps).emitted := by
  induction steps with
  | zero => exact ⟨rfl, allows⟩
  | succ steps ih =>
    obtain ⟨same, within⟩ := ih fun earlier less => passes earlier (Nat.lt_succ_of_lt less)
    have still_unlimited := (after_limits machine steps).trans unlimited
    have passes_last := passes steps (Nat.lt_succ_self steps)
    refine ⟨?_, allows_step still_unlimited within passes_last⟩
    rw [after, same, step_under still_unlimited within passes_last]
    rfl

/-- A step of a machine fails, and nothing happens behind it. -/
structure FailsAt (machine : Machine) (steps : Nat) (error : RuntimeError) : Prop where
  fails : (machine.after steps).step.1 = .error error
  ends : ∀ later > steps, (machine.after later).step.1 = .ok .finished

theorem failsAt_of_frames_nil {steps : Nat} {error : RuntimeError}
    (fails : (machine.after steps).step.1 = .error error)
    (empty : (machine.after (steps + 1)).frames = []) : machine.FailsAt steps error where
  fails := fails
  ends later less := by
    obtain ⟨more, rfl⟩ := Nat.exists_eq_add_of_le (Nat.succ_le_of_lt less)
    rw [after_add, after_of_frames_nil empty, step_of_frames_nil empty]

theorem Reaches.steps_le (unlimited : machine.limits = .unbounded) {last : Machine}
    {commands : List Command} (reaches : machine.Reaches commands last) :
    machine.steps ≤ last.steps := by
  induction reaches with
  | refl => exact Nat.le_refl _
  | advanced stepped _ ih | emitted stepped _ ih =>
    have counted := step_steps (by rw [unlimited]; rfl) stepped (by simp)
    have onward := ih ((step_limits stepped).trans unlimited)
    omega

/-- A step of a run whose final counts are within the limits is the same under limits. -/
theorem step_under_of_reaches (unlimited : machine.limits = .unbounded) {next last : Machine}
    {result : Step} {commands : List Command} (stepped : machine.step = (.ok result, next))
    (goes_on : result ≠ .finished) (reaches : next.Reaches commands last)
    (allows : limits.Allows last.steps last.emitted) :
    (machine.under limits).step = (.ok result, next.under limits) := by
  have more_steps := reaches.steps_le ((step_limits stepped).trans unlimited)
  have one_step := step_steps (by rw [unlimited]; rfl) stepped (by simpa using goes_on)
  have more_commands := reaches.emitted_eq
  have counted := step_emitted stepped
  have within : limits.Allows machine.steps machine.emitted := allows.mono (by omega) (by omega)
  -- A limit that stopped this step would be exceeded at the end.
  have passes : limits.Passes machine := by
    constructor
    · rintro limit ⟨limited, spent, -⟩
      have most := allows.steps_le limit limited
      omega
    · rintro limit ⟨limited, spent, ⟨command, emits⟩, -⟩
      have most := allows.commands_le limit limited
      rw [stepped] at emits
      cases emits
      simp only [commandCount] at counted
      omega
  rw [step_under unlimited within passes, stepped]

/-- A step under limits that does not fail is the same without them. -/
theorem step_of_under (unlimited : machine.limits = .unbounded)
    (allows : limits.Allows machine.steps machine.emitted) {cut : Machine} {result : Step}
    (stepped : (machine.under limits).step = (.ok result, cut)) :
    ∃ next, machine.step = (.ok result, next) ∧ cut = next.under limits ∧
      limits.Allows next.steps next.emitted := by
  have passes : limits.Passes machine := by
    constructor
    · intro limit stops
      rw [step_of_stopsSteps stops] at stepped
      cases stepped
    · intro limit stops
      have failed := (step_of_stopsCommands unlimited allows stops).1
      rw [stepped] at failed
      cases failed
  rw [step_under unlimited allows passes] at stepped
  obtain ⟨result_eq, rfl⟩ := Prod.mk.inj stepped
  exact ⟨machine.step.2, Prod.ext result_eq rfl, rfl, allows_step unlimited allows passes⟩

/-- What a machine reaches within the limits it also reaches under them. -/
theorem Reaches.under (unlimited : machine.limits = .unbounded) {last : Machine}
    {commands : List Command} (reaches : machine.Reaches commands last)
    (allows : limits.Allows last.steps last.emitted) :
    (machine.under limits).Reaches commands (last.under limits) := by
  induction reaches with
  | refl machine => exact .refl _
  | advanced stepped rest ih =>
    have onward := ih ((step_limits stepped).trans unlimited) allows
    exact .advanced (step_under_of_reaches unlimited stepped (by simp) rest allows) onward
  | emitted stepped rest ih =>
    have onward := ih ((step_limits stepped).trans unlimited) allows
    exact .emitted (step_under_of_reaches unlimited stepped (by simp) rest allows) onward

/-- What a machine reaches under limits it also reaches without them, within the limits. -/
theorem reaches_of_under (unlimited : machine.limits = .unbounded)
    (allows : limits.Allows machine.steps machine.emitted) {cut : Machine}
    {commands : List Command} (reaches : (machine.under limits).Reaches commands cut) :
    ∃ last, machine.Reaches commands last ∧ cut = last.under limits ∧
      limits.Allows last.steps last.emitted := by
  generalize start : machine.under limits = first at reaches
  induction reaches generalizing machine with
  | refl => exact ⟨machine, .refl machine, start.symm, allows⟩
  | advanced stepped _ ih =>
    subst start
    obtain ⟨next, own, rfl, still_allows⟩ := step_of_under unlimited allows stepped
    obtain ⟨last, onward, last_eq, within⟩ :=
      ih ((step_limits own).trans unlimited) still_allows rfl
    exact ⟨last, .advanced own onward, last_eq, within⟩
  | emitted stepped _ ih =>
    subst start
    obtain ⟨next, own, rfl, still_allows⟩ := step_of_under unlimited allows stepped
    obtain ⟨last, onward, last_eq, within⟩ :=
      ih ((step_limits own).trans unlimited) still_allows rfl
    exact ⟨last, .emitted own onward, last_eq, within⟩

end Machine

/-! ### Programs under limits -/

open Machine

theorem start_under (program : Program) (limits : Limits) :
    (Machine.start program .unbounded).under limits = Machine.start program limits := rfl

theorem allows_start (program : Program) (limits : Limits) :
    limits.Allows (Machine.start program .unbounded).steps
      (Machine.start program .unbounded).emitted :=
  ⟨fun limit _ => Nat.zero_le limit, fun limit _ => Nat.zero_le limit⟩

/-- A program is valid under limits if its run without them ends within them. -/
theorem validate_under_iff {program : Program} {limits : Limits} {summary : RunSummary} :
    (∃ fuel, program.validate fuel limits = some (.ok summary)) ↔
      ∃ commands last, (Machine.start program .unbounded).Reaches commands last ∧
        last.step = (.ok .finished, last) ∧ summary = ⟨commands.length, last.steps⟩ ∧
        limits.Allows last.steps commands.length := by
  rw [validate_ok_iff_reaches, ← start_under]
  constructor
  · rintro ⟨commands, last, reaches, empty, rfl⟩
    obtain ⟨full, full_reaches, rfl, within⟩ :=
      reaches_of_under rfl (allows_start program limits) reaches
    have counted : full.emitted = commands.length := by
      simpa [Machine.start] using full_reaches.emitted_eq
    refine ⟨commands, full, full_reaches, step_of_frames_nil empty, ?_, ?_⟩
    · rw [emitted_under, steps_under, counted]
    · rwa [← counted]
  · rintro ⟨commands, last, reaches, finished, rfl, within⟩
    have counted : last.emitted = commands.length := by
      simpa [Machine.start] using reaches.emitted_eq
    rw [← counted] at within ⊢
    exact ⟨commands, last.under limits, reaches.under rfl within,
      (frames_eq_nil_of_finished finished).1, rfl⟩

/-- Limits only cut a run short, at an exact step.  Up to the step that a limit stops, a program
runs under limits as it does without them; that step fails with the limit that is reached, and
nothing happens behind it.  Hence a program is valid under limits if its run without them ends
without an error and its counts are within the limits; these counts are the summary, and limits
that have been raised or removed change neither. -/
theorem limits_cut_runs (program : Program) (limits : Limits) :
    (∀ steps,
      (∀ earlier ≤ steps, limits.Passes ((Machine.start program .unbounded).after earlier)) →
        ((Machine.start program limits).after steps).step.1 =
          ((Machine.start program .unbounded).after steps).step.1) ∧
    (∀ steps,
      (∀ earlier < steps, limits.Passes ((Machine.start program .unbounded).after earlier)) →
        (∀ limit, limits.StopsSteps ((Machine.start program .unbounded).after steps) limit →
          (Machine.start program limits).FailsAt steps (.stepLimitExceeded limit) ∧
            ((Machine.start program limits).after (steps + 1)).steps = limit) ∧
        ∀ limit, limits.StopsCommands ((Machine.start program .unbounded).after steps) limit →
          (Machine.start program limits).FailsAt steps (.instructionLimitExceeded limit) ∧
            ((Machine.start program limits).after (steps + 1)).emitted = limit) ∧
    (∀ summary, (∃ fuel, program.validate fuel limits = some (.ok summary)) ↔
      ∃ commands last, (Machine.start program .unbounded).Reaches commands last ∧
        last.step = (.ok .finished, last) ∧ summary = ⟨commands.length, last.steps⟩ ∧
        limits.Allows last.steps commands.length) ∧
    ∀ raised summary, limits.RaisedTo raised →
      (∃ fuel, program.validate fuel limits = some (.ok summary)) →
        (∃ fuel, program.validate fuel raised = some (.ok summary)) ∧
          ∀ fuel outcome, program.validate fuel raised = some outcome → outcome = .ok summary := by
  refine ⟨?_, ?_, fun summary => validate_under_iff, ?_⟩
  · intro steps passes
    obtain ⟨same, within⟩ := after_under rfl (allows_start program limits)
      fun earlier less => passes earlier (Nat.le_of_lt less)
    rw [← start_under, same,
      step_under (after_limits _ _) within (passes steps (Nat.le_refl steps))]
  · intro steps passes
    obtain ⟨same, within⟩ := after_under rfl (allows_start program limits) passes
    rw [start_under] at same
    constructor
    · -- The limit on steps is looked at first, so nothing of the machine has changed.
      intro limit stops
      have failed := step_of_stopsSteps stops
      rw [← same] at failed
      have next : (Machine.start program limits).after (steps + 1) =
          (((Machine.start program limits).after steps).fail (.stepLimitExceeded limit)).2 :=
        congrArg Prod.snd failed
      refine ⟨failsAt_of_frames_nil (congrArg Prod.fst failed) (by rw [next]; rfl), ?_⟩
      rw [next, same]
      exact stops.spent
    · -- The limit on commands is looked at within the step, which is counted.
      intro limit stops
      have failed := step_of_stopsCommands (after_limits _ _) within stops
      rw [← same] at failed
      obtain ⟨result, counted, empty⟩ := failed
      exact ⟨failsAt_of_frames_nil result empty, counted⟩
  · rintro raised summary raise ⟨fuel, valid⟩
    obtain ⟨commands, last, reaches, finished, counts, within⟩ := validate_under_iff.mp ⟨fuel, valid⟩
    obtain ⟨more, valid_raised⟩ :=
      validate_under_iff.mpr ⟨commands, last, reaches, finished, counts, within.raised raise⟩
    exact ⟨⟨more, valid_raised⟩, fun other outcome found => validate_unique found valid_raised⟩

end BlockScript
