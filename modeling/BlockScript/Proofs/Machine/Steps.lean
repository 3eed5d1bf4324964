import BlockScript.Machine

/-!
# Steps of the machine

What one step leaves alone and what it counts, and the runs that steps make up.
-/

namespace BlockScript.Machine

/-! ### One step -/

theorem step_of_frames_nil {machine : Machine} (empty : machine.frames = []) :
    machine.step = (.ok .finished, machine) := by
  simp only [step, empty]

/-- Without a limit on steps every frame gets its unit of work. -/
theorem step_of_frames_cons {machine : Machine} {frame : Frame} {below : List Frame}
    (stack : machine.frames = frame :: below) (unlimited : machine.limits.maxSteps = none) :
    machine.step = ({ machine with steps := machine.steps + 1 }).work frame below := by
  simp only [step, stack, stepLimit?, unlimited, Option.filter_none]

/-- A step finds the run finished, is stopped by the limit on steps, or does the work of the top
frame and counts. -/
theorem step_cases (machine : Machine) :
    (machine.frames = [] ∧ machine.step = (.ok .finished, machine)) ∨
    (∃ limit, machine.stepLimit? = some limit ∧
      machine.step = machine.fail (.stepLimitExceeded limit)) ∨
    ∃ frame below, machine.frames = frame :: below ∧
      machine.step = ({ machine with steps := machine.steps + 1 }).work frame below := by
  unfold step
  split
  · next empty => exact .inl ⟨empty, rfl⟩
  · next frame below stack =>
    split
    · next limit reached => exact .inr (.inl ⟨limit, reached, rfl⟩)
    · exact .inr (.inr ⟨frame, below, stack, rfl⟩)

/-- Without a limit on commands every command is emitted. -/
theorem emit_of_unlimited {machine : Machine} (command : Command)
    (unlimited : machine.limits.maxInstructions = none) :
    machine.emit command =
      (.ok (.emitted command), { machine with emitted := machine.emitted + 1 }) := by
  simp only [emit, instructionLimit?, unlimited, Option.filter_none]

/-- How many commands a step with a given result has emitted, at most one. -/
def commandCount : Except RuntimeError Step → Nat
  | .ok (.emitted _) => 1
  | _ => 0

/-- What any unit of work does to the rest of the machine: it neither ends the run nor touches the
count of steps or the limits, and the command that it emits is counted. -/
structure Works (machine : Machine) (outcome : Except RuntimeError Step × Machine) : Prop where
  goes_on : outcome.1 ≠ .ok .finished
  steps_eq : outcome.2.steps = machine.steps
  limits_eq : outcome.2.limits = machine.limits
  emitted_eq : outcome.2.emitted = machine.emitted + commandCount outcome.1

theorem works_fail (machine : Machine) (error : RuntimeError) (environment : Environment) :
    machine.Works ({ machine with environment }.fail error) :=
  ⟨by simp [fail], rfl, rfl, rfl⟩

theorem works_advance (machine : Machine) (environment : Environment) (frames : List Frame) :
    machine.Works (machine.advance environment frames) :=
  ⟨by simp [advance], rfl, rfl, rfl⟩

theorem works_emit (machine : Machine) (environment : Environment) (frames : List Frame)
    (command : Command) : machine.Works ({ machine with environment, frames }.emit command) := by
  unfold emit
  split
  · exact ⟨by simp [fail], rfl, rfl, rfl⟩
  · exact ⟨by simp, rfl, rfl, rfl⟩

theorem works_evaluating {α : Type} (machine : Machine) (evaluation : Evaluation α)
    (next : α → Environment → Except RuntimeError Step × Machine)
    (works : ∀ value environment, machine.Works (next value environment)) :
    machine.Works (machine.evaluating evaluation next) := by
  unfold evaluating
  split
  · exact works _ _
  · exact works_fail _ _ _

theorem works_dispatch (machine : Machine) (statement : Statement) (frames : List Frame) :
    machine.Works (machine.dispatch statement frames) := by
  cases statement with
  | block | loop => exact works_advance _ _ _
  | expression | declare | branch => exact works_evaluating _ _ _ fun _ _ => works_advance _ _ _
  | setBlock => exact works_evaluating _ _ _ fun _ _ => works_emit _ _ _ _

theorem works_work (machine : Machine) (frame : Frame) (below : List Frame) :
    machine.Works (machine.work frame below) := by
  cases frame with
  | loop => exact works_evaluating _ _ _ fun _ _ => works_advance _ _ _
  | statements rest leavesScope =>
    cases rest with
    | nil => exact works_advance _ _ _
    | cons statement rest => exact works_dispatch _ _ _

theorem step_limits {machine next : Machine} {result : Except RuntimeError Step}
    (stepped : machine.step = (result, next)) : next.limits = machine.limits := by
  have kept : machine.step.2.limits = machine.limits := by
    obtain ⟨-, finished⟩ | ⟨limit, -, stopped⟩ | ⟨frame, below, -, worked⟩ := machine.step_cases
    · rw [finished]
    · rw [stopped]
      rfl
    · rw [worked]
      exact (works_work _ _ _).limits_eq
  rwa [stepped] at kept

/-- A step that does something counts as one, unless the limit on steps stops it. -/
theorem step_steps {machine next : Machine} {result : Except RuntimeError Step}
    (unlimited : machine.limits.maxSteps = none) (stepped : machine.step = (result, next))
    (goes_on : result ≠ .ok .finished) : next.steps = machine.steps + 1 := by
  cases stack : machine.frames with
  | nil =>
    -- Only an empty stack is the end, and that step is not counted.
    rw [step_of_frames_nil stack] at stepped
    exact absurd (congrArg Prod.fst stepped).symm goes_on
  | cons frame below =>
    rw [step_of_frames_cons stack unlimited] at stepped
    have counted := (works_work { machine with steps := machine.steps + 1 } frame below).steps_eq
    rwa [stepped] at counted

/-- The commands that steps emit are counted. -/
theorem step_emitted {machine next : Machine} {result : Except RuntimeError Step}
    (stepped : machine.step = (result, next)) :
    next.emitted = machine.emitted + commandCount result := by
  have counted : machine.step.2.emitted = machine.emitted + commandCount machine.step.1 := by
    obtain ⟨-, finished⟩ | ⟨limit, -, stopped⟩ | ⟨frame, below, -, worked⟩ := machine.step_cases
    · rw [finished]
      rfl
    · rw [stopped]
      rfl
    · rw [worked]
      exact (works_work _ _ _).emitted_eq
  rwa [stepped] at counted

/-- Only an empty stack of frames is the end of a run. -/
theorem frames_eq_nil_of_finished {machine next : Machine}
    (stepped : machine.step = (.ok .finished, next)) : machine.frames = [] ∧ next = machine := by
  obtain ⟨empty, finished⟩ | ⟨limit, -, stopped⟩ | ⟨frame, below, -, worked⟩ := machine.step_cases
  · exact ⟨empty, congrArg Prod.snd (stepped.symm.trans finished)⟩
  · cases stepped.symm.trans stopped
  · exact absurd (congrArg Prod.fst (worked.symm.trans stepped)) (works_work _ _ _).goes_on

/-! ### Runs -/

/-- The machine after a number of steps. -/
def after (machine : Machine) : (steps : Nat) → Machine
  | 0 => machine
  | steps + 1 => (machine.after steps).step.2

/-- Once the stack is empty nothing happens any more. -/
theorem after_of_frames_nil {machine : Machine} (empty : machine.frames = []) (steps : Nat) :
    machine.after steps = machine := by
  induction steps with
  | zero => rfl
  | succ steps ih => rw [after, ih, step_of_frames_nil empty]

theorem after_limits (machine : Machine) (steps : Nat) :
    (machine.after steps).limits = machine.limits := by
  induction steps with
  | zero => rfl
  | succ steps ih => exact (step_limits rfl).trans ih

theorem after_add (machine : Machine) (first second : Nat) :
    machine.after (first + second) = (machine.after first).after second := by
  induction second with
  | zero => rfl
  | succ second ih => rw [← Nat.add_assoc, after, ih, after]

/-- The second machine is what steps without an error make of the first one, and the commands are
those that the steps emit, in order. -/
inductive Reaches : Machine → List Command → Machine → Prop where
  | refl (machine : Machine) : Reaches machine [] machine
  | advanced {machine next last : Machine} {commands : List Command} :
    machine.step = (.ok .advanced, next) → Reaches next commands last →
      Reaches machine commands last
  | emitted {machine next last : Machine} {command : Command} {commands : List Command} :
    machine.step = (.ok (.emitted command), next) → Reaches next commands last →
      Reaches machine (command :: commands) last

theorem Reaches.trans {machine middle last : Machine} {first second : List Command}
    (reaches : machine.Reaches first middle) (onward : middle.Reaches second last) :
    machine.Reaches (first ++ second) last := by
  induction reaches with
  | refl => exact onward
  | advanced stepped _ ih => exact .advanced stepped (ih onward)
  | emitted stepped _ ih => exact .emitted stepped (ih onward)

theorem Reaches.limits_eq {machine last : Machine} {commands : List Command}
    (reaches : machine.Reaches commands last) : last.limits = machine.limits := by
  induction reaches with
  | refl => rfl
  | advanced stepped _ ih => exact ih.trans (step_limits stepped)
  | emitted stepped _ ih => exact ih.trans (step_limits stepped)

/-- The commands of a run are those that the machine counts. -/
theorem Reaches.emitted_eq {machine last : Machine} {commands : List Command}
    (reaches : machine.Reaches commands last) :
    last.emitted = machine.emitted + commands.length := by
  induction reaches with
  | refl => rfl
  | advanced stepped _ ih =>
    have counted := step_emitted stepped
    simp only [commandCount] at counted
    omega
  | emitted stepped _ ih =>
    have counted := step_emitted stepped
    simp only [commandCount] at counted
    rw [ih, List.length_cons]
    omega

end BlockScript.Machine
