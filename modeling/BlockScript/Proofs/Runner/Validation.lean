import BlockScript.Proofs.Machine.Steps
import BlockScript.Proofs.Runner.Yield

/-!
# Validation

A runner yields the commands that its machine emits on the way to the end (`yields_iff_reaches`).  A
program is valid if its machine reaches the end, and the summary holds the counts that it has there
(`validate_ok_iff_reaches`).
-/

namespace BlockScript

/-! ### Up to the next command -/

/-- What a call for the next command says to the result of a step: nothing, and goes on, if the step
has only advanced. -/
def Machine.answer? : Except RuntimeError Step → Option (Except RuntimeError (Option Command))
  | .ok (.emitted command) => some (.ok (some command))
  | .ok .advanced => none
  | .ok .finished => some (.ok none)
  | .error error => some (.error error)

/-- A call for the next command takes steps that only advance, and then the one that it answers
to. -/
theorem Machine.nextCommand_steps {fuel : Nat} {machine next : Machine}
    {answer : Except RuntimeError (Option Command)}
    (found : machine.nextCommand fuel = some (answer, next)) :
    ∃ middle result, machine.Reaches [] middle ∧ middle.step = (result, next) ∧
      answer? result = some answer := by
  induction fuel generalizing machine with
  | zero => cases found
  | succ fuel ih =>
    unfold nextCommand at found
    split at found
    case h_2 behind stepped =>
      obtain ⟨middle, result, reaches, last, same⟩ := ih found
      exact ⟨middle, result, .advanced stepped reaches, last, same⟩
    all_goals
      next stepped =>
        cases found
        exact ⟨machine, _, .refl machine, stepped, rfl⟩

theorem Machine.reaches_of_nextCommand_some {fuel : Nat} {machine next : Machine}
    {command : Command} (found : machine.nextCommand fuel = some (.ok (some command), next)) :
    machine.Reaches [command] next := by
  obtain ⟨middle, result, reaches, stepped, same⟩ := nextCommand_steps found
  rcases result with error | ⟨command⟩ | _ | _ <;> cases same
  exact reaches.trans (.emitted stepped (.refl next))

theorem Machine.reaches_of_nextCommand_none {fuel : Nat} {machine last : Machine}
    (found : machine.nextCommand fuel = some (.ok none, last)) :
    machine.Reaches [] last ∧ last.frames = [] := by
  obtain ⟨middle, result, reaches, stepped, same⟩ := nextCommand_steps found
  rcases result with error | ⟨command⟩ | _ | _ <;> cases same
  -- The step that finds the end leaves the machine as it is.
  obtain ⟨empty, rfl⟩ := frames_eq_nil_of_finished stepped
  exact ⟨reaches, empty⟩

theorem Machine.nextCommand_of_frames_nil {machine : Machine} (empty : machine.frames = [])
    (fuel : Nat) : machine.nextCommand (fuel + 1) = some (.ok none, machine) := by
  rw [nextCommand, step_of_frames_nil empty]

/-! ### Up to the end -/

namespace Runner

theorem next_of_going (fuel : Nat) (machine : Machine) :
    (⟨machine, false⟩ : Runner).next fuel =
      (machine.nextCommand fuel).map fun (answer, next) =>
        (answer, ⟨next, match answer with | .ok (some _) => false | _ => true⟩) := by
  simp only [next]
  rcases machine.nextCommand fuel with _ | ⟨error | _ | command, last⟩ <;> rfl

theorem drain_of_next {fuel pulls : Nat} {runner next : Runner} {command : Command}
    (pulled : runner.next fuel = some (.ok (some command), next)) :
    runner.drain fuel (pulls + 1) [] =
      (next.drain fuel pulls []).map fun (commands, failure, last) =>
        (command :: commands, failure, last) := by
  rw [drain, pulled]
  exact drain_taken fuel pulls [command] next

theorem reaches_of_drain {fuel pulls : Nat} {machine : Machine} {last : Runner}
    {commands : List Command}
    (drained : (⟨machine, false⟩ : Runner).drain fuel pulls [] = some (commands, none, last)) :
    machine.Reaches commands last.machine ∧ last.machine.frames = [] := by
  induction pulls generalizing machine commands with
  | zero => cases drained
  | succ pulls ih =>
    have pulled := next_of_going fuel machine
    rcases found : machine.nextCommand fuel with _ | ⟨error | _ | command, next⟩
    all_goals rw [found] at pulled
    · rw [drain, pulled] at drained
      cases drained
    · rw [drain, pulled] at drained
      cases drained
    · rw [drain, pulled] at drained
      cases drained
      exact Machine.reaches_of_nextCommand_none found
    · rw [drain_of_next pulled] at drained
      obtain ⟨⟨rest, failure, final⟩, drained, same⟩ := Option.map_eq_some_iff.mp drained
      cases same
      obtain ⟨reaches, empty⟩ := ih drained
      exact ⟨(Machine.reaches_of_nextCommand_some found).trans reaches, empty⟩

theorem next_of_advanced {machine next : Machine} (stepped : machine.step = (.ok .advanced, next))
    (fuel : Nat) : (⟨machine, false⟩ : Runner).next (fuel + 1) = (⟨next, false⟩ : Runner).next fuel := by
  rw [next_of_going, next_of_going, Machine.nextCommand, stepped]

theorem drain_of_reaches {machine last : Machine} {commands : List Command}
    (reaches : machine.Reaches commands last) (empty : last.frames = []) :
    ∃ fuel pulls, (⟨machine, false⟩ : Runner).drain fuel pulls [] =
      some (commands, none, ⟨last, true⟩) := by
  induction reaches with
  | refl machine =>
    refine ⟨1, 1, ?_⟩
    rw [drain, next_of_going, Machine.nextCommand_of_frames_nil empty]
    rfl
  | @advanced machine next last commands stepped _ ih =>
    obtain ⟨fuel, pulls, drained⟩ := ih empty
    refine ⟨fuel + 1, pulls, ?_⟩
    -- The step makes the first pull one longer; the others have more fuel than they need.
    cases pulls with
    | zero => cases drained
    | succ pulls =>
      unfold drain at drained ⊢
      rw [next_of_advanced stepped]
      split at drained
      · cases drained
      · exact drain_mono (Nat.le_succ fuel) (Nat.le_refl pulls) drained
      · exact drained
      · exact drained
  | @emitted machine next last command commands stepped _ ih =>
    obtain ⟨fuel, pulls, drained⟩ := ih empty
    have pulled : (⟨machine, false⟩ : Runner).next (fuel + 1) =
        some (.ok (some command), ⟨next, false⟩) := by
      rw [next_of_going, Machine.nextCommand, stepped]
      rfl
    refine ⟨fuel + 1, pulls + 1, ?_⟩
    rw [drain_of_next pulled, drain_mono (Nat.le_succ fuel) (Nat.le_refl pulls) drained]
    rfl

/-- A runner yields commands and no error if its machine emits them and reaches the end. -/
theorem yields_iff_reaches {machine : Machine} {commands : List Command} :
    (⟨machine, false⟩ : Runner).Yields commands none ↔
      ∃ last, machine.Reaches commands last ∧ last.frames = [] := by
  constructor
  · rintro ⟨enough, drained⟩
    obtain ⟨last, drained⟩ := drained enough (Nat.le_refl enough)
    exact ⟨last.machine, reaches_of_drain drained⟩
  · rintro ⟨last, reaches, empty⟩
    obtain ⟨fuel, pulls, drained⟩ := drain_of_reaches reaches empty
    exact yields_of_drain drained

/-- What a runner comes to, once its commands are forgotten. -/
def ending : List Command × Option RuntimeError × Runner → Except RuntimeError Runner
  | (_, none, last) => .ok last
  | (_, some error, _) => .error error

/-- To let a run go to its end is to take its commands and to forget them. -/
theorem finish_eq_drain (fuel pulls : Nat) (taken : List Command) (runner : Runner) :
    runner.finish fuel pulls = (runner.drain fuel pulls taken).map ending := by
  induction pulls generalizing taken runner with
  | zero => rfl
  | succ pulls ih =>
    rw [finish, drain]
    rcases runner.next fuel with _ | ⟨error | _ | command, next⟩
    · rfl
    · rfl
    · rfl
    · exact ih (command :: taken) next

theorem finish_mono {fuel pulls more morePulls : Nat} (le : fuel ≤ more)
    (le_pulls : pulls ≤ morePulls) {runner : Runner} {outcome : Except RuntimeError Runner}
    (found : runner.finish fuel pulls = some outcome) :
    runner.finish more morePulls = some outcome := by
  rw [finish_eq_drain _ _ []] at found ⊢
  obtain ⟨answer, drained, rfl⟩ := Option.map_eq_some_iff.mp found
  rw [drain_mono le le_pulls drained, Option.map_some]

theorem reaches_of_finish {fuel pulls : Nat} {machine : Machine} {last : Runner}
    (finished : (⟨machine, false⟩ : Runner).finish fuel pulls = some (.ok last)) :
    ∃ commands, machine.Reaches commands last.machine ∧ last.machine.frames = [] := by
  rw [finish_eq_drain _ _ []] at finished
  obtain ⟨⟨commands, failure, final⟩, drained, same⟩ := Option.map_eq_some_iff.mp finished
  cases failure with
  | some error => cases same
  | none =>
    cases same
    exact ⟨commands, reaches_of_drain drained⟩

theorem finish_of_reaches {machine last : Machine} {commands : List Command}
    (reaches : machine.Reaches commands last) (empty : last.frames = []) :
    ∃ fuel pulls, (⟨machine, false⟩ : Runner).finish fuel pulls = some (.ok ⟨last, true⟩) := by
  obtain ⟨fuel, pulls, drained⟩ := drain_of_reaches reaches empty
  exact ⟨fuel, pulls, by rw [finish_eq_drain _ _ [], drained]; rfl⟩

end Runner

/-! ### Programs -/

variable {program : Program} {limits : Limits}

theorem validate_mono {fuel more : Nat} (le : fuel ≤ more)
    {outcome : Except RuntimeError RunSummary} (found : program.validate fuel limits = some outcome) :
    program.validate more limits = some outcome := by
  obtain ⟨result, finished, rfl⟩ := Option.map_eq_some_iff.mp found
  rw [Program.validate, Runner.finish_mono le le finished, Option.map_some]

/-- Two validations that have an answer have the same one. -/
theorem validate_unique {fuel other : Nat} {first second : Except RuntimeError RunSummary}
    (found : program.validate fuel limits = some first)
    (found_other : program.validate other limits = some second) : first = second := by
  have one := validate_mono (Nat.le_max_left fuel other) found
  have two := validate_mono (Nat.le_max_right fuel other) found_other
  exact Option.some.inj (one.symm.trans two)

theorem validate_ok_iff_reaches {summary : RunSummary} :
    (∃ fuel, program.validate fuel limits = some (.ok summary)) ↔
      ∃ commands last, (Machine.start program limits).Reaches commands last ∧ last.frames = [] ∧
        summary = ⟨last.emitted, last.steps⟩ := by
  constructor
  · rintro ⟨fuel, found⟩
    obtain ⟨result, finished, mapped⟩ := Option.map_eq_some_iff.mp found
    cases result with
    | error error => cases mapped
    | ok last =>
      obtain ⟨commands, reaches, empty⟩ := Runner.reaches_of_finish finished
      exact ⟨commands, last.machine, reaches, empty, (Except.ok.inj mapped).symm⟩
  · rintro ⟨commands, last, reaches, empty, rfl⟩
    obtain ⟨fuel, pulls, finished⟩ := Runner.finish_of_reaches reaches empty
    refine ⟨max fuel pulls, ?_⟩
    have enough := Runner.finish_mono (Nat.le_max_left fuel pulls) (Nat.le_max_right fuel pulls)
      finished
    rw [Program.validate, Runner.start, enough]
    rfl

end BlockScript
