import BlockScript.Proofs.Build.Passes
import BlockScript.Proofs.Runner.StepLimit

/-!
# Builds under a limit on steps

A pass of a build takes no more steps than the run of its program up to the end (`carries_of_drains`).
With a limit on steps that run has an end, so both passes have one, whatever the sink does, and
everything else that lets a program run comes to an end as well (`step_limit_ends_runs`).
-/

namespace BlockScript

namespace Sink

variable {State : Type}

/-- A pass of a build, which takes exactly the given number of steps in all. -/
inductive Carries (sink : Sink State) : (calls : Nat) → Runner → (placed : Nat) →
    State × Cancellation → Except RuntimeError BuildOutcome × State × Cancellation → Prop where
  | stopped {runner placed state} : state.2.requested = true →
      Carries sink 0 runner placed state (.ok (.cancelled placed), state)
  | command {runner next calls more placed state command outcome} : state.2.requested = false →
      Takes (runner.next ·) calls (.ok (some command), next) →
      Carries sink more next (placed + 1) (sink.place command state) outcome →
      Carries sink (calls + more) runner placed state outcome
  | completed {runner last calls placed state} : state.2.requested = false →
      Takes (runner.next ·) calls (.ok none, last) →
      Carries sink calls runner placed state (.ok (.completed placed), state)
  | failed {runner last calls placed state error} : state.2.requested = false →
      Takes (runner.next ·) calls (.error error, last) →
      Carries sink calls runner placed state (.error error, state)

theorem carries_of_requested {sink : Sink State} {state : State × Cancellation}
    (requested : state.2.requested = true) (runner : Runner) (calls : Nat)
    (failure : Option RuntimeError) (commands : List Command) (placed : Nat) :
    ∃ taken ≤ calls, sink.Carries taken runner placed state
      (sink.carry failure commands placed state) := by
  rw [carry_of_requested requested]
  exact ⟨0, Nat.zero_le calls, .stopped requested⟩

/-- A pass pulls as long as there are commands, unless it is stopped before. -/
theorem carries_of_drains (sink : Sink State) {runner last : Runner} {calls : Nat}
    {commands : List Command} {failure : Option RuntimeError}
    (drains : runner.Drains calls commands failure last) (placed : Nat)
    (state : State × Cancellation) :
    ∃ taken ≤ calls, sink.Carries taken runner placed state
      (sink.carry failure commands placed state) := by
  induction drains generalizing placed state with
  | @command runner next last calls more command commands failure takes _ ih =>
    cases requested : state.2.requested with
    | true => exact carries_of_requested requested _ _ _ _ _
    | false =>
      -- The sink may request a stop with this command, so the rest may take fewer steps.
      obtain ⟨taken, fewer, carries⟩ := ih (placed + 1) (sink.place command state)
      rw [carry_cons requested]
      exact ⟨calls + taken, Nat.add_le_add_left fewer calls, .command requested takes carries⟩
  | completed takes =>
    cases requested : state.2.requested with
    | true => exact carries_of_requested requested _ _ _ _ _
    | false =>
      rw [carry_nil requested]
      exact ⟨_, Nat.le_refl _, .completed requested takes⟩
  | failed takes =>
    cases requested : state.2.requested with
    | true => exact carries_of_requested requested _ _ _ _ _
    | false =>
      rw [carry_nil requested]
      exact ⟨_, Nat.le_refl _, .failed requested takes⟩

/-- A build ends if the run of its program does. -/
theorem exists_execute_of_drains (sink : Sink State) {program : Program} {limits : Limits}
    {calls : Nat} {commands : List Command} {failure : Option RuntimeError} {last : Runner}
    (drains : (Runner.start program limits).Drains calls commands failure last)
    (state : State × Cancellation) :
    ∃ outcome, ∀ fuel > calls, sink.execute fuel program limits state = some outcome := by
  cases requested : state.2.requested with
  | true =>
    refine ⟨(.ok (.cancelled 0), state), fun fuel more => ?_⟩
    obtain ⟨fuel, rfl⟩ := Nat.exists_eq_add_of_le' (Nat.lt_of_le_of_lt (Nat.zero_le calls) more)
    exact execute_of_requested sink fuel program limits requested
  | false =>
    -- Both passes go where the run goes, and no more fuel is needed for the second one.
    have executed {fuel : Nat} (more : fuel > calls) := execute_of_drain sink requested
      (drains.drain_eq (Nat.le_of_lt more) more)
    cases failure with
    | some error => exact ⟨_, fun fuel more => executed more⟩
    | none => exact ⟨_, fun fuel more => executed more⟩

end Sink

theorem validate_of_drains {program : Program} {limits : Limits} {calls : Nat}
    {commands : List Command} {failure : Option RuntimeError} {last : Runner}
    (drains : (Runner.start program limits).Drains calls commands failure last) {fuel : Nat}
    (more : fuel > calls) :
    program.validate fuel limits =
      some ((Runner.ending (commands, failure, last)).map fun runner =>
        ⟨runner.emitted, runner.steps⟩) := by
  rw [Program.validate, Runner.finish_eq_drain _ _ [],
    drains.drain_eq (Nat.le_of_lt more) more]
  rfl

/-- A limit on steps ends every run, whatever the program.  Wherever the machine is, it has not
counted more steps than the limit, nor does it with the next one, and a call for the next command
returns after at most one step more than are left.  So the run of a runner comes to an end within
that many steps in all; validation does, and so does a pass of a build, whether it is stopped or not;
and therefore a build does. -/
theorem step_limit_ends_runs (program : Program) (limits : Limits) (limit : Nat) :
    let limited := limits.withMaxSteps (some limit)
    (∀ calls returned machine, (Machine.start program limited).Calls calls returned machine →
      machine.steps ≤ limit ∧ machine.step.2.steps ≤ limit ∧
      ∃ taken answer next, Takes (machine.nextCommand ·) taken (answer, next) ∧
        taken ≤ limit - machine.steps + 1) ∧
    (∀ answers runner, (Runner.start program limited).Pulls answers runner →
      ∃ taken commands failure last, runner.Drains taken commands failure last ∧
        taken ≤ limit - runner.steps + 1 ∧ last.steps ≤ limit ∧
        ∀ fuel > taken, runner.drain fuel fuel [] = some (commands, failure, last)) ∧
    (∃ taken commands failure last,
      (Runner.start program limited).Drains taken commands failure last ∧ taken ≤ limit + 1 ∧
        ∀ fuel > taken, program.validate fuel limited =
          some ((Runner.ending (commands, failure, last)).map fun runner =>
            ⟨runner.emitted, runner.steps⟩)) ∧
    ∀ (State : Type) (sink : Sink State) state,
      (∃ taken outcome, sink.Carries taken (.start program limited) 0 state outcome ∧
        taken ≤ limit + 1 ∧
        ∀ fuel > limit + 1, sink.carryOut fuel fuel (.start program limited) 0 state =
          some outcome) ∧
      ∃ outcome, ∀ fuel > limit + 1, sink.execute fuel program limited state = some outcome := by
  intro limited
  have within : (Runner.start program limited).machine.StepsWithin limit :=
    Machine.stepsWithin_start program limits limit
  obtain ⟨taken, commands, failure, last, drains, -, (bounded : taken ≤ limit + 1)⟩ :=
    Runner.exists_drains within
  refine ⟨fun calls returned machine run => ?_, fun answers runner pulls => ?_,
    ⟨taken, commands, failure, last, drains, bounded, fun _ => validate_of_drains drains⟩,
    fun State sink state => ⟨?_, ?_⟩⟩
  · obtain ⟨steps, rfl, -⟩ := run.eq_after
    have reached : ((Machine.start program limited).after steps).StepsWithin limit :=
      within.after steps
    obtain ⟨taken, answer, next, takes, -, bounded, -⟩ := Machine.exists_takes reached
    exact ⟨reached.steps_le, reached.step.steps_le, taken, answer, next, takes, by omega⟩
  · obtain ⟨taken, commands, failure, last, drains, last_within, bounded⟩ :=
      Runner.exists_drains (pulls.stepsWithin within)
    exact ⟨taken, commands, failure, last, drains, by omega, last_within.steps_le,
      fun fuel more => drains.drain_eq (Nat.le_of_lt more) more⟩
  · obtain ⟨fewer, le, carries⟩ := sink.carries_of_drains drains 0 state
    refine ⟨fewer, _, carries, Nat.le_trans le bounded, fun fuel more => ?_⟩
    have enough : taken < fuel := Nat.lt_of_le_of_lt bounded more
    exact Sink.carryOut_of_drain sink (drains.drain_eq (Nat.le_of_lt enough) enough) 0 state
  · obtain ⟨outcome, executed⟩ := sink.exists_execute_of_drains drains state
    exact ⟨outcome, fun fuel more => executed fuel (Nat.lt_of_le_of_lt bounded more)⟩

end BlockScript
