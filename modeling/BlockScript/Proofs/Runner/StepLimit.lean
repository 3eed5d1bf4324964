import BlockScript.Proofs.Runner.Pulls

/-!
# The limit on steps

Every step that a call for the next command goes on from has been counted, and none is counted beyond
the limit.  So a call for the next command comes to an end, within one step more than are left
(`Machine.exists_takes`), and so does a whole run: all the steps that its pulls take are no more than
those that were left at its beginning, and one (`Runner.exists_drains`).
-/

namespace BlockScript

/-- What depends on fuel takes exactly the given number of steps: with that much fuel there is the
given answer, and with less there is none. -/
structure Takes {α : Type} (attempt : (fuel : Nat) → Option α) (calls : Nat) (answer : α) : Prop where
  found : attempt calls = some answer
  least : ∀ fewer < calls, attempt fewer = none

namespace Machine

variable {machine next : Machine} {limit calls : Nat} {answer : Except RuntimeError (Option Command)}

/-! ### One step -/

/-- A run with a limit on its steps that has not gone beyond it. -/
structure StepsWithin (limit : Nat) (machine : Machine) : Prop where
  maxSteps_eq : machine.limits.maxSteps = some limit
  steps_le : machine.steps ≤ limit

/-- At the limit no step counts. -/
theorem not_counted_of_le (limited : machine.limits.maxSteps = some limit)
    (reached : limit ≤ machine.steps) : isCounted machine.step.1 = false := by
  have stops : machine.stepLimit? = some limit := by simp [stepLimit?, limited, reached]
  unfold step
  split
  · rfl
  · rw [stops]
    rfl

theorem StepsWithin.lt_of_counted (within : machine.StepsWithin limit)
    (counted : isCounted machine.step.1 = true) : machine.steps < limit := by
  rcases Nat.lt_or_ge machine.steps limit with less | reached
  · exact less
  · rw [not_counted_of_le within.maxSteps_eq reached] at counted
    cases counted

theorem StepsWithin.step (within : machine.StepsWithin limit) :
    machine.step.2.StepsWithin limit where
  maxSteps_eq := (congrArg Limits.maxSteps (step_limits rfl)).trans within.maxSteps_eq
  steps_le := by
    rw [step_counted]
    split
    · next counted => exact within.lt_of_counted counted
    · exact within.steps_le

theorem StepsWithin.after (within : machine.StepsWithin limit) (steps : Nat) :
    (machine.after steps).StepsWithin limit := by
  induction steps with
  | zero => exact within
  | succ steps ih => exact ih.step

theorem stepsWithin_start (program : Program) (limits : Limits) (limit : Nat) :
    (start program (limits.withMaxSteps (some limit))).StepsWithin limit :=
  ⟨rfl, Nat.zero_le limit⟩

/-! ### The steps of a call for the next command -/

theorem nextCommand_succ {result : Except RuntimeError Step} (stepped : machine.step = (result, next))
    (fuel : Nat) :
    machine.nextCommand (fuel + 1) =
      match answer? result with
      | some answer => some (answer, next)
      | none => next.nextCommand fuel := by
  rw [nextCommand, stepped]
  rcases result with error | _ | _ | _ <;> rfl

theorem takes_one {result : Except RuntimeError Step} (stepped : machine.step = (result, next))
    (answers : answer? result = some answer) : Takes (machine.nextCommand ·) 1 (answer, next) where
  found := by rw [nextCommand_succ stepped, answers]
  least fewer less := by
    obtain rfl : fewer = 0 := by omega
    rfl

theorem takes_of_advanced {middle : Machine} (stepped : machine.step = (.ok .advanced, middle))
    (takes : Takes (middle.nextCommand ·) calls (answer, next)) :
    Takes (machine.nextCommand ·) (calls + 1) (answer, next) where
  found := (nextCommand_succ stepped calls).trans takes.found
  least fewer less := by
    cases fewer with
    | zero => rfl
    | succ fewer =>
      exact (nextCommand_succ stepped fewer).trans (takes.least fewer (Nat.lt_of_succ_lt_succ less))

/-- A call for the next command comes to an end.  All its steps have been counted but perhaps the last
one, and that one too if it hands out a command. -/
theorem exists_takes (within : machine.StepsWithin limit) :
    ∃ calls answer next, Takes (machine.nextCommand ·) calls (answer, next) ∧
      next.StepsWithin limit ∧ calls + machine.steps ≤ limit + 1 ∧
      (handsOut answer = true → next.steps = machine.steps + calls) := by
  -- With every step that counts there are fewer left.
  induction left : limit - machine.steps using Nat.strongRecOn generalizing machine with
  | ind left ih =>
    rcases stepped : machine.step with ⟨result, next⟩
    have next_within : next.StepsWithin limit := by simpa only [stepped] using within.step
    have counts : next.steps = machine.steps + if isCounted result then 1 else 0 := by
      simpa only [stepped] using step_counted machine
    have steps_le := within.steps_le
    rcases result with error | command | _ | _
    · exact ⟨1, .error error, next, takes_one stepped rfl, next_within, by omega, nofun⟩
    · exact ⟨1, .ok (some command), next, takes_one stepped rfl, next_within, by omega,
        fun _ => counts⟩
    · have counted : next.steps = machine.steps + 1 := counts
      have next_le := next_within.steps_le
      obtain ⟨calls, answer, last, takes, last_within, bounded, handing⟩ :=
        ih (limit - next.steps) (by omega) next_within rfl
      exact ⟨calls + 1, answer, last, takes_of_advanced stepped takes, last_within, by omega,
        fun out => by have := handing out; omega⟩
    · exact ⟨1, .ok none, next, takes_one stepped rfl, next_within, by omega, nofun⟩

end Machine

namespace Runner

/-! ### The steps of pulls -/

/-- Pulls to the end of the run, which take exactly the given number of steps in all. -/
inductive Drains : Runner → (calls : Nat) → List Command → Option RuntimeError → Runner → Prop where
  | command {runner next last calls more command commands failure} :
    Takes (runner.next ·) calls (.ok (some command), next) → Drains next more commands failure last →
      Drains runner (calls + more) (command :: commands) failure last
  | completed {runner last calls} : Takes (runner.next ·) calls (.ok none, last) →
      Drains runner calls [] none last
  | failed {runner last calls error} : Takes (runner.next ·) calls (.error error, last) →
      Drains runner calls [] (some error) last

variable {runner next last : Runner} {limit calls : Nat} {commands : List Command}
  {failure : Option RuntimeError} {answer : Except RuntimeError (Option Command)}

/-- A runner that is done takes no steps. -/
theorem takes_of_done (done : runner.done = true) : Takes (runner.next ·) 0 (.ok none, runner) :=
  ⟨next_of_done done 0, nofun⟩

theorem takes_of_machine {machine reached : Machine}
    (takes : Takes (machine.nextCommand ·) calls (answer, reached)) :
    Takes ((⟨machine, false⟩ : Runner).next ·) calls (answer, ⟨reached, !handsOut answer⟩) where
  found := by
    rw [next_of_going, takes.found]
    rcases answer with error | _ | command <;> rfl
  least fewer less := by rw [next_of_going, takes.least fewer less, Option.map_none]

/-- Every command takes a step. -/
theorem pos_of_takes {command : Command}
    (takes : Takes (runner.next ·) calls (.ok (some command), next)) : 0 < calls := by
  rw [Nat.pos_iff_ne_zero]
  rintro rfl
  have found := takes.found
  unfold Runner.next Machine.nextCommand at found
  split at found <;> cases found

theorem exists_takes (within : runner.machine.StepsWithin limit) :
    ∃ calls answer next, Takes (runner.next ·) calls (answer, next) ∧
      next.machine.StepsWithin limit ∧ calls + runner.steps ≤ limit + 1 ∧
      (handsOut answer = true → next.steps = runner.steps + calls) := by
  obtain ⟨machine, done⟩ := runner
  cases done with
  | true =>
    have steps_le := within.steps_le
    exact ⟨0, _, _, takes_of_done rfl, within, by rw [steps]; omega, nofun⟩
  | false =>
    obtain ⟨calls, answer, next, takes, next_within, bounded, handing⟩ := Machine.exists_takes within
    exact ⟨calls, answer, _, takes_of_machine takes, next_within, bounded, handing⟩

theorem Pulls.stepsWithin {answers : List (Except RuntimeError (Option Command))}
    (pulls : runner.Pulls answers last) (within : runner.machine.StepsWithin limit) :
    last.machine.StepsWithin limit := by
  induction pulls with
  | nil => exact within
  | cons pulled _ ih =>
    refine ih ?_
    obtain ⟨-, -, rfl⟩ | ⟨-, called, -⟩ := next_cases pulled
    · exact within
    · obtain ⟨steps, same, -⟩ := Machine.nextCommand_eq_after called
      rw [same]
      exact within.after steps

/-! ### The steps of a run -/

/-- More fuel than the steps of all pulls is enough, since every command takes a step. -/
theorem Drains.drain_eq (drains : runner.Drains calls commands failure last) {fuel pulls : Nat}
    (enough : calls ≤ fuel) (more : calls < pulls) :
    runner.drain fuel pulls [] = some (commands, failure, last) := by
  induction drains generalizing pulls with
  | command takes _ ih =>
    -- A pull takes at least one step, so the pulls that are left are enough for the steps left.
    have pos := pos_of_takes takes
    obtain ⟨pulls, rfl⟩ := Nat.exists_eq_add_of_le' (Nat.lt_of_le_of_lt (Nat.zero_le _) more)
    rw [drain_of_next (next_mono (by omega) takes.found), ih (by omega) (by omega)]
    rfl
  | completed takes | failed takes =>
    obtain ⟨pulls, rfl⟩ := Nat.exists_eq_add_of_le' (Nat.lt_of_le_of_lt (Nat.zero_le _) more)
    rw [drain, next_mono enough takes.found]
    rfl

/-- A run comes to an end, and all its steps but perhaps the last one have been counted. -/
theorem exists_drains (within : runner.machine.StepsWithin limit) :
    ∃ calls commands failure last, runner.Drains calls commands failure last ∧
      last.machine.StepsWithin limit ∧ calls + runner.steps ≤ limit + 1 := by
  induction left : limit - runner.steps using Nat.strongRecOn generalizing runner with
  | ind left ih =>
    obtain ⟨calls, answer, next, takes, next_within, bounded, handing⟩ := exists_takes within
    rcases answer with error | _ | command
    · exact ⟨calls, [], some error, next, .failed takes, next_within, bounded⟩
    · exact ⟨calls, [], none, next, .completed takes, next_within, bounded⟩
    -- The steps of a pull that hands out a command have been counted, and there is at least one.
    · have pos := pos_of_takes takes
      have counted := handing rfl
      have next_le : next.steps ≤ limit := next_within.steps_le
      obtain ⟨more, commands, failure, last, drains, last_within, more_bounded⟩ :=
        ih (limit - next.steps) (by omega) next_within rfl
      exact ⟨calls + more, command :: commands, failure, last, .command takes drains, last_within,
        by omega⟩

end Runner

end BlockScript
