import BlockScript.Proofs.Evaluation.Errors
import BlockScript.Proofs.Machine.Frames

/-!
# Calls to a machine

A run can be taken on one step at a time, or up to the next command, or now one way and now the
other.  That makes no difference (`calls_are_steps`): the machine is always one that steps alone
lead to, and it returns the commands and the error of these steps.
-/

namespace BlockScript.Machine

/-! ### The results of steps -/

/-- The results of the first steps of a machine, in order. -/
def results (machine : Machine) (steps : Nat) : List (Except RuntimeError Step) :=
  (List.range steps).map fun earlier => (machine.after earlier).step.1

/-- What a step returns of the commands and the error of a run. -/
def returned? : Except RuntimeError Step → Option (Except RuntimeError Command)
  | .ok (.emitted command) => some (.ok command)
  | .ok _ => none
  | .error error => some (.error error)

/-- Whether a step with a given result counts as one: it neither found the run finished nor was it
stopped by the limit on steps. -/
def isCounted : Except RuntimeError Step → Bool
  | .ok .finished => false
  | .error (.stepLimitExceeded _) => false
  | _ => true

variable {machine next : Machine}

theorem results_succ (machine : Machine) (steps : Nat) :
    machine.results (steps + 1) = machine.results steps ++ [(machine.after steps).step.1] := by
  rw [results, List.range_succ, List.map_append]
  rfl

theorem results_add (machine : Machine) (first second : Nat) :
    machine.results (first + second) =
      machine.results first ++ (machine.after first).results second := by
  induction second with
  | zero => simp [results]
  | succ second ih =>
    rw [← Nat.add_assoc, results_succ, results_succ, ih, after_add, List.append_assoc]

theorem results_mono {fewer more : Nat} (le : fewer ≤ more) :
    machine.results fewer <+: machine.results more := by
  obtain ⟨rest, rfl⟩ := Nat.exists_eq_add_of_le le
  exact ⟨_, (results_add machine fewer rest).symm⟩

theorem after_one {result : Except RuntimeError Step} (stepped : machine.step = (result, next)) :
    machine.after 1 = next ∧ machine.results 1 = [result] :=
  ⟨congrArg Prod.snd stepped, by simp [results, after, stepped]⟩

/-! ### What a unit of work never comes to -/

/-- A unit of work does not fail because of the limit on steps, and it does not emit a command as
the last thing that is left to do. -/
structure Orderly (outcome : Except RuntimeError Step × Machine) : Prop where
  no_step_limit : ∀ limit, outcome.1 ≠ .error (.stepLimitExceeded limit)
  frames_ne_nil : ∀ command, outcome.1 = .ok (.emitted command) → outcome.2.frames ≠ []

theorem orderly_advance (machine : Machine) (environment : Environment) (frames : List Frame) :
    Orderly (machine.advance environment frames) :=
  ⟨by simp [advance], by simp [advance]⟩

theorem orderly_emit {machine : Machine} (command : Command) (left : machine.frames ≠ []) :
    Orderly (machine.emit command) := by
  unfold emit
  split
  · exact ⟨by simp [fail], by simp [fail]⟩
  · exact ⟨by simp, fun _ _ => left⟩

theorem orderly_evaluating {α : Type} {evaluation : Evaluation α}
    {onward : α → Environment → Except RuntimeError Step × Machine}
    {expressions : List Expression} (fails : evaluation.FailsOnly (RuntimeError.Blames expressions))
    (orderly : ∀ value environment, Orderly (onward value environment)) :
    Orderly (machine.evaluating evaluation onward) := by
  unfold evaluating
  split
  · exact orderly _ _
  · next error environment evaluated =>
    refine ⟨fun limit same => ?_, by simp [fail]⟩
    -- Evaluation knows of no limits.
    have no_limit := (fails _ _ _ evaluated).not_isLimit
    rw [Except.error.inj same] at no_limit
    cases no_limit

theorem orderly_dispatch (machine : Machine) (statement : Statement) (frame : Frame)
    (below : List Frame) : Orderly (machine.dispatch statement (frame :: below)) := by
  cases statement with
  | block | loop => exact orderly_advance _ _ _
  | expression | declare | branch =>
    exact orderly_evaluating (Expression.evaluate_blames _ (List.Subset.refl _)) fun _ _ =>
      orderly_advance _ _ _
  | setBlock x y z name =>
    exact orderly_evaluating (Command.evaluate_blames (List.Subset.refl _)) fun command _ =>
      orderly_emit command (List.cons_ne_nil _ _)

theorem orderly_work (machine : Machine) (frame : Frame) (below : List Frame) :
    Orderly (machine.work frame below) := by
  cases frame with
  | loop =>
    exact orderly_evaluating (Expression.evaluate_blames _ (List.Subset.refl _)) fun _ _ =>
      orderly_advance _ _ _
  | statements rest leavesScope =>
    cases rest with
    | nil => exact orderly_advance _ _ _
    | cons statement rest => exact orderly_dispatch _ _ _ _

/-- A command is never the last thing that a machine does. -/
theorem frames_ne_nil_of_emitted {command : Command}
    (stepped : machine.step = (.ok (.emitted command), next)) : next.frames ≠ [] := by
  obtain ⟨-, finished⟩ | ⟨limit, -, stopped⟩ | ⟨frame, below, -, worked⟩ := machine.step_cases
  · rw [stepped] at finished
    cases finished
  · rw [stepped] at stopped
    cases stopped
  · have orderly := orderly_work { machine with steps := machine.steps + 1 } frame below
    rw [← worked, stepped] at orderly
    exact orderly.frames_ne_nil command rfl

/-! ### Counts -/

theorem isCounted_of_works {outcome : Except RuntimeError Step × Machine}
    (works : machine.Works outcome) (orderly : Orderly outcome) : isCounted outcome.1 = true := by
  unfold isCounted
  split
  · next finished => exact absurd finished works.goes_on
  · next limit exceeded => exact absurd exceeded (orderly.no_step_limit limit)
  · rfl

/-- A step counts as one, unless it finds the run finished or is stopped by the limit on steps. -/
theorem step_counted (machine : Machine) :
    machine.step.2.steps = machine.steps + if isCounted machine.step.1 then 1 else 0 := by
  obtain ⟨-, finished⟩ | ⟨limit, -, stopped⟩ | ⟨frame, below, -, worked⟩ := machine.step_cases
  · rw [finished]
    rfl
  · rw [stopped]
    rfl
  · let counting : Machine := { machine with steps := machine.steps + 1 }
    have works := works_work counting frame below
    have counted := isCounted_of_works works (orderly_work counting frame below)
    rw [worked, if_pos counted]
    exact works.steps_eq

/-- A machine counts the steps that it has taken. -/
theorem steps_after (machine : Machine) (steps : Nat) :
    (machine.after steps).steps = machine.steps + (machine.results steps).countP isCounted := by
  induction steps with
  | zero => rfl
  | succ steps ih =>
    rw [after, step_counted, ih, results_succ, List.countP_append, List.countP_singleton,
      Nat.add_assoc]

/-- Whether something that is returned is a command. -/
def isCommand : Except RuntimeError Command → Bool
  | .ok _ => true
  | .error _ => false

theorem commandCount_eq (result : Except RuntimeError Step) :
    commandCount result = (returned? result).toList.countP isCommand := by
  rcases result with error | ⟨command⟩ | _ | _ <;> rfl

theorem filterMap_singleton (result : Except RuntimeError Step) :
    [result].filterMap returned? = (returned? result).toList := by
  rw [List.filterMap_cons]
  cases returned? result <;> rfl

/-- A machine counts the commands that it has emitted. -/
theorem emitted_after (machine : Machine) (steps : Nat) :
    (machine.after steps).emitted =
      machine.emitted + ((machine.results steps).filterMap returned?).countP isCommand := by
  induction steps with
  | zero => rfl
  | succ steps ih =>
    have counted : (machine.after steps).step.2.emitted =
        (machine.after steps).emitted + commandCount (machine.after steps).step.1 :=
      step_emitted rfl
    rw [after, counted, ih, results_succ, List.filterMap_append, filterMap_singleton,
      List.countP_append, commandCount_eq, Nat.add_assoc]

theorem commandCount_le (result : Except RuntimeError Step) :
    commandCount result ≤ if isCounted result then 1 else 0 := by
  rcases result with error | ⟨command⟩ | _ | _
  · exact Nat.zero_le _
  · exact Nat.le_refl 1
  · exact Nat.zero_le _
  · exact Nat.zero_le _

/-- Each command takes a step of its own. -/
theorem emitted_le_steps_after {machine : Machine} (le : machine.emitted ≤ machine.steps)
    (steps : Nat) : (machine.after steps).emitted ≤ (machine.after steps).steps := by
  induction steps with
  | zero => exact le
  | succ steps ih =>
    have emitted : (machine.after steps).step.2.emitted =
        (machine.after steps).emitted + commandCount (machine.after steps).step.1 :=
      step_emitted rfl
    have at_most := commandCount_le (machine.after steps).step.1
    rw [after, step_counted, emitted]
    omega

/-! ### Calls -/

/-- What a call for the next command returns of the commands and the error of a run. -/
def answered? : Except RuntimeError (Option Command) → Option (Except RuntimeError Command)
  | .ok command? => command?.map .ok
  | .error error => some (.error error)

theorem after_of_reaches {last : Machine} {commands : List Command}
    (reaches : machine.Reaches commands last) :
    ∃ steps, last = machine.after steps ∧
      (machine.results steps).filterMap returned? = commands.map .ok := by
  induction reaches with
  | refl => exact ⟨0, rfl, rfl⟩
  | advanced stepped _ ih | emitted stepped _ ih =>
    obtain ⟨steps, rfl, returned⟩ := ih
    obtain ⟨first, results_first⟩ := after_one stepped
    refine ⟨1 + steps, by rw [after_add, first], ?_⟩
    rw [results_add, results_first, first, List.filterMap_append, returned]
    rfl

/-- A call for the next command takes some steps, and returns what they return. -/
theorem nextCommand_eq_after {fuel : Nat} {answer : Except RuntimeError (Option Command)}
    (found : machine.nextCommand fuel = some (answer, next)) :
    ∃ steps, next = machine.after steps ∧
      (machine.results steps).filterMap returned? = (answered? answer).toList := by
  obtain ⟨middle, result, reaches, stepped, same⟩ := nextCommand_steps found
  obtain ⟨steps, rfl, returned⟩ := after_of_reaches reaches
  obtain ⟨last, results_last⟩ := after_one stepped
  refine ⟨steps + 1, by rw [after_add, last], ?_⟩
  rw [results_add, List.filterMap_append, returned, results_last]
  rcases result with error | ⟨command⟩ | _ | _ <;> cases same <;> rfl

/-- A way to take a run on. -/
inductive Call where
  | step
  | nextCommand

/-- The calls, in order, take the first machine to the second one, and return the commands and
errors in the list between them. -/
inductive Calls : Machine → List Call → List (Except RuntimeError Command) → Machine → Prop where
  | nil (machine : Machine) : Calls machine [] [] machine
  | step {machine next last result calls returned} : machine.step = (result, next) →
      Calls next calls returned last →
      Calls machine (.step :: calls) ((returned? result).toList ++ returned) last
  | nextCommand {machine next last fuel answer calls returned} :
      machine.nextCommand fuel = some (answer, next) → Calls next calls returned last →
      Calls machine (.nextCommand :: calls) ((answered? answer).toList ++ returned) last

theorem Calls.eq_after {last : Machine} {calls : List Call}
    {returned : List (Except RuntimeError Command)} (run : machine.Calls calls returned last) :
    ∃ steps, last = machine.after steps ∧
      returned = (machine.results steps).filterMap returned? := by
  induction run with
  | nil => exact ⟨0, rfl, rfl⟩
  | @step machine _ _ _ _ _ stepped _ ih =>
    obtain ⟨steps, rfl, rfl⟩ := ih
    obtain ⟨first, results_first⟩ := after_one stepped
    refine ⟨1 + steps, by rw [after_add, first], ?_⟩
    rw [results_add, results_first, first, List.filterMap_append, filterMap_singleton]
  | @nextCommand machine _ _ _ _ _ _ found _ ih =>
    obtain ⟨more, rfl, rfl⟩ := ih
    obtain ⟨steps, rfl, answered⟩ := nextCommand_eq_after found
    refine ⟨steps + more, by rw [after_add], ?_⟩
    rw [results_add, List.filterMap_append, answered]

/-- Where a run is suspended makes no difference.  After any calls the machine is one that steps
alone lead to, and what the calls have returned is what these steps return, in order; the counts are
those of these steps.  So the calls of two runs return lists one of which begins the other. -/
theorem calls_are_steps (program : Program) (limits : Limits) :
    (∀ calls returned last, (start program limits).Calls calls returned last →
      ∃ steps, last = (start program limits).after steps ∧
        returned = ((start program limits).results steps).filterMap returned? ∧
        last.emitted ≤ last.steps ∧
        last.emitted = returned.countP isCommand ∧
        last.steps = ((start program limits).results steps).countP isCounted) ∧
    ∀ calls others first second last other,
      (start program limits).Calls calls first last →
      (start program limits).Calls others second other →
      first <+: second ∨ second <+: first := by
  constructor
  · intro calls returned last run
    obtain ⟨steps, rfl, rfl⟩ := run.eq_after
    refine ⟨steps, rfl, rfl, emitted_le_steps_after (Nat.le_refl 0) steps, ?_, ?_⟩
    · rw [emitted_after]
      exact Nat.zero_add _
    · rw [steps_after]
      exact Nat.zero_add _
  · intro calls others first second last other run run_other
    obtain ⟨steps, -, rfl⟩ := run.eq_after
    obtain ⟨more, -, rfl⟩ := run_other.eq_after
    -- Both lists come from the results of one run of steps.
    rcases Nat.le_total steps more with le | le
    · exact .inl ((results_mono le).filterMap returned?)
    · exact .inr ((results_mono le).filterMap returned?)

end BlockScript.Machine
