import BlockScript.Runner

/-!
# What a runner yields

A runner whose run ends yields a list of commands and at most one error.  More fuel does not change
an answer, so what a runner yields does not depend on the fuel.
-/

namespace BlockScript

theorem Machine.nextCommand_mono {fuel more : Nat} (le : fuel ≤ more) {machine : Machine}
    {answer : Except RuntimeError (Option Command) × Machine}
    (found : machine.nextCommand fuel = some answer) : machine.nextCommand more = some answer := by
  -- An answer has spent some fuel, so the greater amount is a successor as well.
  induction fuel generalizing more machine with
  | zero => cases found
  | succ fuel ih =>
    obtain ⟨more, rfl⟩ := Nat.exists_eq_add_of_le' (Nat.lt_of_lt_of_le (Nat.succ_pos fuel) le)
    unfold nextCommand at found ⊢
    split at found
    · exact found
    · exact ih (by omega) found
    · exact found
    · exact found

namespace Runner

theorem next_mono {fuel more : Nat} (le : fuel ≤ more) {runner : Runner}
    {answer : Except RuntimeError (Option Command) × Runner}
    (found : runner.next fuel = some answer) : runner.next more = some answer := by
  unfold next at found ⊢
  split at found
  next ended => rw [if_pos ended]; exact found
  next going =>
    rw [if_neg going]
    split at found
    · cases found
    all_goals
      next answered =>
        rw [Machine.nextCommand_mono le answered]
        exact found

/-- Commands taken before stand in front of all that a runner yields. -/
theorem drain_taken (fuel pulls : Nat) (taken : List Command) (runner : Runner) :
    runner.drain fuel pulls taken =
      (runner.drain fuel pulls []).map fun (commands, failure, last) =>
        (taken.reverse ++ commands, failure, last) := by
  induction pulls generalizing taken runner with
  | zero => rfl
  | succ pulls ih =>
    unfold drain
    cases runner.next fuel with
    | none => rfl
    | some answer =>
      obtain ⟨(error | (_ | command)), next⟩ := answer
      · simp
      · simp
      · -- Both runs have taken the command, one behind others: the hypothesis is used for either.
        dsimp only
        rw [ih (command :: taken), ih [command]]
        cases next.drain fuel pulls [] <;> simp

theorem drain_mono {fuel pulls more morePulls : Nat} (le : fuel ≤ more) (le_pulls : pulls ≤ morePulls)
    {taken : List Command} {runner : Runner}
    {answer : List Command × Option RuntimeError × Runner}
    (found : runner.drain fuel pulls taken = some answer) :
    runner.drain more morePulls taken = some answer := by
  induction pulls generalizing morePulls taken runner with
  | zero => cases found
  | succ pulls ih =>
    obtain ⟨morePulls, rfl⟩ :=
      Nat.exists_eq_add_of_le' (Nat.lt_of_lt_of_le (Nat.succ_pos pulls) le_pulls)
    unfold drain at found ⊢
    split at found
    · cases found
    · next pulled =>
      rw [next_mono le pulled]
      exact ih (by omega) found
    · next pulled =>
      rw [next_mono le pulled]
      exact found
    · next pulled =>
      rw [next_mono le pulled]
      exact found

/-- The run of a runner ends, with the given commands in order and the given error, if any.  That is
the answer to every amount of fuel from some amount on. -/
def Yields (runner : Runner) (commands : List Command) (failure : Option RuntimeError) : Prop :=
  ∃ enough, ∀ fuel, enough ≤ fuel →
    ∃ last, runner.drain fuel fuel [] = some (commands, failure, last)

theorem yields_of_drain {fuel pulls : Nat} {runner last : Runner} {commands : List Command}
    {failure : Option RuntimeError}
    (drained : runner.drain fuel pulls [] = some (commands, failure, last)) :
    runner.Yields commands failure := by
  refine ⟨max fuel pulls, fun more le => ⟨last, ?_⟩⟩
  exact drain_mono (by omega) (by omega) drained

end Runner

end BlockScript
