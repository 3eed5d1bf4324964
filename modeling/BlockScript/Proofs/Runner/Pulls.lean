import BlockScript.Proofs.Machine.Calls
import BlockScript.Proofs.Runner.Validation

/-!
# Pulls

A runner that is pulled again and again hands out commands, then at most one error, and then nothing
more.  Validation lets go of the commands and comes to the same end (`pulls_agree_with_validation`).
-/

namespace BlockScript

/-- Whether an answer hands out a command.  If not, it is the last one that says anything. -/
def handsOut : Except RuntimeError (Option Command) → Bool
  | .ok (some _) => true
  | _ => false

/-! ### One pull -/

/-- A call for the next command counts what it hands out, and the run is over if that is nothing. -/
theorem Machine.nextCommand_counts {fuel : Nat} {machine next : Machine}
    {answer : Except RuntimeError (Option Command)}
    (found : machine.nextCommand fuel = some (answer, next)) :
    next.emitted = machine.emitted + (if handsOut answer then 1 else 0) ∧
      next.isFinished = !handsOut answer := by
  obtain ⟨middle, result, reaches, stepped, same⟩ := nextCommand_steps found
  -- Only the last one of the steps counts a command, if any does.
  have emitted_eq : next.emitted = machine.emitted + commandCount result :=
    (step_emitted stepped).trans (congrArg (· + _) reaches.emitted_eq)
  rcases result with error | ⟨command⟩ | _ | _ <;> cases same
  · exact ⟨emitted_eq, List.isEmpty_iff.mpr (stopped_of_step stepped).frames_nil⟩
  · exact ⟨emitted_eq, List.isEmpty_eq_false_iff.mpr (frames_ne_nil_of_emitted stepped)⟩
  · obtain ⟨empty, rfl⟩ := frames_eq_nil_of_finished stepped
    exact ⟨emitted_eq, List.isEmpty_iff.mpr empty⟩

namespace Runner

/-- Pulls, one after another: their answers in order, and the runner behind the last one. -/
inductive Pulls : Runner → List (Except RuntimeError (Option Command)) → Runner → Prop where
  | nil (runner : Runner) : Pulls runner [] runner
  | cons {runner next last fuel answer answers} : runner.next fuel = some (answer, next) →
      Pulls next answers last → Pulls runner (answer :: answers) last

variable {runner next last : Runner} {fuel : Nat} {answer : Except RuntimeError (Option Command)}
  {answers : List (Except RuntimeError (Option Command))}

/-- A pull finds the runner done, or it is a call for the next command. -/
theorem next_cases (pulled : runner.next fuel = some (answer, next)) :
    (runner.done = true ∧ answer = .ok none ∧ next = runner) ∨
      (runner.done = false ∧ runner.machine.nextCommand fuel = some (answer, next.machine) ∧
        next.done = !handsOut answer) := by
  obtain ⟨machine, done⟩ := runner
  cases done with
  | true =>
    cases pulled
    exact .inl ⟨rfl, rfl, rfl⟩
  | false =>
    rw [next_of_going] at pulled
    obtain ⟨⟨answer, reached⟩, called, same⟩ := Option.map_eq_some_iff.mp pulled
    cases same
    refine .inr ⟨rfl, called, ?_⟩
    rcases answer with _ | _ | _ <;> rfl

theorem next_of_done (done : runner.done = true) (fuel : Nat) :
    runner.next fuel = some (.ok none, runner) := by
  rw [Runner.next, if_pos done]

/-! ### Pulls in a row -/

/-- A runner that is done has nothing more to hand out, and does not change any more. -/
theorem Pulls.of_done (pulls : runner.Pulls answers last) (done : runner.done = true) :
    answers = List.replicate answers.length (.ok none) ∧ last = runner := by
  induction pulls with
  | nil => exact ⟨rfl, rfl⟩
  | cons pulled _ ih =>
    rw [next_of_done done] at pulled
    cases pulled
    obtain ⟨silent, same⟩ := ih done
    exact ⟨congrArg (.ok none :: ·) silent, same⟩

/-- What is kept from one pull to the next: a runner is done if its machine is. -/
theorem Pulls.done_eq (pulls : runner.Pulls answers last)
    (agrees : runner.done = runner.machine.isFinished) : last.done = last.machine.isFinished := by
  induction pulls with
  | nil => exact agrees
  | cons pulled _ ih =>
    refine ih ?_
    obtain ⟨-, -, rfl⟩ | ⟨-, called, done⟩ := next_cases pulled
    · exact agrees
    · rw [done, (Machine.nextCommand_counts called).2]

/-- A runner counts the commands that it has handed out. -/
theorem Pulls.emitted_eq (pulls : runner.Pulls answers last) :
    last.emitted = runner.emitted + answers.countP handsOut := by
  induction pulls with
  | nil => rfl
  | cons pulled _ ih =>
    rw [ih, List.countP_cons]
    obtain ⟨-, rfl, rfl⟩ | ⟨-, called, -⟩ := next_cases pulled
    · rfl
    · have counted := (Machine.nextCommand_counts called).1
      simp only [emitted] at counted ⊢
      omega

/-! ### The end of a run -/

/-- What a run comes to with an answer that does not hand out a command. -/
def ends? (answer : Except RuntimeError (Option Command)) (runner : Runner) :
    Option (Except RuntimeError Runner) :=
  match answer with
  | .ok (some _) => none
  | .ok none => some (.ok runner)
  | .error error => some (.error error)

/-- The answers that hand out the given commands. -/
def handing (commands : List Command) : List (Except RuntimeError (Option Command)) :=
  commands.map fun command => .ok (some command)

theorem finish_of_next (pulled : runner.next fuel = some (answer, next)) (pulls : Nat) :
    runner.finish fuel (pulls + 1) = (ends? answer next).or (next.finish fuel pulls) := by
  rw [finish, pulled]
  rcases answer with _ | _ | _ <;> rfl

theorem handsOut_of_mem_handing {commands : List Command} (mem : answer ∈ handing commands) :
    handsOut answer = true := by
  obtain ⟨command, -, rfl⟩ := List.mem_map.mp mem
  rfl

/-- To let a run go to its end is to pull commands until there are no more. -/
theorem finish_iff_pulls {outcome : Except RuntimeError Runner} :
    (∃ fuel pulls, runner.finish fuel pulls = some outcome) ↔
      ∃ commands answer last, runner.Pulls (handing commands ++ [answer]) last ∧
        ends? answer last = some outcome := by
  constructor
  · rintro ⟨fuel, pulls, finished⟩
    induction pulls generalizing runner with
    | zero => cases finished
    | succ pulls ih =>
      cases pulled : runner.next fuel with
      | none =>
        rw [finish, pulled] at finished
        cases finished
      | some found =>
        obtain ⟨answer, next⟩ := found
        rw [finish_of_next pulled] at finished
        cases stops : ends? answer next with
        | some outcome =>
          rw [stops] at finished
          cases finished
          exact ⟨[], answer, next, .cons pulled (.nil next), stops⟩
        | none =>
          rw [stops, Option.none_or] at finished
          obtain ⟨commands, final, last, onward, ended⟩ := ih finished
          rcases answer with error | _ | command
          · cases stops
          · cases stops
          · exact ⟨command :: commands, final, last, .cons pulled onward, ended⟩
  · rintro ⟨commands, answer, last, pulls, ended⟩
    induction commands generalizing runner with
    | nil =>
      cases pulls with
      | @cons _ _ _ fuel _ _ pulled onward =>
        cases onward
        exact ⟨fuel, 1, by rw [finish_of_next pulled, ended, Option.some_or]⟩
    | cons command commands ih =>
      cases pulls with
      | @cons _ next _ fuel _ _ pulled onward =>
        obtain ⟨more, times, finished⟩ := ih onward
        -- Both the first pull and those behind it have an answer with the greater fuel.
        refine ⟨max fuel more, times + 1, ?_⟩
        rw [finish_of_next (next_mono (Nat.le_max_left fuel more) pulled)]
        exact finish_mono (Nat.le_max_right fuel more) (Nat.le_refl times) finished

/-- The answers are commands and the runner is not done, or they are commands, one answer that ends
the run, and then nothing more. -/
theorem Pulls.commands_or_ended (pulls : runner.Pulls answers last) (going : runner.done = false) :
    (∃ commands, answers = handing commands ∧ last.done = false) ∨
      ∃ commands answer silent, handsOut answer = false ∧ last.done = true ∧
        runner.Pulls (handing commands ++ [answer]) last ∧
        answers = handing commands ++ answer :: List.replicate silent (.ok none) := by
  induction pulls with
  | nil => exact .inl ⟨[], rfl, going⟩
  | @cons runner next last fuel answer answers pulled onward ih =>
    obtain ⟨done, -⟩ | ⟨-, -, done⟩ := next_cases pulled
    · rw [going] at done
      cases done
    cases out : handsOut answer with
    | false =>
      -- The runner is done, and all the pulls behind this one are silent.
      obtain ⟨silent, rfl⟩ := onward.of_done (by rw [done, out]; rfl)
      exact .inr ⟨[], answer, _, out, by rw [done, out]; rfl, .cons pulled (.nil _),
        congrArg (answer :: ·) silent⟩
    | true =>
      rcases answer with error | _ | command
      · cases out
      · cases out
      · obtain ⟨commands, rfl, not_done⟩ | ⟨commands, final, silent, last_out, ended, first, rfl⟩ :=
          ih done
        · exact .inl ⟨command :: commands, rfl, not_done⟩
        · exact .inr ⟨command :: commands, final, silent, last_out, ended, .cons pulled first, rfl⟩

/-- An answer that ends the run is the last one that says anything, so the answers up to it lead to
the same runner as all of them. -/
theorem Pulls.up_to_end (pulls : runner.Pulls answers last) (going : runner.done = false)
    (mem : answer ∈ answers) (out : handsOut answer = false) :
    last.done = true ∧ ∃ commands final silent, handsOut final = false ∧
      (answer = final ∨ answer = .ok none) ∧ runner.Pulls (handing commands ++ [final]) last ∧
      answers = handing commands ++ final :: List.replicate silent (.ok none) := by
  obtain ⟨commands, rfl, -⟩ | ⟨commands, final, silent, final_out, ended, first, rfl⟩ :=
    pulls.commands_or_ended going
  · rw [handsOut_of_mem_handing mem] at out
    cases out
  · refine ⟨ended, commands, final, silent, final_out, ?_, first, rfl⟩
    rcases List.mem_append.mp mem with handed | behind
    · rw [handsOut_of_mem_handing handed] at out
      cases out
    · exact (List.mem_cons.mp behind).imp_right List.eq_of_mem_replicate

/-- Commands, then at most one error, and then nothing more. -/
theorem Pulls.shape (pulls : runner.Pulls answers last) (going : runner.done = false) :
    ∃ commands, ∃ failure : Option RuntimeError, ∃ silent, answers =
      handing commands ++ failure.toList.map .error ++ List.replicate silent (.ok none) := by
  obtain ⟨commands, rfl, -⟩ | ⟨commands, answer, silent, out, -, -, rfl⟩ :=
    pulls.commands_or_ended going
  · exact ⟨commands, none, 0, by simp⟩
  · rcases answer with error | _ | command
    · exact ⟨commands, some error, silent, by simp⟩
    · exact ⟨commands, none, silent + 1, by simp [List.replicate_succ]⟩
    · cases out

end Runner

/-- A run that ends comes to what its answers say. -/
theorem validate_iff_pulls {program : Program} {limits : Limits}
    {outcome : Except RuntimeError RunSummary} :
    (∃ fuel, program.validate fuel limits = some outcome) ↔
      ∃ commands answer last, (Runner.start program limits).Pulls
          (Runner.handing commands ++ [answer]) last ∧
        (Runner.ends? answer last).map (·.map fun runner => ⟨runner.emitted, runner.steps⟩) =
          some outcome := by
  constructor
  · rintro ⟨fuel, found⟩
    obtain ⟨result, finished, mapped⟩ := Option.map_eq_some_iff.mp found
    obtain ⟨commands, answer, last, pulls, ended⟩ :=
      Runner.finish_iff_pulls.mp ⟨fuel, fuel, finished⟩
    exact ⟨commands, answer, last, pulls, by rw [ended, Option.map_some, mapped]⟩
  · rintro ⟨commands, answer, last, pulls, mapped⟩
    obtain ⟨result, ended, rfl⟩ := Option.map_eq_some_iff.mp mapped
    obtain ⟨fuel, times, finished⟩ :=
      Runner.finish_iff_pulls.mpr ⟨commands, answer, last, pulls, ended⟩
    refine ⟨max fuel times, ?_⟩
    rw [Program.validate,
      Runner.finish_mono (Nat.le_max_left fuel times) (Nat.le_max_right fuel times) finished,
      Option.map_some]

/-- However often a new runner is pulled, it hands out commands, then at most one error, and then
nothing more; from the first answer without a command on it is done and does not change.  It has
always counted the commands that it has handed out, and it is done if its machine is.  Validation
fails with the error among the answers, and if there is none but they come to an end it counts the
commands among them and the steps that they took. -/
theorem pulls_agree_with_validation (program : Program) (limits : Limits) :
    (∀ answers last, (Runner.start program limits).Pulls answers last →
      (∃ commands, ∃ failure : Option RuntimeError, ∃ silent, answers =
        Runner.handing commands ++ failure.toList.map .error ++
          List.replicate silent (.ok none)) ∧
      last.emitted = answers.countP handsOut ∧
      last.done = last.machine.isFinished ∧
      ((∃ answer ∈ answers, handsOut answer = false) → last.done = true ∧
        ∀ more final, last.Pulls more final →
          final.steps = last.steps ∧ final.emitted = last.emitted ∧ final.done = true)) ∧
    (∀ error, (∃ fuel, program.validate fuel limits = some (.error error)) ↔
      ∃ answers last, (Runner.start program limits).Pulls answers last ∧
        .error error ∈ answers) ∧
    ∀ summary, (∃ fuel, program.validate fuel limits = some (.ok summary)) ↔
      ∃ answers last, (Runner.start program limits).Pulls answers last ∧
        .ok none ∈ answers ∧ (∀ error, .error error ∉ answers) ∧
        summary = ⟨answers.countP handsOut, last.steps⟩ := by
  have counted {answers last} (pulls : (Runner.start program limits).Pulls answers last) :
      last.emitted = answers.countP handsOut := pulls.emitted_eq.trans (Nat.zero_add _)
  refine ⟨fun answers last pulls => ⟨pulls.shape rfl, counted pulls, pulls.done_eq rfl, ?_⟩,
    fun error => validate_iff_pulls.trans ⟨?_, ?_⟩,
    fun summary => validate_iff_pulls.trans ⟨?_, ?_⟩⟩
  · -- Once an answer hands nothing out, the runner is done and stays as it is.
    rintro ⟨answer, mem, out⟩
    have done := (pulls.up_to_end rfl mem out).1
    refine ⟨done, fun more final onward => ?_⟩
    obtain ⟨-, rfl⟩ := onward.of_done done
    exact ⟨rfl, rfl, done⟩
  · -- A run that fails has the error as its last answer.
    rintro ⟨commands, answer, last, pulls, failed⟩
    refine ⟨_, last, pulls, List.mem_append_right _ (List.mem_singleton.mpr ?_)⟩
    rcases answer with error | _ | command <;> cases failed
    rfl
  · rintro ⟨answers, last, pulls, mem⟩
    obtain ⟨-, commands, final, -, -, rfl | same, first, -⟩ := pulls.up_to_end rfl mem rfl
    · exact ⟨commands, _, last, first, rfl⟩
    · cases same
  · -- A run that finishes has the silent answer last and only commands in front of it.
    rintro ⟨commands, answer, last, pulls, ended⟩
    rcases answer with error | _ | command <;> cases ended
    refine ⟨_, last, pulls, by simp, fun error mem => ?_,
      congrArg (RunSummary.mk · last.steps) (counted pulls)⟩
    rcases List.mem_append.mp mem with handed | last
    · cases Runner.handsOut_of_mem_handing handed
    · cases List.mem_singleton.mp last
  · -- Without errors, the first answer that hands nothing out is the silent one.
    rintro ⟨answers, last, pulls, mem, no_error, rfl⟩
    obtain ⟨-, commands, final, silent, out, -, first, rfl⟩ := pulls.up_to_end rfl mem rfl
    rcases final with error | _ | command
    · exact absurd (by simp) (no_error error)
    · refine ⟨commands, _, last, first, ?_⟩
      rw [← counted pulls]
      rfl
    · cases out

end BlockScript
