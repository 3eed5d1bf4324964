import BlockScript.Proofs.Machine.LoopFree
import BlockScript.Proofs.Machine.Scopes
import BlockScript.Proofs.Machine.Translation

/-!
# Programs in a block

A program that is one block runs like the statements in it, only that the block is entered first and
that there is one more list of statements to be left at the end.  In between the two machines differ
at the bottom: in an outermost scope without variables, and in the frame of the program below that of
the block (`Wraps`).  So the two runs end alike, the second one two steps later, or neither of them
ever ends (`wrapping_costs_two_steps`).
-/

namespace BlockScript

/-! ### An outermost scope without variables -/

namespace Environment

/-- The same scopes inside one more, which has no variables. -/
def enclosed (environment : Environment) : Environment :=
  ⟨environment.innermost, environment.enclosing ++ [[]]⟩

theorem lookup_append_nil (read : String) (scopes : List Scope) :
    lookup read (scopes ++ [[]]) = lookup read scopes := by
  induction scopes with
  | nil => rfl
  | cons scope outer ih => rw [List.cons_append, lookup, lookup, ih]

theorem reassign_append_nil (target : String) (value : Value) (scopes : List Scope) :
    reassign target value (scopes ++ [[]]) = (reassign target value scopes).map (· ++ [[]]) := by
  induction scopes with
  | nil => rfl
  | cons scope outer ih =>
    rw [List.cons_append, reassign, reassign, ih]
    cases scope.update? target value with
    | some changed => rfl
    | none =>
      simp only [Option.map_map]
      rfl

theorem renames_enclosed : Evaluation.Renames id enclosed where
  gets read before := lookup_append_nil read before.scopes
  assigns target value before := by
    simp only [assign?, enclosed, id, reassign_append_nil]
    cases before.innermost.update? target value with
    | some changed => rfl
    | none =>
      simp only [Option.map_map]
      rfl

/-- A scope that is inside another one is left just the same. -/
theorem enclosed_exit {before : Environment} (inside : 1 < before.depth) :
    before.exit.enclosed = before.enclosed.exit := by
  obtain ⟨innermost, enclosing⟩ := before
  cases enclosing with
  | nil => exact absurd inside (Nat.lt_irrefl 1)
  | cons scope enclosing => rfl

end Environment

/-- To enclose all scopes in one more is a translation, under which programs stay the same. -/
def Translation.enclosing : Translation where
  name := id
  expression := id
  environment := Environment.enclosed
  evaluates value := by
    have mirrors := value.evaluate_rename Environment.renames_enclosed
    rwa [Expression.rename_id] at mirrors
  enters _ := rfl
  defines _ _ _ := rfl

namespace Translation

theorem frame_enclosing (frame : Frame) : enclosing.frame frame = frame :=
  frame.map_id

theorem map_frame_enclosing (frames : List Frame) : frames.map enclosing.frame = frames :=
  List.map_id'' frame_enclosing frames

end Translation

namespace Machine

variable {plain wrapped : Machine}

/-! ### One step -/

/-- The second machine runs in a block what the first one runs without it, and it is one step ahead.
-/
inductive Wraps (plain wrapped : Machine) : Prop where
  /-- Below the frames that both have, the second one leaves a scope where the first one is over. -/
  | inside (above : List Frame) (rest : List Statement) :
    plain.Like .enclosing 1 wrapped → plain.Balanced → plain.limits = .unbounded →
      plain.frames = above ++ [.statements rest false] →
      wrapped.frames = above ++ [.statements rest true, .statements [] false] → Wraps plain wrapped
  /-- The first one is over, and the second one has left its block. -/
  | past :
    wrapped.limits = .unbounded → wrapped.steps = plain.steps + 1 → plain.frames = [] →
      wrapped.frames = [.statements [] false] → Wraps plain wrapped

/-- Two steps return the same.  If they do not fail, the second machine still runs in a block what
the first one runs without it. -/
inductive StepsAlike :
    (outcome other : Except RuntimeError Step × Machine) → Prop where
  | goes_on {result plain wrapped} :
    plain.Wraps wrapped → StepsAlike (.ok result, plain) (.ok result, wrapped)
  | fails {error plain wrapped} :
    wrapped.steps = plain.steps + 1 → StepsAlike (.error error, plain) (.error error, wrapped)

theorem stepsAlike_of_mirrored (rest : List Statement) (balanced : plain.Balanced)
    (unlimited : plain.limits = .unbounded)
    (mirrored : Mirrored .enclosing 1 [.statements rest false]
      [.statements rest true, .statements [] false] plain.step wrapped.step) :
    StepsAlike plain.step wrapped.step := by
  have kept {result next} (stepped : plain.step = (.ok result, next)) :
      next.Balanced ∧ next.limits = .unbounded :=
    ⟨balanced.step stepped, (step_limits stepped).trans unlimited⟩
  generalize plain.step = outcome at mirrored kept ⊢
  generalize wrapped.step = other at mirrored ⊢
  cases mirrored with
  | ok left like frames otherFrames =>
    obtain ⟨balanced, unlimited⟩ := kept rfl
    rw [Translation.map_frame_enclosing] at otherFrames
    exact .goes_on (.inside left rest like balanced unlimited frames otherFrames)
  | error like =>
    rw [show RuntimeError.rename Translation.enclosing.name _ = _ from RuntimeError.rename_id _]
    exact .fails like.steps

/-- As long as something is left to do without the block, a step does the same with it. -/
theorem Wraps.step (wraps : plain.Wraps wrapped) (left : plain.frames ≠ []) :
    StepsAlike plain.step wrapped.step := by
  cases wraps with
  | past _ _ empty => exact absurd empty left
  | inside above rest like balanced unlimited frames otherFrames =>
    have noLimit : plain.limits.maxSteps = none := by rw [unlimited]; rfl
    have otherNoLimit : wrapped.limits.maxSteps = none := by rw [like.limits, noLimit]
    cases above with
    | cons frame above =>
      -- The top frame is the same, and what is left of it comes back on top of the same frames.
      have exits : frame = .statements [] true →
          plain.environment.exit.enclosed = plain.environment.enclosed.exit := by
        rintro rfl
        -- The scope that this frame leaves is not the outermost one.
        refine Environment.enclosed_exit ?_
        rw [balanced, frames, List.cons_append, Frame.scopeCount_statements, Bool.toNat_true]
        omega
      have same := @mirrored_work .enclosing 1 _ _ (above ++ [.statements rest false])
        (above ++ [.statements rest true, .statements [] false]) like.counted frame exits
      rw [Translation.frame_enclosing] at same
      refine stepsAlike_of_mirrored rest balanced unlimited (Mirrored.lower above ?_)
      rw [Translation.map_frame_enclosing, step_of_frames_cons frames noLimit,
        step_of_frames_cons otherFrames otherNoLimit]
      exact same
    | nil =>
      cases rest with
      | cons statement rest =>
        -- The top frames differ in what is done behind their statements, and in nothing before.
        refine stepsAlike_of_mirrored rest balanced unlimited ?_
        rw [step_of_frames_cons frames noLimit, step_of_frames_cons otherFrames otherNoLimit]
        conv => rhs; rw [← statement.map_id]
        exact mirrored_dispatch like.counted statement
      | nil =>
        -- Here one leaves the list of the program, and the other one the scope of its block.
        rw [step_of_frames_cons frames noLimit, step_of_frames_cons otherFrames otherNoLimit]
        exact .goes_on (.past (like.limits.trans unlimited) like.counted.steps rfl rfl)

theorem frames_ne_nil_of_goes_on {machine next : Machine} {result : Except RuntimeError Step}
    (stepped : machine.step = (result, next)) (goes_on : result ≠ .ok .finished) :
    machine.frames ≠ [] := by
  intro empty
  rw [step_of_frames_nil empty] at stepped
  exact goes_on (congrArg Prod.fst stepped).symm

/-- Once nothing is left to do without the block, the frame below it is left in one more step. -/
theorem Wraps.leaves (wraps : plain.Wraps wrapped) (empty : plain.frames = []) :
    ∃ last, wrapped.step = (.ok .advanced, last) ∧ last.frames = [] ∧
      last.steps = plain.steps + 2 := by
  cases wraps with
  | inside above rest _ _ _ frames => simp [empty] at frames
  | past unlimited steps _ frames =>
    rw [step_of_frames_cons frames (by rw [unlimited]; rfl)]
    exact ⟨_, rfl, rfl, congrArg (· + 1) steps⟩

theorem Wraps.frames_ne_nil (wraps : plain.Wraps wrapped) : wrapped.frames ≠ [] := by
  cases wraps with
  | inside above rest _ _ _ _ frames => simp [frames]
  | past _ _ _ frames => simp [frames]

theorem Wraps.step_ok {next : Machine} {result : Step} (wraps : plain.Wraps wrapped)
    (stepped : plain.step = (.ok result, next)) (goes_on : result ≠ .finished) :
    ∃ otherNext, wrapped.step = (.ok result, otherNext) ∧ next.Wraps otherNext := by
  have alike := wraps.step (frames_ne_nil_of_goes_on stepped (by simpa using goes_on))
  rw [stepped] at alike
  generalize wrapped.step = other at alike
  cases alike with
  | goes_on wraps => exact ⟨_, rfl, wraps⟩

theorem Wraps.step_error {next : Machine} {error : RuntimeError} (wraps : plain.Wraps wrapped)
    (stepped : plain.step = (.error error, next)) :
    ∃ otherNext, wrapped.step = (.error error, otherNext) ∧ otherNext.steps = next.steps + 1 := by
  have alike := wraps.step (frames_ne_nil_of_goes_on stepped (by simp))
  rw [stepped] at alike
  generalize wrapped.step = other at alike
  cases alike with
  | fails steps => exact ⟨_, rfl, steps⟩

/-! ### Whole runs -/

theorem Wraps.reaches {before : Machine} {commands : List Command} (wraps : plain.Wraps wrapped)
    (reaches : plain.Reaches commands before) :
    ∃ otherBefore, wrapped.Reaches commands otherBefore ∧ before.Wraps otherBefore := by
  induction reaches generalizing wrapped with
  | refl machine => exact ⟨wrapped, .refl wrapped, wraps⟩
  | advanced stepped _ ih =>
    obtain ⟨next, otherStepped, onward⟩ := wraps.step_ok stepped (by simp)
    obtain ⟨before, reaches, wraps⟩ := ih onward
    exact ⟨before, .advanced otherStepped reaches, wraps⟩
  | emitted stepped _ ih =>
    obtain ⟨next, otherStepped, onward⟩ := wraps.step_ok stepped (by simp)
    obtain ⟨before, reaches, wraps⟩ := ih onward
    exact ⟨before, .emitted otherStepped reaches, wraps⟩

/-- As long as the first machine has something left to do, the second one keeps up with it. -/
theorem Wraps.after (wraps : plain.Wraps wrapped)
    (forever : ∀ steps, (plain.after steps).frames ≠ []) (steps : Nat) :
    (plain.after steps).Wraps (wrapped.after steps) ∧
      wrapped.results steps = plain.results steps := by
  induction steps with
  | zero => exact ⟨wraps, rfl⟩
  | succ steps ih =>
    obtain ⟨wraps, same⟩ := ih
    have alike := wraps.step (forever steps)
    have left : (plain.after steps).step.2.frames ≠ [] := forever (steps + 1)
    rw [results_succ, results_succ, same, Machine.after, Machine.after]
    generalize stepped : (plain.after steps).step = outcome at alike left ⊢
    generalize (wrapped.after steps).step = other at alike ⊢
    cases alike with
    | goes_on wraps => exact ⟨wraps, rfl⟩
    | fails => exact absurd (stopped_of_step stepped).frames_nil left

/-- How the runs of statements and of a block of them compare. -/
inductive SameButTwoSteps (plain wrapped : Machine) : Prop where
  /-- Both emit the same commands and finish, the second one after two more steps. -/
  | finish {commands last otherLast} :
    plain.Reaches commands last → last.step = (.ok .finished, last) →
      wrapped.Reaches commands otherLast → otherLast.step = (.ok .finished, otherLast) →
      otherLast.steps = last.steps + 2 → SameButTwoSteps plain wrapped
  /-- Both emit the same commands and fail with the same error, which the second one does inside its
  block and so after one more step. -/
  | fail {commands before last otherBefore otherLast error} :
    plain.Reaches commands before → before.step = (.error error, last) →
      wrapped.Reaches commands otherBefore → otherBefore.step = (.error error, otherLast) →
      otherLast.steps = last.steps + 1 → SameButTwoSteps plain wrapped
  /-- Neither ever ends, and behind its first step the second one returns what the first one
  returns. -/
  | forever :
    (∀ steps, (plain.after steps).isFinished = false) →
      (∀ steps, (wrapped.after steps).isFinished = false) →
      (∀ steps, wrapped.results (steps + 1) = .ok .advanced :: plain.results steps) →
      SameButTwoSteps plain wrapped

/-- To put statements into a block changes nothing about their run but that it takes two more steps:
one to enter the block and one to leave the list that the block is in. -/
theorem wrapping_costs_two_steps (statements : List Statement) :
    (start ⟨statements⟩ .unbounded).SameButTwoSteps
      (start ⟨[.block statements]⟩ .unbounded) := by
  obtain ⟨entered, enters, wraps⟩ : ∃ entered,
      (start ⟨[.block statements]⟩ .unbounded).step = (.ok .advanced, entered) ∧
        (start ⟨statements⟩ .unbounded).Wraps entered :=
    ⟨_, rfl, .inside [] statements ⟨rfl, rfl, rfl, rfl⟩ (balanced_start _ _) rfl rfl rfl⟩
  by_cases ends : ∃ steps, ((start ⟨statements⟩ .unbounded).after steps).frames = []
  · obtain ⟨steps, empty⟩ := ends
    obtain ⟨commands, before, failure, reaches, ends⟩ := ends_of_frames_nil empty
    obtain ⟨otherBefore, otherReaches, wraps⟩ := wraps.reaches reaches
    have otherReaches := Reaches.advanced enters otherReaches
    cases failure with
    | some error =>
      obtain ⟨otherLast, fails, steps⟩ := wraps.step_error ends
      exact .fail reaches ends otherReaches fails steps
    | none =>
      obtain ⟨empty, -⟩ := frames_eq_nil_of_finished ends
      -- Behind the block there is still the list that the block is in.
      obtain ⟨otherLast, leaves, nothing, steps⟩ := wraps.leaves empty
      have all : Reaches _ (commands ++ []) otherLast :=
        otherReaches.trans (.advanced leaves (.refl otherLast))
      rw [List.append_nil] at all
      exact .finish reaches (step_of_frames_nil empty) all (step_of_frames_nil nothing) steps
  · have forever := not_exists.mp ends
    refine .forever (fun steps => ?_) (fun steps => ?_) fun steps => ?_
    · exact List.isEmpty_eq_false_iff.mpr (forever steps)
    · cases steps with
      | zero => rfl
      | succ steps =>
        rw [Nat.add_comm, after_add, (after_one enters).1]
        exact List.isEmpty_eq_false_iff.mpr (wraps.after forever steps).1.frames_ne_nil
    · rw [Nat.add_comm, results_add, (after_one enters).1, (after_one enters).2,
        (wraps.after forever steps).2]
      rfl

end Machine

end BlockScript
