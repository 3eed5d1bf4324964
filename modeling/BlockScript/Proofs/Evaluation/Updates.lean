import BlockScript.Machine
import BlockScript.Proofs.Environment.Levels

/-!
# What evaluation changes

An expression changes a variable only by an assignment, so of all bindings it may change those that
are found under the names it assigns to.  All others keep their values, whether the expression has a
value or fails halfway (`Expression.evaluate_updatesOnly`), and so does everything else in the state
of a run (`evaluate_updates_targets`).
-/

namespace BlockScript

/-- The names that the assignments in an expression assign to. -/
def Expression.targets : Expression → List String
  | .number _ | .string _ | .bool _ | .nil | .variable _ => []
  | .assign name value => value.targets ++ [name]
  | .grouping inner => inner.targets
  | .conditional condition thenBranch elseBranch =>
    condition.targets ++ (thenBranch.targets ++ elseBranch.targets)
  | .unary _ operand => operand.targets
  | .binary _ left right => left.targets ++ right.targets

namespace Environment

/-- What assignments to some names can make of an environment.  Scopes bind the names that they
bound before, and of the bindings those of the given names that are found may have changed. -/
structure Updates (names : List String) (before after : Environment) : Prop where
  bindings_eq : after.bindings = before.bindings
  kept : ∀ level name, name ∉ names ∨ before.level? name ≠ some level →
    after.valueAt? level name = before.valueAt? level name
  unchanged : names = [] → after = before

variable {names others : List String} {before middle after : Environment}

theorem Updates.refl (names : List String) (environment : Environment) :
    Updates names environment environment :=
  ⟨rfl, fun _ _ _ => rfl, fun _ => rfl⟩

theorem Updates.trans (first : Updates names before middle) (second : Updates names middle after) :
    Updates names before after where
  bindings_eq := second.bindings_eq.trans first.bindings_eq
  kept level name spared := by
    -- A name is found where it was found before.
    have found := level?_eq_of_bindings_eq first.bindings_eq name
    rw [second.kept level name (by rwa [found]), first.kept level name spared]
  unchanged none := (second.unchanged none).trans (first.unchanged none)

theorem Updates.mono (updates : Updates names before after) (more : names ⊆ others) :
    Updates others before after where
  bindings_eq := updates.bindings_eq
  kept level name spared := updates.kept level name (spared.imp_left (mt (@more name)))
  unchanged none := updates.unchanged (List.subset_nil.mp (none ▸ more))

theorem updates_assign {name : String} {value : Value}
    (assigned : before.assign? name value = some after) : Updates [name] before after where
  bindings_eq := bindings_assign assigned
  kept level other spared := by
    -- The one binding that changes is found, under the one name.
    rw [valueAt?_assign assigned, if_neg]
    rintro ⟨found, rfl⟩
    rcases spared with other_name | elsewhere
    · exact other_name List.mem_cons_self
    · exact elsewhere found
  unchanged none := absurd none (List.cons_ne_nil name [])

end Environment

namespace Evaluation

variable {α β : Type} {names others : List String}

/-- The environment behind an evaluation, whether it succeeds or fails. -/
def leaves (evaluation : Evaluation α) (before : Environment) : Environment :=
  match evaluation before with
  | .ok _ after => after
  | .error _ after => after

/-- Whether it succeeds or fails, an evaluation does no more than assignments to some names can
do. -/
def UpdatesOnly (names : List String) (evaluation : Evaluation α) : Prop :=
  ∀ before, Environment.Updates names before (evaluation.leaves before)

theorem UpdatesOnly.mono {evaluation : Evaluation α} (updates : evaluation.UpdatesOnly names)
    (more : names ⊆ others) : evaluation.UpdatesOnly others :=
  fun before => (updates before).mono more

theorem leaves_bind (evaluation : Evaluation α) (step : α → Evaluation β) (before : Environment) :
    leaves (evaluation >>= step) before = evaluation.leaves before ∨
      ∃ value, leaves (evaluation >>= step) before =
        (step value).leaves (evaluation.leaves before) := by
  simp only [leaves, bind, EStateM.bind]
  cases evaluation before with
  | ok value middle => exact .inr ⟨value, rfl⟩
  | error error middle => exact .inl rfl

theorem updatesOnly_bind {evaluation : Evaluation α} {step : α → Evaluation β}
    (first : evaluation.UpdatesOnly names) (onward : ∀ value, (step value).UpdatesOnly names) :
    UpdatesOnly names (evaluation >>= step) := by
  intro before
  -- Where the first part fails the second one is not evaluated, and its changes stay.
  rcases leaves_bind evaluation step before with failed | ⟨value, went_on⟩
  · rw [failed]
    exact first before
  · rw [went_on]
    exact (first before).trans (onward value _)

theorem updatesOnly_pure (value : α) : UpdatesOnly names (pure value) :=
  fun before => .refl names before

theorem updatesOnly_ofExcept (outcome : Except RuntimeError α) :
    UpdatesOnly names (ofExcept outcome) := by
  intro before
  cases outcome <;> exact .refl names before

theorem updatesOnly_get (name : String) : UpdatesOnly names (get name) := by
  intro before
  unfold leaves get
  cases before.get? name <;> exact .refl names before

theorem updatesOnly_assign (name : String) (value : Value) :
    UpdatesOnly [name] (assign name value) := by
  intro before
  unfold leaves assign
  cases assigned : before.assign? name value with
  | some after => exact Environment.updates_assign assigned
  | none => exact .refl [name] before

end Evaluation

open Evaluation

theorem Expression.evaluate_updatesOnly (expression : Expression) :
    expression.evaluate.UpdatesOnly expression.targets := by
  induction expression with
  | number | string | bool | nil => exact updatesOnly_pure _
  | «variable» name => exact updatesOnly_get name
  | assign name value ih =>
    refine updatesOnly_bind (ih.mono (by simp [targets])) fun assigned => ?_
    refine updatesOnly_bind ?_ fun _ => updatesOnly_pure assigned
    exact (updatesOnly_assign name assigned).mono (by simp [targets])
  | grouping inner ih => exact ih
  | conditional condition thenBranch elseBranch test first second =>
    refine updatesOnly_bind (test.mono (by simp [targets])) fun decision => ?_
    split
    · exact first.mono (by simp [targets])
    · exact second.mono (by simp [targets])
  | unary op operand ih => exact updatesOnly_bind ih fun _ => updatesOnly_ofExcept _
  | binary op left right first second =>
    refine updatesOnly_bind (first.mono (by simp [targets])) fun value => ?_
    split
    -- The right operand is not evaluated where the left one decides.
    · exact updatesOnly_pure _
    · exact updatesOnly_bind (second.mono (by simp [targets])) fun _ => updatesOnly_ofExcept _

namespace Machine

/-- Evaluates an expression in the environment of a run.  Yields its value or its error, and the run
behind it. -/
def evaluate (machine : Machine) (expression : Expression) :
    Except RuntimeError Value × Machine :=
  match expression.evaluate machine.environment with
  | .ok value environment => (.ok value, { machine with environment })
  | .error error environment => (.error error, { machine with environment })

theorem evaluate_eq (machine : Machine) (expression : Expression) :
    (machine.evaluate expression).2 =
      { machine with environment := expression.evaluate.leaves machine.environment } := by
  unfold evaluate leaves
  cases expression.evaluate machine.environment <;> rfl

/-- A run goes on with the value of an expression, or ends with its error. -/
theorem evaluating_eq (machine : Machine) (expression : Expression)
    (next : Value → Environment → Except RuntimeError Step × Machine) :
    machine.evaluating expression.evaluate next =
      match machine.evaluate expression with
      | (.ok value, after) => next value after.environment
      | (.error error, after) => after.fail error := by
  unfold evaluating evaluate
  cases expression.evaluate machine.environment <;> rfl

/-- Whether it succeeds or fails, an expression leaves as many scopes as there were, each with the
names that it bound before, and every binding whose name it does not assign to, or that is shadowed,
keeps its value.  Nothing else in the state of a run changes, and if there is no assignment in the
expression nothing at all. -/
theorem evaluate_updates_targets (expression : Expression) (machine : Machine) :
    let after := (machine.evaluate expression).2
    after.environment.depth = machine.environment.depth ∧
    after.environment.bindings = machine.environment.bindings ∧
    (∀ level name, name ∉ expression.targets ∨ machine.environment.Shadowed level name →
      after.environment.valueAt? level name = machine.environment.valueAt? level name) ∧
    after.frames = machine.frames ∧ after.steps = machine.steps ∧
    after.emitted = machine.emitted ∧ after.limits = machine.limits ∧
    (expression.targets = [] → after = machine) ∧
    ∀ next, machine.evaluating expression.evaluate next =
      match machine.evaluate expression with
      | (.ok value, after) => next value after.environment
      | (.error error, after) => after.fail error := by
  intro after
  have updates := expression.evaluate_updatesOnly machine.environment
  have after_eq : after = _ := evaluate_eq machine expression
  rw [after_eq]
  refine ⟨Environment.depth_eq_of_bindings_eq updates.bindings_eq, updates.bindings_eq, ?_, rfl, rfl,
    rfl, rfl, ?_, evaluating_eq machine expression⟩
  · intro level name spared
    exact updates.kept level name (spared.imp_right Environment.level?_ne_of_shadowed)
  · intro none
    rw [updates.unchanged none]

end Machine

end BlockScript
