import BlockScript.Evaluation

/-!
# What evaluation leaves alone

An expression may give a variable another value, but it neither declares a variable nor opens or
closes a scope: whether it succeeds or fails, every scope binds the names that it bound before
(`Expression.evaluate_keeps`).
-/

namespace BlockScript

/-! ### The names that scopes bind -/

/-- Whether a scope binds a name. -/
def Scope.binds (scope : Scope) (name : String) : Bool :=
  (scope.get? name).isSome

namespace Environment

/-- The names that each scope binds, from the innermost scope outward. -/
def bindings (environment : Environment) : List (String → Bool) :=
  environment.scopes.map Scope.binds

variable {environment other : Environment} {name : String} {value : Value}

theorem length_bindings (environment : Environment) :
    environment.bindings.length = environment.depth :=
  List.length_map _

theorem depth_eq_of_bindings_eq (same : other.bindings = environment.bindings) :
    other.depth = environment.depth := by
  rw [← length_bindings, ← length_bindings, same]

theorem depth_pos (environment : Environment) : 0 < environment.depth :=
  Nat.succ_pos _

@[simp]
theorem bindings_enter (environment : Environment) :
    environment.enter.bindings = (fun _ => false) :: environment.bindings :=
  rfl

@[simp]
theorem depth_enter (environment : Environment) : environment.enter.depth = environment.depth + 1 :=
  rfl

/-- Declarations go to the innermost scope. -/
theorem bindings_define (name : String) (value : Value) (environment : Environment) :
    (environment.define name value).bindings =
      Scope.binds (environment.innermost.set name value) :: environment.bindings.tail :=
  rfl

@[simp]
theorem depth_define (name : String) (value : Value) (environment : Environment) :
    (environment.define name value).depth = environment.depth :=
  rfl

/-- The innermost scope can be closed as long as there is another one. -/
theorem bindings_exit (inside : 1 < environment.depth) :
    environment.exit.bindings = environment.bindings.tail := by
  obtain ⟨innermost, enclosing⟩ := environment
  cases enclosing with
  | nil => simp [depth, scopes] at inside
  | cons scope enclosing => rfl

theorem depth_exit (inside : 1 < environment.depth) :
    environment.exit.depth + 1 = environment.depth := by
  rw [← length_bindings, ← length_bindings, bindings_exit inside, List.length_tail, length_bindings]
  omega

/-- A name is visible if one of the scopes binds it. -/
theorem binds_eq_any (name : String) (environment : Environment) :
    environment.binds name = environment.bindings.any (· name) := by
  unfold binds get? bindings
  generalize environment.scopes = scopes
  induction scopes with
  | nil => rfl
  | cons scope outer ih =>
    cases found : scope.get? name with
    | some value => simp [lookup, Scope.binds, found]
    | none => simpa [lookup, Scope.binds, found] using ih

theorem binds_eq_of_bindings_eq (same : other.bindings = environment.bindings) (name : String) :
    other.binds name = environment.binds name := by
  rw [binds_eq_any, binds_eq_any, same]

end Environment

/-! ### Assignments -/

theorem Scope.binds_update {name : String} {value : Value} {scope changed : Scope}
    (updated : scope.update? name value = some changed) : changed.binds = scope.binds := by
  induction scope generalizing changed with
  | nil => cases updated
  | cons entry rest ih =>
    obtain ⟨bound, old⟩ := entry
    by_cases here : bound = name
    -- The entry that changes keeps its name, and those behind it stay as they are.
    · simp only [update?, here, if_true] at updated
      cases updated
      funext other
      simp only [binds, get?, here]
      split <;> simp_all
    · simp only [update?, here, if_false] at updated
      obtain ⟨others, updated_rest, rfl⟩ := Option.map_eq_some_iff.mp updated
      funext other
      have same := congrFun (ih updated_rest) other
      simp only [binds, get?] at same ⊢
      split
      · rfl
      · exact same

namespace Environment

theorem binds_reassign {name : String} {value : Value} {scopes changed : List Scope}
    (reassigned : reassign name value scopes = some changed) :
    changed.map Scope.binds = scopes.map Scope.binds := by
  induction scopes generalizing changed with
  | nil => cases reassigned
  | cons scope outer ih =>
    unfold reassign at reassigned
    split at reassigned
    · next updated =>
      cases reassigned
      simp [Scope.binds_update updated]
    · obtain ⟨others, reassigned_outer, rfl⟩ := Option.map_eq_some_iff.mp reassigned
      simp [ih reassigned_outer]

/-- An assignment changes no more than a value. -/
theorem bindings_assign {name : String} {value : Value} {environment changed : Environment}
    (assigned : environment.assign? name value = some changed) :
    changed.bindings = environment.bindings := by
  unfold assign? at assigned
  split at assigned
  · next updated =>
    cases assigned
    simp [bindings, scopes, Scope.binds_update updated]
  · obtain ⟨others, reassigned, rfl⟩ := Option.map_eq_some_iff.mp assigned
    simp [bindings, scopes, binds_reassign reassigned]

end Environment

/-! ### Evaluation -/

namespace Evaluation

/-- Whether it succeeds or fails, an evaluation leaves the names that each scope binds as they
are. -/
structure Keeps {α : Type} (evaluation : Evaluation α) : Prop where
  ok : ∀ {before value after}, evaluation before = .ok value after →
    after.bindings = before.bindings
  error : ∀ {before error after}, evaluation before = .error error after →
    after.bindings = before.bindings

variable {α β : Type}

theorem bind_eq_ok {evaluation : Evaluation α} {step : α → Evaluation β}
    {before after : Environment} {result : β} :
    (evaluation >>= step) before = .ok result after ↔
      ∃ value middle, evaluation before = .ok value middle ∧
        step value middle = .ok result after := by
  simp only [bind, EStateM.bind]
  cases evaluation before with
  | error error middle => simp
  | ok value middle => simp [and_assoc]

theorem ofExcept_eq_ok {outcome : Except RuntimeError α} {before after : Environment} {value : α} :
    ofExcept outcome before = .ok value after ↔ outcome = .ok value ∧ before = after := by
  unfold ofExcept
  cases outcome <;> simp

theorem keeps_pure (value : α) : Keeps (pure value) := by
  constructor
  · intro before given after evaluated
    cases evaluated
    rfl
  · intro before error after evaluated
    cases evaluated

theorem keeps_bind {evaluation : Evaluation α} {step : α → Evaluation β}
    (keeps : evaluation.Keeps) (onward : ∀ value, (step value).Keeps) :
    Keeps (evaluation >>= step) := by
  constructor
  · intro before result after evaluated
    simp only [bind, EStateM.bind] at evaluated
    split at evaluated
    · next first => exact ((onward _).ok evaluated).trans (keeps.ok first)
    · cases evaluated
  · intro before failure after evaluated
    simp only [bind, EStateM.bind] at evaluated
    split at evaluated
    · next first => exact ((onward _).error evaluated).trans (keeps.ok first)
    · next first =>
      cases evaluated
      exact keeps.error first

theorem keeps_get (name : String) : Keeps (get name) := by
  constructor
  all_goals
    intro before result after evaluated
    unfold get at evaluated
    split at evaluated <;> cases evaluated
    rfl

theorem keeps_assign (name : String) (value : Value) : Keeps (assign name value) := by
  constructor
  all_goals
    intro before result after evaluated
    unfold assign at evaluated
    split at evaluated <;> cases evaluated
  · next assigned => exact Environment.bindings_assign assigned
  · rfl

theorem keeps_ofExcept (outcome : Except RuntimeError α) : Keeps (ofExcept outcome) := by
  constructor
  all_goals
    intro before result after evaluated
    unfold ofExcept at evaluated
    split at evaluated <;> cases evaluated
    rfl

/-- An evaluation fails, if it does, with an error of a certain kind. -/
def FailsOnly (kind : RuntimeError → Prop) (evaluation : Evaluation α) : Prop :=
  ∀ before error after, evaluation before = .error error after → kind error

variable {kind : RuntimeError → Prop}

theorem failsOnly_pure (value : α) : FailsOnly kind (pure value) := by
  intro before error after evaluated
  cases evaluated

theorem failsOnly_bind {evaluation : Evaluation α} {step : α → Evaluation β}
    (fails : evaluation.FailsOnly kind) (onward : ∀ value, (step value).FailsOnly kind) :
    FailsOnly kind (evaluation >>= step) := by
  intro before failure after evaluated
  simp only [bind, EStateM.bind] at evaluated
  split at evaluated
  · exact onward _ _ _ _ evaluated
  · next first =>
    cases evaluated
    exact fails _ _ _ first

theorem failsOnly_get {name : String} (undefined : kind (.undefinedVariable name)) :
    FailsOnly kind (get name) := by
  intro before error after evaluated
  unfold get at evaluated
  split at evaluated <;> cases evaluated
  exact undefined

theorem failsOnly_assign {name : String} (undefined : kind (.undefinedVariable name))
    (value : Value) : FailsOnly kind (assign name value) := by
  intro before error after evaluated
  unfold assign at evaluated
  split at evaluated <;> cases evaluated
  exact undefined

theorem failsOnly_ofExcept {outcome : Except RuntimeError α}
    (refused : ∀ error, outcome = .error error → kind error) :
    FailsOnly kind (ofExcept outcome) := by
  intro before error after evaluated
  unfold ofExcept at evaluated
  split at evaluated <;> cases evaluated
  exact refused _ rfl

end Evaluation

open Evaluation

theorem Expression.evaluate_keeps (expression : Expression) : expression.evaluate.Keeps := by
  induction expression with
  | number | string | bool | nil => exact keeps_pure _
  | «variable» name => exact keeps_get name
  | assign name value ih =>
    exact keeps_bind ih fun _ => keeps_bind (keeps_assign _ _) fun _ => keeps_pure _
  | grouping inner ih => exact ih
  | conditional condition thenBranch elseBranch test first second =>
    refine keeps_bind test fun decision => ?_
    split
    · exact first
    · exact second
  | unary op operand ih => exact keeps_bind ih fun _ => keeps_ofExcept _
  | binary op left right first second =>
    -- The right operand is not evaluated where the left one decides.
    refine keeps_bind first fun value => ?_
    split
    · exact keeps_pure _
    · exact keeps_bind second fun _ => keeps_ofExcept _

theorem Command.evaluate_keeps (x y z name : Expression) : (Command.evaluate x y z name).Keeps := by
  have coordinate (axis : Char) (expression : Expression) :
      (expression.coordinate axis).Keeps :=
    keeps_bind expression.evaluate_keeps fun _ => keeps_ofExcept _
  refine keeps_bind (coordinate _ _) fun _ => keeps_bind (coordinate _ _) fun _ => ?_
  exact keeps_bind (coordinate _ _) fun _ => keeps_bind name.evaluate_keeps fun _ => keeps_pure _

end BlockScript
