import Mathlib.Logic.Equiv.Basic
import BlockScript.Proofs.Machine.Translation

/-!
# Names carry no meaning

If the variables of a program get other names, and different variables different ones, its run is
the same step by step: the same results, the same counts, and the same environments under the other
names (`names_carry_no_meaning`).  Only an error about a variable tells the other name.
-/

namespace BlockScript

/-! ### Environments under other names -/

namespace Scope

variable {name : String → String}

/-- The same variables under other names. -/
def rename (name : String → String) (scope : Scope) : Scope :=
  scope.map fun (bound, value) => (name bound, value)

theorem get?_rename (injective : Function.Injective name) (read : String) (scope : Scope) :
    (scope.rename name).get? (name read) = scope.get? read := by
  induction scope with
  | nil => rfl
  | cons entry rest ih =>
    obtain ⟨bound, value⟩ := entry
    -- Two names are the same exactly if the names that they were are.
    simp only [rename, List.map_cons, get?, injective.eq_iff]
    rw [← ih]
    rfl

theorem rename_set (injective : Function.Injective name) (target : String) (value : Value)
    (scope : Scope) :
    (scope.set target value).rename name = (scope.rename name).set (name target) value := by
  induction scope with
  | nil => rfl
  | cons entry rest ih =>
    obtain ⟨bound, old⟩ := entry
    by_cases here : bound = target
    · simp [rename, set, here]
    · simp only [rename, List.map_cons, set, injective.eq_iff, here, if_false] at ih ⊢
      rw [ih]

theorem update?_rename (injective : Function.Injective name) (target : String) (value : Value)
    (scope : Scope) :
    (scope.rename name).update? (name target) value =
      (scope.update? target value).map (Scope.rename name) := by
  induction scope with
  | nil => rfl
  | cons entry rest ih =>
    obtain ⟨bound, old⟩ := entry
    by_cases here : bound = target
    · simp [rename, update?, here]
    · simp only [rename, List.map_cons, update?, injective.eq_iff, here, if_false] at ih ⊢
      rw [ih, Option.map_map, Option.map_map]
      rfl

end Scope

namespace Environment

variable {name : String → String}

/-- The same scopes with other names for their variables. -/
def rename (name : String → String) (environment : Environment) : Environment :=
  ⟨environment.innermost.rename name, environment.enclosing.map (Scope.rename name)⟩

theorem lookup_rename (injective : Function.Injective name) (read : String)
    (scopes : List Scope) :
    lookup (name read) (scopes.map (Scope.rename name)) = lookup read scopes := by
  induction scopes with
  | nil => rfl
  | cons scope outer ih => simp only [List.map_cons, lookup, Scope.get?_rename injective, ih]

theorem reassign_rename (injective : Function.Injective name) (target : String) (value : Value)
    (scopes : List Scope) :
    reassign (name target) value (scopes.map (Scope.rename name)) =
      (reassign target value scopes).map (List.map (Scope.rename name)) := by
  induction scopes with
  | nil => rfl
  | cons scope outer ih =>
    simp only [List.map_cons, reassign, Scope.update?_rename injective, ih]
    cases scope.update? target value with
    | some changed => rfl
    | none =>
      simp only [Option.map_none, Option.map_map]
      rfl

theorem renames_rename (injective : Function.Injective name) :
    Evaluation.Renames name (rename name) where
  gets read before := lookup_rename injective read before.scopes
  assigns target value before := by
    simp only [assign?, rename, Scope.update?_rename injective, reassign_rename injective]
    cases before.innermost.update? target value with
    | some changed => rfl
    | none =>
      simp only [Option.map_none, Option.map_map]
      rfl

theorem rename_exit (before : Environment) :
    before.exit.rename name = (before.rename name).exit := by
  obtain ⟨innermost, enclosing⟩ := before
  cases enclosing <;> rfl

end Environment

/-! ### Programs under other names -/

/-- The same program with other names for its variables, wherever they are declared, read or
assigned to. -/
def Program.rename (name : String → String) (program : Program) : Program :=
  program.map name (Expression.rename name)

/-- To give variables other names, different ones to different variables, is a translation. -/
def Translation.renaming {name : String → String} (injective : Function.Injective name) :
    Translation where
  name := name
  expression := Expression.rename name
  environment := Environment.rename name
  evaluates := Expression.evaluate_rename (Environment.renames_rename injective)
  enters _ := rfl
  defines declared value before := by
    simp only [Environment.rename, Environment.define, Scope.rename_set injective]

namespace Machine

/-- Two machines at the same point of a run but for the names of variables: the next step returns
the same, and the environments and the counts are the same. -/
structure SameButNames (name : String → String) (original renamed : Machine) : Prop where
  result : renamed.step.1 = original.step.1.mapError (RuntimeError.rename name)
  environment : renamed.environment = original.environment.rename name
  steps : renamed.steps = original.steps
  emitted : renamed.emitted = original.emitted

/-- If the variables of a program get other names, different ones for different variables, every
step of its run returns the same and leaves the same environment and the same counts, but for these
names. -/
theorem names_carry_no_meaning {name : String → String} (injective : Function.Injective name)
    (program : Program) (limits : Limits) (steps : Nat) :
    ((start program limits).after steps).SameButNames name
      ((start (program.rename name) limits).after steps) := by
  have exits (before : Environment) :
      (Translation.renaming injective).environment before.exit =
        ((Translation.renaming injective).environment before).exit := Environment.rename_exit before
  have translates : ((start program limits).after steps).Translates (.renaming injective)
      ((start (program.rename name) limits).after steps) :=
    (translates_start program limits rfl).after exits steps
  exact ⟨(translates.step exits).1, translates.like.environment, translates.like.steps,
    translates.like.emitted⟩

/-- The program `let x = true; y;` with `x` and `y` exchanged, before its second step. -/
theorem names_carry_no_meaning_exchanged :
    let exchange : String → String := Equiv.swap "x" "y"
    let program : Program := ⟨[.declare "x" (.bool true), .expression (.variable "y")]⟩
    let original := (start program .default).after 1
    let renamed := (start (program.rename exchange) .default).after 1
    Function.Injective exchange ∧
      original.environment = ⟨[("x", .bool true)], []⟩ ∧
      renamed.environment = ⟨[("y", .bool true)], []⟩ ∧
      original.step.1 = .error (.undefinedVariable "y") ∧
      renamed.step.1 = .error (.undefinedVariable "x") ∧
      original.SameButNames exchange renamed := by
  intro exchange program original renamed
  have injective : Function.Injective exchange := (Equiv.swap "x" "y").injective
  exact ⟨injective, rfl, rfl, rfl, rfl, names_carry_no_meaning injective program .default 1⟩

end Machine

end BlockScript
