import BlockScript.Proofs.Environment.Levels
import Mathlib.Logic.Function.Basic

/-!
# Ways to keep variables

Besides an environment two other things can keep variables: a stack of maps from names to values,
and a row of scopes each of which says where the scope around it stands, so that look-up walks from
scope to scope.  Both are images of an environment, and whatever is performed on an environment is
performed on its images in the same way, with the same answer (`Maps.perform_ofEnvironment`, and
`Chain.perform_ofEnvironment` for the other one).
-/

namespace BlockScript

/-! ### Operations on variables -/

/-- What can be done with variables. -/
inductive Operation where
  | enter
  | exit
  | define (name : String) (value : Value)
  | assign (name : String) (value : Value)
  | get (name : String)
  | binds (name : String)

/-- What is answered to an operation. -/
inductive Answer where
  | done
  | assigned (outcome : Except RuntimeError Unit)
  | found (outcome : Except RuntimeError Value)
  | bound (isBound : Bool)

/-- Something that keeps variables.  It performs nothing where something that it needs is missing,
or where it would never come to an end. -/
structure Keeper (State : Type) where
  perform : Operation → State → Option (Answer × State)
  depth : State → Nat

namespace Keeper

variable {State Image : Type}

/-- Performs operations in order.  Yields the answers, each with the number of scopes behind it. -/
def run (keeper : Keeper State) : List Operation → State → Option (List (Answer × Nat) × State)
  | [], state => some ([], state)
  | operation :: rest, state =>
    match keeper.perform operation state with
    | none => none
    | some (answer, next) =>
      (keeper.run rest next).map fun (answers, last) =>
        ((answer, keeper.depth next) :: answers, last)

/-- If an image answers to every operation like what it is an image of, then it does so to any
operations in a row. -/
theorem run_image {first : Keeper State} {second : Keeper Image} {image : State → Image}
    (same_depth : ∀ state, second.depth (image state) = first.depth state)
    (same : ∀ operation state answer next, first.perform operation state = some (answer, next) →
      second.perform operation (image state) = some (answer, image next))
    {operations : List Operation} {state last : State} {answers : List (Answer × Nat)}
    (performed : first.run operations state = some (answers, last)) :
    second.run operations (image state) = some (answers, image last) := by
  induction operations generalizing state answers with
  | nil =>
    cases performed
    rfl
  | cons operation rest ih =>
    unfold run at performed
    split at performed
    · cases performed
    · next answer next one =>
      obtain ⟨⟨others, final⟩, onward, same_answers⟩ := Option.map_eq_some_iff.mp performed
      cases same_answers
      -- The image answers to the first operation, and then to the others from the image of `next`.
      simp only [run, same _ _ _ _ one, ih onward, Option.map_some, same_depth]

end Keeper

namespace Environment

def perform : Operation → Environment → Answer × Environment
  | .enter, environment => (.done, environment.enter)
  | .exit, environment => (.done, environment.exit)
  | .define name value, environment => (.done, environment.define name value)
  | .assign name value, environment =>
    match Evaluation.assign name value environment with
    | .ok () changed => (.assigned (.ok ()), changed)
    | .error error unchanged => (.assigned (.error error), unchanged)
  | .get name, environment =>
    match Evaluation.get name environment with
    | .ok value same => (.found (.ok value), same)
    | .error error same => (.found (.error error), same)
  | .binds name, environment => (.bound (environment.binds name), environment)

/-- An environment, where no operation is ever stuck. -/
def keeper : Keeper Environment :=
  ⟨fun operation environment => some (environment.perform operation), depth⟩

/-- The environment behind some operations. -/
def behind (operations : List Operation) (environment : Environment) : Environment :=
  operations.foldl (fun environment operation => (environment.perform operation).2) environment

@[simp]
theorem behind_cons (operation : Operation) (rest : List Operation) (environment : Environment) :
    environment.behind (operation :: rest) = (environment.perform operation).2.behind rest :=
  rfl

theorem behind_append (first second : List Operation) (environment : Environment) :
    environment.behind (first ++ second) = (environment.behind first).behind second :=
  List.foldl_append

theorem run_eq (operations : List Operation) (environment : Environment) :
    ∃ answers, keeper.run operations environment =
      some (answers, environment.behind operations) := by
  induction operations generalizing environment with
  | nil => exact ⟨[], rfl⟩
  | cons operation rest ih =>
    obtain ⟨answers, performed⟩ := ih (environment.perform operation).2
    refine ⟨((environment.perform operation).1, (environment.perform operation).2.depth) :: answers,
      ?_⟩
    have first : keeper.perform operation environment = some (environment.perform operation) := rfl
    simp only [Keeper.run, first, performed, Option.map_some, behind_cons]
    rfl

end Environment

/-! ### Stacks of maps -/

/-- Maps from names to values, the innermost one first. -/
abbrev Maps := List (String → Option Value)

namespace Maps

def empty : Maps := [fun _ => none]

/-- Declarations go to the innermost map, look-up and assignment to the innermost one that binds the
name, and the last map is never taken away. -/
def perform : Operation → Maps → Answer × Maps
  | .enter, maps => (.done, (fun _ => none) :: maps)
  | .exit, maps => (.done, if 1 < maps.length then maps.tail else maps)
  | .define name value, maps => (.done, maps.modifyHead (Function.update · name (some value)))
  | .assign name value, maps =>
    match maps.findIdx? fun map => (map name).isSome with
    | some index => (.assigned (.ok ()), maps.modify index (Function.update · name (some value)))
    | none => (.assigned (.error (.undefinedVariable name)), maps)
  | .get name, maps =>
    match maps.findSome? (· name) with
    | some value => (.found (.ok value), maps)
    | none => (.found (.error (.undefinedVariable name)), maps)
  | .binds name, maps => (.bound (maps.any fun map => (map name).isSome), maps)

def keeper : Keeper Maps :=
  ⟨fun operation maps => some (maps.perform operation), List.length⟩

/-- A scope as a map. -/
def ofScope (scope : Scope) : String → Option Value :=
  fun name => scope.get? name

def ofEnvironment (environment : Environment) : Maps :=
  environment.scopes.map ofScope

theorem ofScope_set (name : String) (value : Value) (scope : Scope) :
    ofScope (scope.set name value) = Function.update (ofScope scope) name (some value) := by
  funext other
  simp only [ofScope, Scope.get?_set, Function.update_apply, eq_comm]

theorem findSome?_ofScope (name : String) (scopes : List Scope) :
    (scopes.map ofScope).findSome? (· name) = Environment.lookup name scopes := by
  induction scopes with
  | nil => rfl
  | cons scope outer ih =>
    simp only [List.map_cons, List.findSome?_cons, ofScope, Environment.lookup, ih]
    cases scope.get? name <;> rfl

/-- The map in which a name is found is the one that an assignment changes. -/
theorem modify_ofScope (name : String) (value : Value) (scopes : List Scope) :
    ((scopes.map ofScope).findIdx? fun map => (map name).isSome).map
        (fun index => (scopes.map ofScope).modify index (Function.update · name (some value))) =
      (Environment.reassign name value scopes).map (List.map ofScope) := by
  induction scopes with
  | nil => rfl
  | cons scope outer ih =>
    simp only [List.map_cons, List.findIdx?_cons, Environment.reassign, Scope.update?_eq]
    have here : (ofScope scope name).isSome = scope.binds name := rfl
    cases bound : scope.binds name with
    | true => simp [here, bound, ofScope_set]
    | false =>
      simp only [here, bound, Bool.false_eq_true, if_false, Option.map_map]
      have deeper := congrArg (Option.map (ofScope scope :: ·)) ih
      simpa [Function.comp_def] using deeper

theorem perform_ofEnvironment (operation : Operation) (environment : Environment) :
    (ofEnvironment environment).perform operation =
      ((environment.perform operation).1, ofEnvironment (environment.perform operation).2) := by
  cases operation with
  | enter => rfl
  | exit =>
    obtain ⟨innermost, _ | ⟨scope, enclosing⟩⟩ := environment <;> rfl
  | define name value =>
    simp [perform, Environment.perform, ofEnvironment, Environment.scopes, Environment.define,
      ofScope_set]
  | assign name value =>
    have changes := modify_ofScope name value environment.scopes
    rw [← Environment.scopes_assign, Option.map_map] at changes
    simp only [perform, Environment.perform, Evaluation.assign, ofEnvironment]
    -- Both sides find a scope to change, or neither does.
    cases assigned : environment.assign? name value with
    | none =>
      rw [assigned, Option.map_none, Option.map_eq_none_iff] at changes
      rw [changes]
    | some changed =>
      rw [assigned] at changes
      obtain ⟨index, found, modified⟩ := Option.map_eq_some_iff.mp changes
      rw [found]
      exact congrArg _ modified
  | get name =>
    simp only [perform, Environment.perform, Evaluation.get, ofEnvironment, Environment.get?,
      findSome?_ofScope]
    cases Environment.lookup name environment.scopes <;> rfl
  | binds name =>
    simp only [perform, Environment.perform, Environment.binds_eq_any, Environment.bindings,
      ofEnvironment, List.any_map]
    rfl

theorem run_ofEnvironment {operations : List Operation} {environment last : Environment}
    {answers : List (Answer × Nat)}
    (performed : Environment.keeper.run operations environment = some (answers, last)) :
    keeper.run operations (ofEnvironment environment) = some (answers, ofEnvironment last) := by
  refine Keeper.run_image (fun _ => List.length_map _) ?_ performed
  intro operation environment answer next one
  have image := perform_ofEnvironment operation environment
  rw [Option.some.inj one] at image
  exact congrArg some image

end Maps

end BlockScript
