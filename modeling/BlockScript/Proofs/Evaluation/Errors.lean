import BlockScript.Proofs.Evaluation

/-!
# What evaluation fails with

An expression fails because of something that is written in it: a variable that is read or assigned
to, or an operator whose operand is no number (`Expression.evaluate_blames`).  Limits have no part in
that.
-/

namespace BlockScript

/-- An expression and all expressions inside it. -/
def Expression.inside : Expression → List Expression
  | whole@(.assign _ value) => whole :: value.inside
  | whole@(.grouping inner) => whole :: inner.inside
  | whole@(.conditional condition thenBranch elseBranch) =>
    whole :: (condition.inside ++ (thenBranch.inside ++ elseBranch.inside))
  | whole@(.unary _ operand) => whole :: operand.inside
  | whole@(.binary _ left right) => whole :: (left.inside ++ right.inside)
  | whole => [whole]

/-- The axes, for which a coordinate may be refused. -/
def axes : List Char := ['x', 'y', 'z']

/-- An error that one of some expressions is to blame for, or the value of one that is to be a
coordinate. -/
inductive RuntimeError.Blames (expressions : List Expression) : RuntimeError → Prop where
  | read {name} : .variable name ∈ expressions → Blames expressions (.undefinedVariable name)
  | assigned {name value} : .assign name value ∈ expressions →
      Blames expressions (.undefinedVariable name)
  | unary {op operand found} : .unary op operand ∈ expressions →
      Blames expressions (.operandNotNumber (.unary op) found)
  | binary {op left right found} : .binary op left right ∈ expressions →
      Blames expressions (.operandNotNumber (.binary op) found)
  | nonFinite {axis value} : axis ∈ axes → Blames expressions (.nonFiniteCoordinate axis value)
  | outOfRange {axis value} : axis ∈ axes → Blames expressions (.coordinateOutOfRange axis value)
  | invalid {axis value} : axis ∈ axes → Blames expressions (.invalidCoordinate axis value)

/-- Whether an error says that a limit has been reached. -/
def RuntimeError.isLimit : RuntimeError → Bool
  | .stepLimitExceeded _ => true
  | .instructionLimitExceeded _ => true
  | _ => false

namespace RuntimeError

variable {expressions : List Expression} {error : RuntimeError}

/-- No expression is to blame for a limit. -/
theorem Blames.not_isLimit (blames : Blames expressions error) : error.isLimit = false := by
  cases blames <;> rfl

end RuntimeError

open RuntimeError Evaluation

variable {expressions : List Expression} {error : RuntimeError}

/-! ### Operators and coordinates -/

theorem UnaryOp.apply_blames {op : UnaryOp} {operand : Expression} {value : Value}
    (member : .unary op operand ∈ expressions) (refused : op.apply value = .error error) :
    Blames expressions error := by
  unfold apply at refused
  split at refused <;> cases refused
  exact .unary member

theorem BinaryOp.numeric_blames {op : BinaryOp} {left right : Expression}
    {result : Float → Float → Value} {first second : Value}
    (member : .binary op left right ∈ expressions)
    (refused : op.numeric result first second = .error error) : Blames expressions error := by
  unfold numeric at refused
  split at refused <;> cases refused <;> exact .binary member

theorem BinaryOp.apply_blames {op : BinaryOp} {left right : Expression} {first second : Value}
    (member : .binary op left right ∈ expressions) (refused : op.apply first second = .error error) :
    Blames expressions error := by
  cases op with
  | add | eq | notEq | and | or => cases refused
  | sub | mul | div | mod | lt | ltEq | gt | gtEq => exact numeric_blames member refused

theorem Value.toCoordinate_blames {axis : Char} {value : Value} (isAxis : axis ∈ axes)
    (refused : value.toCoordinate axis = .error error) : Blames expressions error := by
  unfold toCoordinate at refused
  split at refused
  · -- A number may have no limits, or lie beyond those of coordinates.
    split at refused
    · split at refused <;> cases refused
      exact .outOfRange isAxis
    · cases refused
      exact .nonFinite isAxis
  · split at refused <;> cases refused
    exact .invalid isAxis
  · cases refused
    exact .invalid isAxis
  · cases refused
    exact .invalid isAxis

/-! ### Expressions -/

theorem Expression.evaluate_blames (expression : Expression) (subset : expression.inside ⊆ expressions) :
    expression.evaluate.FailsOnly (Blames expressions) := by
  induction expression with
  | number | string | bool | nil => exact failsOnly_pure _
  | «variable» name => exact failsOnly_get (.read (subset List.mem_cons_self))
  | assign name value ih =>
    obtain ⟨here, within⟩ := List.cons_subset.mp subset
    exact failsOnly_bind (ih within) fun _ =>
      failsOnly_bind (failsOnly_assign (.assigned here) _) fun _ => failsOnly_pure _
  | grouping inner ih => exact ih (List.cons_subset.mp subset).2
  | conditional condition thenBranch elseBranch test first second =>
    obtain ⟨-, within⟩ := List.cons_subset.mp subset
    obtain ⟨withinTest, branches⟩ := List.append_subset.mp within
    obtain ⟨withinFirst, withinSecond⟩ := List.append_subset.mp branches
    refine failsOnly_bind (test withinTest) fun decision => ?_
    split
    · exact first withinFirst
    · exact second withinSecond
  | unary op operand ih =>
    obtain ⟨here, within⟩ := List.cons_subset.mp subset
    exact failsOnly_bind (ih within) fun _ => failsOnly_ofExcept fun _ => UnaryOp.apply_blames here
  | binary op left right first second =>
    obtain ⟨here, within⟩ := List.cons_subset.mp subset
    obtain ⟨withinFirst, withinSecond⟩ := List.append_subset.mp within
    -- The right operand is not evaluated where the left one decides.
    refine failsOnly_bind (first withinFirst) fun value => ?_
    split
    · exact failsOnly_pure _
    · exact failsOnly_bind (second withinSecond) fun _ =>
        failsOnly_ofExcept fun _ => BinaryOp.apply_blames here

theorem Command.evaluate_blames {x y z name : Expression}
    (subset : [x, y, z, name].flatMap Expression.inside ⊆ expressions) :
    (Command.evaluate x y z name).FailsOnly (Blames expressions) := by
  simp only [List.flatMap_cons, List.flatMap_nil, List.append_subset] at subset
  obtain ⟨withinX, withinY, withinZ, withinName, -⟩ := subset
  have coordinate {axis : Char} {expression : Expression} (isAxis : axis ∈ axes)
      (within : expression.inside ⊆ expressions) :
      (expression.coordinate axis).FailsOnly (Blames expressions) :=
    failsOnly_bind (expression.evaluate_blames within) fun _ =>
      failsOnly_ofExcept fun _ => Value.toCoordinate_blames isAxis
  refine failsOnly_bind (coordinate (by decide) withinX) fun _ => ?_
  refine failsOnly_bind (coordinate (by decide) withinY) fun _ => ?_
  refine failsOnly_bind (coordinate (by decide) withinZ) fun _ => ?_
  exact failsOnly_bind (name.evaluate_blames withinName) fun _ => failsOnly_pure _

end BlockScript
