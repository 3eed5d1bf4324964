import Mathlib.Data.List.Basic
import BlockScript.Proofs.Machine.Errors
import BlockScript.Proofs.Machine.Translation

/-!
# Parentheses are free

Parentheses say how a text is to be read.  Once it has been read they make no difference: a program
without its groupings runs like the program itself, step by step (`parentheses_are_free`).
-/

namespace BlockScript

/-! ### What is written in a translated program -/

section Written

variable {name : String → String} {expression : Expression → Expression}

theorem Statement.mapAll_eq_map (statements : List Statement) :
    mapAll name expression statements = statements.map (Statement.map name expression) := by
  induction statements with
  | nil => rfl
  | cons statement rest ih => rw [mapAll, ih, List.map_cons]

theorem Statement.parts_map (statement : Statement) :
    (statement.map name expression).parts = statement.parts.map (Statement.map name expression) := by
  cases statement with
  | block body => exact mapAll_eq_map body
  | branch condition thenBranch elseBranch => cases elseBranch <;> rfl
  | expression | declare | loop | setBlock => rfl

theorem Statement.operands_map (statement : Statement) :
    (statement.map name expression).operands = statement.operands.map expression := by
  cases statement with
  | branch condition thenBranch elseBranch => cases elseBranch <;> rfl
  | expression | declare | block | loop | setBlock => rfl

/-- The statement of a node in translation, with the same way to it. -/
def Node.map (name : String → String) (expression : Expression → Expression) (node : Node) : Node :=
  ⟨node.way, node.statement.map name expression⟩

theorem Node.listed_map (way : List Nat) (place : Nat) (statements : List Statement) :
    listed way place (statements.map (Statement.map name expression)) =
      (listed way place statements).map (Node.map name expression) := by
  induction statements generalizing place with
  | nil => rfl
  | cons statement rest ih =>
    simp only [List.map_cons, listed, ih]
    rfl

theorem Node.nodes_map (node : Node) :
    (node.map name expression).nodes = node.nodes.map (Node.map name expression) := by
  induction node using nodes.induct with
  | case1 node ih =>
    have parts : (node.map name expression).parts = node.parts.map (Node.map name expression) := by
      rw [Node.parts, Node.map, Statement.parts_map, listed_map]
      rfl
    rw [nodes_eq, nodes_eq, parts, List.map_cons, List.map_flatMap, List.flatMap_map]
    congr 1
    exact List.flatMap_congr fun part member => ih ⟨part, member⟩

theorem Program.inside_map (program : Program) :
    (program.map name expression).inside = program.inside.map (Statement.map name expression) := by
  have nodes :
      (program.map name expression).nodes = program.nodes.map (Node.map name expression) := by
    rw [Program.nodes, Program.map, Statement.mapAll_eq_map, Node.listed_map, Program.nodes,
      List.map_flatMap, List.flatMap_map]
    exact List.flatMap_congr fun node _ => node.nodes_map
  simp only [Program.inside, nodes, List.map_map]
  rfl

/-- What is written in a translated program is inside a translated expression. -/
theorem Program.exists_of_mem_expressions_map {program : Program} {written : Expression}
    (member : written ∈ (program.map name expression).expressions) :
    ∃ original : Expression, written ∈ (expression original).inside := by
  obtain ⟨statement, inside, member⟩ := List.mem_flatMap.mp member
  rw [inside_map] at inside
  obtain ⟨original, -, rfl⟩ := List.mem_map.mp inside
  rw [Statement.operands_map, List.flatMap_map] at member
  obtain ⟨operand, -, member⟩ := List.mem_flatMap.mp member
  exact ⟨operand, member⟩

end Written

/-! ### Programs without groupings -/

/-- The same expression with each grouping replaced by what it groups. -/
def Expression.ungrouped : Expression → Expression
  | .grouping inner => inner.ungrouped
  | .assign target value => .assign target value.ungrouped
  | .unary op operand => .unary op operand.ungrouped
  | .binary op left right => .binary op left.ungrouped right.ungrouped
  | .conditional condition thenBranch elseBranch =>
    .conditional condition.ungrouped thenBranch.ungrouped elseBranch.ungrouped
  | simple => simple

theorem Expression.evaluate_ungrouped (expression : Expression) :
    expression.ungrouped.evaluate = expression.evaluate := by
  induction expression with
  | number | string | bool | nil | «variable» => rfl
  | grouping inner ih => exact ih
  | assign target value ih => simp only [ungrouped, evaluate, ih]
  | unary op operand ih => simp only [ungrouped, evaluate, ih]
  | binary op left right first second => simp only [ungrouped, evaluate, first, second]
  | conditional condition thenBranch elseBranch test first second =>
    simp only [ungrouped, evaluate, test, first, second]

theorem Expression.grouping_notMem_ungrouped (inner expression : Expression) :
    .grouping inner ∉ expression.ungrouped.inside := by
  induction expression with simp_all [ungrouped, inside]

/-- The same program with each grouping replaced by what it groups. -/
def Program.ungrouped (program : Program) : Program :=
  program.map id Expression.ungrouped

/-- To leave out the groupings is a translation, under which nothing else changes. -/
def Translation.ungrouping : Translation where
  name := id
  expression := Expression.ungrouped
  environment := id
  evaluates value := by
    rw [value.evaluate_ungrouped]
    exact ⟨id, fun failed => by rwa [RuntimeError.rename_id]⟩
  enters _ := rfl
  defines _ _ _ := rfl

namespace Machine

/-- Two machines that cannot be told apart by what a caller sees of them and of their next step. -/
structure Alike (machine other : Machine) : Prop where
  result : other.step.1 = machine.step.1
  environment : other.environment = machine.environment
  steps : other.steps = machine.steps
  emitted : other.emitted = machine.emitted
  isFinished : other.isFinished = machine.isFinished

/-- A program has no grouping left once each one is replaced by what it groups, and it runs as
before: every step returns the same and leaves the same environment and the same counts. -/
theorem parentheses_are_free (program : Program) :
    (∀ inner, .grouping inner ∉ program.ungrouped.expressions) ∧
      ∀ limits steps, ((start program limits).after steps).Alike
        ((start program.ungrouped limits).after steps) := by
  constructor
  · intro inner written
    obtain ⟨original, member⟩ := Program.exists_of_mem_expressions_map written
    exact Expression.grouping_notMem_ungrouped inner original member
  · intro limits steps
    have translates : ((start program limits).after steps).Translates .ungrouping
        ((start program.ungrouped limits).after steps) :=
      (translates_start program limits rfl).after (fun _ => rfl) steps
    obtain ⟨result, -⟩ := translates.step fun _ => rfl
    refine ⟨?_, translates.like.environment, translates.like.steps, translates.like.emitted, ?_⟩
    · rw [result]
      -- With the names as they are, errors stay the same.
      cases ((start program limits).after steps).step.1 with
      | ok => rfl
      | error failure => exact congrArg Except.error failure.rename_id
    · rw [isFinished, isFinished, translates.frames, List.isEmpty_map]

end Machine

end BlockScript
