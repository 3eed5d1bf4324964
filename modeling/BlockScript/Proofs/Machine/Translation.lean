import BlockScript.Proofs.Evaluation.Errors
import BlockScript.Proofs.Machine.Steps

/-!
# Programs told otherwise

A translation gives the names and the expressions of a program another form, and the environments
along with them, so that evaluation comes to the same (`Translation`).  Then a unit of work of the
machine comes to the same as well, whatever lies below the frame that it is done for
(`mirrored_work`), and so do a step (`Translates.step`) and a whole run (`Translates.after`).
-/

namespace BlockScript

/-! ### Programs -/

mutual

/-- The same statement with other names and other expressions. -/
def Statement.map (name : String → String) (expression : Expression → Expression) :
    Statement → Statement
  | .expression value => .expression (expression value)
  | .declare declared initializer => .declare (name declared) (expression initializer)
  | .block body => .block (Statement.mapAll name expression body)
  | .branch condition thenBranch none =>
    .branch (expression condition) (Statement.map name expression thenBranch) none
  | .branch condition thenBranch (some elseBranch) =>
    .branch (expression condition) (Statement.map name expression thenBranch)
      (some (Statement.map name expression elseBranch))
  | .loop condition body => .loop (expression condition) (Statement.map name expression body)
  | .setBlock x y z blockName =>
    .setBlock (expression x) (expression y) (expression z) (expression blockName)

def Statement.mapAll (name : String → String) (expression : Expression → Expression) :
    List Statement → List Statement
  | [] => []
  | statement :: rest =>
    Statement.map name expression statement :: Statement.mapAll name expression rest

end

def Program.map (name : String → String) (expression : Expression → Expression)
    (program : Program) : Program :=
  ⟨Statement.mapAll name expression program.statements⟩

def Frame.map (name : String → String) (expression : Expression → Expression) : Frame → Frame
  | .statements rest leavesScope =>
    .statements (Statement.mapAll name expression rest) leavesScope
  | .loop condition body => .loop (expression condition) (body.map name expression)

mutual

theorem Statement.map_id (statement : Statement) : statement.map id id = statement := by
  cases statement with
  | expression | declare | setBlock => rfl
  | block body => rw [map, mapAll_id body]
  | branch condition thenBranch elseBranch =>
    cases elseBranch with
    | none => rw [map, map_id thenBranch, id]
    | some elseBranch => rw [map, map_id thenBranch, map_id elseBranch, id]
  | loop condition body => rw [map, map_id body, id]

theorem Statement.mapAll_id (statements : List Statement) :
    Statement.mapAll id id statements = statements := by
  cases statements with
  | nil => rfl
  | cons statement rest => rw [mapAll, map_id statement, mapAll_id rest]

end

theorem Frame.map_id (frame : Frame) : frame.map id id = frame := by
  cases frame with
  | statements rest leavesScope => rw [map, Statement.mapAll_id]
  | loop condition body => rw [map, Statement.map_id, id]

/-! ### Evaluation -/

/-- The same error about another name. -/
def RuntimeError.rename (name : String → String) : RuntimeError → RuntimeError
  | .undefinedVariable missing => .undefinedVariable (name missing)
  | error => error

theorem RuntimeError.rename_id (error : RuntimeError) : error.rename id = error := by
  cases error <;> rfl

/-- An error that no name is to blame for. -/
theorem RuntimeError.rename_of_blames {expressions : List Expression} {error : RuntimeError}
    (name : String → String) (blames : error.Blames expressions)
    (noRead : ∀ read, .variable read ∉ expressions)
    (noTarget : ∀ target value, .assign target value ∉ expressions) :
    error.rename name = error := by
  cases blames with
  | read member => exact absurd member (noRead _)
  | assigned member => exact absurd member (noTarget _ _)
  | _ => rfl

namespace Evaluation

variable {α β : Type} {name : String → String} {change : Environment → Environment}

/-- In a changed environment the second evaluation comes to what the first one comes to: the same
value or the same error, about another name, and the environment changed in the same way. -/
structure Mirrors (name : String → String) (change : Environment → Environment)
    (evaluation other : Evaluation α) : Prop where
  ok : ∀ {before value after}, evaluation before = .ok value after →
    other (change before) = .ok value (change after)
  error : ∀ {before error after}, evaluation before = .error error after →
    other (change before) = .error (error.rename name) (change after)

theorem mirrors_pure (value : α) : Mirrors name change (pure value) (pure value) := by
  constructor
  · intro before given after evaluated
    cases evaluated
    rfl
  · intro before error after evaluated
    cases evaluated

theorem mirrors_bind {evaluation other : Evaluation α} {step otherStep : α → Evaluation β}
    (mirrors : Mirrors name change evaluation other)
    (onward : ∀ value, Mirrors name change (step value) (otherStep value)) :
    Mirrors name change (evaluation >>= step) (other >>= otherStep) := by
  constructor
  · intro before result after evaluated
    obtain ⟨value, middle, first, second⟩ := bind_eq_ok.mp evaluated
    exact bind_eq_ok.mpr ⟨value, _, mirrors.ok first, (onward value).ok second⟩
  · intro before failure after evaluated
    simp only [bind, EStateM.bind] at evaluated ⊢
    split at evaluated
    · next first =>
      rw [mirrors.ok first]
      exact (onward _).error evaluated
    · next first =>
      cases evaluated
      rw [mirrors.error first]

/-- Changed environments have the same variables under other names. -/
structure Renames (name : String → String) (change : Environment → Environment) : Prop where
  gets : ∀ read before, (change before).get? (name read) = before.get? read
  assigns : ∀ target value before,
    (change before).assign? (name target) value = (before.assign? target value).map change

theorem mirrors_get (renames : Renames name change) (read : String) :
    Mirrors name change (get read) (get (name read)) := by
  constructor
  all_goals
    intro before result after evaluated
    unfold get at evaluated ⊢
    rw [renames.gets]
    split at evaluated <;> cases evaluated
    rfl

theorem mirrors_assign (renames : Renames name change) (target : String) (value : Value) :
    Mirrors name change (assign target value) (assign (name target) value) := by
  constructor
  all_goals
    intro before result after evaluated
    unfold assign at evaluated ⊢
    rw [renames.assigns]
    split at evaluated <;> cases evaluated
  · next assigned => rw [assigned]; rfl
  · next missing => rw [missing]; rfl

theorem mirrors_ofExcept {outcome : Except RuntimeError α}
    (same : ∀ error, outcome = .error error → error.rename name = error) :
    Mirrors name change (ofExcept outcome) (ofExcept outcome) := by
  cases outcome with
  | ok value => exact mirrors_pure value
  | error failure =>
    constructor
    · intro before value after evaluated
      cases evaluated
    · intro before error after evaluated
      cases evaluated
      rw [same failure rfl]
      rfl

theorem mirrors_unary (op : UnaryOp) (operand : Value) :
    Mirrors name change (ofExcept (op.apply operand)) (ofExcept (op.apply operand)) :=
  mirrors_ofExcept fun _ refused =>
    RuntimeError.rename_of_blames name
      (UnaryOp.apply_blames (List.mem_singleton_self (Expression.unary op .nil)) refused)
      (by simp) (by simp)

theorem mirrors_binary (op : BinaryOp) (left right : Value) :
    Mirrors name change (ofExcept (op.apply left right)) (ofExcept (op.apply left right)) :=
  mirrors_ofExcept fun _ refused =>
    RuntimeError.rename_of_blames name
      (BinaryOp.apply_blames (List.mem_singleton_self (Expression.binary op .nil .nil)) refused)
      (by simp) (by simp)

end Evaluation

open Evaluation

/-- The same expression with other names. -/
def Expression.rename (name : String → String) : Expression → Expression
  | .variable read => .variable (name read)
  | .assign target value => .assign (name target) (value.rename name)
  | .unary op operand => .unary op (operand.rename name)
  | .binary op left right => .binary op (left.rename name) (right.rename name)
  | .conditional condition thenBranch elseBranch =>
    .conditional (condition.rename name) (thenBranch.rename name) (elseBranch.rename name)
  | .grouping inner => .grouping (inner.rename name)
  | literal => literal

theorem Expression.rename_id (expression : Expression) : expression.rename id = expression := by
  induction expression with simp_all [rename]

theorem Expression.evaluate_rename {name : String → String} {change : Environment → Environment}
    (renames : Renames name change) (expression : Expression) :
    Mirrors name change expression.evaluate (expression.rename name).evaluate := by
  induction expression with
  | number | string | bool | nil => exact mirrors_pure _
  | «variable» read => exact mirrors_get renames read
  | assign target value ih =>
    exact mirrors_bind ih fun _ =>
      mirrors_bind (mirrors_assign renames target _) fun _ => mirrors_pure _
  | grouping inner ih => exact ih
  | conditional condition thenBranch elseBranch test first second =>
    refine mirrors_bind test fun decision => ?_
    split
    · exact first
    · exact second
  | unary op operand ih => exact mirrors_bind ih fun _ => mirrors_unary op _
  | binary op left right first second =>
    -- The right operand is not evaluated where the left one decides.
    refine mirrors_bind first fun value => ?_
    split
    · exact mirrors_pure _
    · exact mirrors_bind second fun _ => mirrors_binary op _ _

/-- Another form of names, expressions and environments that evaluation does not tell apart. -/
structure Translation where
  name : String → String
  expression : Expression → Expression
  environment : Environment → Environment
  evaluates : ∀ value, Mirrors name environment value.evaluate (expression value).evaluate
  enters : ∀ before, environment before.enter = (environment before).enter
  defines : ∀ declared value before,
    environment (before.define declared value) = (environment before).define (name declared) value

namespace Translation

variable (translation : Translation)

theorem evaluates_coordinate (axis : Char) (isAxis : axis ∈ axes) (value : Expression) :
    Mirrors translation.name translation.environment (value.coordinate axis)
      ((translation.expression value).coordinate axis) :=
  mirrors_bind (translation.evaluates value) fun _ => mirrors_ofExcept fun _ refused =>
    RuntimeError.rename_of_blames translation.name
      (@Value.toCoordinate_blames [] _ _ _ isAxis refused) (by simp) (by simp)

theorem evaluates_command (x y z name : Expression) :
    Mirrors translation.name translation.environment (Command.evaluate x y z name)
      (Command.evaluate (translation.expression x) (translation.expression y)
        (translation.expression z) (translation.expression name)) := by
  refine mirrors_bind (translation.evaluates_coordinate _ (by decide) x) fun _ => ?_
  refine mirrors_bind (translation.evaluates_coordinate _ (by decide) y) fun _ => ?_
  refine mirrors_bind (translation.evaluates_coordinate _ (by decide) z) fun _ => ?_
  exact mirrors_bind (translation.evaluates name) fun _ => mirrors_pure _

def frame : Frame → Frame :=
  Frame.map translation.name translation.expression

end Translation

/-! ### Units of work -/

namespace Machine

variable {translation : Translation} {more : Nat} {machine other : Machine}
  {below others : List Frame}

/-- Two machines that are alike apart from their frames, of which the second one has taken some more
steps. -/
structure Like (translation : Translation) (more : Nat) (machine other : Machine) : Prop where
  environment : other.environment = translation.environment machine.environment
  limits : other.limits = machine.limits
  steps : other.steps = machine.steps + more
  emitted : other.emitted = machine.emitted

/-- Two machines that both count a step are as much alike as before. -/
theorem Like.counted (like : machine.Like translation more other) :
    Like translation more { machine with steps := machine.steps + 1 }
      { other with steps := other.steps + 1 } :=
  ⟨like.environment, like.limits, by rw [like.steps, Nat.add_right_comm], like.emitted⟩

/-- Two units of work come to the same, the first one above some frames and the second one above
others. -/
inductive Mirrored (translation : Translation) (more : Nat) (below others : List Frame) :
    (outcome mirrored : Except RuntimeError Step × Machine) → Prop where
  | ok {result next otherNext} (left : List Frame) :
    Like translation more next otherNext → next.frames = left ++ below →
      otherNext.frames = left.map translation.frame ++ others →
      Mirrored translation more below others (.ok result, next) (.ok result, otherNext)
  | error {error next otherNext} :
    Like translation more next otherNext → next.frames = [] → otherNext.frames = [] →
      Mirrored translation more below others (.error error, next)
        (.error (error.rename translation.name), otherNext)

/-- What comes to the same above some frames does so above those below them. -/
theorem Mirrored.lower {outcome mirrored : Except RuntimeError Step × Machine} (left : List Frame)
    (same : Mirrored translation more (left ++ below) (left.map translation.frame ++ others)
      outcome mirrored) :
    Mirrored translation more below others outcome mirrored := by
  cases same with
  | ok upper like frames otherFrames =>
    refine .ok (upper ++ left) like ?_ ?_
    · rw [frames, List.append_assoc]
    · rw [otherFrames, List.map_append, List.append_assoc]
  | error like frames otherFrames => exact .error like frames otherFrames

theorem mirrored_fail {environment : Environment} (like : machine.Like translation more other)
    (error : RuntimeError) :
    Mirrored translation more below others ({ machine with environment }.fail error)
      ({ other with environment := translation.environment environment }.fail
        (error.rename translation.name)) :=
  .error ⟨rfl, like.limits, like.steps, like.emitted⟩ rfl rfl

theorem mirrored_advance (like : machine.Like translation more other) (environment : Environment)
    (left : List Frame) :
    Mirrored translation more below others (machine.advance environment (left ++ below))
      (other.advance (translation.environment environment)
        (left.map translation.frame ++ others)) :=
  .ok left ⟨rfl, like.limits, like.steps, like.emitted⟩ rfl rfl

theorem mirrored_emit (like : machine.Like translation more other) (environment : Environment)
    (command : Command) :
    Mirrored translation more below others
      ({ machine with environment, frames := below }.emit command)
      ({ other with environment := translation.environment environment, frames := others }.emit
        command) := by
  have limit : instructionLimit?
      { other with environment := translation.environment environment, frames := others } =
        instructionLimit? { machine with environment, frames := below } := by
    simp only [instructionLimit?, like.limits, like.emitted]
  unfold emit
  rw [limit]
  split
  · have like : Like translation more { machine with frames := below }
        { other with frames := others } :=
      ⟨like.environment, like.limits, like.steps, like.emitted⟩
    exact mirrored_fail like _
  · exact .ok [] ⟨rfl, like.limits, like.steps, congrArg (· + 1) like.emitted⟩ rfl rfl

theorem mirrored_evaluating {α : Type} (like : machine.Like translation more other)
    {evaluation otherEvaluation : Evaluation α}
    {onward otherOnward : α → Environment → Except RuntimeError Step × Machine}
    (mirrors : Mirrors translation.name translation.environment evaluation otherEvaluation)
    (same : ∀ value environment, Mirrored translation more below others (onward value environment)
      (otherOnward value (translation.environment environment))) :
    Mirrored translation more below others (machine.evaluating evaluation onward)
      (other.evaluating otherEvaluation otherOnward) := by
  unfold evaluating
  rw [like.environment]
  split
  · next evaluated =>
    rw [mirrors.ok evaluated]
    exact same _ _
  · next evaluated =>
    rw [mirrors.error evaluated]
    exact mirrored_fail like _

theorem mirrored_dispatch (like : machine.Like translation more other) (statement : Statement) :
    Mirrored translation more below others (machine.dispatch statement below)
      (other.dispatch (statement.map translation.name translation.expression) others) := by
  cases statement with
  | expression value =>
    exact mirrored_evaluating like (translation.evaluates value) fun _ environment =>
      mirrored_advance like environment []
  | declare name initializer =>
    refine mirrored_evaluating like (translation.evaluates initializer) fun value environment => ?_
    rw [← translation.defines]
    exact mirrored_advance like _ []
  | block body =>
    rw [Statement.map]
    change Mirrored _ _ _ _ (machine.advance _ _) (other.advance _ _)
    rw [like.environment, ← translation.enters]
    exact mirrored_advance like _ [.statements body true]
  | branch condition thenBranch elseBranch =>
    cases elseBranch with
    | none =>
      refine mirrored_evaluating like (translation.evaluates condition) fun test environment => ?_
      split
      · exact mirrored_advance like environment [.single thenBranch]
      · exact mirrored_advance like environment []
    | some elseBranch =>
      refine mirrored_evaluating like (translation.evaluates condition) fun test environment => ?_
      split
      · exact mirrored_advance like environment [.single thenBranch]
      · exact mirrored_advance like environment [.single elseBranch]
  | loop condition body =>
    rw [Statement.map]
    change Mirrored _ _ _ _ (machine.advance _ _) (other.advance _ _)
    rw [like.environment]
    exact mirrored_advance like _ [.loop condition body]
  | setBlock x y z name =>
    exact mirrored_evaluating like (translation.evaluates_command x y z name) fun command _ =>
      mirrored_emit like _ command

/-- A unit of work comes to the same, unless it leaves a scope where that makes a difference. -/
theorem mirrored_work (like : machine.Like translation more other) (frame : Frame)
    (exits : frame = .statements [] true → translation.environment machine.environment.exit =
      (translation.environment machine.environment).exit) :
    Mirrored translation more below others (machine.work frame below)
      (other.work (translation.frame frame) others) := by
  cases frame with
  | loop condition body =>
    refine mirrored_evaluating like (translation.evaluates condition) fun decision environment => ?_
    split
    · exact mirrored_advance like environment [.single body, .loop condition body]
    · exact mirrored_advance like environment []
  | statements rest leavesScope =>
    cases rest with
    | nil =>
      change Mirrored _ _ _ _ (machine.advance _ _) (other.advance _ _)
      cases leavesScope with
      | false =>
        rw [like.environment]
        exact mirrored_advance like _ []
      | true =>
        rw [like.environment, if_pos rfl, if_pos rfl, ← exits rfl]
        exact mirrored_advance like _ []
    | cons statement rest =>
      exact (mirrored_dispatch like statement).lower [.statements rest leavesScope]

/-! ### Runs -/

/-- The second machine is the first one in translation. -/
structure Translates (translation : Translation) (machine other : Machine) : Prop where
  like : machine.Like translation 0 other
  frames : other.frames = machine.frames.map translation.frame

theorem translates_start (program : Program) (limits : Limits)
    (empty : translation.environment .empty = .empty) :
    (start program limits).Translates translation
      (start (program.map translation.name translation.expression) limits) :=
  ⟨⟨empty.symm, rfl, rfl, rfl⟩, rfl⟩

variable (exits : ∀ before : Environment,
  translation.environment before.exit = (translation.environment before).exit)

include exits

/-- A step of a machine in translation returns the same result, and leaves the machine that the step
of the original leaves, in translation. -/
theorem Translates.step (translates : machine.Translates translation other) :
    other.step.1 = machine.step.1.mapError (RuntimeError.rename translation.name) ∧
      machine.step.2.Translates translation other.step.2 := by
  have like := translates.like
  have frames := translates.frames
  have sameLimit : other.stepLimit? = machine.stepLimit? := by
    simp only [stepLimit?, like.limits, like.steps, Nat.add_zero]
  cases stack : machine.frames with
  | nil =>
    rw [stack] at frames
    rw [step_of_frames_nil stack, step_of_frames_nil frames]
    exact ⟨rfl, translates⟩
  | cons frame below =>
    rw [stack, List.map_cons] at frames
    cases limit : machine.stepLimit? with
    | some reached =>
      rw [limit] at sameLimit
      simp only [Machine.step, stack, frames, limit, sameLimit]
      exact ⟨rfl, ⟨like.environment, like.limits, like.steps, like.emitted⟩, rfl⟩
    | none =>
      rw [limit] at sameLimit
      -- Neither machine is at its limit, so both count the step and work on their top frames.
      have worked :
          machine.step = ({ machine with steps := machine.steps + 1 }).work frame below := by
        simp only [Machine.step, stack, limit]
      have otherWorked : other.step = ({ other with steps := other.steps + 1 }).work
          (translation.frame frame) (below.map translation.frame) := by
        simp only [Machine.step, frames, sameLimit]
      have same := @mirrored_work translation 0 _ _ below (below.map translation.frame)
        like.counted frame fun _ => exits _
      rw [← worked, ← otherWorked] at same
      generalize machine.step = outcome at same ⊢
      generalize other.step = mirrored at same ⊢
      cases same with
      | ok left like frames otherFrames =>
        exact ⟨rfl, like, by rw [frames, otherFrames, List.map_append]⟩
      | error like frames otherFrames => exact ⟨rfl, like, by rw [frames, otherFrames]; rfl⟩

theorem Translates.after (translates : machine.Translates translation other) (steps : Nat) :
    (machine.after steps).Translates translation (other.after steps) := by
  induction steps with
  | zero => exact translates
  | succ steps ih => exact (ih.step exits).2

end Machine

end BlockScript
