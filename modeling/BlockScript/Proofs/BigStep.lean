import BlockScript.Evaluation

/-!
# Recursive semantics

What carrying out a statement amounts to, by recursion on the statement and on the rounds of its
loops: the commands, the environment at the end, the error if there is one, and a cost.  The cost is
one for each statement that is carried out, one for each test of a loop condition, and one for each
list of statements that is left behind its last one: a program, the body of a block, the branch that
was chosen, a round of a loop.
-/

namespace BlockScript

/-- Something to be carried out. -/
inductive Task where
  | statement (statement : Statement)
  /-- Statements in order. -/
  | list (statements : List Statement)
  /-- Rounds of a loop, starting with a test of its condition. -/
  | loop (condition : Expression) (body : Statement)

/-- `BigStep task before commands cost failure after` says that the task, carried out in the
environment `before`, yields the commands at that cost and ends in the environment `after`, with an
error or without one.  The first error stops everything and leaves all scopes open. -/
inductive BigStep :
    Task → Environment → List Command → Nat → Option RuntimeError → Environment → Prop where
  | expression {value result before after} :
    value.evaluate before = .ok result after →
      BigStep (.statement (.expression value)) before [] 1 none after
  | expressionFails {value error before after} :
    value.evaluate before = .error error after →
      BigStep (.statement (.expression value)) before [] 1 (some error) after
  | declare {name initializer value before after} :
    initializer.evaluate before = .ok value after →
      BigStep (.statement (.declare name initializer)) before [] 1 none (after.define name value)
  | declareFails {name initializer error before after} :
    initializer.evaluate before = .error error after →
      BigStep (.statement (.declare name initializer)) before [] 1 (some error) after
  | block {body before after commands cost} :
    BigStep (.list body) before.enter commands cost none after →
      BigStep (.statement (.block body)) before commands (cost + 1) none after.exit
  | blockFails {body before after commands cost error} :
    BigStep (.list body) before.enter commands cost (some error) after →
      BigStep (.statement (.block body)) before commands (cost + 1) (some error) after
  | branchThen {condition thenBranch elseBranch decision before middle after commands cost failure} :
    condition.evaluate before = .ok decision middle → decision.truthy = true →
      BigStep (.list [thenBranch]) middle commands cost failure after →
      BigStep (.statement (.branch condition thenBranch elseBranch)) before commands (cost + 1)
        failure after
  | branchElse {condition thenBranch elseBranch decision before middle after commands cost failure} :
    condition.evaluate before = .ok decision middle → decision.truthy = false →
      BigStep (.list [elseBranch]) middle commands cost failure after →
      BigStep (.statement (.branch condition thenBranch (some elseBranch))) before commands
        (cost + 1) failure after
  | branchSkip {condition thenBranch decision before after} :
    condition.evaluate before = .ok decision after → decision.truthy = false →
      BigStep (.statement (.branch condition thenBranch none)) before [] 1 none after
  | branchFails {condition thenBranch elseBranch error before after} :
    condition.evaluate before = .error error after →
      BigStep (.statement (.branch condition thenBranch elseBranch)) before [] 1 (some error) after
  | loop {condition body before after commands cost failure} :
    BigStep (.loop condition body) before commands cost failure after →
      BigStep (.statement (.loop condition body)) before commands (cost + 1) failure after
  | setBlock {x y z name atX atY atZ value before afterX afterY afterZ after} :
    x.coordinate 'x' before = .ok atX afterX → y.coordinate 'y' afterX = .ok atY afterY →
      z.coordinate 'z' afterY = .ok atZ afterZ → name.evaluate afterZ = .ok value after →
      BigStep (.statement (.setBlock x y z name)) before [⟨atX, atY, atZ, value.printed⟩] 1 none
        after
  | setBlockFailsX {x y z name error before after} :
    x.coordinate 'x' before = .error error after →
      BigStep (.statement (.setBlock x y z name)) before [] 1 (some error) after
  | setBlockFailsY {x y z name atX error before afterX after} :
    x.coordinate 'x' before = .ok atX afterX → y.coordinate 'y' afterX = .error error after →
      BigStep (.statement (.setBlock x y z name)) before [] 1 (some error) after
  | setBlockFailsZ {x y z name atX atY error before afterX afterY after} :
    x.coordinate 'x' before = .ok atX afterX → y.coordinate 'y' afterX = .ok atY afterY →
      z.coordinate 'z' afterY = .error error after →
      BigStep (.statement (.setBlock x y z name)) before [] 1 (some error) after
  | setBlockFailsName {x y z name atX atY atZ error before afterX afterY afterZ after} :
    x.coordinate 'x' before = .ok atX afterX → y.coordinate 'y' afterX = .ok atY afterY →
      z.coordinate 'z' afterY = .ok atZ afterZ → name.evaluate afterZ = .error error after →
      BigStep (.statement (.setBlock x y z name)) before [] 1 (some error) after
  | nil {before} : BigStep (.list []) before [] 1 none before
  | cons {statement rest before middle after first second costFirst costSecond failure} :
    BigStep (.statement statement) before first costFirst none middle →
      BigStep (.list rest) middle second costSecond failure after →
      BigStep (.list (statement :: rest)) before (first ++ second) (costFirst + costSecond) failure
        after
  | consFails {statement rest before after commands cost error} :
    BigStep (.statement statement) before commands cost (some error) after →
      BigStep (.list (statement :: rest)) before commands cost (some error) after
  | finish {condition body decision before after} :
    condition.evaluate before = .ok decision after → decision.truthy = false →
      BigStep (.loop condition body) before [] 1 none after
  | round {condition body decision before tested middle after first second costFirst costSecond
      failure} :
    condition.evaluate before = .ok decision tested → decision.truthy = true →
      BigStep (.list [body]) tested first costFirst none middle →
      BigStep (.loop condition body) middle second costSecond failure after →
      BigStep (.loop condition body) before (first ++ second) (costFirst + costSecond + 1) failure
        after
  | roundFails {condition body decision before tested after commands cost error} :
    condition.evaluate before = .ok decision tested → decision.truthy = true →
      BigStep (.list [body]) tested commands cost (some error) after →
      BigStep (.loop condition body) before commands (cost + 1) (some error) after
  | conditionFails {condition body error before after} :
    condition.evaluate before = .error error after →
      BigStep (.loop condition body) before [] 1 (some error) after

/-! ### Runs as values

The recursive semantics satisfies equations between runs, which say what each statement does first.
-/

/-- How something is carried out: from an environment, with commands, at a cost, with an error or
none, to an environment. -/
abbrev Run := Environment → List Command → Nat → Option RuntimeError → Environment → Prop

namespace Run

/-- Nothing is carried out. -/
inductive Idle : Run where
  | idle {before} : Idle before [] 0 none before

/-- The run costs one more. -/
inductive Tick (run : Run) : Run where
  | tick {before commands cost failure after} :
    run before commands cost failure after → Tick run before commands (cost + 1) failure after

/-- A command is emitted, then the run follows. -/
inductive Emitting (command : Command) (run : Run) : Run where
  | emit {before commands cost failure after} :
    run before commands cost failure after →
      Emitting command run before (command :: commands) cost failure after

/-- The environment is changed, then the run follows. -/
inductive Changing (change : Environment → Environment) (run : Run) : Run where
  | change {before commands cost failure after} :
    run (change before) commands cost failure after →
      Changing change run before commands cost failure after

/-- Something is evaluated, then a run follows that depends on its value. -/
inductive Evaluating {α : Type} (evaluation : Evaluation α) (next : α → Run) : Run where
  | succeeds {value before middle commands cost failure after} :
    evaluation before = .ok value middle → next value middle commands cost failure after →
      Evaluating evaluation next before commands cost failure after
  | fails {error before after} :
    evaluation before = .error error after →
      Evaluating evaluation next before [] 0 (some error) after

/-- The second run follows the first one, unless that fails. -/
inductive Then (first second : Run) : Run where
  | succeeds {before middle after commandsFirst commandsSecond costFirst costSecond failure} :
    first before commandsFirst costFirst none middle →
      second middle commandsSecond costSecond failure after →
      Then first second before (commandsFirst ++ commandsSecond) (costFirst + costSecond) failure
        after
  | fails {before after commands cost error} :
    first before commands cost (some error) after →
      Then first second before commands cost (some error) after

/-- The innermost scope is left behind a run that does not fail. -/
inductive Leaving (run : Run) : Run where
  | succeeds {before commands cost after} :
    run before commands cost none after → Leaving run before commands cost none after.exit
  | fails {before commands cost error after} :
    run before commands cost (some error) after →
      Leaving run before commands cost (some error) after

/-- Runs are equal if they have the same outcomes. -/
theorem eq_of_outcomes {first second : Run}
    (forth : ∀ {before commands cost failure after},
      first before commands cost failure after → second before commands cost failure after)
    (back : ∀ {before commands cost failure after},
      second before commands cost failure after → first before commands cost failure after) :
    first = second := by
  funext before commands cost failure after
  exact propext ⟨forth, back⟩

theorem idle_then (second : Run) : Then Idle second = second := by
  apply eq_of_outcomes
  · rintro before commands cost failure after (⟨⟨⟩, run⟩ | ⟨⟨⟩⟩)
    rw [Nat.zero_add]
    exact run
  · intro before commands cost failure after run
    rw [← Nat.zero_add cost]
    exact Then.succeeds Idle.idle run

theorem then_idle (first : Run) : Then first Idle = first := by
  apply eq_of_outcomes
  · rintro before commands cost failure after (⟨run, ⟨⟩⟩ | run)
    · rw [List.append_nil]
      exact run
    · exact run
  · intro before commands cost failure after run
    cases failure with
    | none =>
      rw [← List.append_nil commands]
      exact Then.succeeds run Idle.idle
    | some error => exact Then.fails run

theorem tick_then (first second : Run) : Then (Tick first) second = Tick (Then first second) := by
  apply eq_of_outcomes
  · rintro before commands cost failure after (⟨⟨one⟩, two⟩ | ⟨⟨one⟩⟩)
    · rw [Nat.add_right_comm]
      exact Tick.tick (Then.succeeds one two)
    · exact Tick.tick (Then.fails one)
  · rintro before commands cost failure after ⟨⟨one, two⟩ | ⟨one⟩⟩
    · rw [Nat.add_right_comm]
      exact Then.succeeds (Tick.tick one) two
    · exact Then.fails (Tick.tick one)

theorem emitting_then (command : Command) (first second : Run) :
    Then (Emitting command first) second = Emitting command (Then first second) := by
  apply eq_of_outcomes
  · rintro before commands cost failure after (⟨⟨one⟩, two⟩ | ⟨⟨one⟩⟩)
    · exact Emitting.emit (Then.succeeds one two)
    · exact Emitting.emit (Then.fails one)
  · rintro before commands cost failure after ⟨⟨one, two⟩ | ⟨one⟩⟩
    · exact Then.succeeds (Emitting.emit one) two
    · exact Then.fails (Emitting.emit one)

theorem changing_then (change : Environment → Environment) (first second : Run) :
    Then (Changing change first) second = Changing change (Then first second) := by
  apply eq_of_outcomes
  · rintro before commands cost failure after (⟨⟨one⟩, two⟩ | ⟨⟨one⟩⟩)
    · exact Changing.change (Then.succeeds one two)
    · exact Changing.change (Then.fails one)
  · rintro before commands cost failure after ⟨run⟩
    cases run with
    | succeeds one two => exact Then.succeeds (Changing.change one) two
    | fails one => exact Then.fails (Changing.change one)

theorem evaluating_then {α : Type} (evaluation : Evaluation α) (next : α → Run) (second : Run) :
    Then (Evaluating evaluation next) second =
      Evaluating evaluation (fun value => Then (next value) second) := by
  apply eq_of_outcomes
  · rintro before commands cost failure after (⟨⟨evaluated, one⟩, two⟩ | ⟨evaluated, one⟩ | evaluated)
    · exact Evaluating.succeeds evaluated (Then.succeeds one two)
    · exact Evaluating.succeeds evaluated (Then.fails one)
    · exact Evaluating.fails evaluated
  · rintro before commands cost failure after (⟨evaluated, ⟨one, two⟩ | one⟩ | evaluated)
    · exact Then.succeeds (Evaluating.succeeds evaluated one) two
    · exact Then.fails (Evaluating.succeeds evaluated one)
    · exact Then.fails (Evaluating.fails evaluated)

/-- A change of the environment can be made in advance. -/
theorem tick_changing (change : Environment → Environment) (run : Run) (before : Environment) :
    Tick (Changing change run) before = Tick run (change before) := by
  funext commands cost failure after
  apply propext
  constructor
  · rintro ⟨⟨inner⟩⟩
    exact Tick.tick inner
  · rintro ⟨inner⟩
    exact Tick.tick (Changing.change inner)

theorem evaluating_bind {α β : Type} (evaluation : Evaluation α) (step : α → Evaluation β)
    (next : β → Run) :
    Evaluating (evaluation >>= step) next =
      Evaluating evaluation fun value => Evaluating (step value) next := by
  have goes {before value middle} (found : evaluation before = .ok value middle) :
      (evaluation >>= step) before = step value middle := by
    simp only [bind, EStateM.bind, found]
  have stops {before error after} (found : evaluation before = .error error after) :
      (evaluation >>= step) before = .error error after := by
    simp only [bind, EStateM.bind, found]
  apply eq_of_outcomes
  · -- Where the two end, it is the first that fails or the second that decides.
    rintro before commands cost failure after (⟨evaluated, run⟩ | evaluated)
    all_goals cases found : evaluation before
    case succeeds.ok =>
      exact Evaluating.succeeds found (Evaluating.succeeds (goes found ▸ evaluated) run)
    case succeeds.error => cases (stops found).symm.trans evaluated
    case fails.ok => exact Evaluating.succeeds found (Evaluating.fails (goes found ▸ evaluated))
    case fails.error =>
      cases (stops found).symm.trans evaluated
      exact Evaluating.fails found
  · rintro before commands cost failure after (⟨evaluated, ⟨found, run⟩ | found⟩ | evaluated)
    · exact Evaluating.succeeds ((goes evaluated).trans found) run
    · exact Evaluating.fails ((goes evaluated).trans found)
    · exact Evaluating.fails (stops evaluated)

theorem evaluating_pure {α : Type} (value : α) (next : α → Run) :
    Evaluating (pure value) next = next value := by
  apply eq_of_outcomes
  · rintro before commands cost failure after (⟨⟨⟩, run⟩ | ⟨⟨⟩⟩)
    exact run
  · intro before commands cost failure after run
    exact Evaluating.succeeds rfl run

theorem then_assoc (first second third : Run) :
    Then (Then first second) third = Then first (Then second third) := by
  apply eq_of_outcomes
  · rintro before commands cost failure after (⟨⟨one, two⟩, three⟩ | ⟨one, two⟩ | one)
    · rw [List.append_assoc, Nat.add_assoc]
      exact Then.succeeds one (Then.succeeds two three)
    · exact Then.succeeds one (Then.fails two)
    · exact Then.fails one
  · rintro before commands cost failure after (⟨one, ⟨two, three⟩ | two⟩ | one)
    · rw [← List.append_assoc, ← Nat.add_assoc]
      exact Then.succeeds (Then.succeeds one two) three
    · exact Then.fails (Then.succeeds one two)
    · exact Then.fails (Then.fails one)

theorem leaving_then (first second : Run) :
    Leaving (Then first second) = Then first (Leaving second) := by
  apply eq_of_outcomes
  · rintro before commands cost failure after (⟨one, two⟩ | ⟨one, two⟩ | one)
    · exact Then.succeeds one (Leaving.succeeds two)
    · exact Then.succeeds one (Leaving.fails two)
    · exact Then.fails one
  · rintro before commands cost failure after (⟨one, two | two⟩ | one)
    · exact Leaving.succeeds (Then.succeeds one two)
    · exact Leaving.fails (Then.succeeds one two)
    · exact Leaving.fails (Then.fails one)

theorem leaving_tick (run : Run) : Leaving (Tick run) = Tick (Leaving run) := by
  apply eq_of_outcomes
  · rintro before commands cost failure after (⟨⟨inner⟩⟩ | ⟨⟨inner⟩⟩)
    · exact Tick.tick (Leaving.succeeds inner)
    · exact Tick.tick (Leaving.fails inner)
  · rintro before commands cost failure after ⟨inner | inner⟩
    · exact Leaving.succeeds (Tick.tick inner)
    · exact Leaving.fails (Tick.tick inner)

theorem leaving_idle : Leaving Idle = Changing Environment.exit Idle := by
  apply eq_of_outcomes
  · rintro before commands cost failure after (⟨⟨⟩⟩ | ⟨⟨⟩⟩)
    exact Changing.change Idle.idle
  · rintro before commands cost failure after ⟨⟨⟩⟩
    exact Leaving.succeeds Idle.idle

end Run

/-! ### What each statement does first -/

namespace BigStep

open Run

theorem list_nil : BigStep (.list []) = Tick Idle := by
  apply eq_of_outcomes
  · intro before commands cost failure after run
    cases run with
    | nil => exact Tick.tick Idle.idle
  · rintro before commands cost failure after ⟨⟨⟩⟩
    exact .nil

theorem list_cons (statement : Statement) (rest : List Statement) :
    BigStep (.list (statement :: rest)) =
      Then (BigStep (.statement statement)) (BigStep (.list rest)) := by
  apply eq_of_outcomes
  · intro before commands cost failure after run
    cases run with
    | cons first second => exact Then.succeeds first second
    | consFails first => exact Then.fails first
  · rintro before commands cost failure after (⟨first, second⟩ | first)
    · exact .cons first second
    · exact .consFails first

theorem statement_expression (value : Expression) :
    BigStep (.statement (.expression value)) = Tick (Evaluating value.evaluate fun _ => Idle) := by
  apply eq_of_outcomes
  · intro before commands cost failure after run
    cases run with
    | expression evaluated => exact Tick.tick (Evaluating.succeeds evaluated Idle.idle)
    | expressionFails evaluated => exact Tick.tick (Evaluating.fails evaluated)
  · rintro before commands cost failure after ⟨⟨evaluated, ⟨⟩⟩ | evaluated⟩
    · exact .expression evaluated
    · exact .expressionFails evaluated

theorem statement_declare (name : String) (initializer : Expression) :
    BigStep (.statement (.declare name initializer)) =
      Tick (Evaluating initializer.evaluate fun value =>
        Changing (Environment.define name value) Idle) := by
  apply eq_of_outcomes
  · intro before commands cost failure after run
    cases run with
    | declare evaluated =>
      exact Tick.tick (Evaluating.succeeds evaluated (Changing.change Idle.idle))
    | declareFails evaluated => exact Tick.tick (Evaluating.fails evaluated)
  · rintro before commands cost failure after ⟨⟨evaluated, ⟨⟨⟩⟩⟩ | evaluated⟩
    · exact .declare evaluated
    · exact .declareFails evaluated

theorem statement_block (body : List Statement) :
    BigStep (.statement (.block body)) =
      Tick (Changing Environment.enter (Leaving (BigStep (.list body)))) := by
  apply eq_of_outcomes
  · intro before commands cost failure after run
    cases run with
    | block inner => exact Tick.tick (Changing.change (Leaving.succeeds inner))
    | blockFails inner => exact Tick.tick (Changing.change (Leaving.fails inner))
  · rintro before commands cost failure after ⟨⟨inner | inner⟩⟩
    · exact .block inner
    · exact .blockFails inner

/-- The run of the branch that a decision chooses. -/
def chosen (thenBranch : Statement) (elseBranch : Option Statement) (decision : Value) : Run :=
  if decision.truthy then BigStep (.list [thenBranch])
  else match elseBranch with
    | some statement => BigStep (.list [statement])
    | none => Idle

theorem statement_branch (condition : Expression) (thenBranch : Statement)
    (elseBranch : Option Statement) :
    BigStep (.statement (.branch condition thenBranch elseBranch)) =
      Tick (Evaluating condition.evaluate (chosen thenBranch elseBranch)) := by
  apply eq_of_outcomes
  · intro before commands cost failure after run
    cases run with
    | branchThen evaluated truthy inner =>
      exact Tick.tick (Evaluating.succeeds evaluated (by simpa [chosen, truthy] using inner))
    | branchElse evaluated falsy inner =>
      exact Tick.tick (Evaluating.succeeds evaluated (by simpa [chosen, falsy] using inner))
    | branchSkip evaluated falsy =>
      exact Tick.tick (Evaluating.succeeds evaluated (by simpa [chosen, falsy] using Idle.idle))
    | branchFails evaluated => exact Tick.tick (Evaluating.fails evaluated)
  · rintro before commands cost failure after ⟨@⟨decision, _, _, _, _, _, _, evaluated, inner⟩ | evaluated⟩
    · -- Both sides split alike: on the decision first, then on whether there is a second branch.
      unfold chosen at inner
      split at inner
      next truthy => exact .branchThen evaluated truthy inner
      next falsy =>
        have falsy : decision.truthy = false := by simpa using falsy
        split at inner
        · exact .branchElse evaluated falsy inner
        · cases inner
          exact .branchSkip evaluated falsy
    · exact .branchFails evaluated

theorem statement_loop (condition : Expression) (body : Statement) :
    BigStep (.statement (.loop condition body)) = Tick (BigStep (.loop condition body)) := by
  apply eq_of_outcomes
  · intro before commands cost failure after run
    cases run with
    | loop rounds => exact Tick.tick rounds
  · rintro before commands cost failure after ⟨rounds⟩
    exact .loop rounds

theorem statement_setBlock (x y z name : Expression) :
    BigStep (.statement (.setBlock x y z name)) =
      Tick (Evaluating (Command.evaluate x y z name) fun command => Emitting command Idle) := by
  -- The machine evaluates all four at once; taken apart, each of them may be the one that fails.
  simp only [Command.evaluate, evaluating_bind, evaluating_pure]
  apply eq_of_outcomes
  · intro before commands cost failure after run
    cases run with
    | setBlock readX readY readZ readName =>
      exact Tick.tick (Evaluating.succeeds readX (Evaluating.succeeds readY
        (Evaluating.succeeds readZ (Evaluating.succeeds readName (Emitting.emit Idle.idle)))))
    | setBlockFailsX readX => exact Tick.tick (Evaluating.fails readX)
    | setBlockFailsY readX readY =>
      exact Tick.tick (Evaluating.succeeds readX (Evaluating.fails readY))
    | setBlockFailsZ readX readY readZ =>
      exact Tick.tick (Evaluating.succeeds readX (Evaluating.succeeds readY
        (Evaluating.fails readZ)))
    | setBlockFailsName readX readY readZ readName =>
      exact Tick.tick (Evaluating.succeeds readX (Evaluating.succeeds readY
        (Evaluating.succeeds readZ (Evaluating.fails readName))))
  · rintro before commands cost failure after ⟨⟨readX, rest⟩ | readX⟩
    · obtain ⟨readY, rest⟩ | readY := rest
      · obtain ⟨readZ, rest⟩ | readZ := rest
        · obtain ⟨readName, ⟨⟨⟩⟩⟩ | readName := rest
          · exact .setBlock readX readY readZ readName
          · exact .setBlockFailsName readX readY readZ readName
        · exact .setBlockFailsZ readX readY readZ
      · exact .setBlockFailsY readX readY
    · exact .setBlockFailsX readX

/-- One round of a loop, and those that follow it. -/
theorem loop_eq (condition : Expression) (body : Statement) :
    BigStep (.loop condition body) =
      Tick (Evaluating condition.evaluate fun decision =>
        if decision.truthy then Then (BigStep (.list [body])) (BigStep (.loop condition body))
        else Idle) := by
  apply eq_of_outcomes
  · intro before commands cost failure after run
    cases run with
    | finish evaluated falsy =>
      exact Tick.tick (Evaluating.succeeds evaluated (by simpa [falsy] using Idle.idle))
    | round evaluated truthy first second =>
      exact Tick.tick (Evaluating.succeeds evaluated
        (by simpa [truthy] using Then.succeeds first second))
    | roundFails evaluated truthy first =>
      exact Tick.tick (Evaluating.succeeds evaluated (by simpa [truthy] using Then.fails first))
    | conditionFails evaluated => exact Tick.tick (Evaluating.fails evaluated)
  · rintro before commands cost failure after ⟨@⟨decision, _, _, _, _, _, _, evaluated, rounds⟩ | evaluated⟩
    · -- The value of the condition decides whether there are further rounds.
      split at rounds
      next truthy =>
        cases rounds with
        | succeeds first second => exact .round evaluated truthy first second
        | fails first => exact .roundFails evaluated truthy first
      next falsy =>
        cases rounds
        exact .finish evaluated (by simpa using falsy)
    · exact .conditionFails evaluated

end BigStep

end BlockScript
