import BlockScript.Proofs.Environment.Levels
import BlockScript.Proofs.Grammar.Programs
import BlockScript.Proofs.Machine.Frames

/-!
# Which names are visible

In a program that was read from tokens, declarations stand only where statements are listed
(`Sentence.tidy`).  So the scopes of a run can be told from the text: a scope binds the names of the
declarations in its list that are over (`Stands`).  A statement that is no declaration leaves the
names as they were, however long it takes (`visible_names`).
-/

namespace BlockScript

/-! ### Where declarations stand -/

/-- Neither a branch nor the body of a loop is a declaration, here and in all parts. -/
inductive Statement.Tidy : Statement → Prop where
  | expression {value} : Tidy (.expression value)
  | declare {name initializer} : Tidy (.declare name initializer)
  | block {body} : (∀ statement ∈ body, Tidy statement) → Tidy (.block body)
  | branch {condition thenBranch elseBranch} :
      (∀ chosen, chosen = thenBranch ∨ some chosen = elseBranch → chosen.declared? = none) →
      (∀ chosen, chosen = thenBranch ∨ some chosen = elseBranch → Tidy chosen) →
      Tidy (.branch condition thenBranch elseBranch)
  | loop {condition body} : body.declared? = none → Tidy body → Tidy (.loop condition body)
  | setBlock {x y z name} : Tidy (.setBlock x y z name)

theorem Declaration.tidy {room source statement} (declaration : Declaration room source statement) :
    statement.Tidy := by
  cases declaration <;> exact .declare

theorem LoopStart.tidy {room source start} (clause : LoopStart room source start) :
    ∀ statement ∈ start, statement.Tidy := by
  cases clause with
  | absent => simp
  | declaration declared => simpa using declared.tidy
  | expression => simpa using .expression

theorem LoopUpdate.tidy {room source update} (clause : LoopUpdate room source update) :
    ∀ statement ∈ update, statement.Tidy := by
  cases clause with
  | absent => simp
  | expression => simpa using .expression

/-- Sentences are tidy, and where the grammar wants a statement there is no declaration. -/
theorem Sentence.tidy {form room source statement}
    (sentence : Sentence form room source statement) :
    statement.Tidy ∧ (form ≠ .item → statement.declared? = none) := by
  induction sentence with
  | declaration declared => exact ⟨declared.tidy, nofun⟩
  | ofStatement _ inner => exact ⟨inner.1, nofun⟩
  | expression => exact ⟨.expression, fun _ => rfl⟩
  | setBlock => exact ⟨.setBlock, fun _ => rfl⟩
  | block _ inner =>
    refine ⟨.block ?_, fun _ => rfl⟩
    simpa using fun statement source member => (inner (source, statement) member).1
  | branch _ _ inner =>
    refine ⟨.branch ?_ ?_, fun _ => rfl⟩
    · simpa using inner.2
    · simpa using inner.1
  | branchElse _ _ _ first second =>
    refine ⟨.branch ?_ ?_, fun _ => rfl⟩
    · simpa using ⟨first.2 nofun, second.2 nofun⟩
    · simpa using ⟨first.1, second.1⟩
  | loop _ _ inner => exact ⟨.loop (inner.2 nofun) inner.1, fun _ => rfl⟩
  | countedLoop loopStart _ loopUpdate _ inner =>
    -- The body and the increment are put into a block, which stands alone in the loop.
    have round := fun statement member => loopUpdate.tidy statement (Option.mem_toList.mp member)
    have body : Statement.Tidy (.block (_ :: _)) :=
      .block (List.forall_mem_cons.mpr ⟨inner.1, round⟩)
    refine ⟨.block ?_, fun _ => rfl⟩
    intro statement member
    rcases List.mem_append.mp member with starts | last
    · exact loopStart.tidy statement (Option.mem_toList.mp starts)
    · rw [List.mem_singleton.mp last]
      exact .loop rfl body

/-- All statements of a program are tidy. -/
def Program.Tidy (program : Program) : Prop :=
  ∀ statement ∈ program.statements, statement.Tidy

theorem Program.tidy_ofTokens {tokens : List Token} {program : Program}
    (parsed : Program.ofTokens tokens = .ok program) : program.Tidy := by
  have levels : (Cursor.ofTokens tokens).depth + maxNesting = maxNesting := Nat.zero_add _
  obtain ⟨items, sentences, statements, _⟩ :=
    Cursor.items_of_program parsed levels (Cursor.noEnd_ofTokens tokens)
  unfold Program.Tidy
  rw [statements]
  simpa using fun statement source member => (sentences (source, statement) member).tidy.1

/-! ### Frames and what has been done of them -/

/-- Where a list of statements comes from. -/
inductive Origin where
  | program
  | block
  /-- A branch, or one round of a loop. -/
  | chosen
  deriving DecidableEq

/-- Something left to do, with the statements that are over. -/
inductive Activation where
  | statements (origin : Origin) (past rest : List Statement)
  | loop (condition : Expression) (body : Statement)

/-- The names that a list of statements declares. -/
def declared (statements : List Statement) (name : String) : Bool :=
  statements.any (·.declared? = some name)

theorem declared_append (past : List Statement) (statement : Statement) :
    declared (past ++ [statement]) =
      fun name => declared past name || decide (statement.declared? = some name) := by
  funext name
  simp [declared]

theorem declared_append_of_none {past : List Statement} {statement : Statement}
    (keeps : statement.declared? = none) : declared (past ++ [statement]) = declared past := by
  simp [declared_append, keeps]

namespace Activation

/-- The frame of an activation. -/
def frame : Activation → Frame
  | .statements origin _ rest => .statements rest (origin = .block)
  | .loop condition body => .loop condition body

/-- The scope of an activation, if it has one of its own: the names of the declarations that are
over. -/
def scope : Activation → List (String → Bool)
  | .statements .chosen _ _ | .loop _ _ => []
  | .statements .program past _ | .statements .block past _ => [declared past]

theorem frame_eq_loop {activation : Activation} {condition : Expression} {body : Statement}
    (same : activation.frame = .loop condition body) : activation = .loop condition body := by
  cases activation with
  | statements => cases same
  | loop => simpa [frame] using same

theorem frame_eq_statements {activation : Activation} {rest : List Statement} {leaves : Bool}
    (same : activation.frame = .statements rest leaves) :
    ∃ origin past, activation = .statements origin past rest ∧
      leaves = decide (origin = .block) := by
  cases activation with
  | loop => cases same
  | statements origin past =>
    obtain ⟨rfl, rfl⟩ := Frame.statements.inj same
    exact ⟨origin, past, rfl, rfl⟩

/-- What the statement carried out last puts on top of an activation. -/
inductive Opens : Activation → Activation → Prop where
  | block {origin before after body past rest} :
      before.getLast? = some (.block body) → past ++ rest = body →
      Opens (.statements origin before after) (.statements .block past rest)
  | branch {origin before after condition thenBranch elseBranch chosen past rest} :
      before.getLast? = some (.branch condition thenBranch elseBranch) →
      chosen = thenBranch ∨ some chosen = elseBranch → past ++ rest = [chosen] →
      Opens (.statements origin before after) (.statements .chosen past rest)
  | loop {origin before after condition body} :
      before.getLast? = some (.loop condition body) →
      Opens (.statements origin before after) (.loop condition body)
  | round {condition body past rest} : past ++ rest = [body] →
      Opens (.loop condition body) (.statements .chosen past rest)

/-- All statements of an activation are tidy, and there is no declaration outside of a list. -/
def Tidy : Activation → Prop
  | .statements origin past rest =>
    (∀ statement ∈ past ++ rest, statement.Tidy) ∧
      (origin = .chosen → ∀ statement ∈ past ++ rest, statement.declared? = none)
  | .loop condition body => Statement.Tidy (.loop condition body)

theorem Opens.tidy {lower upper : Activation} (opens : lower.Opens upper) (tidy : lower.Tidy) :
    upper.Tidy := by
  -- The statement that opens the upper activation is one of those that are past in the lower one.
  have last_tidy {before after : List Statement} {statement : Statement}
      (last : before.getLast? = some statement)
      (tidy : ∀ statement ∈ before ++ after, statement.Tidy) : statement.Tidy :=
    tidy _ (List.mem_append_left _ (List.mem_of_getLast? last))
  cases opens with
  | block last body =>
    cases last_tidy last tidy.1 with
    | block all => exact ⟨body ▸ all, nofun⟩
  | branch last chosen body =>
    cases last_tidy last tidy.1 with
    | branch quiet all =>
      refine ⟨?_, fun _ => ?_⟩
      · simpa [body] using all _ chosen
      · simpa [body] using quiet _ chosen
  | loop last => exact last_tidy last tidy.1
  | round body =>
    cases tidy with
    | loop quiet all =>
      refine ⟨?_, fun _ => ?_⟩
      · simpa [body] using all
      · simpa [body] using quiet

end Activation

open Activation

/-- A stack of activations, the top one first: each is opened by the one below it, and the lowest
one is the program. -/
inductive Nested (program : Program) : List Activation → Prop where
  | program {past rest} : past ++ rest = program.statements →
      Nested program [.statements .program past rest]
  | opened {upper lower below} : Nested program (lower :: below) → lower.Opens upper →
      Nested program (upper :: lower :: below)

namespace Nested

variable {program : Program} {upper lower : Activation} {below : List Activation}
  {origin : Origin} {past rest : List Statement} {statement : Statement}

theorem tail (nested : Nested program (upper :: below)) (more : below ≠ []) :
    Nested program below := by
  cases nested with
  | program => exact absurd rfl more
  | opened nested => exact nested

theorem opens (nested : Nested program (upper :: lower :: below)) : lower.Opens upper := by
  cases nested with
  | opened _ opens => exact opens

theorem of_append {above : List Activation}
    (nested : Nested program (above ++ lower :: below)) : Nested program (lower :: below) := by
  induction above with
  | nil => exact nested
  | cons upper above inner => exact inner (nested.tail (by simp))

theorem tidy (all : program.Tidy) (nested : Nested program (upper :: below)) : upper.Tidy := by
  generalize same : upper :: below = stack at nested
  induction nested generalizing upper below with
  | program body =>
    cases same
    exact ⟨body ▸ all, nofun⟩
  | opened _ opens inner =>
    cases same
    exact opens.tidy (inner rfl)

/-- One statement more is over. -/
theorem advance (nested : Nested program (.statements origin past (statement :: rest) :: below)) :
    Nested program (.statements origin (past ++ [statement]) rest :: below) := by
  cases nested with
  | program body => exact .program (by simpa using body)
  | opened nested opens =>
    cases opens with
    | block last body => exact .opened nested (.block last (by simpa using body))
    | branch last chosen body => exact .opened nested (.branch last chosen (by simpa using body))
    | round body => exact .opened nested (.round (by simpa using body))

/-- The outermost scope is that of the program. -/
theorem scopes_ne_nil (nested : Nested program (upper :: below)) :
    (upper :: below).flatMap Activation.scope ≠ [] := by
  generalize upper :: below = stack at nested
  induction nested with
  | program => simp [Activation.scope]
  | opened _ _ inner =>
    intro empty
    exact inner (List.append_eq_nil_iff.mp empty).2

end Nested

/-! ### Declarations in scopes -/

theorem Scope.binds_set (name : String) (value : Value) (scope : Scope) :
    (scope.set name value).binds =
      fun other => scope.binds other || decide (some name = some other) := by
  funext other
  by_cases same : name = other <;> simp [binds, get?_set, same]

namespace Environment

theorem bindings_define_of {environment : Environment} {scope : String → Bool}
    {outer : List (String → Bool)} (name : String) (value : Value)
    (bindings : environment.bindings = scope :: outer) :
    (environment.define name value).bindings =
      (fun other => scope other || decide (some name = some other)) :: outer := by
  rw [bindings_define, bindings, Scope.binds_set]
  obtain ⟨rfl, rfl⟩ := List.cons.inj bindings
  rfl

end Environment

namespace Machine

variable {program : Program} {machine next : Machine}

/-- The stack of a machine and its scopes are those of a stack of activations. -/
structure Stands (program : Program) (machine : Machine) (stack : List Activation) : Prop where
  nested : Nested program stack
  frames_eq : machine.frames = stack.map Activation.frame
  bindings_eq : machine.environment.bindings = stack.flatMap Activation.scope

/-- Once a list of statements is over, its scope is gone. -/
theorem Stands.close {origin : Origin} {past : List Statement} {below : List Activation}
    (stands : Stands program machine (.statements origin past [] :: below)) (more : below ≠ []) :
    (if origin = .block then machine.environment.exit else machine.environment).bindings =
      below.flatMap Activation.scope := by
  have bindings := stands.bindings_eq
  have outer := List.exists_cons_of_ne_nil more
  obtain ⟨lower, lowest, rfl⟩ := outer
  have outside := (stands.nested.tail more).scopes_ne_nil
  cases origin with
  | program =>
    cases stands.nested with
    | opened _ opens => cases opens
  | chosen => exact bindings
  | block =>
    have inside : 1 < machine.environment.depth := by
      have positive := List.length_pos_iff.mpr outside
      rw [← Environment.length_bindings, bindings, List.flatMap_cons, List.length_append]
      simp only [Activation.scope, List.length_singleton]
      omega
    rw [if_pos rfl, Environment.bindings_exit inside, bindings]
    rfl

/-- Carrying out a statement puts no more than one activation on top of that of its list. -/
theorem Stands.carry {origin : Origin} {past rest : List Statement} {statement : Statement}
    {below : List Activation} {after : Environment} {left : List Frame}
    (stands : Stands program machine (.statements origin past (statement :: rest) :: below))
    (all : program.Tidy)
    (turns : (Frame.statements (statement :: rest) (origin = .block)).Turns machine.environment
      after left) :
    let kept := Activation.statements origin (past ++ [statement]) rest
    ∃ upper, Nested program (upper ++ kept :: below) ∧
      left = (upper ++ [kept]).map Activation.frame ∧
        after.bindings = (upper ++ kept :: below).flatMap Activation.scope := by
  have nested := stands.nested.advance
  have bindings := stands.bindings_eq
  -- The scope of the list stays the same, unless the statement is a declaration.
  have scope (keeps : statement.declared? = none) :
      machine.environment.bindings = (Activation.statements origin (past ++ [statement]) rest ::
        below).flatMap Activation.scope := by
    rw [bindings]
    cases origin <;> simp [Activation.scope, declared_append_of_none keeps]
  have last : (past ++ [statement]).getLast? = some statement := List.getLast?_concat
  cases turns with
  | simple quiet keeps => exact ⟨[], nested, rfl, keeps.trans (scope quiet)⟩
  | @declare name initializer value _ _ _ middle keeps =>
    refine ⟨[], nested, rfl, ?_⟩
    have bindings := keeps.trans bindings
    cases origin with
    | chosen =>
      -- No list with a scope of the list around it holds a declaration.
      have quiet := (stands.nested.tidy all).2 rfl (.declare name initializer) (by simp)
      cases quiet
    | program | block =>
      rw [List.flatMap_cons, Activation.scope, List.singleton_append] at bindings
      rw [Environment.bindings_define_of name value bindings, List.nil_append, List.flatMap_cons,
        Activation.scope, declared_append]
      rfl
  | @block body =>
    refine ⟨[.statements .block [] body], .opened nested (.block last rfl), rfl, ?_⟩
    rw [Environment.bindings_enter, scope rfl]
    rfl
  | @branch condition thenBranch elseBranch chosen _ _ _ _ isBranch keeps =>
    exact ⟨[.statements .chosen [] [chosen]], .opened nested (.branch last isBranch rfl), rfl,
      keeps.trans (scope rfl)⟩
  | @loop condition body =>
    exact ⟨[.loop condition body], .opened nested (.loop last), rfl, scope rfl⟩

/-- A step takes the top activation further, ends it, or puts another one on top of it. -/
theorem Stands.step {top : Activation} {below : List Activation} {result : Step}
    (stands : Stands program machine (top :: below)) (all : program.Tidy)
    (stepped : machine.step = (.ok result, next)) (goes_on : next.frames ≠ []) :
    ∃ left, Stands program next (left ++ below) ∧
      ∀ origin past statement rest, top = .statements origin past (statement :: rest) →
        ∃ upper, left = upper ++ [.statements origin (past ++ [statement]) rest] := by
  obtain ⟨left, turns, frames_next⟩ := turns_of_step (List.map_cons ▸ stands.frames_eq) stepped
  -- If the top activation ends, there is one below it, as the run goes on.
  have more (ends : left = []) : below ≠ [] := by
    rintro rfl
    exact goes_on (by simpa [ends] using frames_next)
  cases top with
  | loop condition body =>
    cases turns with
    | round keeps =>
      refine ⟨[.statements .chosen [] [body], .loop condition body], ?_, nofun⟩
      exact ⟨.opened stands.nested (.round rfl), frames_next, keeps.trans stands.bindings_eq⟩
    | finish keeps =>
      have bindings := keeps.trans stands.bindings_eq
      exact ⟨[], ⟨stands.nested.tail (more rfl), frames_next, bindings⟩, nofun⟩
  | statements origin past rest =>
    cases rest with
    | nil =>
      obtain ⟨rfl, closes⟩ := turns.closes
      refine ⟨[], ⟨stands.nested.tail (more rfl), frames_next, ?_⟩, nofun⟩
      rw [closes, List.nil_append, ← stands.close (more rfl)]
      simp
    | cons statement rest =>
      obtain ⟨upper, nested, rfl, bindings⟩ := stands.carry all turns
      refine ⟨upper ++ [.statements origin (past ++ [statement]) rest], ?_, ?_⟩
      · rw [List.append_assoc]
        exact ⟨nested, by simpa using frames_next, bindings⟩
      · rintro _ _ _ _ ⟨⟩
        exact ⟨upper, rfl⟩

/-! ### Runs -/

theorem stands_start (program : Program) (limits : Limits) :
    Stands program (.start program limits) [.statements .program [] program.statements] :=
  ⟨.program rfl, rfl, rfl⟩

/-- No step is taken from a stack without frames, so there were frames before. -/
theorem frames_ne_nil_of_after {steps : Nat} (goes_on : (machine.after (steps + 1)).frames ≠ []) :
    (machine.after steps).frames ≠ [] := by
  intro empty
  have same : machine.after (steps + 1) = machine.after steps :=
    congrArg Prod.snd (step_of_frames_nil empty)
  exact goes_on (same ▸ empty)

/-- A step that leaves frames does not fail. -/
theorem step_of_after {steps : Nat} (goes_on : (machine.after (steps + 1)).frames ≠ []) :
    ∃ result, (machine.after steps).step = (.ok result, machine.after (steps + 1)) := by
  have next : (machine.after steps).step.2 = machine.after (steps + 1) := rfl
  cases outcome : (machine.after steps).step.1 with
  | ok result => exact ⟨result, Prod.ext outcome next⟩
  | error error => exact absurd (stopped_of_step (Prod.ext outcome next)).frames_nil goes_on

theorem stands_of_reachable {limits : Limits} (reachable : Reachable program limits machine)
    (all : program.Tidy) (goes_on : machine.frames ≠ []) :
    ∃ stack, Stands program machine stack := by
  obtain ⟨steps, goes, rfl⟩ := reachable.after
  clear reachable goes
  induction steps with
  | zero => exact ⟨_, stands_start program limits⟩
  | succ steps inner =>
    obtain ⟨stack, stands⟩ := inner (frames_ne_nil_of_after goes_on)
    obtain ⟨result, stepped⟩ := step_of_after goes_on
    cases stack with
    | nil => cases stands.nested
    | cons top below =>
      obtain ⟨left, stands, _⟩ := stands.step all stepped goes_on
      exact ⟨_, stands⟩

/-- In a number of steps, the first of which carries out a statement, the stack has not come back to
its height before the last of them. -/
def Within (machine : Machine) (steps : Nat) : Prop :=
  0 < steps ∧ ∀ earlier, 0 < earlier → earlier < steps →
    (machine.after earlier).frames.length ≠ machine.frames.length

/-- After a number of steps, the first of which carries out a statement, the stack is back to its
height for the first time. -/
def Completes (machine : Machine) (steps : Nat) : Prop :=
  machine.Within steps ∧ (machine.after steps).frames.length = machine.frames.length

/-- While a statement is carried out, everything below its list stays as it was. -/
theorem Stands.after {origin : Origin} {past rest : List Statement} {statement : Statement}
    {below : List Activation} {steps : Nat}
    (stands : Stands program machine (.statements origin past (statement :: rest) :: below))
    (all : program.Tidy) (within : machine.Within steps)
    (goes_on : (machine.after steps).frames ≠ []) :
    ∃ upper, Stands program (machine.after steps)
      (upper ++ Activation.statements origin (past ++ [statement]) rest :: below) := by
  obtain ⟨positive, higher⟩ := within
  induction steps with
  | zero => exact absurd positive (Nat.lt_irrefl 0)
  | succ steps inner =>
    obtain ⟨result, stepped⟩ := step_of_after goes_on
    rcases Nat.eq_zero_or_pos steps with rfl | later
    · obtain ⟨left, first, carried⟩ := stands.step all stepped goes_on
      obtain ⟨upper, rfl⟩ := carried _ _ _ _ rfl
      rw [List.append_assoc] at first
      exact ⟨upper, first⟩
    · obtain ⟨upper, before⟩ := inner (frames_ne_nil_of_after goes_on) later
        fun earlier more less => higher earlier more (Nat.lt_succ_of_lt less)
      cases upper with
      | nil =>
        -- Back at its height the statement would have been past before.
        refine absurd ?_ (higher steps later (Nat.lt_succ_self steps))
        rw [before.frames_eq, stands.frames_eq]
        simp
      | cons top upper =>
        obtain ⟨left, next, _⟩ := before.step all stepped goes_on
        exact ⟨left ++ upper, by rwa [List.append_assoc]⟩

end Machine

/-- What a counted loop does in each round. -/
def LoopHead.round (head : LoopHead) (body : Statement) : Statement :=
  .block (body :: (head.increment.map Statement.expression).toList)

theorem LoopHead.statement_eq (head : LoopHead) (body : Statement) :
    head.statement body =
      .block (head.initializer.toList ++ [.loop head.condition (head.round body)]) :=
  rfl

namespace Machine

variable {machine : Machine} {statement : Statement} {later : List Frame}

/-- How the names that are visible after and while a statement is carried out relate to those
before. -/
structure NamesKept (machine : Machine) (statement : Statement) (later : List Frame) : Prop where
  /-- Afterwards there are as many scopes as before, and each of them binds the same names.  So a
  name is bound afterwards exactly if it was bound before, be it that of a loop or another. -/
  completed : ∀ steps, machine.Completes steps →
    (machine.after steps).environment.depth = machine.environment.depth ∧
      (machine.after steps).environment.bindings = machine.environment.bindings ∧
        ∀ name, (machine.after steps).environment.binds name = machine.environment.binds name
  /-- Whenever the condition of a counted loop is evaluated, there is one scope more than before the
  loop, which binds what the head of the loop declares. -/
  condition : ∀ (head : LoopHead) (body : Statement) (steps : Nat),
    statement = head.statement body → machine.Within steps →
    (machine.after steps).frames =
      .loop head.condition (head.round body) :: .statements [] true :: later →
    (machine.after steps).environment.bindings =
      declared head.initializer.toList :: machine.environment.bindings
  /-- Whenever the increment of a counted loop comes next, the scope of the round binds nothing. -/
  increment : ∀ (head : LoopHead) (body : Statement) (value : Expression) (steps : Nat),
    statement = head.statement body → body.declared? = none → head.increment = some value →
    machine.Within steps →
    (machine.after steps).frames = .statements [.expression value] true :: .statements [] false ::
      .loop head.condition (head.round body) :: .statements [] true :: later →
    (machine.after steps).environment.bindings =
      (fun _ => false) :: declared head.initializer.toList :: machine.environment.bindings

section Counted

variable {program : Program} {origin : Origin} {past rest : List Statement} {head : LoopHead}
  {body : Statement} {upper below : List Activation} {lower : List Frame}

/-- The activations above the statement of a counted loop whose condition comes next. -/
theorem counted_of_frames
    (nested : Nested program
      (upper ++ .statements origin (past ++ [head.statement body]) rest :: below))
    (frames_eq : upper.map Activation.frame =
      lower ++ [.loop head.condition (head.round body), .statements [] true]) :
    ∃ inner, inner.map Activation.frame = lower ∧ upper = inner ++
      [.loop head.condition (head.round body), .statements .block
        (head.initializer.toList ++ [.loop head.condition (head.round body)]) []] := by
  obtain ⟨inner, outer, rfl, rfl, outer_eq⟩ := List.map_eq_append_iff.mp frames_eq
  simp only [List.map_eq_cons_iff, List.map_eq_nil_iff] at outer_eq
  obtain ⟨loop, _, rfl, loop_eq, block, _, rfl, block_eq, rfl⟩ := outer_eq
  obtain rfl := Activation.frame_eq_loop loop_eq
  obtain ⟨source, done, rfl, isBlock⟩ := Activation.frame_eq_statements block_eq
  -- The block is the one that the counted loop stands for.
  rw [List.append_assoc] at nested
  have opens := (nested.of_append.tail (by simp)).opens
  cases opens with
  | branch => cases isBlock
  | block last done_eq =>
    rw [List.getLast?_concat, head.statement_eq] at last
    cases last
    rw [List.append_nil] at done_eq
    exact ⟨inner, rfl, by rw [done_eq]⟩

/-- The scopes while a counted loop is carried out: behind those of what is open of a round there is
the one of its variable, and behind that the ones from before. -/
theorem Stands.counted {machine : Machine} (lower : List Frame)
    (stands : Stands program machine
      (upper ++ .statements origin (past ++ [head.statement body]) rest :: below))
    (frames_eq : machine.frames = lower ++ .loop head.condition (head.round body) ::
      .statements [] true ::
        (Activation.statements origin (past ++ [head.statement body]) rest :: below).map
          Activation.frame) :
    ∃ inner others, inner.map Activation.frame = lower ∧
      Nested program (inner ++ .loop head.condition (head.round body) :: others) ∧
      machine.environment.bindings = inner.flatMap Activation.scope ++
        declared head.initializer.toList ::
          (Activation.statements origin (past ++ [head.statement body]) rest :: below).flatMap
            Activation.scope := by
  have upper_eq : upper.map Activation.frame =
      lower ++ [.loop head.condition (head.round body), .statements [] true] := by
    have whole := stands.frames_eq.symm.trans frames_eq
    rw [List.map_append] at whole
    exact List.append_cancel_right (whole.trans (by simp))
  obtain ⟨inner, inner_eq, rfl⟩ := counted_of_frames stands.nested upper_eq
  have nested := stands.nested
  rw [List.append_assoc] at nested
  -- The loop itself stands in the block of its variable too, but declares nothing.
  have loop_keeps :
      (Statement.loop head.condition (head.round body)).declared? = none := rfl
  refine ⟨inner, _, inner_eq, nested, ?_⟩
  rw [stands.bindings_eq, ← declared_append_of_none loop_keeps, List.flatMap_append,
    List.flatMap_append, List.append_assoc]
  rfl

/-- The round of a counted loop whose increment comes next has carried out its body. -/
theorem round_of_frames {inner : List Activation} {value : Expression}
    (nested : Nested program (inner ++ .loop head.condition (head.round body) :: below))
    (increment : head.increment = some value)
    (frames_eq : inner.map Activation.frame =
      [.statements [.expression value] true, .statements [] false]) :
    inner = [.statements .block [body] [.expression value],
      .statements .chosen [head.round body] []] := by
  simp only [List.map_eq_cons_iff, List.map_eq_nil_iff] at frames_eq
  obtain ⟨round, _, rfl, round_eq, chosen, _, rfl, chosen_eq, rfl⟩ := frames_eq
  obtain ⟨source, done, rfl, isBlock⟩ := Activation.frame_eq_statements round_eq
  obtain ⟨_, whole, rfl, _⟩ := Activation.frame_eq_statements chosen_eq
  have below_round := (nested.tail (List.cons_ne_nil _ _)).opens
  cases below_round with
  | round whole_eq =>
    rw [List.append_nil] at whole_eq
    subst whole_eq
    cases nested.opens with
    | branch => cases isBlock
    | block last done_eq =>
      cases last
      rw [increment] at done_eq
      have same : done = [body] := by
        refine List.append_inj_left' (done_eq.trans ?_) rfl
        rfl
      rw [same]

end Counted

/-- Only declarations change which names are visible.  A statement of a program that was read from
tokens, carried out in any state of a run, leaves the names of each scope as they were; and what the
body of a counted loop declares is visible neither to its condition nor to its increment. -/
theorem visible_names {tokens : List Token} {program : Program} {limits : Limits}
    {machine : Machine} {statement : Statement} {rest : List Statement} {leaves : Bool}
    {below : List Frame} (parsed : Program.ofTokens tokens = .ok program)
    (reachable : Reachable program limits machine)
    (carries_out : machine.frames = .statements (statement :: rest) leaves :: below)
    (keeps : statement.declared? = none) :
    NamesKept machine statement (.statements rest leaves :: below) := by
  have all := Program.tidy_ofTokens parsed
  obtain ⟨stack, stands⟩ := stands_of_reachable reachable all (by simp [carries_out])
  obtain ⟨top, lowest, rfl, top_eq, rfl⟩ :=
    List.map_eq_cons_iff.mp (stands.frames_eq.symm.trans carries_out)
  obtain ⟨origin, past, rfl, rfl⟩ := Activation.frame_eq_statements top_eq
  generalize base_eq : Activation.statements origin (past ++ [statement]) rest :: lowest = base
  have frames : .statements rest (origin = .block) :: lowest.map Activation.frame =
      base.map Activation.frame := by
    rw [← base_eq]
    rfl
  have scopes : base.flatMap Activation.scope = machine.environment.bindings := by
    rw [stands.bindings_eq, ← base_eq]
    cases origin <;> simp [Activation.scope, declared_append_of_none keeps]
  have ahead {steps : Nat} (within : machine.Within steps)
      (goes_on : (machine.after steps).frames ≠ []) :
      ∃ upper, Stands program (machine.after steps) (upper ++ base) :=
    base_eq ▸ stands.after all within goes_on
  rw [frames]
  refine ⟨?_, ?_, ?_⟩
  · rintro steps ⟨within, height⟩
    have goes_on : (machine.after steps).frames ≠ [] := by
      rw [← List.length_pos_iff, height, carries_out]
      exact Nat.succ_pos _
    obtain ⟨upper, now⟩ := ahead within goes_on
    -- At the height of before nothing is left above the list of the statement.
    have nothing : upper = [] := by
      rw [now.frames_eq, carries_out, List.map_append, ← frames] at height
      simpa using height
    have same : (machine.after steps).environment.bindings = machine.environment.bindings := by
      rw [now.bindings_eq, nothing, List.nil_append, scopes]
    exact ⟨Environment.depth_eq_of_bindings_eq same, same, Environment.binds_eq_of_bindings_eq same⟩
  · rintro head body steps rfl within frames_eq
    obtain ⟨upper, now⟩ := ahead within (by simp [frames_eq])
    subst base_eq
    obtain ⟨inner, _, inner_eq, _, bindings⟩ := now.counted [] frames_eq
    obtain rfl := List.map_eq_nil_iff.mp inner_eq
    rw [bindings, scopes]
    rfl
  · rintro head body value steps rfl keeps_body increment within frames_eq
    obtain ⟨upper, now⟩ := ahead within (by simp [frames_eq])
    subst base_eq
    obtain ⟨inner, _, inner_eq, nested, bindings⟩ :=
      now.counted [.statements [.expression value] true, .statements [] false] frames_eq
    obtain rfl := round_of_frames nested increment inner_eq
    -- Of the round only the body is past, which is no declaration.
    have nothing : declared ([] ++ [body]) = declared [] := declared_append_of_none keeps_body
    rw [bindings, scopes]
    exact congrArg (· :: _) nothing

/-- The counted loop `for (let i = true; i; i = nil) { let x = i; }`, whose body is carried out
once. -/
theorem visible_names_of_loop :
    let row : List TokenKind := [.keyword .for, .symbol .leftParen, .keyword .let, .identifier "i",
      .symbol .equal, .keyword .true, .symbol .semicolon, .identifier "i", .symbol .semicolon,
      .identifier "i", .symbol .equal, .keyword .nil, .symbol .rightParen, .symbol .leftBrace,
      .keyword .let, .identifier "x", .symbol .equal, .identifier "i", .symbol .semicolon,
      .symbol .rightBrace]
    let head : LoopHead :=
      ⟨some (.declare "i" (.bool true)), .variable "i", some (.assign "i" .nil)⟩
    let loop := head.statement (.block [.declare "x" (.variable "i")])
    let machine := Machine.start ⟨[loop]⟩ .unbounded
    Program.ofTokens (row.map fun kind => ⟨kind, "", .start⟩) = .ok ⟨[loop]⟩ ∧
      loop.declared? = none ∧ machine.Completes 13 ∧
        NamesKept machine loop [.statements [] false] := by
  intro row head loop machine
  have parsed : Program.ofTokens (row.map fun kind => ⟨kind, "", .start⟩) = .ok ⟨[loop]⟩ := by cbv
  have back : (machine.after 13).frames.length = 1 := by decide +kernel
  have heights : ∀ step : Fin 12, (machine.after (step + 1)).frames.length ≠ 1 := by decide +kernel
  refine ⟨parsed, rfl, ⟨⟨by decide, ?_⟩, back⟩, visible_names parsed .start rfl rfl⟩
  intro earlier positive less
  obtain ⟨step, rfl⟩ := Nat.exists_eq_add_of_le' positive
  exact heights ⟨step, Nat.lt_of_succ_lt_succ less⟩

end Machine

end BlockScript
