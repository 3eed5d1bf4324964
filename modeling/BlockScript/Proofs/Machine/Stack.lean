import BlockScript.Proofs.Grammar.Programs
import BlockScript.Proofs.Machine.Calls
import BlockScript.Proofs.Machine.Scopes
import BlockScript.Proofs.Syntax.Parts

/-!
# How high the stack grows

The frames on the stack of a machine, and the scopes, are bounded by how deeply the statements of
the program stand inside one another, however long the run takes (`stack_bounded_by_program`).  Each
frame leaves room for what it may still put on top of itself (`Frame.Fits`), and a round of a loop
gives back what it took.
-/

namespace BlockScript

namespace Statement

variable {plain : Nat} {statement : Statement} {statements : List Statement}

/-- What the frames weigh that a statement itself puts on the stack, where the frame of a block
weighs one and any other frame `plain`.  A loop has a frame below the one of each round. -/
def own (plain : Nat) : Statement → Nat
  | .block _ => 1
  | .branch _ _ _ => plain
  | .loop _ _ => 2 * plain
  | _ => 0

/-- What the frames weigh that may be on the stack at once for a statement and all inside it.  If
every frame weighs one, this is their number; if only those of blocks do, it is how deeply blocks
are nested. -/
def height (plain : Nat) (statement : Statement) : Nat :=
  statement.own plain + (statement.parts.attach.map fun part => height plain part.1).foldr max 0
termination_by sizeOf statement
decreasing_by exact sizeOf_lt_of_mem_parts part.2

/-- The greatest height of some statements, zero if there are none. -/
def highest (plain : Nat) (statements : List Statement) : Nat :=
  (statements.map (height plain)).foldr max 0

@[simp]
theorem highest_nil : highest plain [] = 0 :=
  rfl

@[simp]
theorem highest_cons : highest plain (statement :: statements) =
    max (statement.height plain) (highest plain statements) :=
  rfl

@[simp]
theorem highest_append {others : List Statement} : highest plain (statements ++ others) =
    max (highest plain statements) (highest plain others) := by
  induction statements with
  | nil => simp
  | cons statement rest ih => simp [ih, Nat.max_assoc]

theorem height_le_highest (member : statement ∈ statements) :
    statement.height plain ≤ highest plain statements := by
  induction statements with
  | nil => cases member
  | cons first rest ih =>
    rw [highest_cons]
    rcases List.mem_cons.mp member with rfl | later
    · exact Nat.le_max_left _ _
    · exact Nat.le_trans (ih later) (Nat.le_max_right _ _)

theorem highest_le {bound : Nat} (le : ∀ statement ∈ statements, statement.height plain ≤ bound) :
    highest plain statements ≤ bound := by
  induction statements with
  | nil => exact Nat.zero_le _
  | cons first rest ih =>
    refine Nat.max_le.mpr ⟨le _ List.mem_cons_self, ih fun statement member => ?_⟩
    exact le statement (List.mem_cons_of_mem _ member)

theorem height_eq (plain : Nat) (statement : Statement) :
    statement.height plain = statement.own plain + highest plain statement.parts := by
  rw [height, highest, List.map_subtype, List.unattach_attach]
  intro part member
  rfl

@[simp]
theorem height_block (body : List Statement) :
    (block body).height plain = 1 + highest plain body :=
  height_eq _ _

@[simp]
theorem height_branch (condition : Expression) (thenBranch : Statement)
    (elseBranch : Option Statement) :
    (branch condition thenBranch elseBranch).height plain =
      plain + max (thenBranch.height plain) (highest plain elseBranch.toList) :=
  height_eq _ _

@[simp]
theorem height_loop (condition : Expression) (body : Statement) :
    (loop condition body).height plain = 2 * plain + body.height plain := by
  rw [height_eq, own, parts, highest_cons, highest_nil, Nat.max_zero]

@[simp]
theorem height_expression (value : Expression) : (expression value).height plain = 0 :=
  height_eq _ _

@[simp]
theorem height_declare (name : String) (initializer : Expression) :
    (declare name initializer).height plain = 0 :=
  height_eq _ _

@[simp]
theorem height_setBlock (x y z name : Expression) : (setBlock x y z name).height plain = 0 :=
  height_eq _ _

end Statement

/-! ### The stack -/

namespace Frame

variable {plain bound : Nat} {frame : Frame} {below left : List Frame}

/-- What a frame weighs: one if it leaves a scope. -/
def weight (plain : Nat) (frame : Frame) : Nat :=
  if frame.leavesScope then 1 else plain

/-- What a stack weighs. -/
def load (plain : Nat) : List Frame → Nat
  | [] => 0
  | frame :: below => frame.weight plain + load plain below

/-- What the frames weigh at most that a frame may still put on top of itself. -/
def reach (plain : Nat) : Frame → Nat
  | .statements rest _ => Statement.highest plain rest
  | .loop _ body => plain + body.height plain

/-- Every frame of a stack leaves room, together with the frames below it, for what it may still put
on top of itself. -/
def Fits (plain bound : Nat) : List Frame → Prop
  | [] => True
  | frame :: below =>
    frame.reach plain + frame.weight plain + load plain below ≤ bound ∧ Fits plain bound below

theorem load_cons : load plain (frame :: below) = frame.weight plain + load plain below :=
  rfl

theorem load_one (frames : List Frame) : load 1 frames = frames.length := by
  induction frames with
  | nil => rfl
  | cons frame below ih =>
    rw [load_cons, ih, weight, ite_self, List.length_cons, Nat.add_comm]

theorem load_zero (frames : List Frame) : load 0 frames = scopeCount frames := by
  induction frames with
  | nil => rfl
  | cons frame below ih =>
    rw [load_cons, ih, weight, scopeCount, scopeCount, List.countP_cons, Nat.add_comm]

theorem Fits.load_le {frames : List Frame} (fits : Fits plain bound frames) :
    load plain frames ≤ bound := by
  cases frames with
  | nil => exact Nat.zero_le _
  | cons frame below =>
    rw [load_cons]
    have room := fits.1
    omega

/-- Room for a list of statements is room for the first one on the frame of the others. -/
theorem fits_statements_cons {statement : Statement} {rest : List Statement} {leaves : Bool} :
    Fits plain bound (.statements (statement :: rest) leaves :: below) ↔
      statement.height plain + load plain (.statements rest leaves :: below) ≤ bound ∧
        Fits plain bound (.statements rest leaves :: below) := by
  have weights : weight plain (.statements (statement :: rest) leaves) =
      weight plain (.statements rest leaves) := rfl
  simp only [Fits, load_cons, reach, Statement.highest_cons, weights, ← and_assoc]
  refine and_congr_left fun _ => ?_
  omega

/-- Whatever a frame puts on top of itself fits into the room that it left. -/
theorem Turns.fits {before after : Environment} (turns : frame.Turns before after left)
    (fits : Fits plain bound (frame :: below)) : Fits plain bound (left ++ below) := by
  cases turns with
  | simple | declare => exact (fits_statements_cons.mp fits).2
  | @block body rest leaves =>
    obtain ⟨room, kept⟩ := fits_statements_cons.mp fits
    rw [Statement.height_block] at room
    have enough : Statement.highest plain body + 1 +
        load plain (.statements rest leaves :: below) ≤ bound := by omega
    exact ⟨enough, kept⟩
  | @branch condition thenBranch elseBranch chosen rest leaves _ _ isPart =>
    obtain ⟨room, kept⟩ := fits_statements_cons.mp fits
    have isPart : chosen ∈ (Statement.branch condition thenBranch elseBranch).parts :=
      List.mem_cons.mpr (isPart.imp_right fun same => Option.mem_toList.mpr same.symm)
    have lower : chosen.height plain ≤
        Statement.highest plain (Statement.branch condition thenBranch elseBranch).parts :=
      Statement.height_le_highest isPart
    rw [Statement.height_eq, Statement.own] at room
    have enough : max (chosen.height plain) 0 + plain +
        load plain (.statements rest leaves :: below) ≤ bound := by omega
    exact ⟨enough, kept⟩
  | @loop condition body rest leaves =>
    obtain ⟨room, kept⟩ := fits_statements_cons.mp fits
    rw [Statement.height_loop] at room
    have enough : plain + body.height plain + plain +
        load plain (.statements rest leaves :: below) ≤ bound := by omega
    exact ⟨enough, kept⟩
  | @round condition body =>
    -- The loop stays below its round, whose frame it left room for.
    have room : plain + body.height plain + plain + load plain below ≤ bound := fits.1
    have below_round : load plain (.loop condition body :: below) = plain + load plain below :=
      load_cons
    have enough : max (body.height plain) 0 + plain +
        load plain (.loop condition body :: below) ≤ bound := by omega
    exact ⟨enough, fits⟩
  | close | finish => exact fits.2

end Frame

/-! ### Programs that were read -/

/-- A declaration puts no frame on the stack. -/
theorem Declaration.height_eq {plain room source statement}
    (declaration : Declaration room source statement) : statement.height plain = 0 := by
  cases declaration <;> exact Statement.height_declare _ _

theorem LoopStart.highest_eq {plain room source start} (clause : LoopStart room source start) :
    Statement.highest plain start.toList = 0 := by
  cases clause with
  | absent => rfl
  | declaration declared => simp [declared.height_eq]
  | expression => simp

theorem LoopUpdate.highest_eq {plain room source update}
    (clause : LoopUpdate room source update) : Statement.highest plain update.toList = 0 := by
  cases clause <;> simp

/-- A level that is open while a statement is read stands for at most four frames, as many as those
of a counted loop: its own block, the loop in it, a round, and the block of that round. -/
theorem Sentence.height_le {form room source statement}
    (sentence : Sentence form room source statement) : statement.height 1 ≤ 4 * room := by
  induction sentence with
  | declaration declared => simp [declared.height_eq]
  | ofStatement _ inner => exact inner
  | expression | setBlock => simp
  | @block room items _ inner =>
    have body : Statement.highest 1 (items.map (·.2)) ≤ 4 * room := by
      refine Statement.highest_le ?_
      simpa using fun statement source member => inner (source, statement) member
    rw [Statement.height_block]
    omega
  | branch _ _ inner =>
    simp only [Statement.height_branch, Option.toList_none, Statement.highest_nil]
    omega
  | branchElse _ _ _ first second =>
    simp only [Statement.height_branch, Option.toList_some, Statement.highest_cons,
      Statement.highest_nil]
    omega
  | loop _ _ inner =>
    rw [Statement.height_loop]
    omega
  | countedLoop loopStart _ loopUpdate _ inner =>
    simp only [Statement.height_block, Statement.highest_append, Statement.highest_cons,
      Statement.height_loop, Statement.highest_nil, loopStart.highest_eq, loopUpdate.highest_eq]
    omega

theorem Program.highest_ofTokens {tokens : List Token} {program : Program}
    (parsed : Program.ofTokens tokens = .ok program) :
    Statement.highest 1 program.statements ≤ 4 * maxNesting := by
  obtain ⟨items, sentences, _, statements⟩ := (ofTokens_eq_ok_iff_derives tokens program).mp parsed
  rw [← statements]
  refine Statement.highest_le ?_
  simpa using fun statement source member => (sentences (source, statement) member).height_le

/-! ### Runs -/

namespace Machine

variable {machine : Machine} {program : Program} {limits : Limits}

theorem fits_after (program : Program) (limits : Limits) (plain steps : Nat) :
    Frame.Fits plain (plain + Statement.highest plain program.statements)
      ((start program limits).after steps).frames := by
  induction steps with
  | zero =>
    have room : Statement.highest plain program.statements + plain + 0 ≤
        plain + Statement.highest plain program.statements := by omega
    exact ⟨room, trivial⟩
  | succ steps ih =>
    cases stack : ((start program limits).after steps).frames with
    | nil => rw [after, step_of_frames_nil stack, stack]; trivial
    | cons frame below =>
      cases outcome : ((start program limits).after steps).step.1 with
      | ok result =>
        obtain ⟨left, turns, frames_eq⟩ := turns_of_step stack (Prod.ext outcome rfl)
        rw [stack] at ih
        rw [after, frames_eq]
        exact turns.fits ih
      | error error =>
        rw [after, (stopped_of_step (Prod.ext outcome rfl)).frames_nil]
        trivial

/-- There are no more scopes than blocks that can be open at once, and one. -/
theorem depth_after_le (program : Program) (limits : Limits) (steps : Nat) :
    ((start program limits).after steps).environment.depth ≤
      1 + Statement.highest 0 program.statements := by
  have balanced_le {earlier : Nat} (balanced : ((start program limits).after earlier).Balanced) :
      ((start program limits).after earlier).environment.depth ≤
        1 + Statement.highest 0 program.statements := by
    have load_le := (fits_after program limits 0 earlier).load_le
    rw [Frame.load_zero, Nat.zero_add] at load_le
    rw [balanced]
    omega
  -- Once a step has failed nothing changes any more.
  suffices ((start program limits).after steps).Balanced ∨
      ((start program limits).after steps).frames = [] ∧
        ((start program limits).after steps).environment.depth ≤
          1 + Statement.highest 0 program.statements from this.elim balanced_le And.right
  induction steps with
  | zero => exact .inl (balanced_start program limits)
  | succ steps ih =>
    rcases ih with balanced | ⟨empty, le⟩
    · cases outcome : ((start program limits).after steps).step.1 with
      | ok result => exact .inl (balanced.step (Prod.ext outcome rfl))
      | error error =>
        have stopped := stopped_of_step (Prod.ext outcome rfl)
        refine .inr ⟨stopped.frames_nil, ?_⟩
        rw [after, Environment.depth_eq_of_bindings_eq stopped.bindings_eq]
        exact balanced_le balanced
    · rw [after, step_of_frames_nil empty]
      exact .inr ⟨empty, le⟩

/-- How high the stack of a machine and how many scopes there are, by the text of the program. -/
structure Bounded (program : Program) (machine : Machine) : Prop where
  /-- Where a block or a branch counts one and a loop two, for its round as well. -/
  frames_le : machine.frames.length ≤ 1 + Statement.highest 1 program.statements
  /-- Where only blocks count. -/
  depth_le : machine.environment.depth ≤ 1 + Statement.highest 0 program.statements
  /-- The stack of a program that was read from tokens is never higher than this. -/
  read_le : ∀ tokens, Program.ofTokens tokens = .ok program →
    machine.frames.length ≤ 4 * maxNesting + 1

/-- The frames and the scopes of a run are bounded by the text of the program, after any calls,
whether they failed or not. -/
theorem stack_bounded_by_program {program : Program} {limits : Limits} {machine : Machine}
    {calls : List Call} {returned : List (Except RuntimeError Command)}
    (run : (start program limits).Calls calls returned machine) : Bounded program machine := by
  obtain ⟨steps, rfl, -⟩ := run.eq_after
  have frames_le := (fits_after program limits 1 steps).load_le
  rw [Frame.load_one] at frames_le
  refine ⟨frames_le, depth_after_le program limits steps, fun tokens parsed => ?_⟩
  have highest_le := Program.highest_ofTokens parsed
  omega

/-- The counted loop `for (;;) nil;` with the five frames of a round on the stack, one of which is
that of the program. -/
theorem stack_bounded_by_program_of_loop :
    let row : List TokenKind := [.keyword .for, .symbol .leftParen, .symbol .semicolon,
      .symbol .semicolon, .symbol .rightParen, .keyword .nil, .symbol .semicolon]
    let program : Program := ⟨[.block [.loop (.bool true) (.block [.expression .nil])]]⟩
    let machine := (start program .unbounded).after 4
    Program.ofTokens (row.map fun kind => ⟨kind, "", .start⟩) = .ok program ∧
      (start program .unbounded).Calls [.step, .step, .step, .step] [] machine ∧
        machine.frames.length = 5 ∧ Bounded program machine := by
  intro row program machine
  have run : (start program .unbounded).Calls [.step, .step, .step, .step] [] machine :=
    .step rfl (.step rfl (.step rfl (.step rfl (.nil _))))
  exact ⟨by cbv, run, rfl, stack_bounded_by_program run⟩

end Machine

end BlockScript
