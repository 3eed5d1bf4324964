import BlockScript.Proofs.Machine.Calls
import BlockScript.Proofs.Machine.Refinement
import BlockScript.Proofs.Syntax.Parts
import Mathlib.Data.List.Flatten

/-!
# Programs without loops

A run is followed from statement to statement: `Program.sites` has the stack of the machine after
each step, with the place in the program of every statement on it (`map_frame_sites`).  If the
program has no loop, nothing that has been carried out is put on the stack again.  So each statement
is carried out at most once, and each step carries out a statement or leaves a list that one has put
there, which bounds the run by the size of the program alone (`ends_of_loopFree`).
-/

namespace BlockScript

/-! ### Following a run through the program -/

/-- A frame whose statements are nodes of the program. -/
inductive Site where
  | statements (rest : List Node) (leavesScope : Bool)
  | loop (condition : Expression) (body : Node)

namespace Site

def frame : Site → Frame
  | .statements rest leavesScope => .statements (rest.map Node.statement) leavesScope
  | .loop condition body => .loop condition body.statement

def single (node : Node) : Site :=
  .statements [node] false

/-- The statement that is carried out next, if the top of the stack is a list of statements that is
not over. -/
def dispatched? : List Site → Option Node
  | .statements (node :: _) _ :: _ => some node
  | _ => none

end Site

/-- What carrying out a statement puts on the stack, as far as it does not fail. -/
def Node.opens (node : Node) (environment : Environment) : List Site :=
  match node.statement with
  | .block _ => [.statements node.parts true]
  | .branch condition _ _ =>
    match condition.evaluate environment with
    | .ok decision _ => node.parts[if decision.truthy then 0 else 1]?.toList.map .single
    | .error _ _ => []
  | .loop condition _ => node.parts.map (.loop condition)
  | _ => []

/-- What a step that does not fail makes of the stack. -/
def Site.turn (environment : Environment) : List Site → List Site
  | [] => []
  | .statements [] _ :: below => below
  | .statements (node :: rest) leavesScope :: below =>
    node.opens environment ++ .statements rest leavesScope :: below
  | .loop condition body :: below =>
    match condition.evaluate environment with
    | .ok decision _ =>
      if decision.truthy then .single body :: .loop condition body :: below else below
    | .error _ _ => []

namespace Program

variable (program : Program)

/-- The unlimited run of a program after a number of steps. -/
def run (steps : Nat) : Machine :=
  (Machine.start program .unbounded).after steps

/-- The stack of the unlimited run after a number of steps; a step that fails leaves nothing. -/
def sites : (steps : Nat) → List Site
  | 0 => [.statements (Node.listed [] 0 program.statements) false]
  | steps + 1 =>
    match (program.run steps).step.1 with
    | .ok _ => Site.turn (program.run steps).environment (sites steps)
    | .error _ => []

/-- The statements that the first steps of the unlimited run have carried out, in order.  A step
that fails has got to its statement too. -/
def visited (steps : Nat) : List Node :=
  (List.range steps).filterMap fun earlier => Site.dispatched? (program.sites earlier)

end Program

/-! ### The run is followed -/

namespace Machine

variable {machine next : Machine} {result : Step}

/-- Work that does not fail has the value that it needs. -/
theorem evaluating_eq_ok {α : Type} {evaluation : Evaluation α}
    {onward : α → Environment → Except RuntimeError Step × Machine}
    (worked : machine.evaluating evaluation onward = (.ok result, next)) :
    ∃ value environment, evaluation machine.environment = .ok value environment ∧
      onward value environment = (.ok result, next) := by
  unfold evaluating at worked
  split at worked
  · next value environment evaluated => exact ⟨value, environment, evaluated, worked⟩
  · cases worked

theorem frames_of_advance {environment : Environment} {frames : List Frame}
    (worked : machine.advance environment frames = (.ok result, next)) : next.frames = frames := by
  obtain ⟨-, rfl⟩ := Prod.mk.inj worked
  rfl

theorem frames_of_emit {command : Command} (worked : machine.emit command = (.ok result, next)) :
    next.frames = machine.frames := by
  unfold emit at worked
  split at worked
  · cases worked
  · obtain ⟨-, rfl⟩ := Prod.mk.inj worked
    rfl

/-- Carrying out the statement of a node puts the frames on the stack that the node opens. -/
theorem frames_of_dispatch {node : Node} {frames : List Frame}
    (worked : machine.dispatch node.statement frames = (.ok result, next)) :
    next.frames = (node.opens machine.environment).map Site.frame ++ frames := by
  obtain ⟨way, statement⟩ := node
  cases statement with
  | expression | declare =>
    obtain ⟨value, environment, -, onward⟩ := evaluating_eq_ok worked
    exact frames_of_advance onward
  | setBlock =>
    obtain ⟨command, environment, -, onward⟩ := evaluating_eq_ok worked
    exact frames_of_emit onward
  | block body =>
    rw [frames_of_advance worked]
    simp only [Node.opens, List.map_cons, List.map_nil, Site.frame, Node.map_statement_parts,
      Statement.parts, List.singleton_append]
  | branch condition thenBranch elseBranch =>
    obtain ⟨decision, environment, evaluated, onward⟩ := evaluating_eq_ok worked
    rw [frames_of_advance onward]
    simp only [Node.opens, evaluated]
    split
    · rfl
    · cases elseBranch <;> rfl
  | loop condition body =>
    rw [frames_of_advance worked]
    rfl

/-- A step makes of a stack what the nodes on it say. -/
theorem frames_of_step {sites : List Site} (unlimited : machine.limits.maxSteps = none)
    (stack : machine.frames = sites.map Site.frame) (stepped : machine.step = (.ok result, next)) :
    next.frames = (Site.turn machine.environment sites).map Site.frame := by
  match sites with
  | [] =>
    rw [step_of_frames_nil stack] at stepped
    obtain ⟨-, rfl⟩ := Prod.mk.inj stepped
    exact stack
  | .statements [] _ :: below =>
    rw [step_of_frames_cons stack unlimited] at stepped
    exact frames_of_advance stepped
  | .statements (node :: rest) leavesScope :: below =>
    rw [step_of_frames_cons stack unlimited] at stepped
    have worked : ({ machine with steps := machine.steps + 1 }).dispatch node.statement
        (.statements (rest.map Node.statement) leavesScope :: below.map Site.frame) =
          (.ok result, next) := stepped
    have opened := frames_of_dispatch worked
    rw [Site.turn, List.map_append]
    exact opened
  | .loop condition body :: below =>
    rw [step_of_frames_cons stack unlimited] at stepped
    obtain ⟨decision, environment, evaluated, onward⟩ := evaluating_eq_ok stepped
    rw [frames_of_advance onward]
    simp only [Site.turn, show condition.evaluate machine.environment = _ from evaluated]
    split <;> rfl

end Machine

namespace Program

variable (program : Program)

theorem run_succ (steps : Nat) : program.run (steps + 1) = (program.run steps).step.2 :=
  rfl

theorem run_limits (steps : Nat) : (program.run steps).limits = .unbounded :=
  Machine.after_limits _ _

/-- The stack that is followed through the program is the stack of the machine. -/
theorem map_frame_sites (steps : Nat) :
    (program.sites steps).map Site.frame = (program.run steps).frames := by
  induction steps with
  | zero =>
    simp only [sites, List.map_cons, List.map_nil, Site.frame, Node.map_statement_listed]
    rfl
  | succ steps ih =>
    rw [sites, run_succ]
    cases outcome : (program.run steps).step.1 with
    | ok result =>
      refine (Machine.frames_of_step ?_ ih.symm (Prod.ext outcome rfl)).symm
      rw [run_limits]
      rfl
    | error error => exact (Machine.stopped_of_step (Prod.ext outcome rfl)).frames_nil.symm

theorem visited_succ (steps : Nat) : program.visited (steps + 1) =
    program.visited steps ++ (Site.dispatched? (program.sites steps)).toList := by
  rw [visited, List.range_succ, List.filterMap_append, visited, List.filterMap_cons,
    List.filterMap_nil]
  cases Site.dispatched? (program.sites steps) <;> rfl

end Program

/-! ### Commands -/

def Statement.isSetBlock : Statement → Bool
  | .setBlock _ _ _ _ => true
  | _ => false

namespace Machine

theorem commandCount_evaluating {α : Type} {machine : Machine} {evaluation : Evaluation α}
    {onward : α → Environment → Except RuntimeError Step × Machine} {most : Nat}
    (le : ∀ value environment, commandCount (onward value environment).1 ≤ most) :
    commandCount (machine.evaluating evaluation onward).1 ≤ most := by
  unfold evaluating
  split
  · exact le _ _
  · exact Nat.zero_le _

/-- Only a `setBlock` statement emits a command. -/
theorem commandCount_dispatch (machine : Machine) (statement : Statement) (frames : List Frame) :
    commandCount (machine.dispatch statement frames).1 ≤ if statement.isSetBlock then 1 else 0 := by
  cases statement with
  | block | loop => exact Nat.le_refl 0
  | expression | declare | branch => exact commandCount_evaluating fun _ _ => Nat.le_refl 0
  | setBlock x y z name =>
    have at_most := commandCount_le (machine.dispatch (.setBlock x y z name) frames).1
    rw [Statement.isSetBlock, if_pos rfl]
    split at at_most <;> omega

theorem commandCount_step {machine : Machine} {sites : List Site}
    (unlimited : machine.limits.maxSteps = none) (stack : machine.frames = sites.map Site.frame) :
    commandCount machine.step.1 ≤
      (Site.dispatched? sites).toList.countP (·.statement.isSetBlock) := by
  match sites with
  | [] =>
    rw [step_of_frames_nil stack]
    exact Nat.zero_le _
  | .statements [] _ :: below =>
    rw [step_of_frames_cons stack unlimited]
    exact Nat.zero_le _
  | .statements (node :: rest) leavesScope :: below =>
    rw [step_of_frames_cons stack unlimited]
    refine Nat.le_trans (commandCount_dispatch _ _ _) (Nat.le_of_eq ?_)
    rw [Site.dispatched?, Option.toList_some, List.countP_singleton]
  | .loop condition body :: below =>
    rw [step_of_frames_cons stack unlimited]
    exact commandCount_evaluating fun _ _ => Nat.zero_le _

end Machine

/-! ### Programs without loops -/

def Statement.isLoop : Statement → Bool
  | .loop _ _ => true
  | _ => false

/-- No statement of the program, however deep inside others, is a loop. -/
def Program.LoopFree (program : Program) : Prop :=
  ∀ node ∈ program.nodes, node.statement.isLoop = false

namespace Site

/-- The statements that are still to be carried out, or may be, and all inside them. -/
def pending : Site → List Node
  | .statements rest _ => rest.flatMap Node.nodes
  | .loop _ body => body.nodes

/-- Whether a frame is one of a loop. -/
def isLoop : Site → Bool
  | .loop _ _ => true
  | .statements _ _ => false

/-- What a step may make of a stack if it finds no loop on it: what is pending gets less by the
statement that is carried out, and only that statement adds to the stack, at most one frame. -/
structure Spends (before after : List Site) : Prop where
  no_loop : ∀ site ∈ after, site.isLoop = false
  pending : ((dispatched? before).toList ++ after.flatMap pending).Sublist
    (before.flatMap Site.pending)
  length_le : after.length ≤ before.tail.length + 2 * (dispatched? before).toList.length

variable {before below : List Site} {node : Node} {rest : List Node} {leavesScope : Bool}

/-- The next statement comes before all that is inside it, and that before the others. -/
theorem pending_cons : (statements (node :: rest) leavesScope :: below).flatMap pending =
    node :: (node.parts.flatMap Node.nodes ++
      (statements rest leavesScope :: below).flatMap pending) := by
  simp only [List.flatMap_cons, pending, Node.nodes_eq node, List.cons_append, List.append_assoc]

/-- A step that fails spends everything. -/
theorem spends_nil (before : List Site) : Spends before [] := by
  refine ⟨fun site member => (by cases member), ?_, Nat.zero_le _⟩
  unfold dispatched?
  split
  · rw [pending_cons]
    exact List.cons_sublist_cons.mpr (List.nil_sublist _)
  · exact List.nil_sublist _

/-- A statement that is no loop opens at most one frame, for statements right inside it. -/
theorem opens_of_no_loop (no_loop : node.statement.isLoop = false)
    (environment : Environment) :
    node.opens environment = [] ∨ ∃ rest leavesScope, rest.Sublist node.parts ∧
      node.opens environment = [.statements rest leavesScope] := by
  unfold Node.opens
  split
  · exact .inr ⟨node.parts, true, List.Sublist.refl _, rfl⟩
  · split
    · next decision _ _ =>
      cases chosen : node.parts[if decision.truthy then 0 else 1]? with
      | none => exact .inl rfl
      | some part =>
        have isPart : [part].Sublist node.parts :=
          List.singleton_sublist.mpr (List.mem_of_getElem? chosen)
        exact .inr ⟨[part], false, isPart, rfl⟩
    · exact .inl rfl
  · next condition body same =>
    rw [same] at no_loop
    cases no_loop
  · exact .inl rfl

theorem spends_dispatch (no_loop : node.statement.isLoop = false)
    (below_no_loop : ∀ site ∈ below, site.isLoop = false) (environment : Environment) :
    Spends (.statements (node :: rest) leavesScope :: below)
      (node.opens environment ++ .statements rest leavesScope :: below) := by
  have left : ∀ site ∈ Site.statements rest leavesScope :: below, site.isLoop = false :=
    List.forall_mem_cons.mpr ⟨rfl, below_no_loop⟩
  obtain none | ⟨inside, leaves, sublist, some⟩ := opens_of_no_loop no_loop environment
  · rw [none, List.nil_append]
    refine ⟨left, ?_, ?_⟩
    · rw [pending_cons]
      exact List.cons_sublist_cons.mpr (List.sublist_append_right _ _)
    · simp only [List.length_cons, List.tail_cons, dispatched?, Option.toList_some]
      omega
  · rw [some, List.singleton_append]
    refine ⟨List.forall_mem_cons.mpr ⟨rfl, left⟩, ?_, ?_⟩
    · rw [pending_cons, List.flatMap_cons]
      exact List.cons_sublist_cons.mpr ((sublist.flatMap Node.nodes).append_right _)
    · simp only [List.length_cons, List.tail_cons, dispatched?, Option.toList_some]
      omega

theorem spends_turn (no_loop : ∀ site ∈ before, site.isLoop = false)
    (plain : ∀ node ∈ before.flatMap pending, node.statement.isLoop = false)
    (environment : Environment) : Spends before (turn environment before) := by
  match before with
  | [] => exact ⟨no_loop, List.Sublist.refl _, Nat.le_refl 0⟩
  | .statements [] _ :: below =>
    exact ⟨(List.forall_mem_cons.mp no_loop).2, List.Sublist.refl _, Nat.le_refl _⟩
  | .statements (node :: rest) leavesScope :: below =>
    have top : node ∈ (Site.statements (node :: rest) leavesScope :: below).flatMap pending := by
      rw [pending_cons]
      exact List.mem_cons_self
    exact spends_dispatch (plain node top) (List.forall_mem_cons.mp no_loop).2 environment
  | .loop condition body :: below =>
    -- There is no loop on the stack.
    cases (List.forall_mem_cons.mp no_loop).1

end Site

namespace Program

variable {program : Program}

/-- What holds after any steps of a program without loops: what has been carried out and what is
pending make up a part of the program, in order, and the counts are paid for by the statements that
have been carried out. -/
structure Follows (program : Program) (steps : Nat) : Prop where
  no_loop : ∀ site ∈ program.sites steps, site.isLoop = false
  sublist : (program.visited steps ++ (program.sites steps).flatMap Site.pending).Sublist
    program.nodes
  steps_le : (program.run steps).steps + (program.sites steps).length ≤
    2 * (program.visited steps).length + 1
  emitted_le : (program.run steps).emitted ≤
    (program.visited steps).countP (·.statement.isSetBlock)

theorem follows_zero (program : Program) : program.Follows 0 := by
  refine ⟨?_, ?_, Nat.le_refl 1, Nat.le_refl 0⟩
  · exact List.forall_mem_cons.mpr ⟨rfl, fun site member => (by cases member)⟩
  · simp only [sites, List.flatMap_cons, List.flatMap_nil, List.append_nil]
    exact List.Sublist.refl _

theorem spends_sites {steps : Nat} (loopFree : program.LoopFree) (follows : program.Follows steps) :
    Site.Spends (program.sites steps) (program.sites (steps + 1)) := by
  have plain : ∀ node ∈ (program.sites steps).flatMap Site.pending,
      node.statement.isLoop = false := fun node member =>
    loopFree node (follows.sublist.mem (List.mem_append_right _ member))
  rw [sites]
  split
  · exact Site.spends_turn follows.no_loop plain _
  · exact Site.spends_nil _

/-- A step counts if something is left to do, and it is paid for by the statement that it carries
out or by the list that it leaves. -/
theorem Follows.steps_succ_le {steps : Nat} (follows : program.Follows steps)
    (spends : Site.Spends (program.sites steps) (program.sites (steps + 1))) :
    (program.run (steps + 1)).steps + (program.sites (steps + 1)).length ≤
      2 * (program.visited (steps + 1)).length + 1 := by
  have paid := follows.steps_le
  have less := spends.length_le
  rw [visited_succ, List.length_append, run_succ]
  cases stack : program.sites steps with
  | nil =>
    -- The run is finished, and the step does not count.
    have empty : (program.run steps).frames = [] := by
      rw [← map_frame_sites, stack, List.map_nil]
    rw [Machine.step_of_frames_nil empty]
    simp only [stack, List.tail_nil, List.length_nil, Site.dispatched?,
      Option.toList_none] at paid less ⊢
    omega
  | cons site below =>
    have counted := Machine.step_counted (program.run steps)
    simp only [stack, List.tail_cons, List.length_cons] at paid less
    split at counted <;> omega

theorem Follows.emitted_succ_le {steps : Nat} (follows : program.Follows steps) :
    (program.run (steps + 1)).emitted ≤
      (program.visited (steps + 1)).countP (·.statement.isSetBlock) := by
  have unlimited : (program.run steps).limits.maxSteps = none := by
    rw [run_limits]
    rfl
  have counted : (program.run steps).step.2.emitted =
      (program.run steps).emitted + Machine.commandCount (program.run steps).step.1 :=
    Machine.step_emitted rfl
  have at_most := Machine.commandCount_step unlimited (program.map_frame_sites steps).symm
  have paid := follows.emitted_le
  rw [visited_succ, List.countP_append, run_succ]
  omega

theorem Follows.succ {steps : Nat} (loopFree : program.LoopFree)
    (follows : program.Follows steps) : program.Follows (steps + 1) := by
  have spends := spends_sites loopFree follows
  refine ⟨spends.no_loop, ?_, follows.steps_succ_le spends, follows.emitted_succ_le⟩
  rw [visited_succ, List.append_assoc]
  exact (spends.pending.append_left _).trans follows.sublist

theorem follows (loopFree : program.LoopFree) (steps : Nat) : program.Follows steps := by
  induction steps with
  | zero => exact follows_zero program
  | succ steps ih => exact ih.succ loopFree

end Program

/-! ### The end of a run -/

namespace Machine

/-- As long as something is left to do, an unlimited machine counts every step. -/
theorem steps_after_of_frames {machine : Machine} (unlimited : machine.limits.maxSteps = none)
    {steps : Nat} (left : (machine.after steps).frames ≠ []) :
    (machine.after steps).steps = machine.steps + steps := by
  induction steps with
  | zero => rfl
  | succ steps ih =>
    have before : (machine.after steps).frames ≠ [] := fun empty =>
      left (by rw [after, step_of_frames_nil empty, empty])
    have goes_on : (machine.after steps).step.1 ≠ .ok .finished := fun finished =>
      before (frames_eq_nil_of_finished (Prod.ext finished rfl)).1
    have counted : (machine.after steps).step.2.steps = (machine.after steps).steps + 1 :=
      step_steps (by rw [after_limits]; exact unlimited) rfl goes_on
    rw [after, counted, ih before, Nat.add_assoc]

/-- A machine with nothing left to do after some steps has come to an end. -/
theorem ends_of_frames_nil {machine : Machine} {steps : Nat}
    (empty : (machine.after steps).frames = []) :
    ∃ commands before failure, machine.Reaches commands before ∧
      before.EndsWith failure (machine.after steps) := by
  induction steps generalizing machine with
  | zero => exact ⟨[], machine, none, .refl machine, step_of_frames_nil empty⟩
  | succ steps ih =>
    cases stepped : machine.step with
    | mk result next =>
      have onward : machine.after (steps + 1) = next.after steps := by
        rw [Nat.add_comm, after_add, (after_one stepped).1]
      rw [onward] at empty ⊢
      -- A step that finishes or fails is the last one; behind all others the rest of the run ends.
      match result, stepped with
      | .ok .finished, stepped =>
        obtain ⟨empty, rfl⟩ := frames_eq_nil_of_finished stepped
        rw [after_of_frames_nil empty]
        exact ⟨[], _, none, .refl _, stepped⟩
      | .ok .advanced, stepped =>
        obtain ⟨commands, before, failure, reaches, ends⟩ := ih empty
        exact ⟨commands, before, failure, .advanced stepped reaches, ends⟩
      | .ok (.emitted command), stepped =>
        obtain ⟨commands, before, failure, reaches, ends⟩ := ih empty
        exact ⟨command :: commands, before, failure, .emitted stepped reaches, ends⟩
      | .error error, stepped =>
        rw [after_of_frames_nil (stopped_of_step stepped).frames_nil]
        exact ⟨[], machine, some error, .refl machine, stepped⟩

/-- The step that ends a run emits nothing. -/
theorem EndsWith.emitted_eq {machine last : Machine} {failure : Option RuntimeError}
    (ends : machine.EndsWith failure last) : last.emitted = machine.emitted := by
  cases failure with
  | none => rw [(frames_eq_nil_of_finished ends).2]
  | some error => exact step_emitted ends

end Machine

namespace Program

variable {program : Program}

theorem length_visited_le (loopFree : program.LoopFree) (steps : Nat) :
    (program.visited steps).length ≤ program.nodes.length := by
  have whole := (follows loopFree steps).sublist.length_le
  rw [List.length_append] at whole
  omega

/-- After twice as many steps as there are statements, and one, nothing is left to do. -/
theorem frames_run_eq_nil (loopFree : program.LoopFree) :
    (program.run (2 * program.nodes.length + 1)).frames = [] := by
  refine Classical.byContradiction fun left => ?_
  have unlimited : (Machine.start program .unbounded).limits.maxSteps = none := rfl
  have counted := Machine.steps_after_of_frames unlimited left
  have positive := List.length_pos_iff.mpr left
  rw [← map_frame_sites, List.length_map] at positive
  have paid := (follows loopFree (2 * program.nodes.length + 1)).steps_le
  have visited := length_visited_le loopFree (2 * program.nodes.length + 1)
  have start : (Machine.start program .unbounded).steps = 0 := rfl
  rw [start, ← run] at counted
  omega

/-- How the unlimited run of a program comes out if nothing is carried out twice. -/
structure RunsOnce (program : Program) : Prop where
  followed : ∀ steps, (program.sites steps).map Site.frame = (program.run steps).frames
  /-- The run ends, with or without an error, after no more steps and with no more commands than the
  text of the program allows. -/
  ends : ∃ commands before failure last,
    (Machine.start program .unbounded).Reaches commands before ∧ before.EndsWith failure last ∧
      last.steps ≤ 2 * program.nodes.length + 1 ∧
      commands.length ≤ program.nodes.countP (·.statement.isSetBlock)
  /-- The statements that have been carried out are different ones, in the order of the text. -/
  visited : ∀ steps, (program.visited steps).Nodup ∧
    (program.visited steps).Sublist program.nodes
  emitted_le : ∀ steps,
    (program.run steps).emitted ≤ (program.visited steps).countP (·.statement.isSetBlock)

/-- A program without loops comes to an end without any limit, and carries out each of its
statements at most once. -/
theorem ends_of_loopFree {program : Program} (loopFree : program.LoopFree) : program.RunsOnce := by
  have sublist (steps : Nat) : (program.visited steps).Sublist program.nodes :=
    (List.sublist_append_left _ _).trans (follows loopFree steps).sublist
  refine ⟨program.map_frame_sites, ?_,
    fun steps => ⟨program.nodup_nodes.sublist (sublist steps), sublist steps⟩,
    fun steps => (follows loopFree steps).emitted_le⟩
  have empty := frames_run_eq_nil loopFree
  have final := follows loopFree (2 * program.nodes.length + 1)
  obtain ⟨commands, before, failure, reaches, ends⟩ := Machine.ends_of_frames_nil empty
  refine ⟨commands, before, failure, _, reaches, ends, ?_, ?_⟩
  · have steps_le := final.steps_le
    have visited_le := length_visited_le loopFree (2 * program.nodes.length + 1)
    rw [run] at steps_le
    omega
  · have counted := reaches.emitted_eq
    have kept := ends.emitted_eq
    have emitted_le := final.emitted_le
    have visited_le := (sublist (2 * program.nodes.length + 1)).countP_le
      (p := (·.statement.isSetBlock))
    have start : (Machine.start program .unbounded).emitted = 0 := rfl
    rw [run, kept, counted, start] at emitted_le
    omega

/-- The program `{ if (false) nil; else nil; }`, one of whose four statements is passed over. -/
theorem ends_of_loopFree_of_branch :
    let program : Program :=
      ⟨[.block [.branch (.bool false) (.expression .nil) (some (.expression .nil))]]⟩
    program.LoopFree ∧ program.nodes.length = 4 ∧ (program.visited 6).length = 3 ∧
      (program.run 6).isFinished ∧ program.RunsOnce := by
  intro program
  have nodes : program.nodes.map Node.statement =
      [.block [.branch (.bool false) (.expression .nil) (some (.expression .nil))],
        .branch (.bool false) (.expression .nil) (some (.expression .nil)),
        .expression .nil, .expression .nil] := by
    simp [program, Program.nodes, Node.nodes_eq, Node.parts, Node.listed, Statement.parts]
  have loopFree : program.LoopFree := by
    intro node member
    have isStatement := List.mem_map_of_mem (f := Node.statement) member
    rw [nodes] at isStatement
    simp only [List.mem_cons, List.not_mem_nil, or_false] at isStatement
    rcases isStatement with same | same | same | same <;> rw [same] <;> rfl
  refine ⟨loopFree, ?_, by decide, rfl, ends_of_loopFree loopFree⟩
  rw [← List.length_map (f := Node.statement), nodes]
  rfl

end Program

end BlockScript
