import BlockScript.Proofs.Machine.Frames

/-!
# Scopes follow frames

Apart from the outermost one, there is one scope for each frame that leaves one
(`Reachable.depth_eq`).  Such a frame is that of a block which entered a scope when it was carried
out, and which has not been over since (`blockSince_of_frames`), so the scope that it leaves is the
one that it entered.
-/

namespace BlockScript

namespace Frame

/-- Whether a scope is left when a frame is over. -/
def leavesScope : Frame → Bool
  | .statements _ leaves => leaves
  | .loop _ _ => false

/-- How many scopes the frames of a stack will leave. -/
def scopeCount (frames : List Frame) : Nat :=
  frames.countP leavesScope

@[simp]
theorem scopeCount_nil : scopeCount [] = 0 :=
  rfl

@[simp]
theorem scopeCount_statements (rest : List Statement) (leaves : Bool) (below : List Frame) :
    scopeCount (.statements rest leaves :: below) = scopeCount below + leaves.toNat := by
  cases leaves <;> simp [scopeCount, List.countP_cons, leavesScope]

@[simp]
theorem scopeCount_single (statement : Statement) (below : List Frame) :
    scopeCount (.single statement :: below) = scopeCount below := by
  simp [single]

@[simp]
theorem scopeCount_loop (condition : Expression) (body : Statement) (below : List Frame) :
    scopeCount (.loop condition body :: below) = scopeCount below := by
  simp [scopeCount, leavesScope]

@[simp]
theorem scopeCount_append (above below : List Frame) :
    scopeCount (above ++ below) = scopeCount above + scopeCount below :=
  List.countP_append

variable {frame : Frame} {before after : Environment} {left : List Frame}

/-- Scopes are entered and left along with the frames that leave them. -/
theorem Turns.depth_eq (turns : frame.Turns before after left) (outer : Nat) (outside : 0 < outer)
    (depth : before.depth = outer + scopeCount [frame]) :
    after.depth = outer + scopeCount left := by
  cases turns with
  | simple _ keeps | branch _ keeps | round keeps | finish keeps =>
    simpa [Environment.depth_eq_of_bindings_eq keeps] using depth
  | declare keeps => simpa [Environment.depth_eq_of_bindings_eq keeps] using depth
  | block =>
    simp only [scopeCount_statements, scopeCount_nil] at depth ⊢
    rw [Environment.depth_enter, depth]
    simp
    omega
  | loop => simpa using depth
  | @close leaves =>
    cases leaves with
    | false => simpa using depth
    | true =>
      -- The scope of this frame lies inside another one, so it is not the outermost.
      have inside : 1 < before.depth := by simp [depth]; omega
      have closed := Environment.depth_exit inside
      simp only [scopeCount_statements, scopeCount_nil, Bool.toNat_true] at depth ⊢
      simp only [if_true]
      omega

/-- A frame that leaves a scope is what is left of such a frame, or it is that of a block which is
carried out just now. -/
theorem Turns.scopeFrame (turns : frame.Turns before after left) {upper lower : List Frame}
    {rest : List Statement} (parts : left = upper ++ .statements rest true :: lower) :
    (lower = [] ∧ ∃ more, frame = .statements more true) ∨
      ∃ body kept leaves, frame = .statements (.block body :: kept) leaves ∧
        lower = [.statements kept leaves] ∧ after = before.enter := by
  cases turns with
  | simple | declare =>
    simp only [List.cons_eq_append_iff, List.nil_eq_append_iff] at parts
    grind
  | block =>
    simp only [List.cons_eq_append_iff, List.nil_eq_append_iff] at parts
    grind
  | branch | loop | round =>
    simp only [List.cons_eq_append_iff, List.nil_eq_append_iff, Frame.single] at parts
    grind
  | close | finish => simp at parts

end Frame

namespace Machine

variable {machine next : Machine}

/-! ### How many scopes there are -/

/-- There is the outermost scope, and one for each frame that leaves one. -/
def Balanced (machine : Machine) : Prop :=
  machine.environment.depth = 1 + Frame.scopeCount machine.frames

theorem Balanced.step {result : Step} (balanced : machine.Balanced)
    (stepped : machine.step = (.ok result, next)) : next.Balanced := by
  unfold Balanced at *
  cases stack : machine.frames with
  | nil =>
    rw [step_of_frames_nil stack] at stepped
    cases stepped
    exact balanced
  | cons frame below =>
    obtain ⟨left, turns, frames_eq⟩ := turns_of_step stack stepped
    have split : Frame.scopeCount (frame :: below) =
        Frame.scopeCount [frame] + Frame.scopeCount below := Frame.scopeCount_append [frame] below
    have depth := turns.depth_eq (1 + Frame.scopeCount below) (by omega)
      (by rw [balanced, stack, split]; omega)
    rw [depth, frames_eq, Frame.scopeCount_append]
    omega

theorem Balanced.after {steps : Nat} (balanced : machine.Balanced) (goes : machine.Goes steps) :
    (machine.after steps).Balanced := by
  induction steps with
  | zero => exact balanced
  | succ steps ih =>
    obtain ⟨result, succeeds⟩ := goes steps (Nat.lt_succ_self steps)
    exact (ih fun earlier less => goes earlier (Nat.lt_succ_of_lt less)).step
      (Prod.ext succeeds rfl)

theorem balanced_start (program : Program) (limits : Limits) :
    (Machine.start program limits).Balanced := by
  simp [Balanced, Machine.start, Environment.depth, Environment.scopes, Environment.empty]

/-! ### Which scope is left -/

/-- The frame above the frames `below` is that of a block, carried out by the step `entry`, which
entered a scope inside those that there were.  Ever since there has been such a frame above these
frames, and more scopes than there were before. -/
structure BlockSince (machine : Machine) (entry now : Nat) (below : List Frame) : Prop where
  earlier : entry < now
  carries_out : ∃ body rest leaves outer,
    (machine.after entry).frames = .statements (.block body :: rest) leaves :: outer ∧
      below = .statements rest leaves :: outer
  enters : (machine.after (entry + 1)).environment = (machine.after entry).environment.enter
  stays : ∀ time, entry < time → time ≤ now →
    (∃ upper rest, (machine.after time).frames = upper ++ .statements rest true :: below) ∧
      (machine.after entry).environment.depth < (machine.after time).environment.depth

/-- The step that carries out a block adds its frame to those that are left, and nothing to the
scopes outside of it. -/
theorem BlockSince.scopeCount_eq {entry now : Nat} {below : List Frame}
    (since : machine.BlockSince entry now below) :
    Frame.scopeCount (machine.after entry).frames = Frame.scopeCount below := by
  obtain ⟨body, rest, leaves, outer, frames_eq, rfl⟩ := since.carries_out
  rw [frames_eq, Frame.scopeCount_statements, Frame.scopeCount_statements]

theorem BlockSince.succ {entry now : Nat} {upper below : List Frame} {rest : List Statement}
    (since : machine.BlockSince entry now below) (balanced : machine.Balanced)
    (goes : machine.Goes (now + 1))
    (frames_eq : (machine.after (now + 1)).frames = upper ++ .statements rest true :: below) :
    machine.BlockSince entry (now + 1) below := by
  refine ⟨Nat.lt_succ_of_lt since.earlier, since.carries_out, since.enters, ?_⟩
  intro time later le
  by_cases before : time ≤ now
  · exact since.stays time later before
  · obtain rfl : time = now + 1 := by omega
    have depth : (machine.after (now + 1)).Balanced := balanced.after goes
    have depth_entry : (machine.after entry).Balanced :=
      balanced.after fun earlier less => goes earlier (by have := since.earlier; omega)
    refine ⟨⟨upper, rest, frames_eq⟩, ?_⟩
    unfold Balanced at depth depth_entry
    rw [frames_eq, Frame.scopeCount_append, Frame.scopeCount_statements] at depth
    rw [depth, depth_entry, since.scopeCount_eq, Bool.toNat_true]
    omega

/-- Every frame that leaves a scope is that of a block which entered one. -/
theorem blockSince_of_frames (balanced : machine.Balanced)
    (none_yet : Frame.scopeCount machine.frames = 0) {now : Nat} (goes : machine.Goes now) :
    ∀ {upper below : List Frame} {rest : List Statement},
      (machine.after now).frames = upper ++ .statements rest true :: below →
        ∃ entry, machine.BlockSince entry now below := by
  induction now with
  | zero =>
    intro upper below rest frames_eq
    -- No scope but the outermost has been entered before the first step.
    have frames_eq : machine.frames = upper ++ .statements rest true :: below := frames_eq
    simp [frames_eq] at none_yet
  | succ now ih =>
    intro upper below rest frames_eq
    have goes_before : machine.Goes now := fun earlier less => goes earlier (Nat.lt_succ_of_lt less)
    obtain ⟨result, succeeds⟩ := goes now (Nat.lt_succ_self now)
    have stepped : (machine.after now).step = (.ok result, machine.after (now + 1)) :=
      Prod.ext succeeds rfl
    cases stack : (machine.after now).frames with
    | nil =>
      rw [step_of_frames_nil stack] at stepped
      rw [← (Prod.mk.inj stepped).2, stack] at frames_eq
      simp at frames_eq
    | cons frame others =>
      obtain ⟨left, turns, same⟩ := turns_of_step stack stepped
      rw [same] at frames_eq
      -- The frame lies below the top one, or it is part of what has replaced the top one.
      rcases List.append_eq_append_iff.mp frames_eq with
        ⟨more, rfl, others_eq⟩ | ⟨lower, left_eq, rest_eq⟩
      · have here : (machine.after now).frames =
            (frame :: more) ++ .statements rest true :: below := by rw [stack, others_eq]; rfl
        obtain ⟨entry, since⟩ := ih goes_before here
        exact ⟨entry, since.succ balanced goes (same.trans frames_eq)⟩
      · cases lower with
        | nil =>
          have here : (machine.after now).frames = [frame] ++ .statements rest true :: below := by
            rw [stack, rest_eq]
            rfl
          obtain ⟨entry, since⟩ := ih goes_before here
          exact ⟨entry, since.succ balanced goes (same.trans frames_eq)⟩
        | cons scope lower =>
          obtain ⟨rfl, rfl⟩ := List.cons.inj rest_eq
          rcases turns.scopeFrame left_eq with
            ⟨rfl, more, rfl⟩ | ⟨body, kept, leaves, rfl, rfl, enters⟩
          · obtain ⟨entry, since⟩ := @ih goes_before [] others more stack
            exact ⟨entry, since.succ balanced goes (same.trans frames_eq)⟩
          · refine ⟨now, Nat.lt_succ_self now, ⟨body, kept, leaves, others, stack, rfl⟩, enters, ?_⟩
            intro time later le
            obtain rfl : time = now + 1 := by omega
            refine ⟨⟨upper, rest, same.trans frames_eq⟩, ?_⟩
            rw [enters, Environment.depth_enter]
            exact Nat.lt_succ_self _

/-- How the scopes and the frames of a machine agree, in a state of a run of a program. -/
structure ScopesFollow (program : Program) (limits : Limits) (machine : Machine) : Prop where
  /-- Besides the outermost scope there is one scope for each frame that leaves one. -/
  depth_eq : machine.environment.depth = 1 + Frame.scopeCount machine.frames
  /-- At the end of a run there is only the outermost scope. -/
  depth_of_finished : machine.isFinished = true → machine.environment.depth = 1
  /-- The scope that is left when a frame is over was entered when the block of this frame was
  carried out, and has been there since; it is not the outermost one. -/
  leaves_own : ∀ below, machine.frames = .statements [] true :: below →
    ∃ entry now, machine = (Machine.start program limits).after now ∧
      (Machine.start program limits).BlockSince entry now below ∧
      machine.environment.depth =
        ((Machine.start program limits).after entry).environment.depth + 1 ∧
      ∀ result next, machine.step = (.ok result, next) →
        next.frames = below ∧ next.environment = machine.environment.exit ∧
          next.environment.depth =
            ((Machine.start program limits).after entry).environment.depth
  /-- A step that fails leaves no frames, and as many scopes as there were. -/
  fails : ∀ error next, machine.step = (.error error, next) →
    next.frames = [] ∧ next.environment.depth = machine.environment.depth

/-- The scopes follow the frames in every state that is reached without an error. -/
theorem scopes_follow_frames {program : Program} {limits : Limits}
    (reachable : Reachable program limits machine) : ScopesFollow program limits machine := by
  obtain ⟨now, goes, rfl⟩ := reachable.after
  have start := balanced_start program limits
  have balanced := start.after goes
  refine ⟨balanced, ?_, ?_, ?_⟩
  · intro finished
    rw [balanced, List.isEmpty_iff.mp finished, Frame.scopeCount_nil]
  · intro below frames_eq
    obtain ⟨entry, since⟩ := blockSince_of_frames start (by simp [Machine.start]) goes
      (show _ = [] ++ Frame.statements [] true :: below from frames_eq)
    have depth_entry : ((Machine.start program limits).after entry).Balanced :=
      start.after fun earlier less => goes earlier (Nat.lt_trans less since.earlier)
    have depth : ((Machine.start program limits).after now).environment.depth =
        ((Machine.start program limits).after entry).environment.depth + 1 := by
      rw [balanced, depth_entry, since.scopeCount_eq, frames_eq, Frame.scopeCount_statements,
        Bool.toNat_true, Nat.add_assoc]
    refine ⟨entry, now, rfl, since, depth, ?_⟩
    intro result next stepped
    obtain ⟨left, turns, frames_next⟩ := turns_of_step frames_eq stepped
    obtain ⟨rfl, exits⟩ := turns.closes
    -- The scope that the block was carried out in is still there, so there is one to be closed.
    have outside := ((Machine.start program limits).after entry).environment.depth_pos
    have closed := Environment.depth_exit (by rw [depth]; omega)
    rw [if_pos rfl] at exits
    rw [exits]
    exact ⟨frames_next, rfl, by omega⟩
  · intro error next stepped
    have stopped := stopped_of_step stepped
    exact ⟨stopped.frames_nil, Environment.depth_eq_of_bindings_eq stopped.bindings_eq⟩

/-- Two empty blocks, one inside the other, before the inner one is left. -/
theorem scopes_follow_frames_nested :
    let program : Program := ⟨[.block [.block []]]⟩
    let machine := (Machine.start program .unbounded).after 2
    Reachable program .unbounded machine ∧
      machine.frames = [.statements [] true, .statements [] true, .statements [] false] ∧
        ScopesFollow program .unbounded machine := by
  intro program machine
  have reachable : Reachable program .unbounded machine :=
    .step (.step .start rfl) (show Machine.step _ = (.ok .advanced, machine) from rfl)
  exact ⟨reachable, rfl, scopes_follow_frames reachable⟩

end Machine

end BlockScript
