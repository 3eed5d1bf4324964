import BlockScript.Build
import BlockScript.Proofs.Runner.Yield
import Mathlib.Data.Nat.Find

/-!
# The two passes of a build

The first pass of a build finds out what a runner yields, the second one carries it out.  A sink
may request a stop, or withdraw the request, with every command; the build stops behind the first
command after which a stop is requested, and it fails only before anything has been carried out.
-/

namespace BlockScript.Sink

variable {State : Type}

/-- The state of a sink, and the request to stop, after some commands. -/
def after (sink : Sink State) (state : State × Cancellation) (commands : List Command) :
    State × Cancellation :=
  commands.foldl (fun state command => sink.place command state) state

/-- A stop is requested right behind the command with the given number, counted from one, and behind
none before it. -/
structure StopsAt (sink : Sink State) (state : State × Cancellation) (commands : List Command)
    (count : Nat) : Prop where
  pos : 1 ≤ count
  le_length : count ≤ commands.length
  requested : (sink.after state (commands.take count)).2.requested = true
  first : ∀ earlier, 1 ≤ earlier → earlier < count →
    (sink.after state (commands.take earlier)).2.requested = false

/-- No command makes the sink request a stop. -/
def NeverStops (sink : Sink State) (state : State × Cancellation) (commands : List Command) : Prop :=
  ∀ count, 1 ≤ count → count ≤ commands.length →
    (sink.after state (commands.take count)).2.requested = false

/-- The outcome of a build, told from what a runner yields. -/
inductive Builds (sink : Sink State) (program : Program) (limits : Limits)
    (state : State × Cancellation) :
    Except RuntimeError BuildOutcome × State × Cancellation → Prop where
  /-- A stop requested beforehand comes before everything else. -/
  | stopped :
    state.2.requested = true → Builds sink program limits state (.ok (.cancelled 0), state)
  | failed {commands error} :
    state.2.requested = false → (Runner.start program limits).Yields commands (some error) →
      Builds sink program limits state (.error error, state)
  | cancelled {commands count} :
    state.2.requested = false → (Runner.start program limits).Yields commands none →
      sink.StopsAt state commands count →
      Builds sink program limits state
        (.ok (.cancelled count), sink.after state (commands.take count))
  | completed {commands} :
    state.2.requested = false → (Runner.start program limits).Yields commands none →
      sink.NeverStops state commands →
      Builds sink program limits state
        (.ok (.completed commands.length), sink.after state commands)

/-! ### One pass -/

/-- Carries out commands up to the first request to stop, and counts them on.  Behind the last one
the pass ends as the run does. -/
def carry (sink : Sink State) (failure : Option RuntimeError) (commands : List Command)
    (placed : Nat) (state : State × Cancellation) :
    Except RuntimeError BuildOutcome × State × Cancellation :=
  if state.2.requested then (.ok (.cancelled placed), state)
  else
    match commands with
    | command :: rest => sink.carry failure rest (placed + 1) (sink.place command state)
    | [] =>
      match failure with
      | some error => (.error error, state)
      | none => (.ok (.completed placed), state)

section

variable {sink : Sink State} {state : State × Cancellation}

theorem carry_of_requested (requested : state.2.requested = true) (failure : Option RuntimeError)
    (commands : List Command) (placed : Nat) :
    sink.carry failure commands placed state = (.ok (.cancelled placed), state) := by
  unfold carry
  rw [if_pos requested]

theorem carry_cons (going : state.2.requested = false) (failure : Option RuntimeError)
    (command : Command) (rest : List Command) (placed : Nat) :
    sink.carry failure (command :: rest) placed state =
      sink.carry failure rest (placed + 1) (sink.place command state) := by
  rw [carry, if_neg (by simp [going])]

theorem carry_nil (going : state.2.requested = false) (failure : Option RuntimeError)
    (placed : Nat) :
    sink.carry failure [] placed state =
      (match failure with
        | some error => .error error
        | none => .ok (.completed placed), state) := by
  unfold carry
  rw [if_neg (by simp [going])]
  cases failure <;> rfl

end

/-- A pass carries out what its runner yields. -/
theorem carryOut_of_drain (sink : Sink State) {fuel pulls : Nat} {runner last : Runner}
    {commands : List Command} {failure : Option RuntimeError}
    (drained : runner.drain fuel pulls [] = some (commands, failure, last)) (placed : Nat)
    (state : State × Cancellation) :
    sink.carryOut fuel pulls runner placed state =
      some (sink.carry failure commands placed state) := by
  induction pulls generalizing runner commands placed state with
  | zero => cases drained
  | succ pulls ih =>
    unfold carryOut carry
    split
    · rfl
    · unfold Runner.drain at drained
      -- No answer, an error, the end of the run, or one more command.
      rcases pulled : runner.next fuel with _ | ⟨error | _ | command, next⟩
      all_goals rw [pulled] at drained
      · cases drained
      · cases drained
        rfl
      · cases drained
        rfl
      · replace drained : next.drain fuel pulls [command] = some (commands, failure, last) := drained
        rw [Runner.drain_taken] at drained
        obtain ⟨⟨rest, ending, runner⟩, drained, same⟩ := Option.map_eq_some_iff.mp drained
        cases same
        exact ih drained _ _

/-- Nothing stops a pass without effects, so it ends only where its run does. -/
theorem drain_of_carryOut_null {fuel pulls placed : Nat} {runner : Runner}
    {state : State × Cancellation} {outcome : Except RuntimeError BuildOutcome × State × Cancellation}
    (going : state.2.requested = false)
    (carried : (null : Sink State).carryOut fuel pulls runner placed state = some outcome) :
    ∃ commands failure last, runner.drain fuel pulls [] = some (commands, failure, last) := by
  induction pulls generalizing runner placed with
  | zero => cases carried
  | succ pulls ih =>
    unfold carryOut at carried
    rw [if_neg (by simp [going])] at carried
    unfold Runner.drain
    rcases pulled : runner.next fuel with _ | ⟨error | _ | command, next⟩
    all_goals rw [pulled] at carried
    · cases carried
    · exact ⟨_, _, _, rfl⟩
    · exact ⟨_, _, _, rfl⟩
    · obtain ⟨commands, failure, last, drained⟩ := ih carried
      refine ⟨command :: commands, failure, last, ?_⟩
      change next.drain fuel pulls [command] = _
      rw [Runner.drain_taken, drained]
      rfl

/-! ### How far commands are carried out -/

theorem carry_null (failure : Option RuntimeError) (commands : List Command) (placed : Nat)
    {state : State × Cancellation} (going : state.2.requested = false) :
    (null : Sink State).carry failure commands placed state =
      (match failure with
        | some error => .error error
        | none => .ok (.completed (placed + commands.length)), state) := by
  induction commands generalizing placed with
  | nil => exact carry_nil going failure placed
  | cons command rest ih =>
    rw [carry_cons going, List.length_cons, Nat.add_comm rest.length, ← Nat.add_assoc]
    exact ih (placed + 1)

theorem carry_of_stopsAt {sink : Sink State} {commands : List Command} {count placed : Nat}
    {state : State × Cancellation} (going : state.2.requested = false)
    (stops : sink.StopsAt state commands count) :
    sink.carry none commands placed state =
      (.ok (.cancelled (placed + count)), sink.after state (commands.take count)) := by
  obtain ⟨count, rfl⟩ := Nat.exists_eq_add_of_le' stops.pos
  induction commands generalizing count placed state with
  | nil => exact absurd stops.le_length (by simp)
  | cons command rest ih =>
    rw [carry_cons going]
    have requested := stops.requested
    rw [List.take_succ_cons] at requested ⊢
    -- Either the command just carried out is the one, or the rest stops one command earlier.
    cases count with
    | zero => exact carry_of_requested requested none rest (placed + 1)
    | succ count =>
      have still_going : (sink.place command state).2.requested = false :=
        stops.first 1 (Nat.le_refl 1) (by omega)
      have later : sink.StopsAt (sink.place command state) rest (count + 1) :=
        { pos := by omega
          le_length := Nat.le_of_succ_le_succ stops.le_length
          requested := requested
          first := fun earlier _ less => stops.first (earlier + 1) (by omega) (by omega) }
      rw [ih still_going count later, Nat.add_assoc, Nat.add_comm 1]
      rfl

theorem carry_of_neverStops {sink : Sink State} {commands : List Command} {placed : Nat}
    {state : State × Cancellation} (going : state.2.requested = false)
    (never : sink.NeverStops state commands) :
    sink.carry none commands placed state =
      (.ok (.completed (placed + commands.length)), sink.after state commands) := by
  induction commands generalizing placed state with
  | nil => exact carry_nil going none placed
  | cons command rest ih =>
    have still_going : (sink.place command state).2.requested = false :=
      never 1 (Nat.le_refl 1) (by simp)
    have later : sink.NeverStops (sink.place command state) rest :=
      fun count _ le => never (count + 1) (by omega) (Nat.succ_le_succ le)
    rw [carry_cons going, ih still_going later, List.length_cons, Nat.add_assoc, Nat.add_comm 1]
    rfl

theorem stopsAt_or_neverStops (sink : Sink State) (state : State × Cancellation)
    (commands : List Command) :
    (∃ count, sink.StopsAt state commands count) ∨ sink.NeverStops state commands := by
  by_cases stops : ∃ count, 1 ≤ count ∧ count ≤ commands.length ∧
      (sink.after state (commands.take count)).2.requested = true
  · -- The least such command is the first one.
    left
    obtain ⟨pos, le_length, requested⟩ := Nat.find_spec stops
    refine ⟨Nat.find stops, pos, le_length, requested, fun earlier least less => ?_⟩
    have not_yet := Nat.find_min stops less
    simp only [not_and, Bool.not_eq_true] at not_yet
    exact not_yet least (by omega)
  · right
    intro count least le
    simpa using fun requested => stops ⟨count, least, le, requested⟩

/-! ### Both passes -/

theorem execute_of_requested (sink : Sink State) (fuel : Nat) (program : Program) (limits : Limits)
    {state : State × Cancellation} (requested : state.2.requested = true) :
    sink.execute (fuel + 1) program limits state = some (.ok (.cancelled 0), state) := by
  simp [execute, carryOut, requested]

/-- If no stop is requested beforehand, a build does what its runner says. -/
theorem execute_of_drain (sink : Sink State) {fuel : Nat} {program : Program} {limits : Limits}
    {state : State × Cancellation} {commands : List Command} {failure : Option RuntimeError}
    {last : Runner} (going : state.2.requested = false)
    (drained : (Runner.start program limits).drain fuel fuel [] = some (commands, failure, last)) :
    sink.execute fuel program limits state =
      match failure with
      | some error => some (.error error, state)
      | none => some (sink.carry none commands 0 state) := by
  unfold execute
  rw [carryOut_of_drain null drained, carry_null failure commands 0 going]
  cases failure with
  | some error => rfl
  | none => exact carryOut_of_drain sink drained 0 state

theorem builds_of_execute {sink : Sink State} {fuel : Nat} {program : Program} {limits : Limits}
    {state : State × Cancellation} {outcome : Except RuntimeError BuildOutcome × State × Cancellation}
    (executed : sink.execute fuel program limits state = some outcome) :
    sink.Builds program limits state outcome := by
  cases requested : state.2.requested with
  | true =>
    cases fuel with
    | zero => cases executed
    | succ fuel =>
      rw [execute_of_requested sink fuel program limits requested] at executed
      cases executed
      exact .stopped requested
  | false =>
    -- The dry pass has ended, which it does only where the run ends.
    obtain ⟨commands, failure, last, drained⟩ :
        ∃ commands failure last, (Runner.start program limits).drain fuel fuel [] =
          some (commands, failure, last) := by
      unfold execute at executed
      split at executed
      · cases executed
      all_goals next dry => exact drain_of_carryOut_null requested dry
    have yields := Runner.yields_of_drain drained
    rw [execute_of_drain sink requested drained] at executed
    cases failure with
    | some error =>
      cases executed
      exact .failed requested yields
    | none =>
      rcases stopsAt_or_neverStops sink state commands with ⟨count, stops⟩ | never
      · rw [carry_of_stopsAt requested stops, Nat.zero_add] at executed
        cases executed
        exact .cancelled requested yields stops
      · rw [carry_of_neverStops requested never, Nat.zero_add] at executed
        cases executed
        exact .completed requested yields never

theorem execute_of_builds {sink : Sink State} {program : Program} {limits : Limits}
    {state : State × Cancellation} {outcome : Except RuntimeError BuildOutcome × State × Cancellation}
    (builds : sink.Builds program limits state outcome) :
    ∃ fuel, sink.execute fuel program limits state = some outcome := by
  cases builds with
  | stopped requested => exact ⟨1, execute_of_requested sink 0 program limits requested⟩
  | failed going yields =>
    obtain ⟨fuel, enough⟩ := yields
    obtain ⟨last, drained⟩ := enough fuel (Nat.le_refl fuel)
    exact ⟨fuel, execute_of_drain sink going drained⟩
  | cancelled going yields stops =>
    obtain ⟨fuel, enough⟩ := yields
    obtain ⟨last, drained⟩ := enough fuel (Nat.le_refl fuel)
    refine ⟨fuel, (execute_of_drain sink going drained).trans ?_⟩
    rw [carry_of_stopsAt going stops, Nat.zero_add]
  | completed going yields never =>
    obtain ⟨fuel, enough⟩ := yields
    obtain ⟨last, drained⟩ := enough fuel (Nat.le_refl fuel)
    refine ⟨fuel, (execute_of_drain sink going drained).trans ?_⟩
    rw [carry_of_neverStops going never, Nat.zero_add]

/-- Once the first pass has gone to the end, the second one does not fail. -/
theorem carryOut_ne_error (sink : Sink State) {fuel placed : Nat} {runner : Runner}
    {state between final : State × Cancellation} {error : RuntimeError}
    (dry : null.carryOut fuel fuel runner 0 state = some (.ok (.completed placed), between)) :
    sink.carryOut fuel fuel runner 0 between ≠ some (.error error, final) := by
  -- A request beforehand would have ended the first pass at once.
  have going : state.2.requested = false := by
    cases fuel with
    | zero => cases dry
    | succ fuel =>
      by_contra requested
      rw [Bool.not_eq_false] at requested
      simp [carryOut, requested] at dry
  obtain ⟨commands, failure, last, drained⟩ := drain_of_carryOut_null going dry
  rw [carryOut_of_drain null drained, carry_null failure commands 0 going] at dry
  cases failure with
  | some failed => cases dry
  | none =>
    cases dry
    rw [carryOut_of_drain sink drained]
    rcases stopsAt_or_neverStops sink state commands with ⟨count, stops⟩ | never
    · rw [carry_of_stopsAt going stops]
      exact nofun
    · rw [carry_of_neverStops going never]
      exact nofun

/-- A build either stops before it begins, or fails without having carried out anything, or carries
out what a runner yields up to the first command behind which a stop is requested.  Once its first
pass has gone to the end, its second pass does not fail. -/
theorem execute_iff_builds (sink : Sink State) (program : Program) (limits : Limits)
    (state : State × Cancellation) :
    (∀ outcome, (∃ fuel, sink.execute fuel program limits state = some outcome) ↔
      sink.Builds program limits state outcome) ∧
    ∀ fuel placed between error final,
      ¬(null.carryOut fuel fuel (.start program limits) 0 state =
          some (.ok (.completed placed), between) ∧
        sink.carryOut fuel fuel (.start program limits) 0 between = some (.error error, final)) := by
  constructor
  · intro outcome
    exact ⟨fun ⟨_, executed⟩ => builds_of_execute executed, execute_of_builds⟩
  · rintro fuel placed between error final ⟨dry, real⟩
    exact carryOut_ne_error sink dry real

end BlockScript.Sink
