import BlockScript.Proofs.Build.Passes

/-!
# Histories of a request to stop

One request to stop can be shared by many builds, and by everything that may stop them.  It is made
and withdrawn on purpose, or made by what carries out the commands of a build; a build itself does
neither.  So a stop is requested if it has been requested since it was last withdrawn, and as long as
it is, no build carries out anything (`requests_stand_until_withdrawn`).
-/

namespace BlockScript

/-! ### Requests and withdrawals -/

namespace Cancellation

/-- What happens to a request to stop. -/
inductive Event where
  | request
  | withdraw
  deriving DecidableEq

/-- The request to stop behind some events. -/
def behind (events : List Event) (cancellation : Cancellation) : Cancellation :=
  events.foldl
    (fun
      | cancellation, .request => cancellation.request
      | cancellation, .withdraw => cancellation.withdraw)
    cancellation

theorem behind_append (first second : List Event) (cancellation : Cancellation) :
    cancellation.behind (first ++ second) = (cancellation.behind first).behind second :=
  List.foldl_append

/-- Among some events there is a request that is not withdrawn behind it. -/
def Stands (events : List Event) : Prop :=
  ∃ earlier later, events = earlier ++ .request :: later ∧ .withdraw ∉ later

theorem stands_cons {event : Event} {rest : List Event} :
    Stands (event :: rest) ↔ Stands rest ∨ event = .request ∧ .withdraw ∉ rest := by
  constructor
  · rintro ⟨_ | ⟨first, earlier⟩, later, same, standing⟩
    · cases same
      exact .inr ⟨rfl, standing⟩
    · cases same
      exact .inl ⟨earlier, later, rfl, standing⟩
  · rintro (⟨earlier, later, rfl, standing⟩ | ⟨rfl, standing⟩)
    · exact ⟨event :: earlier, later, rfl, standing⟩
    · exact ⟨[], rest, rfl, standing⟩

theorem requested_behind (events : List Event) (cancellation : Cancellation) :
    (cancellation.behind events).requested = true ↔
      Stands events ∨ cancellation.requested = true ∧ .withdraw ∉ events := by
  induction events generalizing cancellation with
  | nil => simp [behind, Stands]
  | cons event rest ih =>
    -- The first event matters only if none behind it does.
    refine (ih _).trans ?_
    rw [stands_cons]
    cases event with
    | request =>
      simp only [request, true_and, List.mem_cons, reduceCtorEq, false_or]
      grind
    | withdraw => simp [withdraw]

end Cancellation

open Cancellation (Event)

/-! ### Sinks that request a stop -/

/-- What carries out commands and may request a stop with each of them, but never withdraws the
request. -/
structure Canceller (State : Type) where
  place : Command → State → Cancellation → State × Bool

/-- Carries out commands, and writes down when a stop is requested. -/
def Canceller.sink {State : Type} (canceller : Canceller State) : Sink (State × List Event) where
  place command := fun ((state, events), cancellation) =>
    match canceller.place command state cancellation with
    | (next, true) => ((next, events ++ [.request]), cancellation.request)
    | (next, false) => ((next, events), cancellation)

theorem Canceller.after_eq {State : Type} (canceller : Canceller State) (commands : List Command)
    (state : State) (events : List Event) (cancellation : Cancellation) :
    ∃ last count, canceller.sink.after ((state, events), cancellation) commands =
      ((last, events ++ List.replicate count .request),
        cancellation.behind (List.replicate count .request)) := by
  induction commands generalizing state events cancellation with
  | nil => exact ⟨state, 0, by simp [Sink.after, Cancellation.behind]⟩
  | cons command rest ih =>
    -- Without a request nothing is written down, and the flag stays as it is.
    rcases placed : canceller.place command state cancellation with ⟨next, _ | _⟩
    · obtain ⟨last, count, after_rest⟩ := ih next events cancellation
      refine ⟨last, count, ?_⟩
      rw [← after_rest]
      simp only [Sink.after, List.foldl_cons, sink, placed]
    · obtain ⟨last, count, after_rest⟩ := ih next (events ++ [.request]) cancellation.request
      refine ⟨last, count + 1, ?_⟩
      rw [List.replicate_succ, List.append_cons]
      refine Eq.trans ?_ after_rest
      simp only [Sink.after, List.foldl_cons, sink, placed]

/-! ### What a build does to a request -/

namespace Sink

variable {State : Type} {sink : Sink State} {fuel : Nat} {limits : Limits}
  {state final : State × Cancellation}

/-- How many commands a build has carried out when it comes to an end: none if it fails. -/
def placedCount {Failure : Type} : Except Failure BuildOutcome → Nat
  | .ok outcome => outcome.placed
  | .error _ => 0

/-- A build changes nothing but by the commands that it carries out. -/
theorem exists_after_of_execute {program : Program} {outcome : Except RuntimeError BuildOutcome}
    (executed : sink.execute fuel program limits state = some (outcome, final)) :
    ∃ placed, final = sink.after state placed ∧ placed.length = placedCount outcome := by
  cases builds_of_execute executed with
  | stopped => exact ⟨[], rfl, rfl⟩
  | failed => exact ⟨[], rfl, rfl⟩
  | cancelled _ _ stops => exact ⟨_, rfl, List.length_take_of_le stops.le_length⟩
  | completed => exact ⟨_, rfl, rfl⟩

theorem exists_after_of_build {source : String} {outcome : Except Error BuildOutcome}
    (built : sink.build fuel source limits state = some (outcome, final)) :
    ∃ placed, final = sink.after state placed ∧ placed.length = placedCount outcome := by
  unfold build at built
  split at built
  · cases built
    exact ⟨[], rfl, rfl⟩
  · obtain ⟨⟨result, reached⟩, executed, same⟩ := Option.map_eq_some_iff.mp built
    cases same
    obtain ⟨placed, after_eq, length_eq⟩ := exists_after_of_execute executed
    refine ⟨placed, after_eq, ?_⟩
    cases result <;> exact length_eq

/-- A sink that leaves the request to stop alone. -/
theorem after_snd (alone : ∀ command state, (sink.place command state).2 = state.2)
    (placed : List Command) : (sink.after state placed).2 = state.2 := by
  induction placed generalizing state with
  | nil => rfl
  | cons command rest ih => exact ih.trans (alone command state)

/-- As long as a stop is requested a text that is no program is refused, and any other one is not
carried out. -/
theorem build_of_requested (sink : Sink State) (fuel : Nat) (source : String) (limits : Limits)
    (requested : state.2.requested = true) :
    sink.build (fuel + 1) source limits state =
      match Program.ofSource source with
      | .error error => some (.error error, state)
      | .ok _ => some (.ok (.cancelled 0), state) := by
  unfold build
  cases Program.ofSource source with
  | error error => rfl
  | ok program =>
    simp only [execute_of_requested sink fuel program limits requested]
    rfl

end Sink

theorem Program.phase_of_ofSource {source : String} {error : Error}
    (refused : Program.ofSource source = .error error) :
    error.phase = .lex ∨ error.phase = .parse := by
  unfold ofSource at refused
  split at refused
  · cases refused
    exact .inl rfl
  · split at refused <;> cases refused
    exact .inr rfl

/-! ### Histories -/

namespace Cancellation

/-- What can be done with a request to stop: it can be made, also by others that share it, it can be
withdrawn, and builds can be held under it. -/
inductive Act where
  | request
  | withdraw
  | execute {State : Type} (canceller : Canceller State) (state : State) (program : Program)
      (limits : Limits)
  | build {State : Type} (canceller : Canceller State) (state : State) (source : String)
      (limits : Limits)

/-- What an act, once it has come to an end, makes of a request to stop, and what happens to the
request meanwhile. -/
inductive Performs : Act → Cancellation → List Event → Cancellation → Prop where
  | request (before : Cancellation) : Performs .request before [.request] before.request
  | withdraw (before : Cancellation) : Performs .withdraw before [.withdraw] before.withdraw
  | execute {State : Type} {canceller : Canceller State}
      {state program limits fuel before outcome last events after} :
      canceller.sink.execute fuel program limits ((state, []), before) =
        some (outcome, (last, events), after) →
      Performs (.execute canceller state program limits) before events after
  | build {State : Type} {canceller : Canceller State}
      {state source limits fuel before outcome last events after} :
      canceller.sink.build fuel source limits ((state, []), before) =
        some (outcome, (last, events), after) →
      Performs (.build canceller state source limits) before events after

/-- Acts one after another, with all that happens to the request. -/
inductive History : Cancellation → List Act → List Event → Cancellation → Prop where
  | nil (cancellation : Cancellation) : History cancellation [] [] cancellation
  | cons {before middle after act acts events more} : Performs act before events middle →
      History middle acts more after → History before (act :: acts) (events ++ more) after

variable {before after : Cancellation} {events : List Event}

/-- A build has written down whatever has happened to the request. -/
theorem behind_of_after {State : Type} {canceller : Canceller State} {state last : State}
    {commands : List Command}
    (placed : ((last, events), after) = canceller.sink.after ((state, []), before) commands) :
    after = before.behind events ∧ .withdraw ∉ events := by
  obtain ⟨final, count, after_eq⟩ := canceller.after_eq commands state [] before
  cases placed.trans after_eq
  exact ⟨rfl, by simp⟩

/-- What an act makes of the request is what happens to it meanwhile, and only one of the acts
withdraws it. -/
theorem Performs.behind_eq {act : Act} (performs : Performs act before events after) :
    after = before.behind events ∧ (.withdraw ∈ events ↔ act = .withdraw) := by
  cases performs with
  | request => exact ⟨rfl, by simp⟩
  | withdraw => exact ⟨rfl, by simp⟩
  | execute executed =>
    obtain ⟨_, placed, -⟩ := Sink.exists_after_of_execute executed
    obtain ⟨same, standing⟩ := behind_of_after placed
    exact ⟨same, by simpa using standing⟩
  | build built =>
    obtain ⟨_, placed, -⟩ := Sink.exists_after_of_build built
    obtain ⟨same, standing⟩ := behind_of_after placed
    exact ⟨same, by simpa using standing⟩

theorem History.behind_eq {acts : List Act} (history : History before acts events after) :
    after = before.behind events := by
  induction history with
  | nil => rfl
  | cons performs _ ih => rw [ih, performs.behind_eq.1, behind_append]

end Cancellation

open Cancellation in
/-- A request to stop stands until it is withdrawn.  After any acts a stop is requested if and only
if among all that has happened there is a request, on purpose or by what carries out commands, that
has not been withdrawn since; and only on purpose is it withdrawn.  Whatever carries out the
commands, a build changes the request only by the commands that it counts as carried out.  And as
long as a stop is requested, a build does nothing at all and says so, unless its text is no program,
which it says first. -/
theorem requests_stand_until_withdrawn :
    (∀ acts events last, History .none acts events last →
      (last.requested = true ↔
        ∃ earlier later, events = earlier ++ .request :: later ∧ .withdraw ∉ later)) ∧
    (∀ act before events after, Performs act before events after →
      (.withdraw ∈ events ↔ act = .withdraw)) ∧
    ∀ (State : Type) (sink : Sink State) (limits : Limits) (state : State × Cancellation),
      (∀ fuel program outcome final,
        sink.execute fuel program limits state = some (outcome, final) →
          (∃ placed, final = sink.after state placed ∧
            placed.length = Sink.placedCount outcome) ∧
          ((∀ command state, (sink.place command state).2 = state.2) → final.2 = state.2)) ∧
      (∀ fuel source outcome final,
        sink.build fuel source limits state = some (outcome, final) →
          (∃ placed, final = sink.after state placed ∧
            placed.length = Sink.placedCount outcome) ∧
          ((∀ command state, (sink.place command state).2 = state.2) → final.2 = state.2)) ∧
      (state.2.requested = true → ∀ fuel,
        (∀ program, sink.execute (fuel + 1) program limits state =
          some (.ok (.cancelled 0), state)) ∧
        ∀ source, match Program.ofSource source with
          | .ok _ => sink.build (fuel + 1) source limits state = some (.ok (.cancelled 0), state)
          | .error error => (error.phase = .lex ∨ error.phase = .parse) ∧
            sink.build (fuel + 1) source limits state = some (.error error, state)) := by
  refine ⟨?_, fun _ _ _ _ performs => performs.behind_eq.2, ?_⟩
  · intro acts events last history
    rw [history.behind_eq, requested_behind]
    simp [Cancellation.none, Stands]
  intro State sink limits state
  refine ⟨fun fuel program outcome final executed => ?_, fun fuel source outcome final built => ?_,
    fun requested fuel => ⟨fun program => ?_, fun source => ?_⟩⟩
  · obtain ⟨placed, rfl, length_eq⟩ := Sink.exists_after_of_execute executed
    exact ⟨⟨placed, rfl, length_eq⟩, fun alone => Sink.after_snd alone placed⟩
  · obtain ⟨placed, rfl, length_eq⟩ := Sink.exists_after_of_build built
    exact ⟨⟨placed, rfl, length_eq⟩, fun alone => Sink.after_snd alone placed⟩
  · exact Sink.execute_of_requested sink fuel program limits requested
  · have built := sink.build_of_requested fuel source limits requested
    cases compiled : Program.ofSource source with
    | ok program => rwa [compiled] at built
    | error error =>
      rw [compiled] at built
      exact ⟨Program.phase_of_ofSource compiled, built⟩

end BlockScript
