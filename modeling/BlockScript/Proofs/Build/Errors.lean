import BlockScript.Proofs.Build.Passes
import BlockScript.Proofs.Grammar.Kinds
import BlockScript.Proofs.Machine.Errors
import BlockScript.Proofs.Token.Faults

/-!
# Errors belong to their phase

A text that is no program has an error that lies in the text: where its scan fails, or at the start
of one of its tokens (`Program.locates_of_ofSource`).  A program that fails has an error without a
place, which its own text or a limit accounts for (`errors_belong_to_phases`).
-/

namespace BlockScript

/-! ### Places in a text -/

/-- The line and the column of a character of a text, or of its end. -/
def Position.LiesIn (position : Position) (source : List Char) : Prop :=
  ∃ offset ≤ source.length, position = .behind (source.take offset)

/-- A token starts where its position says, with its own characters or, if it is the end token, at
the end of the text. -/
def Token.StandsIn (token : Token) (source : List Char) : Prop :=
  ∃ front behind, source = front ++ token.lexeme.toList ++ behind ∧ token.position = .behind front ∧
    if token.kind = .eof then token.lexeme = "" ∧ behind = [] else token.lexeme ≠ ""

theorem Position.liesIn_of_front {front behind : List Char} :
    (Position.behind front).LiesIn (front ++ behind) :=
  ⟨front.length, by simp, by rw [List.take_left]⟩

theorem Token.StandsIn.liesIn {token : Token} {source : List Char} (stands : token.StandsIn source) :
    token.position.LiesIn source := by
  obtain ⟨front, behind, rfl, position, -⟩ := stands
  rw [position, List.append_assoc]
  exact Position.liesIn_of_front

/-- All tokens of a text stand in it, and there is no need to add an end token to them. -/
theorem Token.standsIn_of_scan {source : String} {tokens : List Token}
    (scanned : scan source = .ok tokens) :
    (∀ token ∈ tokens, token.StandsIn source.toList) ∧ closed tokens = tokens := by
  obtain ⟨items, tail, stop, laid, source_eq, stops, outcome⟩ :=
    Spaced.laid_of_scans (scans_scan source)
  rw [scanned] at outcome
  cases stops with
  | fault => cases outcome
  | finish =>
    obtain rfl := Except.ok.inj outcome
    refine ⟨List.forall_mem_append.mpr ⟨?_, List.forall_mem_singleton.mpr ?_⟩, ?_⟩
    · intro token member
      obtain ⟨item, isItem, rfl⟩ := List.mem_map.mp member
      have sound := laid.sound item isItem
      -- In front of a token stand the tokens before it and the gap of its own.
      obtain ⟨earlier, later, rfl⟩ := List.append_of_mem isItem
      refine ⟨Spaced.textAll earlier ++ item.gap, Spaced.textAll later ++ tail, ?_, ?_, ?_⟩
      · rw [source_eq]
        simp [Spaced.textAll, Spaced.text]
      · rw [laid.position_eq, Position.start_after]
      · rw [if_neg sound.kind_ne_eof]
        exact sound.lexeme_ne_empty
    · refine ⟨source.toList, [], by simp [endAt], ?_, by simp [endAt]⟩
      rw [endAt, ← Position.after_append, ← source_eq, Position.start_after]
    · simp [closed, endAt]

/-! ### Errors of texts -/

theorem ReadAlike.exists_token {first second : List Token} {cause : SyntaxError}
    {other : Except SyntaxError Program} (alike : ReadAlike first second (.error cause) other) :
    ∃ token ∈ Token.closed first, cause.position = token.position := by
  cases alike with
  | error fault _ isHere _ => exact ⟨_, List.mem_of_getElem? isHere, rfl⟩

/-- A fault in a list of tokens is told at the place of one of them. -/
theorem Program.exists_token_of_error {tokens : List Token} {cause : SyntaxError}
    (rejected : Program.ofTokens tokens = .error cause) :
    ∃ token ∈ Token.closed tokens, cause.position = token.position := by
  -- The list is read like itself.
  have alike := @readAlike_of_kinds tokens tokens rfl
  generalize same : Program.ofTokens tokens = outcome at alike
  rw [same.symm.trans rejected] at alike
  exact alike.exists_token

/-- Where an error of a text lies: where the scan fails, or at one of the tokens. -/
inductive Error.Locates (source : String) : Error → Prop where
  | lex {cause offset} : Token.scan source = .error cause →
      FailsAt source.toList offset cause.fault →
      cause.position = .behind (source.toList.take offset) → Locates source (.lex cause)
  | parse {cause tokens token} : Token.scan source = .ok tokens →
      Program.ofTokens tokens = .error cause → token ∈ tokens → token.StandsIn source.toList →
      cause.position = token.position → Locates source (.parse cause)

theorem Error.Locates.exists_position {source : String} {error : Error}
    (locates : error.Locates source) :
    ∃ position, error.position? = some position ∧ position.LiesIn source.toList := by
  cases locates with
  | lex _ fails position => exact ⟨_, rfl, _, Nat.le_of_lt fails.offset_lt, position⟩
  | parse _ _ _ stands position => exact ⟨_, rfl, position ▸ stands.liesIn⟩

theorem Program.locates_of_ofSource {source : String} {error : Error}
    (refused : Program.ofSource source = .error error) : error.Locates source := by
  unfold ofSource at refused
  split at refused
  · next cause failed =>
    cases refused
    obtain ⟨offset, fails⟩ := FailsAt.of_scan failed
    have placed := fails.scan_eq
    rw [String.ofList_toList, failed] at placed
    exact .lex failed fails (congrArg LexError.position (Except.error.inj placed))
  · next tokens scanned =>
    split at refused <;> cases refused
    next cause rejected =>
      obtain ⟨stand, closed⟩ := Token.standsIn_of_scan scanned
      obtain ⟨token, member, position⟩ := exists_token_of_error rejected
      rw [closed] at member
      exact .parse scanned rejected member (stand token member) position

/-! ### Errors of programs -/

variable {State : Type} {sink : Sink State} {limits : Limits} {state after : State × Cancellation}

theorem Runner.faults_of_yields {program : Program} {commands : List Command} {error : RuntimeError}
    (yields : (Runner.start program limits).Yields commands (some error)) :
    program.Faults limits error := by
  obtain ⟨enough, drained⟩ := yields
  obtain ⟨last, drained⟩ := drained enough (Nat.le_refl enough)
  refine @faults_of_finish _ _ enough enough _ ?_
  rw [finish_eq_drain _ _ [], drained]
  rfl

theorem Sink.faults_of_execute {program : Program} {fuel : Nat} {error : RuntimeError}
    (executed : sink.execute fuel program limits state = some (.error error, after)) :
    program.Faults limits error := by
  cases builds_of_execute executed with
  | failed _ yields => exact Runner.faults_of_yields yields

/-- A build fails because its text is no program, or because the program fails. -/
theorem Sink.error_of_build {source : String} {fuel : Nat} {error : Error}
    (built : sink.build fuel source limits state = some (.error error, after)) :
    Program.ofSource source = .error error ∨
      ∃ program cause, Program.ofSource source = .ok program ∧ error = .runtime cause ∧
        program.Faults limits cause := by
  unfold build at built
  split at built
  · next cause refused =>
    cases built
    exact .inl refused
  · next program accepted =>
    obtain ⟨⟨outcome, final⟩, executed, same⟩ := Option.map_eq_some_iff.mp built
    cases outcome with
    | ok outcome => cases same
    | error cause =>
      cases same
      exact .inr ⟨program, cause, accepted, rfl, faults_of_execute executed⟩

/-- Errors belong to their phase.  A text that is no program has an error of the scan or of the
parser, which tells the line and the column of a character of the text or of its end: those at which
the scan fails, or those of the start of a token.  Whatever runs a program fails with an error of the
run alone: a name that is read or assigned to in the program, an operator that occurs in it, a
coordinate, or a limit that is set.  A build fails with one or the other, and only an error of the
text has a place. -/
theorem errors_belong_to_phases :
    (∀ source error, Program.ofSource source = .error error → error.Locates source ∧
      ∃ position, error.position? = some position ∧ position.LiesIn source.toList) ∧
    (∀ (program : Program) (limits : Limits) (error : RuntimeError),
      (∀ calls returned last, (Machine.start program limits).Calls calls returned last →
        .error error ∈ returned → program.Faults limits error) ∧
      (∀ answers last, (Runner.start program limits).Pulls answers last →
        .error error ∈ answers → program.Faults limits error) ∧
      (∀ fuel, program.validate fuel limits = some (.error error) → program.Faults limits error) ∧
      ∀ (State : Type) (sink : Sink State) (fuel : Nat) (state after : State × Cancellation),
        sink.execute fuel program limits state = some (.error error, after) →
          program.Faults limits error) ∧
    ∀ (State : Type) (sink : Sink State) (fuel : Nat) (source : String) (limits : Limits)
      (state after : State × Cancellation) (error : Error),
      sink.build fuel source limits state = some (.error error, after) →
        (error.isRuntime = false ∧ error.Locates source) ∨
          (error.isRuntime = true ∧ error.position? = none ∧
            ∃ program cause, Program.ofSource source = .ok program ∧ error = .runtime cause ∧
              program.Faults limits cause) := by
  refine ⟨fun source error refused => ?_, fun program limits error => ⟨?_, ?_, ?_, ?_⟩, ?_⟩
  · have locates := Program.locates_of_ofSource refused
    exact ⟨locates, locates.exists_position⟩
  · intro calls returned last called member
    exact (Machine.runsOn_start program limits).faults_of_calls called member
  · intro answers last pulls member
    exact pulls.faults (Machine.runsOn_start program limits) member
  · intro fuel invalid
    exact Program.faults_of_validate invalid
  · intro State sink fuel state after executed
    exact Sink.faults_of_execute executed
  · intro State sink fuel source limits state after error built
    rcases Sink.error_of_build built with refused | ⟨program, cause, accepted, rfl, faults⟩
    · have locates := Program.locates_of_ofSource refused
      refine .inl ⟨?_, locates⟩
      cases locates <;> rfl
    · exact .inr ⟨rfl, rfl, program, cause, accepted, rfl, faults⟩

end BlockScript
