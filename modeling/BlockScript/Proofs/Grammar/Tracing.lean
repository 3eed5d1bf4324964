import BlockScript.Proofs.Grammar.Reading

/-!
# The readers of expressions are traced

Each reader of a rank is put together from the readers that it calls (`reading_primary` and so on),
so it is traced as they are.  The one exception is an assignment to something else than a name: the
value is read before the target is looked at, and an error in the value hides the one at the equals
sign.
-/

namespace BlockScript

open Cursor Reading

instance : Nonempty Expression :=
  ⟨.nil⟩

/-- The reader of a rank as a reading. -/
def Rank.reading (rank : Rank) : Reading Expression :=
  .of rank.read

/-- A token that does not go on with an expression of a rank. -/
def Rank.Follows (rank : Rank) (kind : TokenKind) : Prop :=
  rank.Ends [kind]

namespace Reading

/-- Fails at the first token. -/
def refuse {α : Type} (what : Expectation) : Reading α := fun start =>
  (start.expected what : Outcome 0 α).result

end Reading

/-! ### The readers of expressions put together -/

/-- What stands behind an opening parenthesis. -/
def parenthesized : Reading Expression :=
  Rank.assignment.reading.andThen fun inner =>
    (Reading.symbol .rightParen .afterExpression).andThen fun _ =>
      Reading.pure (.grouping inner)

theorem reading_primary : Rank.primary.reading =
    look Expression.ofToken? Reading.pure (look (TokenKind.exactly (.symbol .leftParen))
      (fun _ => parenthesized.deeper) (refuse .expression)) := by
  funext start
  change (Cursor.primary start).result = _
  rw [Cursor.primary]
  rcases start.take?_cases Expression.ofToken? with ⟨none, lacks⟩ | ⟨value, next, takes, some⟩
  · rw [none, look_of_lacks lacks]
    rcases start.take?_cases (TokenKind.exactly (.symbol .leftParen)) with
      ⟨none, lacks⟩ | ⟨⟨⟩, after, takes, some⟩
    · rw [none, look_of_lacks lacks]
      rfl
    · rw [some, look_of_takes takes]
      refine result_nested fun inside same => ?_
      refine Outcome.result_andThen rfl fun inner behind read => ?_
      exact Outcome.result_andThen rfl fun _ _ _ => rfl
  · rw [some, look_of_takes takes]
    rfl

theorem reading_unary : Rank.unary.reading =
    look UnaryOp.ofToken?
      (fun op =>
        (Rank.unary.reading.andThen fun operand => Reading.pure (.unary op operand)).deeper)
      Rank.primary.reading := by
  funext start
  change (Cursor.unary start).result = _
  rw [Cursor.unary]
  rcases start.take?_cases UnaryOp.ofToken? with ⟨none, lacks⟩ | ⟨op, after, takes, some⟩
  · rw [none, look_of_lacks lacks]
    rfl
  · rw [some, look_of_takes takes]
    refine result_nested fun inside same => ?_
    exact Outcome.result_within.trans (Outcome.result_map rfl)

/-- What stands behind the question mark of a conditional expression. -/
def branches (condition : Expression) : Reading Expression :=
  Rank.assignment.reading.andThen fun thenBranch =>
    (Reading.symbol .colon .inConditional).andThen fun _ =>
      Rank.conditional.reading.andThen fun elseBranch =>
        Reading.pure (.conditional condition thenBranch elseBranch)

theorem reading_conditional : Rank.conditional.reading =
    (Rank.operators .disjunction).reading.andThen fun condition =>
      look (TokenKind.exactly (.symbol .question)) (fun _ => (branches condition).deeper)
        (Reading.pure condition) := by
  funext start
  change (Cursor.conditional start).result = _
  rw [Cursor.conditional]
  refine Outcome.result_andThen rfl fun condition behind read => ?_
  rcases behind.take?_cases (TokenKind.exactly (.symbol .question)) with
    ⟨none, lacks⟩ | ⟨⟨⟩, after, takes, some⟩
  · rw [none, look_of_lacks lacks]
    rfl
  · rw [some, look_of_takes takes]
    refine result_nested fun inside same => ?_
    refine Outcome.result_andThen rfl fun thenBranch middle readThen => ?_
    refine Outcome.result_andThen rfl fun _ other readColon => ?_
    exact Outcome.result_andThen rfl fun _ _ _ => rfl

/-! ### Chains -/

section Links

variable {level : Precedence} {bound : Nat} {left : Expression} {start after : Cursor}
  {op : BinaryOp} {fits : start.rest.length < bound}

theorem links_of_lacks (lacks : start.Lacks level.operator?) :
    Cursor.links bound level level.tighter left start fits = .ok left start fits := by
  rw [Cursor.links, take?_eq_none_iff.mpr lacks]

theorem links_of_takes (takes : start.Takes level.operator? op after)
    (room : after.depth < maxNesting) :
    Cursor.links bound level level.tighter left start fits =
      (chain level.tighter (after.deeper room)).andThen fun right next read =>
        Cursor.links bound level level.tighter (.binary op left right) next
          (Nat.lt_trans (Nat.lt_trans read takes.shorter) fits) := by
  rw [Cursor.links, takes.2]
  exact dif_pos room

theorem links_of_full (takes : start.Takes level.operator? op after)
    (full : ¬ after.depth < maxNesting) :
    (Cursor.links bound level level.tighter left start fits).result = .error none := by
  rw [Cursor.links, takes.2]
  change (enter after after _).result = _
  rw [enter, dif_neg full]
  rfl

end Links

/-- What the reader of the operators of a chain gives does not depend on its bound. -/
theorem result_links (level : Precedence) {one other : Nat} {left : Expression} {start : Cursor}
    (fits : start.rest.length < one) (fits_other : start.rest.length < other) :
    (Cursor.links one level level.tighter left start fits).result =
      (Cursor.links other level level.tighter left start fits_other).result := by
  rcases start.take?_cases level.operator? with ⟨_, lacks⟩ | ⟨op, after, takes, _⟩
  · rw [links_of_lacks lacks, links_of_lacks lacks]
    rfl
  · by_cases room : after.depth < maxNesting
    · rw [links_of_takes takes room, links_of_takes takes room]
      cases chain level.tighter (after.deeper room) with
      | error => rfl
      | ok right next read =>
        have fewer : next.rest.length < start.rest.length := Nat.lt_trans read takes.shorter
        exact result_links level _ _
    · rw [links_of_full takes room, links_of_full takes room]
termination_by start.rest.length

/-- The operators of a chain and their right operands, with the levels that they open closed
again. -/
def Precedence.links (level : Precedence) (left : Expression) : Reading Expression := fun start =>
  ((Cursor.links (start.rest.length + 1) level level.tighter left start
    (Nat.lt_succ_self _)).restore start.depth start.depth_le).result

theorem Precedence.links_eq (level : Precedence) {left : Expression} {start : Cursor} {bound : Nat}
    (fits : start.rest.length < bound) : level.links left start =
      (Cursor.links bound level level.tighter left start fits).result.map
        fun (value, next) => (value, next.restore start.depth start.depth_le) := by
  rw [Precedence.links, Outcome.result_restore, result_links level _ fits]

theorem reading_links (level : Precedence) (left : Expression) : level.links left =
    look level.operator?
      (fun op =>
        (level.operand.reading.andThen fun right => level.links (.binary op left right)).deeper)
      (Reading.pure left) := by
  funext start
  rcases start.take?_cases level.operator? with ⟨_, lacks⟩ | ⟨op, after, takes, _⟩
  · rw [level.links_eq (Nat.lt_succ_self _), links_of_lacks lacks, look_of_lacks lacks]
    rfl
  · rw [level.links_eq (Nat.lt_succ_self _), look_of_takes takes,
      Reading.deeper]
    obtain ⟨_, _, _, depth⟩ := takes.kinds_eq
    split
    · next room =>
      rw [links_of_takes takes room, chain_tighter, Reading.andThen, Rank.reading,
        Reading.of]
      cases read : level.operand.read (after.deeper room) with
      | error => rfl
      | ok right next fewer =>
        have gives : (after.deeper room).Reads level.operand right next := ⟨fewer, read⟩
        obtain ⟨_, _, spans, _⟩ := sound _ _ gives
        have level_next : next.depth = start.depth + 1 := by rw [spans.depth, depth_deeper, depth]
        -- To close all levels of the chain is to close the last one behind those of the rest.
        change (Cursor.links _ level _ _ next _).result.map _ = (level.links _ next).map _
        rw [level.links_eq (Nat.lt_trans (Nat.lt_trans fewer takes.shorter) (Nat.lt_succ_self _))]
        generalize Outcome.result _ = result
        cases result with
        | error => rfl
        | ok read => simp [Except.map, restore, leave, level_next]
    · next full =>
      rw [links_of_full takes full]
      rfl

theorem reading_operators (level : Precedence) : (Rank.operators level).reading =
    level.operand.reading.andThen level.links := by
  funext start
  change (Cursor.chain (level :: level.tighter) start).result = _
  rw [Cursor.chain, Outcome.result_restore, chain_tighter, Reading.andThen, Rank.reading,
        Reading.of]
  cases read : level.operand.read start with
  | error => rfl
  | ok first behind fewer =>
    have gives : start.Reads level.operand first behind := ⟨fewer, read⟩
    obtain ⟨_, _, spans, _⟩ := sound _ _ gives
    change (Cursor.links _ level _ _ behind _).result.map _ = level.links _ behind
    rw [level.links_eq fewer]
    simp only [spans.depth]

/-! ### Assignments -/

/-- What becomes of an assigned value: an assignment if the target is a name, and an error at the
equals sign if not. -/
def assignTo (position : Position) (value : Expression) : Expression → Reading Expression
  | .variable name => Reading.pure (.assign name value)
  | _ => fun _ => .error (some ⟨position, .assignmentTarget⟩)

/-- What stands behind the target of an assignment, if it is one. -/
def assigned (target : Expression) : Reading Expression := fun behind =>
  look (TokenKind.exactly (.symbol .equal))
    (fun _ => Rank.assignment.reading.deeper.andThen fun value =>
      assignTo behind.position value target)
    (Reading.pure target) behind

theorem reading_assignment :
    Rank.assignment.reading = Rank.conditional.reading.andThen assigned := by
  funext start
  change (Cursor.expression start).result = _
  rw [Cursor.expression]
  refine Outcome.result_andThen rfl fun target behind read => ?_
  rw [assigned]
  rcases behind.take?_cases (TokenKind.exactly (.symbol .equal)) with
    ⟨none, lacks⟩ | ⟨⟨⟩, after, takes, some⟩
  · rw [none, look_of_lacks lacks]
    rfl
  · rw [some, look_of_takes takes]
    refine Outcome.result_andThen ?_ fun value next read => ?_
    · exact result_nested fun inside same => Outcome.result_within
    · cases target <;> rfl

/-! ### The readers of expressions are traced -/

namespace Rank

theorem moves_reading (rank : Rank) (start : Cursor) : rank.reading.Moves start :=
  moves_of rank.read start

theorem Follows.ends {rank : Rank} {rest : List TokenKind} (follows : rank.Follows (first rest)) :
    rank.Ends rest := by
  cases rest with
  | nil => exact ⟨fun _ => nofun, fun _ => nofun, fun _ _ => nofun⟩
  | cons kind rest =>
    exact ⟨fun same => follows.noEqual same, fun same => follows.noQuestion same,
      fun level member => follows.noOperator level member⟩

/-- A name without letters, the shortest expression. -/
def word : TokenKind :=
  .identifier ""

theorem accepts_word (rank : Rank) (depth : Nat) :
    rank.reading.Accepts rank.Follows depth [word] := by
  intro start rest _ kinds follows
  obtain ⟨last, reads, behind, level⟩ :=
    Readable.name "" rank kinds (Nat.le_trans (Nat.le_refl _) start.depth_le) follows.ends
  exact ⟨_, last, Outcome.result_eq_ok.mpr reads, behind, level⟩

variable {bound : Nat}

theorem traced_of_traces {rank : Rank}
    (traces : ∀ start : Cursor, start.rest.length < bound →
      rank.reading.Traces rank.Follows start) :
    Traced bound rank.reading rank.Follows [word] :=
  ⟨traces, rank.accepts_word, by simp [word], fun _ start _ => rank.moves_reading start⟩

section Ranks

variable (inner : ∀ rank : Rank, Traced bound rank.reading rank.Follows [word])
include inner

theorem traced_primary : Traced (bound + 1) Rank.primary.reading Rank.primary.Follows [word] := by
  refine traced_of_traces fun start fits => ?_
  have accepts := Rank.primary.accepts_word start.depth
  have moves : Rank.primary.reading.Moves start := Rank.primary.moves_reading start
  rw [reading_primary] at accepts moves ⊢
  rcases start.take?_cases Expression.ofToken? with ⟨_, lacks⟩ | ⟨value, after, takes, _⟩
  · rcases start.take?_cases (TokenKind.exactly (.symbol .leftParen)) with
      ⟨_, noParen⟩ | ⟨⟨⟩, after, takes, _⟩
    · -- The token begins no expression, wherever it stands.
      have noToken := kind_of_lacks rfl lacks
      have noParen := kind_of_lacks rfl noParen
      have refuses {other : Cursor} (same : other.kind = start.kind) :
          look Expression.ofToken? Reading.pure (look (TokenKind.exactly (.symbol .leftParen))
            (fun _ => parenthesized.deeper) (refuse .expression)) other =
              refuse .expression other :=
        (look_of_lacks (lacks_of_kind (same ▸ noToken))).trans
          (look_of_lacks (lacks_of_kind (same ▸ noParen)))
      refine ⟨?_, ?_⟩
      · intro value last given
        rw [refuses rfl] at given
        cases given
      · intro cause given
        rw [refuses rfl] at given
        cases given
        refine ⟨[], start, stuck_here rfl ?_ (by simp [word]) accepts⟩
        rintro other same ⟨value, last⟩ given
        rw [refuses same] at given
        cases given
    · -- The closing parenthesis ends the expression in front of it, whatever stands behind both.
      have between : Traced bound parenthesized Rank.primary.Follows _ :=
        (inner .assignment).andThen (fun _ => (Traced.symbol _ _).map _)
          fun _ _ => Ends.of_closing (by decide)
      have deep : parenthesized.deeper.Traces Rank.primary.Follows after :=
        Traces.deeper fun room => between.traces (after.deeper room)
          (Nat.lt_of_lt_of_le takes.shorter (Nat.le_of_lt_succ fits))
      exact traces_look_of_lacks rfl lacks (traces_look_of_takes takes deep) (by simp [word])
        accepts (.inl moves)
  · exact traces_look_of_takes takes (traces_pure value after)

theorem traced_unary
    (tighter : Traced (bound + 1) Rank.primary.reading Rank.primary.Follows [word]) :
    Traced (bound + 1) Rank.unary.reading Rank.unary.Follows [word] := by
  refine traced_of_traces fun start fits => ?_
  have accepts := Rank.unary.accepts_word start.depth
  have moves : Rank.unary.reading.Moves start := Rank.unary.moves_reading start
  rw [reading_unary] at accepts moves ⊢
  rcases start.take?_cases UnaryOp.ofToken? with ⟨_, lacks⟩ | ⟨op, after, takes, _⟩
  · have traces : Rank.primary.reading.Traces Rank.unary.Follows start :=
      (tighter.traces start fits).mono fun _ _ => Ends.of_chains_nil rfl
    exact traces_look_of_lacks rfl lacks traces (by simp [word]) accepts (.inl moves)
  · have operand := (inner .unary).map (Expression.unary op)
    exact traces_look_of_takes takes <| Traces.deeper fun room => operand.traces (after.deeper room)
      (Nat.lt_of_lt_of_le takes.shorter (Nat.le_of_lt_succ fits))

omit inner in
theorem traced_links {level : Precedence}
    (operand : Traced (bound + 1) level.operand.reading level.operand.Follows [word]) (size : Nat)
    (le : size ≤ bound + 1) (left : Expression) :
    Traced size (level.links left) (Rank.operators level).Follows [] := by
  have wantEnd : level.operator? .eof = none := by cases level <;> rfl
  have follow (kind : TokenKind) (follows : (Rank.operators level).Follows kind) :
      level.operator? kind = none := follows.noOperator level List.mem_cons_self kind rfl
  -- Each link takes its operator, so there are fewer links than tokens.
  induction size generalizing left with
  | zero =>
    rw [reading_links]
    exact Traced.optional wantEnd follow fun _ _ _ fits _ => absurd fits (Nat.not_lt_zero _)
  | succ size rest =>
    have rest := rest (Nat.le_of_succ_le le)
    rw [reading_links]
    refine Traced.optional wantEnd follow fun start op after fits takes => ?_
    have fewer : after.rest.length < size :=
      Nat.lt_of_lt_of_le takes.shorter (Nat.le_of_lt_succ fits)
    refine Traces.deeper fun room => ?_
    have joins : Joins level.operand.Follows (fun right => level.links (.binary op left right))
        (Rank.operators level).Follows (after.deeper room) [] :=
      ⟨fun right => (rest _).accepts _, List.not_mem_nil, fun _ => Ends.operand, nofun⟩
    refine (operand.traces (after.deeper room) (Nat.lt_trans fewer le)).andThen ?_ joins
    intro right next given
    exact (rest _).traces next (Nat.lt_trans (level.operand.moves_reading _ given) fewer)

omit inner in
theorem traced_operators (level : Precedence)
    (operand : Traced (bound + 1) level.operand.reading level.operand.Follows [word]) :
    Traced (bound + 1) (Rank.operators level).reading (Rank.operators level).Follows [word] := by
  rw [reading_operators]
  exact operand.andThen (traced_links operand _ (Nat.le_refl _)) fun _ => Ends.operand

theorem traced_conditional
    (condition : Traced (bound + 1) (Rank.operators .disjunction).reading
      (Rank.operators .disjunction).Follows [word]) :
    Traced (bound + 1) Rank.conditional.reading Rank.conditional.Follows [word] := by
  have others (condition : Expression) :
      Traced bound (branches condition) Rank.conditional.Follows _ :=
    (inner .assignment).andThen
      (fun _ => Traced.symbol_andThen .colon .inConditional ((inner .conditional).map _))
      fun _ _ => Ends.of_closing (by decide)
  rw [reading_conditional]
  refine condition.andThen (fun condition => Traced.optional rfl ?_ ?_) fun _ => Ends.disjunction
  · intro kind follows
    exact exactly_eq_none.mpr fun same => follows.noQuestion (.inr rfl) (same ▸ rfl)
  · intro start _ after fits takes
    exact Traces.deeper fun room => (others condition).traces (after.deeper room)
      (Nat.lt_of_lt_of_le takes.shorter (Nat.le_of_lt_succ fits))

omit inner in
theorem assigned_of_lacks {behind : Cursor} (target : Expression)
    (lacks : behind.Lacks (TokenKind.exactly (.symbol .equal))) :
    assigned target behind = .ok (target, behind) :=
  look_of_lacks lacks

omit inner in
theorem lacks_of_follows {start : Cursor} (follows : Rank.assignment.Follows start.kind) :
    start.Lacks (TokenKind.exactly (.symbol .equal)) :=
  lacks_of_kind (exactly_eq_none.mpr fun same => follows.noEqual rfl (same ▸ rfl))

omit inner in
theorem joins_assigned (start : Cursor) :
    Joins Rank.conditional.Follows assigned Rank.assignment.Follows start [] := by
  refine ⟨?_, List.not_mem_nil, fun _ => Ends.conditional, nofun⟩
  intro target other rest _ kinds follows
  have lacks : other.Lacks (TokenKind.exactly (.symbol .equal)) :=
    lacks_of_follows (by rwa [other.kind_eq_first, kinds])
  exact ⟨target, other, assigned_of_lacks target lacks, kinds, rfl⟩

/-- Behind a name, or where there is no assignment, the reading goes on as usual. -/
theorem traces_assigned {target : Expression} {behind : Cursor}
    (fits : behind.rest.length < bound + 1)
    (assignable :
      behind.Lacks (TokenKind.exactly (.symbol .equal)) ∨ ∃ name, target = .variable name) :
    (assigned target).Traces Rank.assignment.Follows behind := by
  rcases assignable with lacks | ⟨name, rfl⟩
  · -- Nothing is read here, and nothing is on any other row that goes on in the same way.
    refine ⟨?_, ?_⟩
    · intro value last given
      rw [assigned_of_lacks target lacks] at given
      cases given
      refine ⟨[], .refl behind, rfl, ?_⟩
      intro other rest _ kinds ends
      have otherLacks : other.Lacks (TokenKind.exactly (.symbol .equal)) := by
        rcases ends with same | follows
        · have unwanted := kind_of_lacks rfl lacks
          rw [← same] at unwanted
          exact lacks_of_kind (by rwa [other.kind_eq_first, kinds])
        · exact lacks_of_follows (by rwa [other.kind_eq_first, kinds])
      exact ⟨other, assigned_of_lacks target otherLacks, kinds, rfl⟩
    · intro cause given
      rw [assigned_of_lacks target lacks] at given
      cases given
  · have asUsual : assigned (.variable name) = look (TokenKind.exactly (.symbol .equal))
        (fun _ => Rank.assignment.reading.deeper.andThen fun value =>
          Reading.pure (.assign name value)) (Reading.pure (.variable name)) := rfl
    have follow (kind : TokenKind) (follows : Rank.assignment.Follows kind) :
        TokenKind.exactly (.symbol .equal) kind = none :=
      exactly_eq_none.mpr fun same => follows.noEqual rfl (same ▸ rfl)
    rw [asUsual]
    -- Behind a name an assignment is an option, whose value is read one level deeper.
    suffices traced : Traced (bound + 1) _ Rank.assignment.Follows [] from traced.traces behind fits
    refine Traced.optional rfl follow fun start _ after fits takes => ?_
    have fewer : after.rest.length < bound :=
      Nat.lt_of_lt_of_le takes.shorter (Nat.le_of_lt_succ fits)
    have value := Traces.deeper fun room => (inner .assignment).traces (after.deeper room) fewer
    exact value.andThen (fun _ next _ => traces_pure _ next)
      ⟨fun _ => accepts_pure _ _, List.not_mem_nil, fun _ follows => follows, nofun⟩

omit inner in
theorem assigned_ne_ok {behind after : Cursor} {target : Expression}
    (noName : ∀ name, target ≠ .variable name)
    (takes : behind.Takes (TokenKind.exactly (.symbol .equal)) () after)
    (result : Expression × Cursor) :
    assigned target behind ≠ .ok result := by
  intro given
  rw [assigned, look_of_takes takes] at given
  obtain ⟨value, next, _, given⟩ := andThen_eq_ok given
  cases target with
  | «variable» name => exact noName name rfl
  | _ => cases given

omit inner in
theorem position_of_assigned {behind after : Cursor} {target : Expression} {cause : SyntaxError}
    (noName : ∀ name, target ≠ .variable name)
    (takes : behind.Takes (TokenKind.exactly (.symbol .equal)) () after)
    (fails : assigned target behind = .error (some cause)) :
    cause.position = behind.position ∨ ∃ inside next : Cursor, inside.rest = after.rest ∧
      inside.stop = after.stop ∧ inside.expression = .error cause next := by
  rw [assigned, look_of_takes takes] at fails
  cases value : Rank.assignment.reading.deeper after with
  | error other =>
    rw [andThen_of_error value] at fails
    cases fails
    obtain ⟨room, inside⟩ := deeper_eq_error value
    obtain ⟨_, next, failed⟩ := Outcome.result_eq_error.mp inside
    exact .inr ⟨after.deeper room, next, rfl, rfl, failed⟩
  | ok result =>
    rw [andThen_of_ok value] at fails
    cases target with
    | «variable» name => exact absurd rfl (noName name)
    | _ =>
      cases fails
      exact .inl rfl

omit inner in
/-- An assignment to something else than a name goes wrong at its equals sign, whatever the value
is. -/
theorem stuck_assigned {start behind after : Cursor} {target : Expression} {source : List TokenKind}
    {cause : SyntaxError}
    (settles : Rank.conditional.reading.Settles Rank.conditional.Follows start target behind source)
    (given : Rank.conditional.reading start = .ok (target, behind))
    (noName : ∀ name, target ≠ .variable name)
    (takes : behind.Takes (TokenKind.exactly (.symbol .equal)) () after)
    (fails : assigned target behind = .error (some cause)) :
    (Rank.conditional.reading.andThen assigned).Stuck Rank.assignment.Follows start cause source
      behind := by
  refine ⟨settles.passes, ⟨[], List.not_mem_nil, ?_⟩, ?_, ?_⟩
  · -- Without the equals sign the target is an expression as it stands.
    intro other rest level kinds follows
    rw [List.append_nil] at kinds
    have ends : Rank.conditional.Follows (first rest) := Ends.conditional follows
    obtain ⟨place, again, left, same⟩ := settles.again other rest level kinds (.inr ends)
    have lacks := lacks_of_follows (by rwa [place.kind_eq_first, left])
    exact ⟨target, .andThen again same ⟨place, assigned_of_lacks target lacks, left, rfl⟩⟩
  · intro other level goes result succeeds
    have mark : behind.kind = .symbol .equal := takes.kind
    rw [mark] at goes
    obtain ⟨tail, kinds⟩ := exists_tail_of_isPrefix goes nofun
    -- The sign behind the target is all that the reader of the target looks at.
    obtain ⟨place, again, left, _⟩ := settles.again other _ level kinds (.inl mark.symm)
    obtain ⟨next, takes, _⟩ := takes_exactly left
    rw [andThen_of_ok again] at succeeds
    exact assigned_ne_ok noName takes _ succeeds
  · -- What was read is a phrase of the grammar, made up of the tokens that were read.
    obtain ⟨phrased, phrase, spans, _⟩ := sound start .conditional (Outcome.result_eq_ok.mp given)
    have whole : phrased = source :=
      List.append_cancel_right (spans.kinds.symm.trans settles.passes.kinds)
    refine (position_of_assigned noName takes fails).imp id fun inside => ?_
    exact ⟨⟨[], phrased, target, whole.symm, phrase, noName⟩, after, takes, inside⟩

theorem traced_assignment
    (target : Traced (bound + 1) Rank.conditional.reading Rank.conditional.Follows [word]) :
    Traced (bound + 1) Rank.assignment.reading Rank.assignment.Follows [word] := by
  refine traced_of_traces fun start fits => ?_
  rw [reading_assignment]
  have traces := target.traces start fits
  have onward {value : Expression} {next : Cursor}
      (given : Rank.conditional.reading start = .ok (value, next)) :
      next.rest.length < bound + 1 :=
    Nat.lt_trans (Rank.conditional.moves_reading start given) fits
  -- Only behind a target that is no name the parts do not decide what becomes of the whole.
  by_cases bad : ∃ target behind after, Rank.conditional.reading start = .ok (target, behind) ∧
      (∀ name, target ≠ .variable name) ∧ behind.Takes (TokenKind.exactly (.symbol .equal)) () after
  · obtain ⟨target, behind, after, given, noName, takes⟩ := bad
    refine ⟨?_, ?_⟩
    · intro value last succeeds
      rw [andThen_of_ok given] at succeeds
      exact absurd succeeds (assigned_ne_ok noName takes _)
    · intro cause fails
      rw [andThen_of_ok given] at fails
      obtain ⟨source, settles⟩ := traces.ok given
      exact ⟨source, behind, stuck_assigned settles given noName takes fails⟩
  · -- Any other target is followed as usual.
    refine traces.andThen (fun target behind given => ?_) (joins_assigned start)
    refine traces_assigned inner (onward given) ?_
    rcases behind.take?_cases (TokenKind.exactly (.symbol .equal)) with
      ⟨_, lacks⟩ | ⟨_, after, takes, _⟩
    · exact .inl lacks
    · refine .inr (Classical.byContradiction fun noName => ?_)
      exact bad ⟨target, behind, after, given, not_exists.mp noName, takes⟩

end Ranks

/-- The reader of each rank is traced. -/
theorem traced (bound : Nat) : ∀ rank : Rank, Traced bound rank.reading rank.Follows [word] := by
  induction bound with
  | zero => exact fun rank => traced_of_traces fun _ fits => absurd fits (Nat.not_lt_zero _)
  | succ bound inner =>
    -- Behind a token fewer are left, in front of it the rank gets tighter.
    exact Rank.from_tightest (traced_primary inner) (traced_unary inner) traced_operators
      (traced_conditional inner) (traced_assignment inner)

end Rank

end BlockScript
