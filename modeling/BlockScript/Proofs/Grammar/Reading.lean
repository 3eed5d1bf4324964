import BlockScript.Proofs.Grammar.Statements

/-!
# Where a reader stops

A `Reading` is a reader without the bound that makes it end.  What is traced of it (`Traces`) is how
far its answer depends on the tokens: a value depends on the tokens that were read and on the one
behind them, and an error on the tokens up to some place.  There the reader is stuck: what stands in
front of that place can be completed, but nothing that goes on with the token at that place is read
(`Stuck`).  Each way to put readers together keeps this.
-/

namespace BlockScript

/-- What a reading step does to a cursor: a value and the cursor behind it, or an error, where one
level too many is told by `none`. -/
def Reading (α : Type) : Type :=
  Cursor → Except (Option SyntaxError) (α × Cursor)

/-- The result of an outcome, without its bound. -/
def Outcome.result {α : Type} {bound : Nat} (outcome : Outcome bound α) :
    Except (Option SyntaxError) (α × Cursor) :=
  match outcome with
  | .ok value next _ => .ok (value, next)
  | .error cause _ => .error (if cause.fault = .tooDeep then none else some cause)

namespace Reading

variable {α β : Type}

/-- A reader as a reading. -/
def of (read : (start : Cursor) → Outcome start.rest.length α) : Reading α := fun start =>
  (read start).result

protected def pure (value : α) : Reading α :=
  fun start => .ok (value, start)

def andThen (reading : Reading α) (step : α → Reading β) : Reading β := fun start =>
  match reading start with
  | .ok (value, next) => step value next
  | .error cause => .error cause

/-- Reads one token, which has to be a wanted one. -/
def take (want : TokenKind → Option α) (what : Expectation) : Reading α := fun start =>
  (start.take want what).result

def symbol (mark : Symbol) (place : Place) : Reading Unit := fun start =>
  (start.symbol mark place).result

/-- Goes one way behind a wanted token, and another way in front of any other token. -/
def look (want : TokenKind → Option α) (found : α → Reading β) (missing : Reading β) : Reading β :=
  fun start =>
    match start.take? want with
    | some taken => found taken.value taken.next
    | none => missing start

/-- Reads one level deeper and closes the level again. -/
def deeper (reading : Reading α) : Reading α := fun start =>
  if room : start.depth < maxNesting then
    (reading (start.deeper room)).map fun (value, next) => (value, next.leave)
  else .error none

end Reading

namespace Outcome

variable {α β : Type} {bound tighter : Nat}

theorem result_eq_ok {outcome : Outcome bound α} {value : α} {next : Cursor} :
    outcome.result = .ok (value, next) ↔ outcome.Gives value next := by
  cases outcome <;> simp [result, eq_comm]

theorem result_eq_error {outcome : Outcome bound α} {cause : SyntaxError} :
    outcome.result = .error (some cause) ↔
      cause.fault ≠ .tooDeep ∧ ∃ next, outcome = .error cause next := by
  cases outcome with
  | ok => simp [result]
  | error other next =>
    by_cases deep : other.fault = .tooDeep <;> simp [result, deep]
    · rintro shallow rfl
      exact absurd deep shallow
    · rintro rfl
      exact deep

theorem result_andThen {outcome : Outcome tighter β} {reading : Reading β}
    {step : (value : β) → (next : Cursor) → next.rest.length < tighter → Outcome bound α}
    {onward : β → Reading α} {start : Cursor} (front : outcome.result = reading start)
    (back : ∀ value next shorter, (step value next shorter).result = onward value next) :
    (outcome.andThen step).result = (reading.andThen onward) start := by
  cases outcome with
  | ok value next shorter =>
    rw [Reading.andThen, ← front]
    exact back value next shorter
  | error cause next =>
    rw [Reading.andThen, ← front]
    rfl

theorem result_map {outcome : Outcome bound β} {change : β → α} {reading : Reading β}
    {start : Cursor} (front : outcome.result = reading start) :
    (outcome.map change).result =
      (reading.andThen fun value => Reading.pure (change value)) start := by
  rw [Reading.andThen, ← front]
  cases outcome <;> rfl

theorem result_restore {outcome : Outcome bound α} {depth : Nat} {depth_le : depth ≤ maxNesting} :
    (outcome.restore depth depth_le).result =
      outcome.result.map fun (value, next) => (value, next.restore depth depth_le) := by
  cases outcome <;> rfl

theorem result_within {outcome : Outcome tighter α} {le : tighter ≤ bound} :
    (outcome.within le).result = outcome.result := by
  cases outcome <;> rfl

end Outcome

namespace Cursor

variable {α β : Type} {bound : Nat}

theorem result_nested {start mark : Cursor} {reading : Reading α}
    {read : (inside : Cursor) → inside.rest = start.rest → Outcome bound α}
    (same : ∀ inside same, (read inside same).result = reading inside) :
    (start.nested mark read).result = reading.deeper start := by
  unfold nested enter Reading.deeper
  split
  · next room =>
    rw [← same (start.deeper room) rfl]
    change (read (start.deeper room) rfl).leave.result = _
    cases read (start.deeper room) rfl <;> rfl
  · rfl

end Cursor

/-! ### Tokens in front of a place -/

/-- The kind of the first token of a row, or of the end token. -/
def first (row : List TokenKind) : TokenKind :=
  row.head?.getD .eof

/-- A row goes on like another one up to the first token behind `source`. -/
theorem exists_of_isPrefix {source row : List TokenKind} {next : List TokenKind} {kind : TokenKind}
    (goes : source ++ next ++ [kind] <+: row ++ [.eof]) :
    ∃ rest, row = source ++ rest ∧ next ++ [kind] <+: rest ++ [.eof] := by
  induction source generalizing row with
  | nil => exact ⟨row, rfl, goes⟩
  | cons head tail inner =>
    cases row with
    | nil => simp at goes
    | cons other row =>
      obtain ⟨rfl, others⟩ := List.cons_prefix_cons.mp goes
      obtain ⟨rest, rfl, goes_on⟩ := inner others
      exact ⟨rest, rfl, goes_on⟩

/-- A row that goes on with another token than the end token has that token. -/
theorem exists_tail_of_isPrefix {source row : List TokenKind} {kind : TokenKind}
    (goes : source ++ [kind] <+: row ++ [.eof]) (noEnd : kind ≠ .eof) :
    ∃ tail, row = source ++ kind :: tail := by
  obtain ⟨rest, rfl, onward⟩ := @exists_of_isPrefix source row [] kind (by simpa using goes)
  cases rest with
  | nil => exact absurd (by simpa using onward) noEnd
  | cons other tail =>
    obtain ⟨rfl, _⟩ := List.cons_prefix_cons.mp onward
    exact ⟨tail, rfl⟩

theorem first_of_isPrefix {source row rest : List TokenKind}
    (goes : source ++ [first rest] <+: row ++ [.eof]) : first row = first (source ++ rest) := by
  cases source <;> cases row <;> simp_all [first]

namespace Cursor

theorem kind_eq_first (cursor : Cursor) : cursor.kind = first cursor.kinds :=
  cursor.kind_eq_head

/-- The tokens between two places of one list. -/
structure Passes (start : Cursor) (source : List TokenKind) (last : Cursor) : Prop where
  row : ∃ read, start.rest = read ++ last.rest ∧ read.map (·.kind) = source
  stop : last.stop = start.stop

variable {start middle last : Cursor} {source : List TokenKind}

theorem Passes.refl (start : Cursor) : start.Passes [] start :=
  ⟨⟨[], rfl, rfl⟩, rfl⟩

theorem Passes.trans {more : List TokenKind} (front : start.Passes source middle)
    (back : middle.Passes more last) : start.Passes (source ++ more) last := by
  obtain ⟨⟨read, row, rfl⟩, stop⟩ := front
  obtain ⟨⟨others, rows, rfl⟩, stops⟩ := back
  exact ⟨⟨read ++ others, by rw [row, rows, List.append_assoc], List.map_append⟩, stops.trans stop⟩

theorem Passes.kinds (passes : start.Passes source last) : start.kinds = source ++ last.kinds := by
  obtain ⟨⟨read, row, rfl⟩, _⟩ := passes
  rw [Cursor.kinds, row, List.map_append]
  rfl

theorem Passes.length_le (passes : start.Passes source last) :
    last.rest.length ≤ start.rest.length := by
  obtain ⟨⟨read, row, _⟩, _⟩ := passes
  rw [row, List.length_append]
  exact Nat.le_add_left _ _

theorem Passes.eq_of_nil (passes : start.Passes [] last) :
    last.rest.length = start.rest.length := by
  obtain ⟨⟨read, row, none⟩, _⟩ := passes
  rw [row, List.map_eq_nil_iff.mp none, List.nil_append]

theorem Takes.passes {α : Type} {want : TokenKind → Option α} {value : α}
    (takes : start.Takes want value last) :
    ∃ kind, want kind = some value ∧ start.Passes [kind] last := by
  obtain ⟨rest, stop, depth, depth_le⟩ := start
  obtain ⟨_, found⟩ := takes
  cases rest with
  | nil => cases found
  | cons token rest =>
    obtain ⟨_, wanted, same⟩ := Option.map_eq_some_iff.mp found
    cases same
    exact ⟨token.kind, wanted, ⟨[token], rfl, rfl⟩, rfl⟩

theorem Takes.kind {kind : TokenKind} (takes : start.Takes (TokenKind.exactly kind) () last) :
    start.kind = kind := by
  rw [start.kind_eq_first, takes.exactly.1]
  rfl

/-- An error that stands for another one at the equals sign behind a cursor: it was met in the
expression behind the sign, before the target in front of it was looked at, which is no name. -/
def Masked (source : List TokenKind) (here : Cursor) (cause : SyntaxError) : Prop :=
  (∃ front target value, source = front ++ target ∧ Phrase .conditional target value ∧
    ∀ name, value ≠ .variable name) ∧
  ∃ after, here.Takes (TokenKind.exactly (.symbol .equal)) () after ∧
    ∃ inside next : Cursor, inside.rest = after.rest ∧ inside.stop = after.stop ∧
      inside.expression = .error cause next

theorem Masked.append {here : Cursor} {cause : SyntaxError} (masked : Masked source here cause)
    (front : List TokenKind) : Masked (front ++ source) here cause := by
  obtain ⟨⟨others, target, value, rfl, phrase, noName⟩, behind⟩ := masked
  exact ⟨⟨front ++ others, target, value, by simp, phrase, noName⟩, behind⟩

end Cursor

namespace Reading

open Cursor

variable {α β : Type}

/-- A reading gives a value, and leaves a row of tokens at a nesting. -/
def Leaves (reading : Reading α) (start : Cursor) (value : α) (rest : List TokenKind) : Prop :=
  ∃ last, reading start = .ok (value, last) ∧ last.kinds = rest ∧ last.depth = start.depth

/-- A row of tokens is read wherever a token that may follow stands behind it. -/
def Accepts (reading : Reading α) (follows : TokenKind → Prop) (depth : Nat)
    (source : List TokenKind) : Prop :=
  ∀ start rest, start.depth = depth → start.kinds = source ++ rest → follows (first rest) →
    ∃ value, reading.Leaves start value rest

/-- A reading that has a value: the value depends on the tokens that were read, and on the one
behind them if it may not follow anyway. -/
structure Settles (reading : Reading α) (follows : TokenKind → Prop) (start : Cursor) (value : α)
    (last : Cursor) (source : List TokenKind) : Prop where
  passes : start.Passes source last
  depth : last.depth = start.depth
  again : ∀ other rest, other.depth = start.depth → other.kinds = source ++ rest →
    first rest = last.kind ∨ follows (first rest) → reading.Leaves other value rest

/-- A reading that fails at a place: what stands in front of the place can be completed, but not
together with the token at the place, and that is where the error is reported. -/
structure Stuck (reading : Reading α) (follows : TokenKind → Prop) (start : Cursor)
    (cause : SyntaxError) (source : List TokenKind) (here : Cursor) : Prop where
  passes : start.Passes source here
  completed : ∃ more, .eof ∉ more ∧ reading.Accepts follows start.depth (source ++ more)
  blocked : ∀ other, other.depth = start.depth → source ++ [here.kind] <+: other.kinds ++ [.eof] →
    ∀ result, reading other ≠ .ok result
  reported : cause.position = here.position ∨ Masked source here cause

/-- How far the answer of a reading at a cursor depends on the tokens. -/
structure Traces (reading : Reading α) (follows : TokenKind → Prop) (start : Cursor) : Prop where
  ok : ∀ {value last}, reading start = .ok (value, last) →
    ∃ source, reading.Settles follows start value last source
  error : ∀ {cause}, reading start = .error (some cause) →
    ∃ source here, reading.Stuck follows start cause source here

theorem Accepts.mono {reading : Reading α} {follows fewer : TokenKind → Prop} {depth : Nat}
    {source : List TokenKind} (accepts : reading.Accepts follows depth source)
    (subset : ∀ kind, fewer kind → follows kind) : reading.Accepts fewer depth source :=
  fun start rest level kinds ends => accepts start rest level kinds (subset _ ends)

theorem Traces.mono {reading : Reading α} {follows fewer : TokenKind → Prop} {start : Cursor}
    (traces : reading.Traces follows start) (subset : ∀ kind, fewer kind → follows kind) :
    reading.Traces fewer start := by
  refine ⟨?_, ?_⟩
  · intro value last given
    obtain ⟨source, passes, depth, again⟩ := traces.ok given
    exact ⟨source, passes, depth, fun other rest level kinds ends =>
      again other rest level kinds (ends.imp_right (subset _))⟩
  · intro cause given
    obtain ⟨source, here, passes, ⟨more, noEnd, accepts⟩, blocked, reported⟩ := traces.error given
    exact ⟨source, here, passes, ⟨more, noEnd, accepts.mono subset⟩, blocked, reported⟩

/-- A reading that has a value takes at least one token. -/
def Moves (reading : Reading α) (start : Cursor) : Prop :=
  ∀ ⦃value last⦄, reading start = .ok (value, last) → last.rest.length < start.rest.length

variable {follows : TokenKind → Prop} {start : Cursor}

theorem of_eq_ok {read : (start : Cursor) → Outcome start.rest.length α} {value : α}
    {last : Cursor} : of read start = .ok (value, last) ↔ (read start).Gives value last :=
  Outcome.result_eq_ok

theorem moves_of (read : (start : Cursor) → Outcome start.rest.length α) (start : Cursor) :
    (of read).Moves start :=
  fun _ _ given => (of_eq_ok.mp given).shorter

/-! ### One reading after another -/

section AndThen

variable {reading : Reading α} {step : α → Reading β} {followsLast : TokenKind → Prop}
  {default : List TokenKind}

theorem andThen_of_ok {value : α} {next : Cursor} (given : reading start = .ok (value, next)) :
    (reading.andThen step) start = step value next := by
  rw [Reading.andThen, given]

theorem andThen_of_error {cause : Option SyntaxError} (given : reading start = .error cause) :
    (reading.andThen step) start = .error cause := by
  rw [Reading.andThen, given]

theorem andThen_eq_ok {result : β × Cursor} (given : (reading.andThen step) start = .ok result) :
    ∃ value next, reading start = .ok (value, next) ∧ step value next = .ok result := by
  unfold Reading.andThen at given
  split at given
  · next value next first => exact ⟨value, next, first, given⟩
  · cases given

theorem Leaves.andThen {value : α} {result : β} {next : Cursor} {rest : List TokenKind}
    (given : reading start = .ok (value, next)) (depth : next.depth = start.depth)
    (leaves : (step value).Leaves next result rest) :
    (reading.andThen step).Leaves start result rest := by
  obtain ⟨last, gives, behind, level⟩ := leaves
  exact ⟨last, (andThen_of_ok given).trans gives, behind, level.trans depth⟩

theorem Accepts.andThen {depth : Nat} {source : List TokenKind}
    (front : reading.Accepts follows depth source)
    (back : ∀ value, (step value).Accepts followsLast depth default)
    (joins : ∀ rest, followsLast (first rest) → follows (first (default ++ rest))) :
    (reading.andThen step).Accepts followsLast depth (source ++ default) := by
  intro start rest level kinds ends
  rw [List.append_assoc] at kinds
  obtain ⟨value, next, given, behind, same⟩ := front start _ level kinds (joins rest ends)
  obtain ⟨result, leaves⟩ := back value next rest (same.trans level) behind ends
  exact ⟨result, .andThen given same leaves⟩

/-- What the second reading may be followed by, or the token that it begins with, decides nothing
about the first one. -/
structure Joins (follows : TokenKind → Prop) (step : α → Reading β)
    (followsLast : TokenKind → Prop) (start : Cursor) (default : List TokenKind) : Prop where
  accepts : ∀ value, (step value).Accepts followsLast start.depth default
  noEnd : .eof ∉ default
  follow : ∀ rest, followsLast (first rest) → follows (first (default ++ rest))
  moves : default ≠ [] → ∀ value next, next.rest.length ≤ start.rest.length →
    (step value).Moves next

theorem Settles.andThen {value : α} {result : β} {next last : Cursor}
    {front back : List TokenKind} (settles : reading.Settles follows start value next front)
    (after : (step value).Settles followsLast next result last back)
    (stepped : step value next = .ok (result, last))
    (joins : Joins follows step followsLast start default) :
    (reading.andThen step).Settles followsLast start result last (front ++ back) := by
  refine ⟨settles.passes.trans after.passes, after.depth.trans settles.depth, ?_⟩
  intro other rest level kinds ends
  rw [List.append_assoc] at kinds
  -- What stands behind the first part is what stood there before, or what may follow it.
  have middle : first (back ++ rest) = next.kind ∨ follows (first (back ++ rest)) := by
    rw [kind_eq_first, after.passes.kinds]
    cases back with
    | cons => exact .inl rfl
    | nil =>
      rcases ends with same | may
      · exact .inl (same.trans last.kind_eq_first)
      · by_cases none : default = []
        · exact .inr (by simpa [none] using joins.follow rest may)
        · have fewer := joins.moves none value next settles.passes.length_le stepped
          exact absurd after.passes.eq_of_nil (Nat.ne_of_lt fewer)
  obtain ⟨place, again, behind, same⟩ := settles.again other _ level kinds middle
  exact .andThen again same
    (after.again place rest (by rw [same, level, settles.depth]) behind ends)

theorem Stuck.andThen_front {cause : SyntaxError} {source : List TokenKind} {here : Cursor}
    (stuck : reading.Stuck follows start cause source here)
    (joins : Joins follows step followsLast start default) :
    (reading.andThen step).Stuck followsLast start cause source here := by
  refine ⟨stuck.passes, ?_, ?_, stuck.reported⟩
  · obtain ⟨more, noEnd, accepts⟩ := stuck.completed
    refine ⟨more ++ default, by simp [noEnd, joins.noEnd], ?_⟩
    rw [← List.append_assoc]
    exact accepts.andThen joins.accepts joins.follow
  · intro other level goes result given
    obtain ⟨value, next, first, _⟩ := andThen_eq_ok given
    exact stuck.blocked other level goes _ first

theorem Stuck.andThen_back {cause : SyntaxError} {value : α} {next here : Cursor}
    {front back : List TokenKind} (settles : reading.Settles follows start value next front)
    (stuck : (step value).Stuck followsLast next cause back here)
    (joins : Joins follows step followsLast start default) :
    (reading.andThen step).Stuck followsLast start cause (front ++ back) here := by
  refine ⟨settles.passes.trans stuck.passes, ?_, ?_, ?_⟩
  · -- Where the second part has not begun, any beginning of it will do.
    cases back with
    | nil =>
      refine ⟨default, joins.noEnd, ?_⟩
      intro other rest level kinds ends
      rw [List.append_nil, List.append_assoc] at kinds
      obtain ⟨place, again, behind, same⟩ :=
        settles.again other _ level kinds (.inr (joins.follow rest ends))
      obtain ⟨result, leaves⟩ := joins.accepts value place rest (same.trans level) behind ends
      exact ⟨result, .andThen again same leaves⟩
    | cons kind back =>
      obtain ⟨more, noEnd, accepts⟩ := stuck.completed
      refine ⟨more, noEnd, ?_⟩
      intro other rest level kinds ends
      rw [List.append_assoc, List.append_assoc, ← List.append_assoc _ more] at kinds
      have middle : first (kind :: back ++ more ++ rest) = next.kind := by
        rw [next.kind_eq_first, stuck.passes.kinds]
        rfl
      obtain ⟨place, again, behind, same⟩ := settles.again other _ level kinds (.inl middle)
      have depth : place.depth = next.depth := by rw [same, level, settles.depth]
      obtain ⟨result, leaves⟩ := accepts place rest depth behind ends
      exact ⟨result, .andThen again same leaves⟩
  · intro other level goes result given
    obtain ⟨rest, kinds, goes⟩ := exists_of_isPrefix goes
    -- The first part is read up to the same place, as the same token stands behind it.
    have middle : first rest = next.kind := by
      rw [here.kind_eq_first] at goes
      rw [first_of_isPrefix goes, next.kind_eq_first, stuck.passes.kinds]
    obtain ⟨place, again, behind, same⟩ := settles.again other rest level kinds (.inl middle)
    rw [andThen_of_ok again] at given
    rw [← behind] at goes
    exact stuck.blocked place (by rw [same, level, settles.depth]) goes _ given
  · exact stuck.reported.imp_right fun masked => masked.append front

/-- How far two readings, one after the other, depend on the tokens. -/
theorem Traces.andThen (traces : reading.Traces follows start)
    (onward : ∀ value next, reading start = .ok (value, next) →
      (step value).Traces followsLast next)
    (joins : Joins follows step followsLast start default) :
    (reading.andThen step).Traces followsLast start := by
  cases given : reading start with
  | error cause =>
    -- The second reading is not begun, and its default can stand for what it would read.
    refine ⟨?_, ?_⟩
    · intro value last succeeds
      rw [andThen_of_error given] at succeeds
      cases succeeds
    · intro cause fails
      rw [andThen_of_error given] at fails
      cases fails
      obtain ⟨source, here, stuck⟩ := traces.error given
      exact ⟨source, here, stuck.andThen_front joins⟩
  | ok result =>
    obtain ⟨value, next⟩ := result
    -- What the first reading takes stands in front of all that the second one does.
    obtain ⟨front, settles⟩ := traces.ok given
    have after := onward value next given
    refine ⟨?_, ?_⟩
    · intro result last succeeds
      rw [andThen_of_ok given] at succeeds
      obtain ⟨back, settled⟩ := after.ok succeeds
      exact ⟨front ++ back, settles.andThen settled succeeds joins⟩
    · intro cause fails
      rw [andThen_of_ok given] at fails
      obtain ⟨back, here, stuck⟩ := after.error fails
      exact ⟨front ++ back, here, stuck.andThen_back settles joins⟩

end AndThen

/-! ### Single tokens -/

theorem accepts_pure (value : α) (depth : Nat) : (Reading.pure value).Accepts follows depth [] :=
  fun start _ _ kinds _ => ⟨value, start, rfl, kinds, rfl⟩

theorem traces_pure (value : α) (start : Cursor) : (Reading.pure value).Traces follows start := by
  refine ⟨?_, nofun⟩
  rintro _ _ ⟨⟩
  exact ⟨[], .refl start, rfl, fun other rest _ kinds _ => ⟨other, rfl, kinds, rfl⟩⟩

section Take

variable {want : TokenKind → Option α} {what : Expectation}

theorem take_eq_ok {value : α} {last : Cursor} :
    take want what start = .ok (value, last) ↔ start.Takes want value last :=
  Outcome.result_eq_ok.trans take_gives

theorem moves_take (start : Cursor) : (take want what).Moves start :=
  fun _ _ given => (take_eq_ok.mp given).shorter

theorem accepts_take {kind : TokenKind} {value : α} (wanted : want kind = some value)
    (depth : Nat) : (take want what).Accepts follows depth [kind] := by
  intro start rest _ kinds _
  obtain ⟨last, takes, behind, same⟩ := takes_of_kinds kinds wanted
  exact ⟨value, last, take_eq_ok.mpr takes, behind, same⟩

theorem lacks_of_kind (missing : want start.kind = none) : start.Lacks want := by
  intro kind head
  rw [kind_eq_first, first, Option.mem_def.mp head] at missing
  exact missing

theorem kind_of_lacks (wantEnd : want .eof = none) (lacks : start.Lacks want) :
    want start.kind = none := by
  rw [kind_eq_first, first]
  cases head : start.kinds.head? with
  | none => exact wantEnd
  | some kind => exact lacks kind head

/-- A reading that goes wrong at its first token. -/
theorem stuck_here {reading : Reading α} {cause : SyntaxError} {default : List TokenKind}
    (position : cause.position = start.position)
    (blocked : ∀ other, other.kind = start.kind → ∀ result, reading other ≠ .ok result)
    (noEnd : .eof ∉ default) (accepts : reading.Accepts follows start.depth default) :
    reading.Stuck follows start cause [] start := by
  refine ⟨.refl start, ⟨default, noEnd, accepts⟩, ?_, .inl position⟩
  intro other _ goes
  refine blocked other ?_
  rw [start.kind_eq_first] at goes
  rw [other.kind_eq_first, start.kind_eq_first]
  simpa using first_of_isPrefix goes

theorem traces_take {kind : TokenKind} {value : α} (wantEnd : want .eof = none)
    (wanted : want kind = some value) (start : Cursor) : (take want what).Traces follows start := by
  refine ⟨?_, ?_⟩
  · intro given last succeeds
    obtain ⟨found, wanted, passes⟩ := (take_eq_ok.mp succeeds).passes
    obtain ⟨_, _, _, depth⟩ := (take_eq_ok.mp succeeds).kinds_eq
    refine ⟨[found], passes, depth, ?_⟩
    intro other rest _ kinds _
    obtain ⟨next, takes, behind, same⟩ := takes_of_kinds kinds wanted
    exact ⟨next, take_eq_ok.mpr takes, behind, same⟩
  · intro cause fails
    obtain ⟨_, next, failed⟩ := Outcome.result_eq_error.mp fails
    unfold Cursor.take at failed
    split at failed
    · cases failed
    · next none =>
      -- The token itself is the wrong one.
      have missing := kind_of_lacks wantEnd (take?_eq_none_iff.mp none)
      cases failed
      refine ⟨[], start, stuck_here rfl ?_ ?_ (accepts_take wanted _)⟩
      · rintro other same ⟨given, last⟩ succeeds
        exact (lacks_of_kind (same ▸ missing)).not_takes (take_eq_ok.mp succeeds)
      · rintro (_ | ⟨_, ⟨⟩⟩)
        rw [wantEnd] at wanted
        cases wanted

end Take

/-- A reading that goes on as another one does, for all cursors in front of the same token.  The
token decides also where the other reading stays in front of it, if it does. -/
theorem Traces.of_same_kind {reading other : Reading α} {default : List TokenKind}
    (traces : other.Traces follows start)
    (same : ∀ place : Cursor, place.kind = start.kind → reading place = other place)
    (noEnd : .eof ∉ default) (accepts : reading.Accepts follows start.depth default)
    (stays : reading.Moves start ∨
      ∀ place : Cursor, follows place.kind → reading place = other place) :
    reading.Traces follows start := by
  refine ⟨?_, ?_⟩
  · intro value last succeeds
    obtain ⟨source, settles⟩ := traces.ok (same start rfl ▸ succeeds)
    refine ⟨source, settles.passes, settles.depth, ?_⟩
    intro place rest level kinds ends
    -- Where nothing was read, the first token is the one behind, which may have changed.
    have agrees : reading place = other place := by
      cases source with
      | cons =>
        refine same place ?_
        rw [place.kind_eq_first, start.kind_eq_first, kinds, settles.passes.kinds]
        rfl
      | nil =>
        have stopped : last.kind = start.kind := by
          rw [last.kind_eq_first, start.kind_eq_first, settles.passes.kinds]
          rfl
        have kind : place.kind = first rest := by rw [place.kind_eq_first, kinds]; rfl
        rcases ends with before | may
        · exact same place (kind.trans (before.trans stopped))
        · rcases stays with moves | agrees
          · exact absurd settles.passes.eq_of_nil (Nat.ne_of_lt (moves succeeds))
          · exact agrees place (kind ▸ may)
    obtain ⟨behind, gives, left⟩ := settles.again place rest level kinds ends
    exact ⟨behind, agrees.trans gives, left⟩
  · intro cause fails
    obtain ⟨source, here, stuck⟩ := traces.error (same start rfl ▸ fails)
    refine ⟨source, here, stuck.passes, ?_, ?_, stuck.reported⟩
    · cases source with
      -- The row may begin with any token as yet, so the other reading does not say how to go on.
      | nil => exact ⟨default, noEnd, accepts⟩
      | cons kind source =>
        obtain ⟨more, noEnd, accepts⟩ := stuck.completed
        refine ⟨more, noEnd, ?_⟩
        intro place rest level kinds ends
        have begins : place.kind = start.kind := by
          rw [place.kind_eq_first, start.kind_eq_first, kinds, stuck.passes.kinds]
          rfl
        obtain ⟨value, behind, gives, left⟩ := accepts place rest level kinds ends
        exact ⟨value, behind, (same place begins).trans gives, left⟩
    · intro place level goes result given
      have begins : place.kind = start.kind := by
        rw [here.kind_eq_first] at goes
        rw [place.kind_eq_first, start.kind_eq_first, first_of_isPrefix goes, stuck.passes.kinds]
      exact stuck.blocked place level goes _ (same place begins ▸ given)

section Look

variable {want : TokenKind → Option α} {found : α → Reading β} {missing : Reading β}

theorem look_of_takes {value : α} {after : Cursor} (takes : start.Takes want value after) :
    look want found missing start = found value after := by
  unfold look
  rw [takes.2]

theorem look_of_lacks (lacks : start.Lacks want) :
    look want found missing start = missing start := by
  unfold look
  rw [take?_eq_none_iff.mpr lacks]

theorem traces_look_of_takes {value : α} {after : Cursor} (takes : start.Takes want value after)
    (traces : (found value).Traces follows after) :
    (look want found missing).Traces follows start := by
  obtain ⟨kind, wanted, passes⟩ := takes.passes
  obtain ⟨_, _, _, depth⟩ := takes.kinds_eq
  -- What is read from here is the wanted token and what is read behind it, in any text.
  refine ⟨?_, ?_⟩
  · intro result last succeeds
    rw [look_of_takes takes] at succeeds
    obtain ⟨source, settles⟩ := traces.ok succeeds
    refine ⟨kind :: source, passes.trans settles.passes, settles.depth.trans depth, ?_⟩
    intro other rest level kinds ends
    obtain ⟨next, again, behind, same⟩ := takes_of_kinds kinds wanted
    obtain ⟨place, gives, left, back⟩ :=
      settles.again next rest (by rw [same, level, depth]) behind ends
    exact ⟨place, (look_of_takes again).trans gives, left, back.trans same⟩
  · intro cause fails
    rw [look_of_takes takes] at fails
    obtain ⟨source, here, stuck⟩ := traces.error fails
    refine ⟨kind :: source, here, passes.trans stuck.passes, ?_, ?_, ?_⟩
    · obtain ⟨more, noEnd, accepts⟩ := stuck.completed
      refine ⟨more, noEnd, ?_⟩
      intro other rest level kinds ends
      obtain ⟨next, again, behind, same⟩ := takes_of_kinds kinds wanted
      obtain ⟨result, place, gives, left, back⟩ :=
        accepts next rest (by rw [same, level, depth]) behind ends
      exact ⟨result, place, (look_of_takes again).trans gives, left, back.trans same⟩
    · intro other level goes result given
      obtain ⟨rest, kinds, goes⟩ := @exists_of_isPrefix [kind] _ source _ goes
      obtain ⟨next, again, behind, same⟩ := takes_of_kinds kinds wanted
      rw [look_of_takes again] at given
      exact stuck.blocked next (by rw [same, level, depth]) (behind ▸ goes) _ given
    · exact stuck.reported.imp_right fun masked => masked.append [kind]

theorem traces_look_of_lacks {default : List TokenKind} (wantEnd : want .eof = none)
    (lacks : start.Lacks want) (traces : missing.Traces follows start) (noEnd : .eof ∉ default)
    (accepts : (look want found missing).Accepts follows start.depth default)
    (stays : (look want found missing).Moves start ∨ ∀ kind, follows kind → want kind = none) :
    (look want found missing).Traces follows start := by
  have unwanted := kind_of_lacks wantEnd lacks
  refine traces.of_same_kind ?_ noEnd accepts (stays.imp_right ?_)
  · exact fun place same => look_of_lacks (lacks_of_kind (same ▸ unwanted))
  · exact fun never place follows => look_of_lacks (lacks_of_kind (never _ follows))

end Look

/-! ### Levels -/

section Deeper

variable {reading : Reading α}

theorem deeper_eq_ok {value : α} {last : Cursor}
    (given : reading.deeper start = .ok (value, last)) :
    ∃ room inner, reading (start.deeper room) = .ok (value, inner) ∧ last = inner.leave := by
  unfold deeper at given
  split at given
  · next room =>
    cases gives : reading (start.deeper room) with
    | error => rw [gives] at given; cases given
    | ok result =>
      rw [gives] at given
      cases given
      exact ⟨room, result.2, gives, rfl⟩
  · cases given

theorem deeper_eq_error {cause : SyntaxError} (given : reading.deeper start = .error (some cause)) :
    ∃ room, reading (start.deeper room) = .error (some cause) := by
  unfold deeper at given
  split at given
  · next room =>
    cases gives : reading (start.deeper room) with
    | error =>
      rw [gives] at given
      cases given
      exact ⟨room, gives⟩
    | ok => rw [gives] at given; cases given
  · cases given

theorem Leaves.deeper {value : α} {rest : List TokenKind} {room : start.depth < maxNesting}
    (leaves : reading.Leaves (start.deeper room) value rest) :
    reading.deeper.Leaves start value rest := by
  obtain ⟨last, gives, behind, depth⟩ := leaves
  refine ⟨last.leave, ?_, behind, ?_⟩
  · rw [Reading.deeper, dif_pos room, gives]
    rfl
  · rw [depth_leave, depth, depth_deeper, Nat.add_sub_cancel]

theorem Accepts.deeper {depth : Nat} {source : List TokenKind} (room : depth < maxNesting)
    (accepts : reading.Accepts follows (depth + 1) source) :
    reading.deeper.Accepts follows depth source := by
  rintro start rest rfl kinds ends
  obtain ⟨value, leaves⟩ := accepts (start.deeper room) rest rfl kinds ends
  exact ⟨value, leaves.deeper⟩

theorem Traces.deeper (traces : ∀ room, reading.Traces follows (start.deeper room)) :
    reading.deeper.Traces follows start := by
  refine ⟨?_, ?_⟩
  · intro value last succeeds
    obtain ⟨room, inner, gives, rfl⟩ := deeper_eq_ok succeeds
    obtain ⟨source, settles⟩ := (traces room).ok gives
    refine ⟨source, ⟨settles.passes.row, settles.passes.stop⟩, ?_, ?_⟩
    · rw [depth_leave, settles.depth, depth_deeper, Nat.add_sub_cancel]
    · intro other rest level kinds ends
      -- A cursor of the same depth has room for one more level, too.
      have full : other.depth < maxNesting := level ▸ room
      have depth : (other.deeper full).depth = (start.deeper room).depth := by
        rw [depth_deeper, depth_deeper, level]
      exact (settles.again (other.deeper full) rest depth kinds ends).deeper
  · intro cause fails
    obtain ⟨room, gives⟩ := deeper_eq_error fails
    obtain ⟨source, here, stuck⟩ := (traces room).error gives
    refine ⟨source, here, ⟨stuck.passes.row, stuck.passes.stop⟩, ?_, ?_, stuck.reported⟩
    · obtain ⟨more, noEnd, accepts⟩ := stuck.completed
      exact ⟨more, noEnd, accepts.deeper room⟩
    · rintro other level goes ⟨value, last⟩ given
      obtain ⟨full, inner, gives, rfl⟩ := deeper_eq_ok given
      have depth : (other.deeper full).depth = (start.deeper room).depth := by
        rw [depth_deeper, depth_deeper, level]
      exact stuck.blocked (other.deeper full) depth goes _ gives

end Deeper

/-! ### Readings that can be begun anywhere -/

/-- A reading that is traced at all cursors with less than so many tokens, and that reads a row of
tokens at any nesting. -/
structure Traced (bound : Nat) (reading : Reading α) (follows : TokenKind → Prop)
    (default : List TokenKind) : Prop where
  traces : ∀ start, start.rest.length < bound → reading.Traces follows start
  accepts : ∀ depth, reading.Accepts follows depth default
  noEnd : .eof ∉ default
  moves : default ≠ [] → ∀ start, start.rest.length < bound → reading.Moves start

namespace Traced

variable {bound : Nat} {reading : Reading α}

theorem pure (value : α) : Traced bound (Reading.pure value) follows [] :=
  ⟨fun start _ => traces_pure value start, accepts_pure value, List.not_mem_nil, nofun⟩

theorem take {want : TokenKind → Option α} {what : Expectation} {kind : TokenKind} {value : α}
    (wantEnd : want .eof = none) (wanted : want kind = some value) :
    Traced bound (Reading.take want what) follows [kind] := by
  refine ⟨fun start _ => traces_take wantEnd wanted start, accepts_take wanted, ?_,
    fun _ start _ => moves_take start⟩
  rintro (_ | ⟨_, ⟨⟩⟩)
  rw [wantEnd] at wanted
  cases wanted

theorem symbol (mark : Symbol) (place : Place) :
    Traced bound (Reading.symbol mark place) follows [.symbol mark] := by
  have wanted : TokenKind.exactly (.symbol mark) (.symbol mark) = some () := exactly_eq_some.mpr rfl
  exact take rfl wanted

/-- One reading after another. -/
theorem andThen [values : Nonempty α] {step : α → Reading β} {followsLast : TokenKind → Prop}
    {source default : List TokenKind} (front : Traced bound reading follows source)
    (back : ∀ value, Traced bound (step value) followsLast default)
    (follow : ∀ rest, followsLast (first rest) → follows (first (default ++ rest))) :
    Traced bound (reading.andThen step) followsLast (source ++ default) := by
  have noEnd : .eof ∉ default := values.elim fun value => (back value).noEnd
  refine ⟨?_, ?_, ?_, ?_⟩
  · intro start fits
    have traces := front.traces start fits
    refine traces.andThen ?_ ⟨fun value => (back value).accepts _, noEnd, follow, ?_⟩
    · intro value next given
      obtain ⟨_, settles⟩ := traces.ok given
      exact (back value).traces next (Nat.lt_of_le_of_lt settles.passes.length_le fits)
    · intro more value next le
      exact (back value).moves more next (Nat.lt_of_le_of_lt le fits)
  · intro depth
    exact (front.accepts depth).andThen (fun value => (back value).accepts depth) follow
  · exact fun member => (List.mem_append.mp member).elim front.noEnd noEnd
  · intro some start fits result last given
    obtain ⟨value, next, first, gives⟩ := andThen_eq_ok given
    obtain ⟨_, settles⟩ := (front.traces start fits).ok first
    have le := settles.passes.length_le
    have fitsNext := Nat.lt_of_le_of_lt le fits
    obtain ⟨_, settled⟩ := ((back value).traces next fitsNext).ok gives
    -- One of the two takes a token, and the other one gives none back.
    by_cases none : source = []
    · have more : default ≠ [] := by simpa [none] using some
      exact Nat.lt_of_lt_of_le ((back value).moves more next fitsNext gives) le
    · exact Nat.lt_of_le_of_lt settled.passes.length_le (front.moves none start fits first)

/-- A reading that any token may follow, and another one. -/
theorem closed_andThen [Nonempty α] {step : α → Reading β} {source default : List TokenKind}
    (front : Traced bound reading (fun _ => True) source)
    (back : ∀ value, Traced bound (step value) follows default) :
    Traced bound (reading.andThen step) follows (source ++ default) :=
  front.andThen back fun _ _ => trivial

/-- What stands behind a symbol does not decide how the symbol is read. -/
theorem symbol_andThen {step : Reading β} {source : List TokenKind} (mark : Symbol) (place : Place)
    (back : Traced bound step follows source) :
    Traced bound ((Reading.symbol mark place).andThen fun _ => step) follows
      (.symbol mark :: source) :=
  (symbol mark place).closed_andThen fun _ => back

theorem map [Nonempty α] {source : List TokenKind} (change : α → β)
    (front : Traced bound reading follows source) :
    Traced bound (reading.andThen fun value => Reading.pure (change value)) follows source := by
  simpa using front.andThen (fun value => .pure (change value)) fun _ ends => ends

/-- One way behind a wanted token, and another way in front of any other token. -/
theorem look {want : TokenKind → Option α} {found : α → Reading β} {missing : Reading β}
    {kind : TokenKind} {source : List TokenKind} (wantEnd : want .eof = none)
    (front : ∀ value, ∃ default, Traced bound (found value) follows default)
    (back : Traced bound missing follows (kind :: source)) (unwanted : want kind = none) :
    Traced bound (Reading.look want found missing) follows (kind :: source) := by
  -- The shortest row goes the way without a wanted token.
  have accepts (depth : Nat) :
      (Reading.look want found missing).Accepts follows depth (kind :: source) := by
    intro start rest level kinds ends
    have lacks : start.Lacks want := lacks_of_kind (by rwa [start.kind_eq_first, kinds])
    obtain ⟨value, last, gives, left⟩ := back.accepts depth start rest level kinds ends
    exact ⟨value, last, (look_of_lacks lacks).trans gives, left⟩
  have moves (start : Cursor) (fits : start.rest.length < bound) :
      (Reading.look want found missing).Moves start := by
    intro result last given
    rcases start.take?_cases want with ⟨_, lacks⟩ | ⟨value, after, takes, _⟩
    · rw [look_of_lacks lacks] at given
      exact back.moves (List.cons_ne_nil _ _) start fits given
    · rw [look_of_takes takes] at given
      obtain ⟨default, traced⟩ := front value
      have behind := takes.shorter
      obtain ⟨_, settles⟩ := (traced.traces after (Nat.lt_trans behind fits)).ok given
      exact Nat.lt_of_le_of_lt settles.passes.length_le behind
  refine ⟨?_, accepts, back.noEnd, fun _ => moves⟩
  intro start fits
  rcases start.take?_cases want with ⟨_, lacks⟩ | ⟨value, after, takes, _⟩
  · exact traces_look_of_lacks wantEnd lacks (back.traces start fits) back.noEnd (accepts _)
      (.inl (moves start fits))
  · obtain ⟨default, traced⟩ := front value
    exact traces_look_of_takes takes (traced.traces after (Nat.lt_trans takes.shorter fits))

/-- Something that may be missing, as the token that it begins with tells. -/
theorem optional {want : TokenKind → Option α} {found : α → Reading β} {value : β}
    (wantEnd : want .eof = none) (follow : ∀ kind, follows kind → want kind = none)
    (traces : ∀ (start : Cursor) given after, start.rest.length < bound →
      start.Takes want given after →
      (found given).Traces follows after) :
    Traced bound (Reading.look want found (Reading.pure value)) follows [] := by
  have accepts (depth : Nat) :
      (Reading.look want found (Reading.pure value)).Accepts follows depth [] := by
    intro start rest _ kinds ends
    have lacks : start.Lacks want := by
      refine lacks_of_kind ?_
      rw [start.kind_eq_first, kinds]
      exact follow _ ends
    exact ⟨value, start, look_of_lacks lacks, kinds, rfl⟩
  refine ⟨?_, accepts, List.not_mem_nil, nofun⟩
  intro start fits
  rcases start.take?_cases want with ⟨_, lacks⟩ | ⟨given, after, takes, _⟩
  · exact traces_look_of_lacks wantEnd lacks (traces_pure value start) List.not_mem_nil (accepts _)
      (.inr follow)
  · exact traces_look_of_takes takes (traces start given after fits takes)

end Traced

end Reading

end BlockScript
