import BlockScript.Proofs.Grammar.Cursor
import BlockScript.Proofs.Grammar.Parser

/-!
# Parsers and cursors at the same place

A parser that keeps its place by number stands where a cursor stands (`Parser.Stands`) if as many
tokens are behind it.  From there both come to the same (`Parser.Matches`) whatever they read, and
that is kept by each way to put readers together.
-/

namespace BlockScript

namespace Cursor

variable {α : Type} {cursor next : Cursor} {want : TokenKind → Option α} {value : α}

theorem Takes.rest_eq (takes : cursor.Takes want value next) :
    ∃ token, want token.kind = some value ∧ cursor.rest = token :: next.rest ∧
      next.stop = cursor.stop ∧ next.depth = cursor.depth := by
  obtain ⟨rest, stop, depth, depth_le⟩ := cursor
  obtain ⟨_, found⟩ := takes
  cases rest with
  | nil => cases found
  | cons token rest =>
    obtain ⟨_, wanted, same⟩ := Option.map_eq_some_iff.mp found
    cases same
    exact ⟨token, wanted, rfl, rfl, rfl⟩

theorem Takes.depth_eq (takes : cursor.Takes want value next) : next.depth = cursor.depth := by
  obtain ⟨_, -, -, -, depth⟩ := takes.rest_eq
  exact depth

theorem Takes.deeper (takes : cursor.Takes want value next) (room : cursor.depth < maxNesting)
    (inside : next.depth < maxNesting) :
    (cursor.deeper room).Takes want value (next.deeper inside) := by
  obtain ⟨rest, stop, depth, depth_le⟩ := cursor
  obtain ⟨_, found⟩ := takes
  cases rest with
  | nil => cases found
  | cons token rest =>
    obtain ⟨_, wanted, same⟩ := Option.map_eq_some_iff.mp found
    cases same
    exact ⟨Nat.lt_succ_self _, Option.map_eq_some_iff.mpr ⟨value, wanted, rfl⟩⟩

end Cursor

namespace Parser

open Cursor

variable {α β : Type} {tokens : List Token} {depth : Nat} {parser : Parser} {cursor : Cursor}

/-! ### Places -/

/-- A parser and a cursor are at the same place of a row of tokens, in front of its first end
token or at it. -/
structure Stands (tokens : List Token) (depth : Nat) (parser : Parser) (cursor : Cursor) :
    Prop where
  kinds : parser.kinds = tokens.map (·.kind)
  row : ∃ stop after, tokens.drop parser.index = cursor.rest ++ stop :: after ∧
    stop.kind = .eof ∧ stop.position = cursor.stop
  noEnd : ∀ token ∈ tokens.take parser.index ++ cursor.rest, token.kind ≠ .eof
  levels : parser.depth = depth
  depth : cursor.depth = depth

/-- The same parser at the next token. -/
def next (parser : Parser) : Parser :=
  { parser with index := parser.index + 1 }

/-- The same parser at another level. -/
def onLevel (parser : Parser) (depth : Nat) : Parser :=
  { parser with depth }

theorem Stands.token (stands : Stands tokens depth parser cursor) :
    ∃ token, tokens[parser.index]? = some token ∧ token.kind = cursor.kind ∧
      token.position = cursor.position := by
  obtain ⟨stop, after, row, isEnd, position⟩ := stands.row
  have here : tokens[parser.index]? = (cursor.rest ++ stop :: after)[0]? := by
    rw [← row, List.getElem?_drop, Nat.add_zero]
  unfold Cursor.kind Cursor.position
  rw [here]
  cases cursor.rest with
  | nil => exact ⟨stop, rfl, isEnd, position⟩
  | cons token rest => exact ⟨token, rfl, rfl, rfl⟩

theorem Stands.length_lt (stands : Stands tokens depth parser cursor) :
    parser.index + cursor.rest.length < tokens.length := by
  obtain ⟨stop, after, row, -⟩ := stands.row
  have lengths := congrArg List.length row
  simp only [List.length_drop, List.length_append, List.length_cons] at lengths
  omega

theorem Stands.deeper (stands : Stands tokens depth parser cursor)
    (room : cursor.depth < maxNesting) :
    Stands tokens (depth + 1) (parser.onLevel (depth + 1)) (cursor.deeper room) :=
  ⟨stands.kinds, stands.row, stands.noEnd, rfl, congrArg Nat.succ stands.depth⟩

theorem Stands.next {want : TokenKind → Option α} {value : α} {behind : Cursor}
    (stands : Stands tokens depth parser cursor) (takes : cursor.Takes want value behind) :
    Stands tokens depth parser.next behind := by
  obtain ⟨token, -, rest, stop, level⟩ := takes.rest_eq
  obtain ⟨last, after, row, isEnd, position⟩ := stands.row
  have noEnd := stands.noEnd
  rw [rest, List.cons_append] at row
  have taken : tokens.take parser.next.index = tokens.take parser.index ++ [token] := by
    have here : tokens[parser.index]? = some token := by
      rw [← Nat.add_zero parser.index, ← List.getElem?_drop, row]
      rfl
    rw [Parser.next, List.take_add_one, here, Option.toList_some]
  refine ⟨stands.kinds, ⟨last, after, ?_, isEnd, position.trans stop.symm⟩, ?_, stands.levels,
    level.trans stands.depth⟩
  · rw [Parser.next, ← List.drop_drop, row]
    rfl
  · rw [taken, List.append_assoc, List.singleton_append, ← rest]
    exact noEnd

/-! ### Single tokens -/

theorem bind_of_ok {x : Parse β} {step : β → Parse α} {value : β} {after : Parser}
    (given : x parser = .ok value after) : (x >>= step) parser = step value after := by
  change EStateM.bind x step parser = _
  rw [EStateM.bind, given]

theorem bind_of_error {x : Parse β} {step : β → Parse α} {halt : Halt} {after : Parser}
    (given : x parser = .error halt after) : (x >>= step) parser = .error halt after := by
  change EStateM.bind x step parser = _
  rw [EStateM.bind, given]

theorem Stands.noEnd_kinds (stands : Stands tokens depth parser cursor) :
    .eof ∉ parser.kinds.take parser.index := by
  rw [stands.kinds, ← List.map_take]
  intro isEnd
  obtain ⟨token, member, kind⟩ := List.mem_map.mp isEnd
  exact stands.noEnd token (List.mem_append_left _ member) kind

theorem Stands.peek (stands : Stands tokens depth parser cursor) :
    peek parser = .ok cursor.kind parser := by
  obtain ⟨token, here, kind, -⟩ := stands.token
  have found : parser.kinds[parser.index]? = some cursor.kind := by
    rw [stands.kinds, List.getElem?_map, here, Option.map_some, kind]
  simp only [Parser.peek, if_neg stands.noEnd_kinds, found]

theorem Stands.check (stands : Stands tokens depth parser cursor) (want : TokenKind → Option α) :
    check want parser = .ok ((cursor.take? want).map (·.value)) parser := by
  rw [Parser.check, bind_of_ok stands.peek]
  obtain ⟨rest, stop, level, level_le⟩ := cursor
  cases rest with
  -- The parser looks at the end token, which is never a wanted one.
  | nil => rfl
  | cons token rest =>
    have noEnd : token.kind ≠ .eof :=
      stands.noEnd token (List.mem_append_right _ List.mem_cons_self)
    change EStateM.Result.ok (if token.kind = .eof then none else want token.kind) parser = _
    rw [if_neg noEnd, take?, Option.map_map]
    cases want token.kind <;> rfl

theorem Stands.advance {want : TokenKind → Option α} {value : α} {behind : Cursor}
    (stands : Stands tokens depth parser cursor) (takes : cursor.Takes want value behind) :
    advance parser = .ok parser.index parser.next := by
  obtain ⟨token, -, rest, -⟩ := takes.rest_eq
  have noEnd : cursor.kind ≠ .eof := by
    have others := stands.noEnd token
    simp only [Cursor.kind, rest] at others ⊢
    exact others (List.mem_append_right _ List.mem_cons_self)
  have inRow : parser.index < parser.kinds.length := by
    have less := stands.length_lt
    rw [stands.kinds, List.length_map]
    omega
  rw [Parser.advance, bind_of_ok stands.peek, if_neg noEnd]
  change previous parser.next = _
  exact if_pos inRow

/-! ### Matching ways to go on -/

/-- A parser comes to what a reader comes to: the same value at the same place, or the same fault
in the token at the same position, and in either case to a level that is one of some. -/
inductive Matches (tokens : List Token) (levels : Nat → Prop) {bound : Nat} :
    Outcome bound α → EStateM.Result Halt Parser α → Prop where
  | ok {depth value next shorter after} : levels depth → Stands tokens depth after next →
      Matches tokens levels (.ok value next shorter) (.ok value after)
  | error {cause next index token after} : levels after.depth → tokens[index]? = some token →
      token.position = cause.position →
      Matches tokens levels (.error cause next) (.error (.error index cause.fault) after)

namespace Matches

variable {bound tighter : Nat} {levels : Nat → Prop} {outcome : Outcome bound α}
  {want : TokenKind → Option β}

theorem within {inner : Outcome tighter α} {le : tighter ≤ bound}
    {result : EStateM.Result Halt Parser α} (matched : Matches tokens levels inner result) :
    Matches tokens levels (inner.within le) result := by
  cases matched with
  | ok level stands => exact .ok level stands
  | error level found position => exact .error level found position

/-- Something is read behind what a reader has read. -/
theorem bind_cases {front : Outcome tighter β} {x : Parse β} {step : β → Parse α}
    (matched : Matches tokens (· = depth) front (x parser)) (level : levels depth)
    (ok : ∀ value next shorter after, front = .ok value next shorter →
      Stands tokens depth after next → Matches tokens levels outcome (step value after))
    (error : ∀ cause next, front = .error cause next → ∃ last, outcome = .error cause last) :
    Matches tokens levels outcome ((x >>= step) parser) := by
  generalize given : x parser = result at matched
  cases matched with
  | ok same stands =>
    subst same
    rw [bind_of_ok given]
    exact ok _ _ _ _ rfl stands
  | error same found position =>
    subst same
    -- What comes behind a fault is not read.
    rw [bind_of_error given]
    obtain ⟨last, rfl⟩ := error _ _ rfl
    exact .error level found position

theorem bind {front : Outcome tighter β} {x : Parse β} {step : β → Parse α}
    {onward : (value : β) → (next : Cursor) → next.rest.length < tighter → Outcome bound α}
    (matched : Matches tokens (· = depth) front (x parser)) (level : levels depth)
    (back : ∀ value next shorter after, Stands tokens depth after next →
      Matches tokens levels (onward value next shorter) (step value after)) :
    Matches tokens levels (front.andThen onward) ((x >>= step) parser) := by
  refine matched.bind_cases level ?_ ?_
  · rintro value next shorter after rfl stands
    exact back value next shorter after stands
  · rintro cause next rfl
    exact ⟨next, rfl⟩

theorem map {front : Outcome bound β} {x : Parse β} {change : β → α}
    (matched : Matches tokens (· = depth) front (x parser)) :
    Matches tokens (· = depth) (front.map change)
      ((x >>= fun value => pure (change value)) parser) := by
  refine matched.bind_cases rfl ?_ ?_
  · rintro value next shorter after rfl stands
    exact .ok rfl stands
  · rintro cause next rfl
    exact ⟨next, rfl⟩

theorem peek {step : TokenKind → Parse α} (stands : Stands tokens depth parser cursor)
    (back : Matches tokens levels outcome (step cursor.kind parser)) :
    Matches tokens levels outcome ((Parser.peek >>= step) parser) := by
  rw [bind_of_ok stands.peek]
  exact back

theorem check {step : Option β → Parse α} (stands : Stands tokens depth parser cursor)
    (missing : cursor.take? want = none → Matches tokens levels outcome (step none parser))
    (found : ∀ value next shorter, cursor.take? want = some ⟨value, next, shorter⟩ →
      Matches tokens levels outcome (step (some value) parser)) :
    Matches tokens levels outcome ((Parser.check want >>= step) parser) := by
  rw [bind_of_ok (stands.check want)]
  cases taken : cursor.take? want with
  | none => exact missing taken
  | some taken => exact found _ _ _ ‹_›

theorem advance {step : Nat → Parse α} {value : β} {next : Cursor}
    (stands : Stands tokens depth parser cursor) (takes : cursor.Takes want value next)
    (back : Stands tokens depth parser.next next →
      Matches tokens levels outcome (step parser.index parser.next)) :
    Matches tokens levels outcome ((Parser.advance >>= step) parser) := by
  rw [bind_of_ok (stands.advance takes)]
  exact back (stands.next takes)

theorem accept {step : Option β → Parse α} (stands : Stands tokens depth parser cursor)
    (missing : cursor.take? want = none → Matches tokens levels outcome (step none parser))
    (found : ∀ value next shorter, cursor.take? want = some ⟨value, next, shorter⟩ →
      Stands tokens depth parser.next next →
      Matches tokens levels outcome (step (some value) parser.next)) :
    Matches tokens levels outcome ((Parser.accept want >>= step) parser) := by
  rw [Parser.accept, bind_assoc]
  refine check stands missing fun value next shorter taken => ?_
  change Matches tokens levels outcome
    (((Parser.advance >>= fun _ => pure (some value)) >>= step) parser)
  rw [bind_assoc]
  refine advance stands ⟨shorter, taken⟩ fun behind => ?_
  rw [pure_bind]
  exact found value next shorter taken behind

theorem stop (stands : Stands tokens depth parser cursor) (fault : SyntaxFault) :
    Matches tokens (· = depth) (cursor.fail fault : Outcome bound α)
      (Parser.stop fault parser) := by
  obtain ⟨token, found, -, position⟩ := stands.token
  have stopped : Matches tokens (· = depth)
      (.error ⟨cursor.position, fault⟩ cursor : Outcome bound α)
      (.error (.error parser.index fault) parser) := .error stands.levels found position
  exact stopped

theorem expected (stands : Stands tokens depth parser cursor) (what : Expectation) :
    Matches tokens (· = depth) (cursor.expected what : Outcome bound α)
      (Parser.expected what parser) := by
  rw [Parser.expected, bind_of_ok stands.peek]
  exact stop stands _

theorem consume (stands : Stands tokens depth parser cursor) (mark : Symbol) (place : Place) :
    Matches tokens (· = depth) (cursor.symbol mark place) (Parser.consume mark place parser) := by
  unfold Cursor.symbol Cursor.take
  refine check stands (fun missing => ?_) fun value next shorter taken => ?_
  · rw [missing]
    exact expected stands _
  · rw [taken]
    exact advance stands ⟨shorter, taken⟩ fun behind => .ok rfl behind

/-- A symbol that has been seen already is consumed. -/
theorem consume_seen {mark : Symbol} {place : Place} {step : Unit → Parse α} {void : Unit}
    {next : Cursor} (stands : Stands tokens depth parser cursor)
    (takes : cursor.Takes (TokenKind.exactly (.symbol mark)) void next)
    (back : Stands tokens depth parser.next next →
      Matches tokens levels outcome (step () parser.next)) :
    Matches tokens levels outcome ((Parser.consume mark place >>= step) parser) := by
  have consumed : Parser.consume mark place parser = .ok () parser.next := by
    rw [Parser.consume, bind_of_ok (stands.check _), takes.2]
    exact bind_of_ok (stands.advance takes)
  rw [bind_of_ok consumed]
  exact back (stands.next takes)

theorem name (stands : Stands tokens depth parser cursor) :
    Matches tokens (· = depth) (cursor.take TokenKind.name? .variableName)
      (Parser.name parser) := by
  unfold Cursor.take
  refine check stands (fun missing => ?_) fun value next shorter taken => ?_
  · rw [missing]
    exact expected stands _
  · rw [taken]
    exact advance stands ⟨shorter, taken⟩ fun behind => .ok rfl behind

/-! ### Levels -/

theorem enter {start : Cursor} {step : Unit → Parse α}
    {read : (inside : Cursor) → inside.rest = start.rest → Outcome bound α}
    (stands : Stands tokens depth parser cursor) (same : start.depth = depth)
    (level : levels depth)
    (inside : ∀ (room : start.depth < maxNesting) (again : cursor.depth < maxNesting),
      Stands tokens (depth + 1) (parser.onLevel (depth + 1)) (cursor.deeper again) →
      Matches tokens levels (read (start.deeper room) rfl)
        (step () (parser.onLevel (depth + 1)))) :
    Matches tokens levels (start.enter cursor read) ((Parser.enter >>= step) parser) := by
  -- Whether there is room depends on the depth alone, so both find it, or neither does.
  by_cases room : depth < maxNesting
  · have entered : Parser.enter parser = .ok () (parser.onLevel (depth + 1)) := by
      change (if parser.depth < maxNesting then _ else _ : Parse Unit) parser = _
      rw [stands.levels, if_pos room]
      rfl
    rw [bind_of_ok entered, Cursor.enter, dif_pos (same ▸ room)]
    exact inside (same ▸ room) (stands.depth ▸ room) (stands.deeper _)
  · have full : Parser.enter parser = .error (.error parser.index .tooDeep) parser := by
      change (if parser.depth < maxNesting then _ else _ : Parse Unit) parser = _
      rw [stands.levels, if_neg room]
      exact bind_of_ok stands.peek
    obtain ⟨token, found, -, position⟩ := stands.token
    have stopped : Matches tokens levels
        (.error ⟨cursor.position, .tooDeep⟩ cursor : Outcome bound α)
        (.error (.error parser.index .tooDeep) parser) :=
      .error (stands.levels ▸ level) found position
    rw [bind_of_error full, Cursor.enter, dif_neg (same ▸ room)]
    exact stopped

/-- What is done at the end of a reader brings it back to a level, whether it has a value or not. -/
theorem lastly {read : Parse α} {last : Parse Unit} {change : Cursor → Cursor}
    {same : ∀ cursor, (change cursor).rest = cursor.rest}
    (matched : Matches tokens levels outcome (read parser))
    (back : ∀ after, levels after.depth → last after = .ok () (after.onLevel depth))
    (changed : ∀ cursor : Cursor, levels cursor.depth →
      (change cursor).stop = cursor.stop ∧ (change cursor).depth = depth) :
    Matches tokens (· = depth) (outcome.mapNext change same)
      (Parser.lastly read last parser) := by
  generalize given : read parser = result at matched
  cases matched with
  | @ok inner value next shorter after level stands =>
    have levels_eq := stands.levels
    have depth_eq := stands.depth
    obtain ⟨stop, depth'⟩ := changed next (depth_eq ▸ level)
    rw [Parser.lastly, given]
    change Matches tokens (· = depth) _ ((last >>= fun _ => pure value) after)
    rw [bind_of_ok (back after (levels_eq ▸ level))]
    refine .ok rfl ⟨stands.kinds, ?_, ?_, rfl, depth'⟩
    · rw [same, stop]
      exact stands.row
    · rw [same]
      exact stands.noEnd
  | @error cause next index token after level found position =>
    rw [Parser.lastly, given]
    change Matches tokens (· = depth) _
      ((last >>= fun _ => throw (.error index cause.fault)) after)
    rw [bind_of_ok (back after level)]
    exact .error rfl found position

theorem nested {start : Cursor} {inner : Parse α}
    {read : (inside : Cursor) → inside.rest = start.rest → Outcome bound α}
    (stands : Stands tokens depth parser cursor) (same : start.depth = depth)
    (inside : ∀ (room : start.depth < maxNesting) (again : cursor.depth < maxNesting),
      Stands tokens (depth + 1) (parser.onLevel (depth + 1)) (cursor.deeper again) →
      Matches tokens (· = depth + 1) (read (start.deeper room) rfl)
        (inner (parser.onLevel (depth + 1)))) :
    Matches tokens (· = depth) (start.nested cursor read) (Parser.nested inner parser) := by
  refine enter stands same rfl fun room again deeper => ?_
  refine lastly (inside room again deeper) ?_ ?_
  · rintro after level
    rw [leave, level]
    rfl
  · intro cursor level
    refine ⟨rfl, ?_⟩
    rw [depth_leave, level, Nat.add_sub_cancel]

/-- A level is opened in front of the first token and the rest is read on it. -/
theorem nested_advance {start : Cursor} {value : β} {step : Nat → Parse α}
    {read : (inside : Cursor) → inside.rest = start.rest → Outcome bound α}
    (stands : Stands tokens depth parser cursor) (takes : cursor.Takes want value start)
    (inside : ∀ room, (start.deeper room).rest.length < cursor.rest.length →
      Stands tokens (depth + 1) (parser.onLevel (depth + 1)).next (start.deeper room) →
      Matches tokens (· = depth + 1) (read (start.deeper room) rfl)
        (step parser.index (parser.onLevel (depth + 1)).next)) :
    Matches tokens (· = depth) (start.nested cursor read)
      (Parser.nested (Parser.advance >>= step) parser) := by
  refine nested stands (takes.depth_eq.trans stands.depth) fun room again deeper => ?_
  refine advance deeper (takes.deeper again room) fun onward => ?_
  exact inside room takes.shorter onward

theorem restore {read : Parse α} {depth_le : depth ≤ maxNesting}
    (matched : Matches tokens (fun _ => True) outcome (read parser)) :
    Matches tokens (· = depth) (outcome.restore depth depth_le) (keeping depth read parser) :=
  lastly matched (fun _ _ => rfl) fun _ _ => ⟨rfl, rfl⟩

end Matches

end Parser

end BlockScript
