import BlockScript.Syntax.Cursor

/-!
# Cursors and the kinds of the tokens behind them

What a reading step gives depends on the kinds of the tokens and on the nesting, never on positions.
`Outcome.Gives` leaves out the bound that makes the readers end, so that the readers can be taken
apart and put together by equivalences.
-/

namespace BlockScript

/-! ### What an outcome gives -/

/-- An outcome is a value and a cursor behind it. -/
def Outcome.Gives {α : Type} {bound : Nat} (outcome : Outcome bound α) (value : α)
    (next : Cursor) : Prop :=
  ∃ shorter, outcome = .ok value next shorter

namespace Outcome

variable {α β : Type} {bound tighter : Nat} {value : α} {next last : Cursor}

theorem Gives.shorter {outcome : Outcome bound α} (gives : outcome.Gives value next) :
    next.rest.length < bound :=
  gives.1

@[simp]
theorem ok_gives {given : α} {behind : Cursor} {shorter : behind.rest.length < bound} :
    (Outcome.ok given behind shorter).Gives value next ↔ value = given ∧ next = behind := by
  constructor
  · rintro ⟨_, same⟩
    cases same
    exact ⟨rfl, rfl⟩
  · rintro ⟨rfl, rfl⟩
    exact ⟨shorter, rfl⟩

@[simp]
theorem error_gives {cause : SyntaxError} {behind : Cursor} :
    ¬ (Outcome.error cause behind : Outcome bound α).Gives value next := by
  rintro ⟨_, same⟩
  cases same

theorem andThen_gives {outcome : Outcome tighter β}
    {step : (value : β) → (next : Cursor) → next.rest.length < tighter → Outcome bound α} :
    (outcome.andThen step).Gives value last ↔
      ∃ first middle, ∃ gives : outcome.Gives first middle,
        (step first middle gives.shorter).Gives value last := by
  cases outcome with
  | ok first middle shorter =>
    constructor
    · intro gives
      exact ⟨first, middle, ok_gives.mpr ⟨rfl, rfl⟩, gives⟩
    · rintro ⟨first', middle', gives, rest⟩
      obtain ⟨rfl, rfl⟩ := ok_gives.mp gives
      exact rest
  | error cause middle =>
    constructor
    · intro gives
      exact absurd gives error_gives
    · rintro ⟨_, _, gives, _⟩
      exact absurd gives error_gives

@[simp]
theorem within_gives {outcome : Outcome tighter α} {le : tighter ≤ bound} :
    (outcome.within le).Gives value next ↔ outcome.Gives value next := by
  cases outcome <;> simp [within]

@[simp]
theorem map_gives {outcome : Outcome bound β} {change : β → α} :
    (outcome.map change).Gives value next ↔
      ∃ given, outcome.Gives given next ∧ value = change given := by
  cases outcome with
  | ok given behind shorter =>
    simp only [map, ok_gives]
    constructor
    · rintro ⟨rfl, rfl⟩
      exact ⟨given, ⟨rfl, rfl⟩, rfl⟩
    · rintro ⟨_, ⟨rfl, rfl⟩, rfl⟩
      exact ⟨rfl, rfl⟩
  | error cause behind => simp [map]

theorem mapNext_gives {outcome : Outcome bound α} {change : Cursor → Cursor}
    {same : ∀ cursor, (change cursor).rest = cursor.rest} :
    (outcome.mapNext change same).Gives value last ↔
      ∃ next, outcome.Gives value next ∧ last = change next := by
  cases outcome with
  | ok given behind shorter =>
    simp only [mapNext, ok_gives]
    constructor
    · rintro ⟨rfl, rfl⟩
      exact ⟨behind, ⟨rfl, rfl⟩, rfl⟩
    · rintro ⟨_, ⟨rfl, rfl⟩, rfl⟩
      exact ⟨rfl, rfl⟩
  | error cause behind => simp [mapNext]

theorem restore_gives {outcome : Outcome bound α} {depth : Nat} {depth_le : depth ≤ maxNesting} :
    (outcome.restore depth depth_le).Gives value last ↔
      ∃ next, outcome.Gives value next ∧ last = next.restore depth depth_le :=
  mapNext_gives

end Outcome

namespace Cursor

variable {α : Type} {bound : Nat} {value : α} {cursor next last : Cursor}

/-! ### The kinds behind a cursor -/

/-- The kinds of the tokens not read yet. -/
def kinds (cursor : Cursor) : List TokenKind :=
  cursor.rest.map (·.kind)

/-- The same place one level deeper. -/
def deeper (cursor : Cursor) (room : cursor.depth < maxNesting) : Cursor :=
  ⟨cursor.rest, cursor.stop, cursor.depth + 1, room⟩

@[simp]
theorem rest_deeper (room : cursor.depth < maxNesting) :
    (cursor.deeper room).rest = cursor.rest :=
  rfl

@[simp]
theorem kinds_deeper (room : cursor.depth < maxNesting) :
    (cursor.deeper room).kinds = cursor.kinds :=
  rfl

@[simp]
theorem depth_deeper (room : cursor.depth < maxNesting) :
    (cursor.deeper room).depth = cursor.depth + 1 :=
  rfl

@[simp]
theorem kinds_leave : cursor.leave.kinds = cursor.kinds :=
  rfl

@[simp]
theorem depth_leave : cursor.leave.depth = cursor.depth - 1 :=
  rfl

/-! ### Reading one token -/

/-- The token behind a cursor is a wanted one, and another cursor stands behind it. -/
def Takes (cursor : Cursor) (want : TokenKind → Option α) (value : α) (next : Cursor) : Prop :=
  ∃ shorter, cursor.take? want = some ⟨value, next, shorter⟩

/-- No wanted token stands behind a cursor. -/
def Lacks (cursor : Cursor) (want : TokenKind → Option α) : Prop :=
  ∀ kind ∈ cursor.kinds.head?, want kind = none

variable {want : TokenKind → Option α}

theorem Takes.shorter (takes : cursor.Takes want value next) :
    next.rest.length < cursor.rest.length :=
  takes.1

theorem take?_eq_none_iff : cursor.take? want = none ↔ cursor.Lacks want := by
  obtain ⟨rest, stop, depth, depth_le⟩ := cursor
  cases rest <;> simp [take?, Lacks, kinds]

/-- A reading step that asks for one token goes one way or the other. -/
theorem take?_cases (cursor : Cursor) (want : TokenKind → Option α) :
    (cursor.take? want = none ∧ cursor.Lacks want) ∨
      ∃ value next, ∃ takes : cursor.Takes want value next,
        cursor.take? want = some ⟨value, next, takes.shorter⟩ := by
  cases found : cursor.take? want with
  | none => exact .inl ⟨rfl, take?_eq_none_iff.mp found⟩
  | some taken => exact .inr ⟨taken.value, taken.next, ⟨taken.shorter, found⟩, rfl⟩

theorem Takes.unique {other : α} {behind : Cursor} (takes : cursor.Takes want value next)
    (again : cursor.Takes want other behind) : other = value ∧ behind = next := by
  obtain ⟨_, found⟩ := takes
  obtain ⟨_, same⟩ := again
  rw [found] at same
  cases same
  exact ⟨rfl, rfl⟩

theorem Lacks.not_takes (lacks : cursor.Lacks want) : ¬ cursor.Takes want value next := by
  rintro ⟨_, found⟩
  rw [take?_eq_none_iff.mpr lacks] at found
  cases found

theorem Takes.kinds_eq (takes : cursor.Takes want value next) :
    ∃ kind, want kind = some value ∧ cursor.kinds = kind :: next.kinds ∧
      next.depth = cursor.depth := by
  obtain ⟨rest, stop, depth, depth_le⟩ := cursor
  obtain ⟨_, found⟩ := takes
  cases rest with
  | nil => cases found
  | cons token rest =>
    obtain ⟨_, wanted, same⟩ := Option.map_eq_some_iff.mp found
    cases same
    exact ⟨token.kind, wanted, rfl, rfl⟩

theorem takes_of_kinds {kind : TokenKind} {tail : List TokenKind}
    (here : cursor.kinds = kind :: tail) (wanted : want kind = some value) :
    ∃ next, cursor.Takes want value next ∧ next.kinds = tail ∧ next.depth = cursor.depth := by
  obtain ⟨rest, stop, depth, depth_le⟩ := cursor
  cases rest with
  | nil => cases here
  | cons token rest =>
    obtain ⟨rfl, rfl⟩ := List.cons.inj here
    exact ⟨⟨rest, stop, depth, depth_le⟩, ⟨Nat.lt_succ_self _, by simp [take?, wanted]⟩, rfl, rfl⟩

theorem exactly_eq_some {kind found : TokenKind} {void : Unit} :
    TokenKind.exactly kind found = some void ↔ found = kind := by
  simp [TokenKind.exactly]

theorem exactly_eq_none {kind found : TokenKind} :
    TokenKind.exactly kind found = none ↔ found ≠ kind := by
  simp [TokenKind.exactly]

theorem name?_eq_some {found : TokenKind} {name : String} :
    TokenKind.name? found = some name ↔ found = .identifier name := by
  cases found <;> simp [TokenKind.name?]

theorem lacks_exactly {kind : TokenKind} :
    cursor.Lacks (TokenKind.exactly kind) ↔ kind ∉ cursor.kinds.head? := by
  simp only [Lacks, exactly_eq_none]
  constructor
  · intro lacks here
    exact lacks kind here rfl
  · rintro absent _ here rfl
    exact absent here

theorem Takes.exactly {kind : TokenKind} {void : Unit}
    (takes : cursor.Takes (TokenKind.exactly kind) void next) :
    cursor.kinds = kind :: next.kinds ∧ next.depth = cursor.depth := by
  obtain ⟨found, wanted, here, level⟩ := takes.kinds_eq
  exact ⟨exactly_eq_some.mp wanted ▸ here, level⟩

theorem takes_exactly {kind : TokenKind} {tail : List TokenKind}
    (here : cursor.kinds = kind :: tail) :
    ∃ next, cursor.Takes (TokenKind.exactly kind) () next ∧ next.kinds = tail ∧
      next.depth = cursor.depth :=
  takes_of_kinds here (exactly_eq_some.mpr rfl)

@[simp]
theorem take_gives {what : Expectation} :
    (cursor.take want what).Gives value next ↔ cursor.Takes want value next := by
  unfold take
  rcases cursor.take?_cases want with ⟨found, lacks⟩ | ⟨given, behind, takes, found⟩
  · rw [found]
    constructor
    · intro gives
      exact absurd gives Outcome.error_gives
    · intro takes
      exact absurd takes lacks.not_takes
  · rw [found, Outcome.ok_gives]
    constructor
    · rintro ⟨rfl, rfl⟩
      exact takes
    · intro again
      exact takes.unique again

@[simp]
theorem symbol_gives {mark : Symbol} {place : Place} {void : Unit} :
    (cursor.symbol mark place).Gives void next ↔
      cursor.Takes (TokenKind.exactly (.symbol mark)) void next :=
  take_gives

/-! ### Rows of tokens between two cursors -/

/-- A row of tokens stands between two cursors at the same nesting. -/
structure Spans (start : Cursor) (source : List TokenKind) (last : Cursor) : Prop where
  kinds : start.kinds = source ++ last.kinds
  depth : last.depth = start.depth

theorem Spans.append {middle : Cursor} {first second : List TokenKind}
    (front : cursor.Spans first middle) (back : middle.Spans second last) :
    cursor.Spans (first ++ second) last := by
  refine ⟨?_, back.depth.trans front.depth⟩
  rw [front.kinds, back.kinds, List.append_assoc]

theorem Spans.leave {source : List TokenKind} {room : cursor.depth < maxNesting}
    (spans : (cursor.deeper room).Spans source last) : cursor.Spans source last.leave := by
  refine ⟨spans.kinds, ?_⟩
  rw [depth_leave, spans.depth, depth_deeper, Nat.add_sub_cancel]

theorem Spans.levels {source : List TokenKind} {room : Nat} (spans : cursor.Spans source last)
    (levels : cursor.depth + room = maxNesting) : last.depth + room = maxNesting := by
  rw [spans.depth]
  exact levels

theorem Takes.spans {kind : TokenKind} {void : Unit}
    (takes : cursor.Takes (TokenKind.exactly kind) void next) : cursor.Spans [kind] next :=
  ⟨takes.exactly.1, takes.exactly.2⟩

/-! ### Levels -/

theorem enter_gives {mark : Cursor}
    {read : (inside : Cursor) → inside.rest = cursor.rest → Outcome bound α} :
    (cursor.enter mark read).Gives value last ↔
      ∃ room, (read (cursor.deeper room) rfl).Gives value last := by
  unfold enter
  split
  case isTrue room =>
    constructor
    · intro gives
      exact ⟨room, gives⟩
    · rintro ⟨_, gives⟩
      exact gives
  case isFalse full =>
    constructor
    · intro gives
      exact absurd gives Outcome.error_gives
    · rintro ⟨room, _⟩
      exact absurd room full

theorem nested_gives {mark : Cursor}
    {read : (inside : Cursor) → inside.rest = cursor.rest → Outcome bound α} :
    (cursor.nested mark read).Gives value last ↔
      ∃ room inner, (read (cursor.deeper room) rfl).Gives value inner ∧ last = inner.leave := by
  unfold nested
  rw [enter_gives]
  exact exists_congr fun room => Outcome.mapNext_gives

end Cursor

/-- An outcome is a value, and leaves a row of tokens at a nesting. -/
abbrev Outcome.Leaves {α : Type} {bound : Nat} (outcome : Outcome bound α) (value : α)
    (rest : List TokenKind) (depth : Nat) : Prop :=
  ∃ last, outcome.Gives value last ∧ last.kinds = rest ∧ last.depth = depth

end BlockScript
