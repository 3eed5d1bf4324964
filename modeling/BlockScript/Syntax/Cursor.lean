import BlockScript.Error

/-!
# Reading a list of tokens

A cursor stands in front of the tokens not read yet and knows how deeply nested its place is.  What
a reading step ends in is an `Outcome`: a value and a cursor with fewer tokens left, so that steps
can follow one another only finitely often, or an error.  Either way the cursor tells the nesting
that the step leaves behind.
-/

namespace BlockScript

/-- A place in a list of tokens. -/
structure Cursor where
  /-- The tokens not read yet, without the end token. -/
  rest : List Token
  /-- The position of the end token. -/
  stop : Position
  /-- How many levels are open. -/
  depth : Nat
  depth_le : depth ≤ maxNesting := by omega

/-- What a reading step ends in; a value leaves fewer tokens than the bound. -/
inductive Outcome (bound : Nat) (α : Type) where
  | ok (value : α) (next : Cursor) (shorter : next.rest.length < bound)
  | error (cause : SyntaxError) (next : Cursor)

namespace Outcome

/-- Goes on with the value and the cursor of an outcome. -/
def andThen {α β : Type} {tighter bound : Nat} (outcome : Outcome tighter α)
    (step : (value : α) → (next : Cursor) → next.rest.length < tighter → Outcome bound β) :
    Outcome bound β :=
  match outcome with
  | .ok value next shorter => step value next shorter
  | .error cause next => .error cause next

/-- The same outcome under a greater bound. -/
def within {α : Type} {tighter bound : Nat} (outcome : Outcome tighter α)
    (le : tighter ≤ bound) : Outcome bound α :=
  match outcome with
  | .ok value next shorter => .ok value next (Nat.lt_of_lt_of_le shorter le)
  | .error cause next => .error cause next

def map {α β : Type} {bound : Nat} (change : α → β) (outcome : Outcome bound α) :
    Outcome bound β :=
  match outcome with
  | .ok value next shorter => .ok (change value) next shorter
  | .error cause next => .error cause next

/-- The cursor after a step, whether it has a value or not. -/
def next {α : Type} {bound : Nat} : Outcome bound α → Cursor
  | .ok _ next _ => next
  | .error _ next => next

end Outcome

namespace Cursor

/-- The cursor in front of a list of tokens.  Everything from the first end token on is left out;
where there is none, the end is right behind the last token. -/
def ofTokens (tokens : List Token) : Cursor where
  rest := tokens.takeWhile (·.kind ≠ .eof)
  stop :=
    match tokens.find? (·.kind = .eof), tokens.getLast? with
    | some token, _ => token.position
    | none, some token => ⟨token.position.line, token.position.column + token.lexeme.length⟩
    | none, none => .start
  depth := 0
  depth_le := Nat.zero_le _

def kind (cursor : Cursor) : TokenKind :=
  match cursor.rest with
  | token :: _ => token.kind
  | [] => .eof

def position (cursor : Cursor) : Position :=
  match cursor.rest with
  | token :: _ => token.position
  | [] => cursor.stop

/-- Fails at the token behind the cursor. -/
def fail {α : Type} {bound : Nat} (cursor : Cursor) (fault : SyntaxFault) : Outcome bound α :=
  .error ⟨cursor.position, fault⟩ cursor

/-- Fails because something else than the token behind the cursor is expected. -/
def expected {α : Type} {bound : Nat} (cursor : Cursor) (what : Expectation) :
    Outcome bound α :=
  cursor.fail (.expected what cursor.kind)

/-- A token that was read, and the cursor behind it. -/
structure Taken (bound : Nat) (α : Type) where
  value : α
  next : Cursor
  shorter : next.rest.length < bound

/-- Reads one token, if it is one that is wanted. -/
def take? {α : Type} (cursor : Cursor) (want : TokenKind → Option α) :
    Option (Taken cursor.rest.length α) :=
  match cursor with
  | ⟨[], _, _, _⟩ => none
  | ⟨token :: rest, stop, depth, depth_le⟩ =>
    (want token.kind).map fun value => ⟨value, ⟨rest, stop, depth, depth_le⟩, Nat.lt_succ_self _⟩

/-- Reads one token, which has to be one that is wanted. -/
def take {α : Type} (cursor : Cursor) (want : TokenKind → Option α) (what : Expectation) :
    Outcome cursor.rest.length α :=
  match cursor.take? want with
  | some taken => .ok taken.value taken.next taken.shorter
  | none => cursor.expected what

/-- Reads a symbol that has to stand at a place. -/
def symbol (cursor : Cursor) (mark : Symbol) (place : Place) : Outcome cursor.rest.length Unit :=
  cursor.take (TokenKind.exactly (.symbol mark)) (.symbol mark place)

theorem shorter_of_three {before first second after : Cursor}
    (one : first.rest.length < before.rest.length) (two : second.rest.length < first.rest.length)
    (three : after.rest.length < second.rest.length) : after.rest.length < before.rest.length :=
  Nat.lt_trans three (Nat.lt_trans two one)

def leave (cursor : Cursor) : Cursor where
  rest := cursor.rest
  stop := cursor.stop
  depth := cursor.depth - 1
  depth_le := Nat.le_trans (Nat.sub_le _ _) cursor.depth_le

/-- Goes back to a given nesting. -/
def restore (cursor : Cursor) (depth : Nat) (depth_le : depth ≤ maxNesting) : Cursor where
  rest := cursor.rest
  stop := cursor.stop
  depth := depth
  depth_le := depth_le

/-- Opens a level behind a cursor and reads on there.  One level too many is an error at the token
behind `mark`. -/
def enter {α : Type} {bound : Nat} (cursor mark : Cursor)
    (read : (inside : Cursor) → inside.rest = cursor.rest → Outcome bound α) : Outcome bound α :=
  if room : cursor.depth < maxNesting then
    read ⟨cursor.rest, cursor.stop, cursor.depth + 1, room⟩ rfl
  else mark.fail .tooDeep

end Cursor

namespace Outcome

/-- Puts another cursor with the same tokens into an outcome. -/
def mapNext {α : Type} {bound : Nat} (change : Cursor → Cursor)
    (same : ∀ cursor, (change cursor).rest = cursor.rest) (outcome : Outcome bound α) :
    Outcome bound α :=
  match outcome with
  | .ok value next shorter => .ok value (change next) (same next ▸ shorter)
  | .error cause next => .error cause (change next)

/-- Leaves one level, whether a step has a value or not. -/
def leave {α : Type} {bound : Nat} (outcome : Outcome bound α) : Outcome bound α :=
  outcome.mapNext Cursor.leave fun _ => rfl

/-- Goes back to a given nesting, whether a step has a value or not. -/
def restore {α : Type} {bound : Nat} (depth : Nat) (depth_le : depth ≤ maxNesting)
    (outcome : Outcome bound α) : Outcome bound α :=
  outcome.mapNext (·.restore depth depth_le) fun _ => rfl

end Outcome

/-- Reads something one level deeper and closes the level again.  One level too many is an error at
the token behind `mark`. -/
def Cursor.nested {α : Type} {bound : Nat} (cursor mark : Cursor)
    (read : (inside : Cursor) → inside.rest = cursor.rest → Outcome bound α) : Outcome bound α :=
  cursor.enter mark fun inside same => (read inside same).leave

end BlockScript
