import BlockScript.Proofs.Command.Printed
import BlockScript.Proofs.Machine.Refinement
import BlockScript.Proofs.Number.Order

/-!
# Counting

A loop that counts from zero up to a bound places a block in each round, at the place that it has
come to (`counted_loop_places_blocks`).  The text of the loop is put together of pieces around the
bound; the run goes on from one whole number to the next, up to the greatest coordinate.
-/

namespace BlockScript

open Number

/-! ### The text -/

/-- The text of a loop that counts up to a bound. -/
def countedLoop (count : Nat) : String :=
  "for (let i = 0; i < " ++ toString count ++
    "; i = i + 1) \x7b setBlock(i, 0, 0, \"stone\"); \x7d"

namespace Counting

/-- What stands in front of the bound. -/
def opening : List Part :=
  [("for".toList, some (.keyword .for)), ([' '], none), (['('], some (.symbol .leftParen)),
    ("let".toList, some (.keyword .let)), ([' '], none), (['i'], some (.identifier "i")),
    ([' '], none), (['='], some (.symbol .equal)), ([' '], none),
    (['0'], some (.number (Float.ofNat 0))), ([';'], some (.symbol .semicolon)), ([' '], none),
    (['i'], some (.identifier "i")), ([' '], none), (['<'], some (.symbol .less)), ([' '], none)]

/-- What stands behind it. -/
def ending : List Part :=
  [([';'], some (.symbol .semicolon)), ([' '], none), (['i'], some (.identifier "i")),
    ([' '], none), (['='], some (.symbol .equal)), ([' '], none), (['i'], some (.identifier "i")),
    ([' '], none), (['+'], some (.symbol .plus)), ([' '], none),
    (['1'], some (.number (Float.ofNat 1))), ([')'], some (.symbol .rightParen)), ([' '], none),
    (['\x7b'], some (.symbol .leftBrace)), ([' '], none),
    ("setBlock".toList, some (.keyword .setBlock)), (['('], some (.symbol .leftParen)),
    (['i'], some (.identifier "i")), ([','], some (.symbol .comma)), ([' '], none),
    (['0'], some (.number (Float.ofNat 0))), ([','], some (.symbol .comma)), ([' '], none),
    (['0'], some (.number (Float.ofNat 0))), ([','], some (.symbol .comma)), ([' '], none),
    ("\"stone\"".toList, some (.string "stone")), ([')'], some (.symbol .rightParen)),
    ([';'], some (.symbol .semicolon)), ([' '], none), (['\x7d'], some (.symbol .rightBrace))]

/-- The kinds of the tokens of the loop. -/
def kinds (count : Nat) : List TokenKind :=
  Part.kinds opening ++ .number (Float.ofNat count) :: Part.kinds ending

theorem textAll_opening : Part.textAll opening = "for (let i = 0; i < ".toList := rfl

theorem textAll_ending :
    Part.textAll ending = "; i = i + 1) \x7b setBlock(i, 0, 0, \"stone\"); \x7d".toList := rfl

theorem toList_countedLoop (count : Nat) :
    (countedLoop count).toList =
      Part.textAll opening ++ ((toString count).toList ++ Part.textAll ending) := by
  rw [textAll_opening, textAll_ending]
  unfold countedLoop
  refine String.toList_append.trans ((congrArg (· ++ _) String.toList_append).trans ?_)
  exact List.append_assoc _ _ _

theorem lead_opening (tail : List Char) : Part.Lead opening tail := by
  -- Each piece is cut off by computation, whatever stands behind all of them.
  repeat
    first
    | exact trivial
    | refine ⟨⟨_, _, rfl, rfl⟩, ?_⟩

theorem lead_ending : Part.Lead ending [] := by
  repeat
    first
    | exact trivial
    | refine ⟨⟨_, _, rfl, rfl⟩, ?_⟩

theorem spells_countedLoop (count : Nat) : Spells (countedLoop count).toList (kinds count) := by
  have behind : Spells (Part.textAll ending) (Part.kinds ending) := by
    have spells := Spells.parts lead_ending .nil
    rwa [List.append_nil, List.append_nil] at spells
  rw [toList_countedLoop, kinds]
  exact .parts (lead_opening _) (.natural count (by decide) (by decide) behind)

/-! ### The program -/

/-- The variable of the loop. -/
abbrev counter : Expression := .variable "i"

abbrev whole (natural : Nat) : Expression := .number (Float.ofNat natural)

/-- What is tested in front of each round. -/
def test (count : Nat) : Expression := .binary .lt counter (whole count)

/-- What is carried out behind each round. -/
def update : Expression := .assign "i" (.binary .add counter (whole 1))

/-- One round. -/
def round : Statement :=
  .block [.block [.setBlock counter (whole 0) (whole 0) (.string "stone")], .expression update]

/-- What the loop is read as. -/
def statement (count : Nat) : Statement :=
  .block [.declare "i" (whole 0), .loop (test count) round]

theorem within_atom {value : Expression} {kind : TokenKind} {room : Nat}
    (token : value.token? = some kind) (flat : value.nesting ≤ room) :
    Phrase.Within room [kind] value :=
  .of_primary (.atom token) flat

theorem sentence_countedLoop (count : Nat) :
    Sentence .item maxNesting (kinds count) (statement count) := by
  have counts : Phrase .assignment [.identifier "i", .symbol .less, .number (Float.ofNat count)]
      (test count) := by
    refine .ofConditional (.ofOperators (.ofOperand (.ofOperand (.ofOperand ?_))))
    exact @Phrase.binary .lt _ [_] [_] _ _ rfl (.of_primary (.atom rfl)) (.of_primary (.atom rfl))
  have adds : Phrase .assignment [.identifier "i", .symbol .plus, .number (Float.ofNat 1)]
      (.binary .add counter (whole 1)) := by
    refine .ofConditional (.ofOperators (.ofOperand (.ofOperand (.ofOperand (.ofOperand ?_)))))
    exact @Phrase.binary .add _ [_] [_] _ _ rfl (.of_primary (.atom rfl)) (.of_primary (.atom rfl))
  have start : Declaration 127 [.keyword .let, .identifier "i", .symbol .equal, .number (Float.ofNat 0)]
      (.declare "i" (whole 0)) := .initialized (within_atom rfl (Nat.zero_le _))
  have places : Sentence .item 126 [.keyword .setBlock, .symbol .leftParen, .identifier "i",
      .symbol .comma, .number (Float.ofNat 0), .symbol .comma, .number (Float.ofNat 0),
      .symbol .comma, .string "stone", .symbol .rightParen, .symbol .semicolon]
      (.setBlock counter (whole 0) (whole 0) (.string "stone")) := by
    have within {value : Expression} {kind : TokenKind} (token : value.token? = some kind)
        (flat : value.nesting = 0) : Phrase.Within 126 [kind] value :=
      within_atom token (flat ▸ Nat.zero_le _)
    exact .ofStatement (.setBlock (within rfl rfl) (within rfl rfl) (within rfl rfl) (within rfl rfl))
  -- Each level of the loop takes one from the room for nesting.
  have body := @Sentence.block 126 [(_, _)] (List.forall_mem_singleton.mpr places)
  have one_level : (test count).nesting = 1 := rfl
  exact .ofStatement (.countedLoop (.declaration start) (.expression ⟨counts, by omega⟩)
    (.expression ⟨.assign adds, by decide⟩) body)

theorem ofSource_countedLoop (count : Nat) :
    Program.ofSource (countedLoop count) = .ok ⟨[statement count]⟩ := by
  have sentences : ∀ item ∈ [(kinds count, statement count)],
      Sentence .item maxNesting item.1 item.2 :=
    List.forall_mem_singleton.mpr (sentence_countedLoop count)
  refine Program.ofSource_of_spells ?_ ?_ sentences
  · simpa using spells_countedLoop count
  · simp [kinds, Part.kinds, opening, ending]

/-! ### The run -/

/-- The environment of the loop: its variable, in a scope of its own. -/
def inLoop (number : Float) : Environment :=
  ⟨[("i", .number number)], [[]]⟩

/-- The block that is placed in a round. -/
def placed (place : Nat) : Command :=
  ⟨Int32.ofNat place, 0, 0, "stone"⟩

variable {number : Float} {place count : Nat}

theorem evaluate_test (here : units number = place * unitsPerOne) (place_le : place < 2 ^ 53)
    (count_le : count < 2 ^ 53) :
    (test count).evaluate (inLoop number) = .ok (.bool (place < count)) (inLoop number) := by
  have bound : units (Float.ofNat count) = count * unitsPerOne := units_ofNat count_le
  have less : number < Float.ofNat count ↔ place < count := by
    rw [lt_iff_units (isFinite_of_units here (by omega)) (isFinite_of_units bound (by omega)), here,
      bound, Int.mul_lt_mul_right (Int.natCast_pos.mpr unitsPerOne_pos), Int.ofNat_lt]
  change EStateM.Result.ok (Value.bool (decide (number < Float.ofNat count))) _ = _
  rw [decide_eq_decide.mpr less]

/-- Whole numbers are counted on without rounding. -/
theorem units_succ (here : units number = place * unitsPerOne) (place_lt : place < 2 ^ 53) :
    units (number + Float.ofNat 1) = (place + 1 : Nat) * unitsPerOne := by
  have one : units (Float.ofNat 1) = (1 : Nat) * unitsPerOne := units_ofNat (by decide)
  have sum : (place * unitsPerOne + (1 : Nat) * unitsPerOne : Int) =
      (place + 1 : Nat) * unitsPerOne := by
    rw [← Int.add_mul]
    rfl
  rw [units_add (isFinite_of_units here (by omega)) (isFinite_of_units one (by decide)), here, one,
    sum]
  exact nearestUnits_of_representable (representable_integer (by omega))

theorem evaluate_update (number : Float) :
    update.evaluate (inLoop number).enter =
      .ok (.number (number + Float.ofNat 1)) (inLoop (number + Float.ofNat 1)).enter :=
  rfl

theorem evaluate_places (here : units number = place * unitsPerOne) (place_lt : place < 2 ^ 31) :
    counter.coordinate 'x' (inLoop number).enter.enter =
      .ok (Int32.ofNat place) (inLoop number).enter.enter := by
  have read := toCoordinate_of_units here (by omega) (by omega) 'x'
  change Evaluation.ofExcept ((Value.number number).toCoordinate 'x') _ = _
  rw [read]
  rfl

/-- A round places a block, and then the loop has come one further. -/
theorem round_places (here : units number = place * unitsPerOne) (place_lt : place < 2 ^ 31) :
    ∃ cost, BigStep (.list [round]) (inLoop number) [placed place] cost none
      (inLoop (number + Float.ofNat 1)) := by
  have zero (axis : Char) : (whole 0).coordinate axis (inLoop number).enter.enter =
      .ok 0 (inLoop number).enter.enter :=
    Expression.coordinate_integer axis 0 _
  have name : (Expression.string "stone").evaluate (inLoop number).enter.enter =
      .ok (.string "stone") (inLoop number).enter.enter := rfl
  have places := BigStep.setBlock (evaluate_places here place_lt) (zero 'y') (zero 'z') name
  -- Both scopes of the round are left again, with the variable changed in between.
  exact ⟨_, .cons (.block (.cons (.block (.cons places .nil))
    (.cons (.expression (evaluate_update number)) .nil))) .nil⟩

/-- From one place on, the loop places a block in each round up to the bound. -/
theorem loop_places (left : Nat) (here : units number = place * unitsPerOne)
    (total : place + left = count) (count_le : count ≤ 2 ^ 31) :
    ∃ last cost, BigStep (.loop (test count) round) (inLoop number)
      ((List.range' place left).map placed) cost none (inLoop last) := by
  have tested := @evaluate_test number place count here (by omega) (by omega)
  -- The induction is on the rounds that are left; the variable is always worth the place.
  induction left generalizing number place with
  | zero =>
    refine ⟨number, 1, .finish tested ?_⟩
    simp [Value.truthy, ← total]
  | succ left ih =>
    have further := units_succ here (by omega)
    obtain ⟨cost, places⟩ := round_places here (by omega)
    obtain ⟨last, more, onward⟩ := ih further (by omega)
      (evaluate_test further (by omega) (by omega))
    have goes_on : place < count := by omega
    refine ⟨last, _, .round tested ?_ places onward⟩
    simpa [Value.truthy] using goes_on

/-- The program places a block in each round, and leaves no variable behind. -/
theorem statement_places (count_le : count ≤ 2 ^ 31) :
    ∃ cost, BigStep (.list [statement count]) .empty ((List.range count).map placed) cost none
      .empty := by
  have zero : units (Float.ofNat 0) = (0 : Nat) * unitsPerOne := units_ofNat (by decide)
  obtain ⟨last, cost, runs⟩ := loop_places count zero (Nat.zero_add _) count_le
  -- The variable is declared in the scope of the outer block, which the end of the loop leaves.
  have given : (whole 0).evaluate Environment.empty.enter =
      .ok (.number (Float.ofNat 0)) Environment.empty.enter := rfl
  have all := BigStep.cons (.block (.cons (@BigStep.declare "i" _ _ _ _ given)
    (.cons (.loop runs) .nil))) .nil
  rw [List.nil_append, List.append_nil, List.append_nil, ← List.range_eq_range'] at all
  exact ⟨_, all⟩

end Counting

open Counting

/-- The text of a loop that counts up to a bound is a program, and its run places as many blocks as
the bound says, the first at zero and each further one at the place behind the last, and is over
then, outside of all scopes.  The bound may be such that the last place is the greatest
coordinate. -/
theorem counted_loop_places_blocks {count : Nat} (count_le : count ≤ 2 ^ 31) :
    ∃ program commands last, Program.ofSource (countedLoop count) = .ok program ∧
      (Machine.start program .unbounded).Reaches commands last ∧
      last.step = (.ok .finished, last) ∧
      (Runner.start program .unbounded).Yields commands none ∧
      last.emitted = count ∧ commands.length = count ∧
      (∀ place : Nat, place < count → ∃ x : Int32, x.toInt = place ∧
        commands[place]? = some ⟨x, 0, 0, "stone"⟩) ∧
      last.environment.depth = 1 ∧ last.environment.get? "i" = none := by
  obtain ⟨cost, places⟩ := statement_places count_le
  rw [← runAll_start ⟨[statement count]⟩] at places
  obtain ⟨before, last, reaches, ends, final, -⟩ := reaches_of_runAll rfl places
  obtain ⟨empty, rfl⟩ := Machine.frames_eq_nil_of_finished ends
  refine ⟨_, _, last, ofSource_countedLoop count, reaches, ends, ?_, ?_, ?_, ?_, ?_, ?_⟩
  · exact Runner.yields_iff_reaches.mpr ⟨last, reaches, empty⟩
  · rw [reaches.emitted_eq]
    simp [Machine.start]
  · simp
  · intro place place_lt
    refine ⟨Int32.ofNat place, Int32.toInt_ofNat_of_lt (by omega), ?_⟩
    simp [place_lt, placed]
  · rw [final]
    rfl
  · rw [final]
    rfl

/-- Two rounds. -/
theorem counted_loop_places_two :
    2 ≤ 2 ^ 31 ∧ ∃ program commands last, Program.ofSource (countedLoop 2) = .ok program ∧
      (Machine.start program .unbounded).Reaches commands last ∧
      last.step = (.ok .finished, last) ∧
      (Runner.start program .unbounded).Yields commands none ∧
      last.emitted = 2 ∧ commands.length = 2 ∧
      (∀ place : Nat, place < 2 → ∃ x : Int32, x.toInt = place ∧
        commands[place]? = some ⟨x, 0, 0, "stone"⟩) ∧
      last.environment.depth = 1 ∧ last.environment.get? "i" = none :=
  ⟨by decide, counted_loop_places_blocks (by decide)⟩

end BlockScript
