import BlockScript.Proofs.Grammar.Agreement
import BlockScript.Proofs.Grammar.Offense

/-!
# The parser is safe

On every list of tokens, a parser that keeps its place by number comes to a program or to a fault in
a token (`safe_of_tokens`), the same as `Program.ofTokens`.  It stays in the row and in front of the
first end token or at it, closes no level that is not open, and goes on with each declaration,
statement and expression that it reads.
-/

namespace BlockScript

namespace Parser

variable {tokens : List Token} {depth : Nat} {parser : Parser} {cursor : Cursor}

/-- A place where a parser can be: it has not passed an end token, there is one to come, and no more
levels are open than may be. -/
structure Placed (parser : Parser) : Prop where
  noEnd : .eof ∉ parser.kinds.take parser.index
  isEnd : .eof ∈ parser.kinds.drop parser.index
  levels : parser.depth ≤ maxNesting

/-- A reader comes to a value behind at least one token, at a place where a parser can be, or to a
fault in a token that is there; in either case it closes all levels that it opens. -/
inductive Progresses {α : Type} (parser : Parser) : EStateM.Result Halt Parser α → Prop where
  | ok {value after} : after.kinds = parser.kinds → parser.index < after.index →
      after.depth = parser.depth → after.Placed → Progresses parser (.ok value after)
  | error {index fault after} : index < parser.kinds.length → after.depth = parser.depth →
      Progresses parser (.error (.error index fault) after)

/-- The tokens in front of a place and those behind it are those in front of the first end token. -/
theorem Stands.rest_eq (stands : Stands tokens depth parser cursor) :
    (Cursor.ofTokens tokens).rest = tokens.take parser.index ++ cursor.rest := by
  obtain ⟨stop, after, row, isEnd, -⟩ := stands.row
  have whole : tokens = tokens.take parser.index ++ cursor.rest ++ stop :: after := by
    rw [List.append_assoc, ← row, List.take_append_drop]
  have front : (Cursor.ofTokens (tokens.take parser.index ++ cursor.rest ++ stop :: after)).rest =
      tokens.take parser.index ++ cursor.rest := (Cursor.ofTokens_of_end stands.noEnd isEnd).1
  rwa [← whole] at front

/-- Of two places of one row, the one with fewer tokens in front of the end is further on. -/
theorem Stands.index_lt {other : Parser} {further : Cursor} {level : Nat}
    (stands : Stands tokens depth parser cursor) (onward : Stands tokens level other further)
    (shorter : further.rest.length < cursor.rest.length) : parser.index < other.index := by
  have lengths := congrArg List.length (stands.rest_eq.symm.trans onward.rest_eq)
  have fits := stands.length_lt
  have fitsOther := onward.length_lt
  simp only [List.length_append, List.length_take] at lengths
  omega

theorem Stands.placed (stands : Stands tokens depth parser cursor) : parser.Placed := by
  obtain ⟨stop, after, row, isEnd, -⟩ := stands.row
  refine ⟨stands.noEnd_kinds, ?_, ?_⟩
  · rw [stands.kinds, ← List.map_drop, row]
    exact List.mem_map.mpr ⟨stop, List.mem_append_right _ List.mem_cons_self, isEnd⟩
  · rw [stands.levels, ← stands.depth]
    exact cursor.depth_le

theorem Placed.stands (placed : parser.Placed) :
    ∃ tokens cursor, Stands tokens parser.depth parser cursor ∧
      cursor.rest.length ≤ parser.kinds.length := by
  obtain ⟨front, after, row, noEnd⟩ := List.eq_append_cons_of_mem placed.isEnd
  -- Any texts and positions will do.
  let token (kind : TokenKind) : Token := ⟨kind, "", .start⟩
  have kinds (row : List TokenKind) : (row.map token).map (·.kind) = row := by
    rw [List.map_map]
    exact List.map_id _
  refine ⟨parser.kinds.map token, ⟨front.map token, .start, parser.depth, placed.levels⟩,
    ⟨(kinds _).symm, ⟨token .eof, after.map token, ?_, rfl, rfl⟩, ?_, rfl, rfl⟩, ?_⟩
  · rw [← List.map_drop, row, List.map_append, List.map_cons]
  · intro other member isEnd
    rw [← List.map_take, ← List.map_append] at member
    obtain ⟨kind, isKind, rfl⟩ := List.mem_map.mp member
    obtain rfl : kind = .eof := isEnd
    exact (List.mem_append.mp isKind).elim placed.noEnd noEnd
  · have lengths := congrArg List.length row
    simp only [List.length_drop, List.length_append, List.length_cons] at lengths
    rw [List.length_map]
    omega

theorem Matches.progresses {α : Type} {outcome : Outcome cursor.rest.length α}
    {result : EStateM.Result Halt Parser α} (stands : Stands tokens depth parser cursor)
    (matched : Matches tokens (· = depth) outcome result) : Progresses parser result := by
  cases matched with
  | @ok _ _ _ shorter _ same onward =>
    subst same
    exact .ok (onward.kinds.trans stands.kinds.symm) (stands.index_lt onward shorter)
      (onward.levels.trans stands.levels.symm) onward.placed
  | error same found =>
    refine .error ?_ (same.trans stands.levels.symm)
    rw [stands.kinds, List.length_map]
    exact (List.getElem?_eq_some_iff.mp found).1

/-- What it means that a parser is safe on a row of tokens. -/
structure Safe (tokens : List Token) : Prop where
  placed : (start ((Token.closed tokens).map (·.kind))).Placed
  /-- There is a program or a fault in a token, and no mishap, with all fuel from some on. -/
  reads : ∀ fuel, 16 * tokens.length + 13 < fuel →
    Reads (Token.closed tokens) 0 (Program.ofTokens tokens)
      (program fuel [] (start ((Token.closed tokens).map (·.kind))))
  /-- Wherever the parser is, its readers go on. -/
  progresses : ∀ parser : Parser, parser.Placed → ∀ fuel, 16 * parser.kinds.length + 12 < fuel →
    Progresses parser (declaration fuel parser) ∧ Progresses parser (statement fuel parser) ∧
      Progresses parser (expression fuel parser)

/-- A parser that keeps its place by number reads every list of tokens as `Program.ofTokens` does.
It never looks behind the first end token, goes back from the first token or closes a level that is
not open, and each declaration, statement and expression takes a token. -/
theorem safe_of_tokens (tokens : List Token) : Safe tokens := by
  obtain ⟨stop, after, isEnd, position, row⟩ := Token.closed_eq tokens
  have stands := stands_start isEnd position row
  refine ⟨stands.placed, fun fuel enough => reads_program [] stands ?_, ?_⟩
  · have fewer : (Cursor.ofTokens tokens).rest.length ≤ tokens.length :=
      (List.takeWhile_prefix _).length_le
    omega
  · intro parser placed fuel enough
    obtain ⟨row, cursor, stands, fewer⟩ := placed.stands
    have statements := statementsAgree row fuel
    have expressions := expressionsAgree row fuel
    exact ⟨Matches.progresses stands (statements.declaration stands (by omega)),
      Matches.progresses stands (statements.statement stands (by omega)),
      Matches.progresses stands (expressions.expression stands (by omega))⟩

end Parser

end BlockScript
