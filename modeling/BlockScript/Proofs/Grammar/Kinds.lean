import BlockScript.Proofs.Grammar.Agreement
import BlockScript.Proofs.Grammar.Offense

/-!
# Reading depends on kinds

A parser that keeps its place by number has only the kinds of the tokens.  So two lists of tokens
with the same kinds in front of their first end tokens are read alike (`reading_follows_kinds`): the
positions tell where a fault is reported, and nothing else of the tokens is looked at.
-/

namespace BlockScript

/-- The tokens up to the first end token, with an end token of no text behind them. -/
def Token.upToEnd (tokens : List Token) : List Token :=
  (Cursor.ofTokens tokens).rest ++ [⟨.eof, "", (Cursor.ofTokens tokens).stop⟩]

/-- The kinds in front of the first end token, or all of them if there is none. -/
def Token.kindsBeforeEnd (tokens : List Token) : List TokenKind :=
  (tokens.map (·.kind)).takeWhile (· ≠ .eof)

/-- What is read of a row of kinds by a parser with enough fuel. -/
def Parser.ofKinds (kinds : List TokenKind) : EStateM.Result Halt Parser Program :=
  program (16 * kinds.length + 14) [] (start (kinds ++ [.eof]))

/-- What is read of a list of tokens is told by the kinds of the tokens, and by the positions for a
fault. -/
theorem Token.reads_upToEnd (tokens : List Token) :
    Parser.Reads (upToEnd tokens) 0 (Program.ofTokens tokens)
      (Parser.ofKinds (kindsBeforeEnd tokens)) := by
  have kinds : (Cursor.ofTokens tokens).kinds = kindsBeforeEnd tokens :=
    Cursor.kinds_ofTokens tokens
  have row : (upToEnd tokens).map (·.kind) = kindsBeforeEnd tokens ++ [.eof] := by
    rw [upToEnd, List.map_append, ← kinds]
    rfl
  have stands : Parser.Stands (upToEnd tokens) 0 _ (Cursor.ofTokens tokens) :=
    Parser.stands_start rfl rfl rfl
  rw [row] at stands
  refine Parser.reads_program [] stands ?_
  rw [← kinds, Cursor.kinds, List.length_map]
  exact Nat.lt_succ_self _

/-- Up to the first end token, a list with an end token added has the same positions. -/
theorem Token.closed_of_upToEnd {tokens : List Token} {index : Nat} {token : Token}
    (found : (upToEnd tokens)[index]? = some token) :
    index ≤ (kindsBeforeEnd tokens).length ∧
      ∃ here, (closed tokens)[index]? = some here ∧ here.position = token.position := by
  obtain ⟨stop, after, -, position, row⟩ := closed_eq tokens
  have length : (kindsBeforeEnd tokens).length = (Cursor.ofTokens tokens).rest.length := by
    rw [kindsBeforeEnd, ← Cursor.kinds_ofTokens, Cursor.kinds, List.length_map]
  rw [row, length]
  unfold upToEnd at found
  by_cases before : index < (Cursor.ofTokens tokens).rest.length
  · rw [List.getElem?_append_left before] at found ⊢
    exact ⟨Nat.le_of_lt before, token, found, rfl⟩
  · have least := Nat.le_of_not_lt before
    rw [List.getElem?_append_right least] at found ⊢
    obtain ⟨inside, rfl⟩ := List.getElem?_eq_some_iff.mp found
    rw [List.length_singleton, Nat.lt_one_iff] at inside
    refine ⟨Nat.le_of_sub_eq_zero inside, stop, ?_, ?_⟩
    · rw [inside, List.getElem?_cons_zero]
    · simp only [inside, List.getElem_cons_zero]
      exact position

/-- Two lists of tokens are read alike: as the same program, or with the same fault in tokens that
stand at the same place of both lists, with an end token added where there is none at the end. -/
inductive ReadAlike (first second : List Token) :
    Except SyntaxError Program → Except SyntaxError Program → Prop where
  | ok (program : Program) : ReadAlike first second (.ok program) (.ok program)
  | error (fault : SyntaxFault) {index : Nat} {here there : Token} :
    index ≤ (Token.kindsBeforeEnd first).length → (Token.closed first)[index]? = some here →
    (Token.closed second)[index]? = some there →
    ReadAlike first second (.error ⟨here.position, fault⟩) (.error ⟨there.position, fault⟩)

theorem ReadAlike.ok_iff {first second : List Token} {outcome other : Except SyntaxError Program}
    (alike : ReadAlike first second outcome other) (program : Program) :
    outcome = .ok program ↔ other = .ok program := by
  cases alike with
  | ok => exact Iff.rfl
  | error => exact ⟨nofun, nofun⟩

theorem readAlike_of_kinds {first second : List Token}
    (same : Token.kindsBeforeEnd first = Token.kindsBeforeEnd second) :
    ReadAlike first second (Program.ofTokens first) (Program.ofTokens second) := by
  have reads := Token.reads_upToEnd first
  have readsSecond := Token.reads_upToEnd second
  -- Both lists are told by one run of the parser.
  rw [← same] at readsSecond
  generalize Parser.ofKinds (Token.kindsBeforeEnd first) = result at reads readsSecond
  generalize Program.ofTokens first = outcome at reads ⊢
  generalize Program.ofTokens second = outcomeSecond at readsSecond ⊢
  cases reads with
  | ok =>
    cases readsSecond with
    | ok => exact .ok _
  | @error cause _ token _ _ found position =>
    obtain ⟨place, fault⟩ := cause
    cases readsSecond with
    | @error other _ _ _ _ foundSecond positionSecond =>
      obtain ⟨le, here, isHere, samePosition⟩ := Token.closed_of_upToEnd found
      obtain ⟨-, there, isThere, samePositionSecond⟩ := Token.closed_of_upToEnd foundSecond
      obtain rfl : here.position = place := samePosition.trans position
      obtain ⟨placeSecond, faultSecond⟩ := other
      obtain rfl : there.position = placeSecond := samePositionSecond.trans positionSecond
      exact .error _ le isHere isThere

theorem kindsBeforeEnd_append {tokens : List Token} {stop : Token} (isEnd : stop.kind = .eof) :
    Token.kindsBeforeEnd (tokens ++ [stop]) = Token.kindsBeforeEnd tokens := by
  have nothing : [stop.kind].takeWhile (· ≠ .eof) = [] := by
    rw [isEnd]
    rfl
  unfold Token.kindsBeforeEnd
  rw [List.map_append, List.takeWhile_append]
  split
  · next all =>
    rw [List.map_singleton, nothing, List.append_nil]
    exact ((List.takeWhile_prefix _).eq_of_length all).symm
  · rfl

theorem Cursor.eq_of {first second : Cursor} (rest : first.rest = second.rest)
    (stop : first.stop = second.stop) (depth : first.depth = second.depth) : first = second := by
  obtain ⟨_, _, _, _⟩ := first
  obtain ⟨_, _, _, _⟩ := second
  cases rest
  cases stop
  cases depth
  rfl

/-- An end token behind the last token changes nothing. -/
theorem Program.ofTokens_closed (tokens : List Token) :
    Program.ofTokens (Token.closed tokens) = Program.ofTokens tokens := by
  obtain ⟨stop, after, isEnd, position, row⟩ := Token.closed_eq tokens
  have same : Cursor.ofTokens (Token.closed tokens) = Cursor.ofTokens tokens := by
    obtain ⟨rest, stopAt⟩ :=
      @Cursor.ofTokens_of_end _ after _ (fun _ => Parser.kind_ne_eof_of_mem) isEnd
    rw [← row] at rest stopAt
    exact Cursor.eq_of rest (stopAt.trans position) rfl
  rw [Program.ofTokens, same, Program.ofTokens]

theorem Program.ofSource_of_scan {source : String} {tokens : List Token} {program : Program}
    (scanned : Token.scan source = .ok tokens) :
    Program.ofSource source = .ok program ↔ Program.ofTokens tokens = .ok program := by
  simp only [Program.ofSource, scanned]
  cases Program.ofTokens tokens <;> simp

/-- What is read of a list of tokens follows from the kinds in front of its first end token.  An end
token that is added at the end changes nothing but the position of the end, and not even that if it
stands right behind the last token.  So two texts with the same kinds of tokens are the same
program, if they are one. -/
theorem reading_follows_kinds :
    (∀ first second : List Token, Token.kindsBeforeEnd first = Token.kindsBeforeEnd second →
      ReadAlike first second (Program.ofTokens first) (Program.ofTokens second)) ∧
    (∀ (tokens : List Token) (stop : Token), stop.kind = .eof →
      ReadAlike tokens (tokens ++ [stop]) (Program.ofTokens tokens)
        (Program.ofTokens (tokens ++ [stop]))) ∧
    (∀ tokens, Program.ofTokens (Token.closed tokens) = Program.ofTokens tokens) ∧
    ∀ (first second : String) (tokens others : List Token), Token.scan first = .ok tokens →
      Token.scan second = .ok others → tokens.map (·.kind) = others.map (·.kind) → ∀ program,
        Program.ofSource first = .ok program ↔ Program.ofSource second = .ok program := by
  refine ⟨fun _ _ => readAlike_of_kinds, fun tokens stop isEnd => ?_, Program.ofTokens_closed, ?_⟩
  · exact readAlike_of_kinds (kindsBeforeEnd_append isEnd).symm
  · intro first second tokens others scanned scannedSecond same program
    have kinds : Token.kindsBeforeEnd tokens = Token.kindsBeforeEnd others := by
      rw [Token.kindsBeforeEnd, same, Token.kindsBeforeEnd]
    rw [Program.ofSource_of_scan scanned, Program.ofSource_of_scan scannedSecond]
    exact (readAlike_of_kinds kinds).ok_iff program

/-- A stray semicolon, once alone and once with other tokens behind the end token. -/
theorem reading_follows_kinds_of_stray :
    let first : List Token := [⟨.symbol .semicolon, ";", ⟨1, 1⟩⟩]
    let second : List Token :=
      [⟨.symbol .semicolon, "", ⟨3, 7⟩⟩, ⟨.eof, "", ⟨2, 5⟩⟩, ⟨.keyword .nil, "nil", ⟨1, 1⟩⟩]
    let fault : SyntaxFault := .expected .expression (.symbol .semicolon)
    Token.kindsBeforeEnd first = Token.kindsBeforeEnd second ∧
      Program.ofTokens first = .error ⟨⟨1, 1⟩, fault⟩ ∧
        Program.ofTokens second = .error ⟨⟨3, 7⟩, fault⟩ ∧
          ReadAlike first second (Program.ofTokens first) (Program.ofTokens second) := by
  intro first second fault
  have kinds : Token.kindsBeforeEnd first = Token.kindsBeforeEnd second := by decide
  exact ⟨kinds, by cbv, by cbv, reading_follows_kinds.1 first second kinds⟩

end BlockScript
