import BlockScript.Proofs.Grammar.Matching
import BlockScript.Proofs.Grammar.Programs
import BlockScript.Proofs.Grammar.Reading

/-!
# The two forms of the readers agree

A parser that keeps its place by number does what the readers do that take tokens off a list, on
every row of tokens that has an end token.  In particular no mishap occurs, and the fuel lasts if
there is some for each token and each level at which operators bind (`expressionsAgree`,
`statementsAgree`, `reads_program`).
-/

namespace BlockScript

namespace Parser

open Cursor

variable {tokens : List Token} {depth fuel : Nat} {parser : Parser} {cursor : Cursor}

/-! ### Expressions -/

/-- The readers of expressions agree if there is fuel for every token and every level at which
operators bind. -/
structure ExpressionsAgree (tokens : List Token) (fuel : Nat) : Prop where
  expression : ∀ {depth parser cursor}, Stands tokens depth parser cursor →
    16 * cursor.rest.length + 10 < fuel →
    Matches tokens (· = depth) cursor.expression (Parser.expression fuel parser)
  conditional : ∀ {depth parser cursor}, Stands tokens depth parser cursor →
    16 * cursor.rest.length + 9 < fuel →
    Matches tokens (· = depth) cursor.conditional (Parser.conditional fuel parser)
  chain : ∀ {depth parser cursor} (levels : List Precedence), Stands tokens depth parser cursor →
    16 * cursor.rest.length + levels.length + 2 < fuel →
    Matches tokens (· = depth) (cursor.chain levels) (Parser.chain fuel levels parser)
  links : ∀ {depth parser cursor bound} (level : Precedence) (tighter : List Precedence)
    (left : Expression) (fits : cursor.rest.length < bound), Stands tokens depth parser cursor →
    16 * cursor.rest.length + tighter.length + 1 < fuel →
    Matches tokens (fun _ => True) (Cursor.links bound level tighter left cursor fits)
      (Parser.links fuel level tighter left parser)
  unary : ∀ {depth parser cursor}, Stands tokens depth parser cursor →
    16 * cursor.rest.length + 1 < fuel →
    Matches tokens (· = depth) cursor.unary (Parser.unary fuel parser)
  primary : ∀ {depth parser cursor}, Stands tokens depth parser cursor →
    16 * cursor.rest.length < fuel →
    Matches tokens (· = depth) cursor.primary (Parser.primary fuel parser)

section Expressions

variable (agree : ExpressionsAgree tokens fuel)
  (stands : Stands tokens depth parser cursor)

include agree stands

theorem matches_expression (enough : 16 * cursor.rest.length + 9 < fuel) :
    Matches tokens (· = depth) cursor.expression (Parser.expression (fuel + 1) parser) := by
  rw [Cursor.expression, Parser.expression]
  refine (agree.conditional stands enough).bind rfl fun target behind shorter after stands => ?_
  refine .check stands (fun missing => ?_) fun _ start taken found => ?_
  · rw [missing]
    exact .ok rfl stands
  · rw [found]
    refine .advance stands ⟨taken, found⟩ fun onward => ?_
    refine Matches.bind ?_ rfl fun value next read last final => ?_
    · refine .nested onward onward.depth fun room _ inside => .within ?_
      exact agree.expression inside (by rw [rest_deeper]; omega)
    · -- The fault is found in the equals sign, behind which the parser has gone on.
      obtain ⟨token, here, -, position⟩ := stands.token
      have fault : Matches tokens (· = depth)
          (.error ⟨behind.position, .assignmentTarget⟩ next : Outcome cursor.rest.length Expression)
          (.error (.error after.index .assignmentTarget) last) := .error final.levels here position
      cases target with
      | «variable» name => exact .ok rfl final
      | _ => exact fault

theorem matches_conditional (enough : 16 * cursor.rest.length + 8 < fuel) :
    Matches tokens (· = depth) cursor.conditional (Parser.conditional (fuel + 1) parser) := by
  rw [Cursor.conditional, Parser.conditional]
  refine (agree.chain Precedence.levels stands enough).bind rfl
    fun condition behind shorter after stands => ?_
  refine .accept stands (fun missing => ?_) fun _ start taken found onward => ?_
  · rw [missing]
    exact .ok rfl stands
  · rw [found]
    refine .nested onward onward.depth fun room _ inside => ?_
    have fits : (start.deeper room).rest.length < cursor.rest.length := by
      rw [rest_deeper]
      omega
    refine (agree.expression inside (by omega)).bind rfl fun first middle readThen _ stands => ?_
    refine (Matches.consume stands _ _).bind rfl fun _ other readColon _ stands => ?_
    refine (agree.conditional stands (by omega)).bind rfl fun second next readElse _ stands => ?_
    exact .ok rfl stands

theorem matches_chain (levels : List Precedence)
    (enough : 16 * cursor.rest.length + levels.length + 1 < fuel) :
    Matches tokens (· = depth) (cursor.chain levels) (Parser.chain (fuel + 1) levels parser) := by
  cases levels with
  | nil =>
    rw [Cursor.chain, Parser.chain]
    exact agree.unary stands enough
  | cons level tighter =>
    rw [Cursor.chain, Parser.chain]
    rw [List.length_cons] at enough
    obtain rfl := stands.levels
    -- The first operand comes back to its level by itself, so the parser goes back only behind the
    -- links; a fault of that operand is the same with and without going back.
    refine (agree.chain tighter stands (by omega)).bind_cases rfl ?_ ?_
    · intro first behind shorter after given onward
      rw [given]
      have links := agree.links level tighter first shorter onward (by omega)
      rw [← stands.depth]
      exact .restore links
    · intro cause behind given
      rw [given]
      exact ⟨_, rfl⟩

theorem matches_links {bound : Nat} (level : Precedence) (tighter : List Precedence)
    (left : Expression) (fits : cursor.rest.length < bound)
    (enough : 16 * cursor.rest.length + tighter.length < fuel) :
    Matches tokens (fun _ => True) (Cursor.links bound level tighter left cursor fits)
      (Parser.links (fuel + 1) level tighter left parser) := by
  rw [Cursor.links, Parser.links]
  refine .accept stands (fun missing => ?_) fun op start taken found onward => ?_
  · rw [missing]
    exact .ok trivial stands
  · rw [found]
    refine .enter onward onward.depth trivial fun room _ inside => ?_
    have fewer : (start.deeper room).rest.length < cursor.rest.length := taken
    refine (agree.chain tighter inside (by omega)).bind trivial fun right next read _ stands => ?_
    exact agree.links level tighter _ _ stands (by omega)

theorem matches_unary (enough : 16 * cursor.rest.length < fuel) :
    Matches tokens (· = depth) cursor.unary (Parser.unary (fuel + 1) parser) := by
  rw [Cursor.unary, Parser.unary]
  refine .accept stands (fun missing => ?_) fun op start taken found onward => ?_
  · rw [missing]
    exact agree.primary stands enough
  · rw [found]
    refine .nested onward onward.depth fun room _ inside => .within ?_
    have fewer : (start.deeper room).rest.length < cursor.rest.length := taken
    exact .map (agree.unary inside (by omega))

theorem matches_primary (enough : 16 * cursor.rest.length ≤ fuel) :
    Matches tokens (· = depth) cursor.primary (Parser.primary (fuel + 1) parser) := by
  rw [Cursor.primary, Parser.primary]
  refine .accept stands (fun missing => ?_) fun value next taken found onward => ?_
  · rw [missing]
    refine .check stands (fun missing => ?_) fun _ start taken found => ?_
    · rw [missing]
      exact .expected stands _
    · rw [found]
      -- The level is opened in front of the parenthesis, which is passed on that level.
      have takes : cursor.Takes _ _ start := ⟨taken, found⟩
      refine .nested_advance stands takes fun room fewer onward => ?_
      refine (agree.expression onward (by omega)).bind rfl fun inner behind read _ stands => ?_
      refine (Matches.consume stands _ _).bind rfl fun _ next closed _ stands => ?_
      exact .ok rfl stands
  · rw [found]
    exact .ok rfl onward

end Expressions

theorem expressionsAgree (tokens : List Token) (fuel : Nat) : ExpressionsAgree tokens fuel := by
  induction fuel with
  | zero => constructor <;> intros <;> omega
  | succ fuel agree =>
    exact {
      expression := fun stands less => matches_expression agree stands (Nat.lt_of_succ_lt_succ less)
      conditional := fun stands less =>
        matches_conditional agree stands (Nat.lt_of_succ_lt_succ less)
      chain := fun levels stands less =>
        matches_chain agree stands levels (Nat.lt_of_succ_lt_succ less)
      links := fun level tighter left fits stands less =>
        matches_links agree stands level tighter left fits (Nat.lt_of_succ_lt_succ less)
      unary := fun stands less => matches_unary agree stands (Nat.lt_of_succ_lt_succ less)
      primary := fun stands less => matches_primary agree stands (Nat.le_of_lt_succ less) }

/-! ### The parts of statements -/

section Parts

variable (stands : Stands tokens depth parser cursor)
  (enough : 16 * cursor.rest.length + 10 < fuel)

include stands enough

theorem matches_value :
    Matches tokens (· = depth) cursor.expression (Parser.expression fuel parser) :=
  (expressionsAgree tokens fuel).expression stands enough

theorem matches_declared :
    Matches tokens (· = depth) cursor.declared (Parser.declared fuel parser) := by
  refine (Matches.name stands).bind rfl fun name behind named after stands => ?_
  refine .accept stands (fun missing => ?_) fun _ start taken found onward => ?_
  · rw [missing]
    exact .ok rfl stands
  · rw [found]
    refine (matches_value onward (by omega)).bind rfl fun value next read _ stands => ?_
    exact .ok rfl stands

theorem matches_expressionStatement (place : Place) :
    Matches tokens (· = depth) (cursor.expressionStatement place)
      (Parser.expressionStatement fuel place parser) := by
  refine (matches_value stands enough).bind rfl fun value behind read _ stands => ?_
  refine (Matches.consume stands _ _).bind rfl fun _ next closed _ stands => ?_
  exact .ok rfl stands

theorem matches_declarationStatement (place : Place) :
    Matches tokens (· = depth) (cursor.declarationStatement place)
      (Parser.declarationStatement fuel place parser) := by
  refine (matches_declared stands enough).bind rfl fun value behind read _ stands => ?_
  refine (Matches.consume stands _ _).bind rfl fun _ next closed _ stands => ?_
  exact .ok rfl stands

theorem matches_condition (opened closed : Place) :
    Matches tokens (· = depth) (cursor.condition opened closed)
      (Parser.condition fuel opened closed parser) := by
  refine (Matches.consume stands _ _).bind rfl fun _ start opening _ stands => ?_
  refine (matches_value stands (by omega)).bind rfl fun value behind read _ stands => ?_
  refine (Matches.consume stands _ _).bind rfl fun _ next closing _ stands => ?_
  exact .ok rfl stands

theorem matches_loopInitializer :
    Matches tokens (· = depth) cursor.loopInitializer (Parser.loopInitializer fuel parser) := by
  unfold Cursor.loopInitializer
  refine .accept stands (fun missing => ?_) fun _ next taken found onward => ?_
  · rw [missing]
    refine .accept stands (fun missing => ?_) fun _ start taken found onward => ?_
    · rw [missing]
      exact .map (matches_expressionStatement stands enough _)
    · rw [found]
      exact .within (.map (matches_declarationStatement onward (by omega) _))
  · rw [found]
    exact .ok rfl onward

theorem matches_loopCondition :
    Matches tokens (· = depth) cursor.loopCondition (Parser.loopCondition fuel parser) := by
  unfold Cursor.loopCondition
  refine .check stands (fun missing => ?_) fun _ next taken found => ?_
  · rw [missing]
    refine (matches_value stands enough).bind rfl fun value behind read _ stands => ?_
    refine (Matches.consume stands _ _).bind rfl fun _ next closed _ stands => ?_
    exact .ok rfl stands
  · rw [found]
    exact .consume_seen stands ⟨taken, found⟩ fun stands => .ok rfl stands

theorem matches_loopIncrement :
    Matches tokens (· = depth) cursor.loopIncrement (Parser.loopIncrement fuel parser) := by
  unfold Cursor.loopIncrement
  refine .check stands (fun missing => ?_) fun _ next taken found => ?_
  · rw [missing]
    refine (matches_value stands enough).bind rfl fun value behind read _ stands => ?_
    refine (Matches.consume stands _ _).bind rfl fun _ next closed _ stands => ?_
    exact .ok rfl stands
  · rw [found]
    exact .consume_seen stands ⟨taken, found⟩ fun stands => .ok rfl stands

theorem matches_loopHead :
    Matches tokens (· = depth) cursor.loopHead (Parser.loopHead fuel parser) := by
  refine (Matches.consume stands _ _).bind rfl fun _ start opening _ stands => ?_
  refine (matches_loopInitializer stands (by omega)).bind rfl fun _ second _ _ stands => ?_
  refine (matches_loopCondition stands (by omega)).bind rfl fun _ third _ _ stands => ?_
  refine (matches_loopIncrement stands (by omega)).bind rfl fun _ next _ _ stands => ?_
  exact .ok rfl stands

theorem matches_setBlock :
    Matches tokens (· = depth) cursor.setBlock (Parser.setBlock fuel parser) := by
  refine (Matches.consume stands _ _).bind rfl fun _ start opening _ stands => ?_
  refine (matches_value stands (by omega)).bind rfl fun x behindX readX _ stands => ?_
  refine (Matches.consume stands _ _).bind rfl fun _ startY commaX _ stands => ?_
  refine (matches_value stands (by omega)).bind rfl fun y behindY readY _ stands => ?_
  refine (Matches.consume stands _ _).bind rfl fun _ startZ commaY _ stands => ?_
  refine (matches_value stands (by omega)).bind rfl fun z behindZ readZ _ stands => ?_
  refine (Matches.consume stands _ _).bind rfl fun _ startName commaZ _ stands => ?_
  refine (matches_value stands (by omega)).bind rfl fun name behindName readName _ stands => ?_
  refine (Matches.consume stands _ _).bind rfl fun _ behindCall closing _ stands => ?_
  refine (Matches.consume stands _ _).bind rfl fun _ next closed _ stands => ?_
  exact .ok rfl stands

end Parts

/-! ### Statements -/

/-- The readers of statements agree if there is fuel for every token and every kind of reader. -/
structure StatementsAgree (tokens : List Token) (fuel : Nat) : Prop where
  declaration : ∀ {depth parser cursor}, Stands tokens depth parser cursor →
    16 * cursor.rest.length + 12 < fuel →
    Matches tokens (· = depth) cursor.declaration (Parser.declaration fuel parser)
  statement : ∀ {depth parser cursor}, Stands tokens depth parser cursor →
    16 * cursor.rest.length + 11 < fuel →
    Matches tokens (· = depth) cursor.statement (Parser.statement fuel parser)
  listed : ∀ {depth parser cursor bound} (read : List Statement)
    (fits : cursor.rest.length < bound), Stands tokens depth parser cursor →
    16 * cursor.rest.length + 13 < fuel →
    Matches tokens (· = depth) (Cursor.listed bound read cursor fits)
      (Parser.listed fuel read parser)

section Statements

variable (agree : StatementsAgree tokens fuel) (stands : Stands tokens depth parser cursor)

include agree stands

theorem matches_declaration (enough : 16 * cursor.rest.length + 11 < fuel) :
    Matches tokens (· = depth) cursor.declaration (Parser.declaration (fuel + 1) parser) := by
  rw [Cursor.declaration, Parser.declaration]
  refine .accept stands (fun missing => ?_) fun _ start taken found onward => ?_
  · rw [missing]
    exact agree.statement stands enough
  · rw [found]
    exact .within (matches_declarationStatement onward (by omega) _)

theorem matches_statement (enough : 16 * cursor.rest.length + 10 < fuel) :
    Matches tokens (· = depth) cursor.statement (Parser.statement (fuel + 1) parser) := by
  rw [Cursor.statement, Parser.statement]
  refine .check stands (fun missing => ?_) fun opening start taken found => ?_
  · rw [missing]
    exact matches_expressionStatement stands enough _
  · rw [found]
    -- What stands behind the token is shorter, so the fuel that is left is enough for it.
    have takes : cursor.Takes _ _ start := ⟨taken, found⟩
    cases opening with
    | setBlock =>
      refine .advance stands takes fun stands => .within ?_
      exact matches_setBlock stands (by omega)
    | block =>
      refine .nested_advance stands takes fun room fewer stands => ?_
      refine (agree.listed [] _ stands (by omega)).bind rfl fun body behind read _ stands => ?_
      refine (Matches.consume stands _ _).bind rfl fun _ next closed _ stands => ?_
      exact .ok rfl stands
    | branch =>
      refine .nested_advance stands takes fun room fewer stands => ?_
      refine (matches_condition stands (by omega) _ _).bind rfl fun test first _ _ stands => ?_
      refine (agree.statement stands (by omega)).bind rfl fun thenBranch behind _ _ stands => ?_
      refine .accept stands (fun missing => ?_) fun _ second taken found stands => ?_
      · rw [missing]
        exact .ok rfl stands
      · rw [found]
        refine (agree.statement stands (by omega)).bind rfl fun elseBranch next _ _ stands => ?_
        exact .ok rfl stands
    | conditionalLoop =>
      refine .nested_advance stands takes fun room fewer stands => ?_
      refine (matches_condition stands (by omega) _ _).bind rfl fun test first _ _ stands => ?_
      refine (agree.statement stands (by omega)).bind rfl fun body next _ _ stands => ?_
      exact .ok rfl stands
    | countedLoop =>
      refine .nested_advance stands takes fun room fewer stands => ?_
      refine (matches_loopHead stands (by omega)).bind rfl fun head first _ _ stands => ?_
      refine (agree.statement stands (by omega)).bind rfl fun body next _ _ stands => ?_
      exact .ok rfl stands

theorem matches_listed {bound : Nat} (read : List Statement) (fits : cursor.rest.length < bound)
    (enough : 16 * cursor.rest.length + 12 < fuel) :
    Matches tokens (· = depth) (Cursor.listed bound read cursor fits)
      (Parser.listed (fuel + 1) read parser) := by
  rw [Cursor.listed, Parser.listed]
  refine .check stands (fun missing => ?_) fun _ start taken found => ?_
  · refine .peek stands ?_
    by_cases isEnd : cursor.kind = .eof
    · rw [if_pos (.inr isEnd), if_pos isEnd]
      exact .ok rfl stands
    · have noBrace : cursor.kind ≠ .symbol .rightBrace :=
        exactly_eq_none.mp (Reading.kind_of_lacks rfl (take?_eq_none_iff.mp missing))
      rw [if_neg (not_or.mpr ⟨noBrace, isEnd⟩), if_neg isEnd]
      refine (agree.declaration stands (by omega)).bind_cases rfl ?_ ?_
      · intro item next shorter after given stands
        rw [given]
        exact agree.listed _ _ stands (by omega)
      · intro cause next given
        rw [given]
        exact ⟨next, rfl⟩
  · have takes : cursor.Takes (TokenKind.exactly (.symbol .rightBrace)) () start := ⟨taken, found⟩
    rw [if_pos (.inl takes.kind)]
    exact .ok rfl stands

end Statements

theorem statementsAgree (tokens : List Token) (fuel : Nat) : StatementsAgree tokens fuel := by
  induction fuel with
  | zero => constructor <;> intros <;> omega
  | succ fuel agree =>
    exact {
      declaration := fun stands less =>
        matches_declaration agree stands (Nat.lt_of_succ_lt_succ less)
      statement := fun stands less => matches_statement agree stands (Nat.lt_of_succ_lt_succ less)
      listed := fun read fits stands less =>
        matches_listed agree stands read fits (Nat.lt_of_succ_lt_succ less) }

/-! ### Programs -/

theorem kind_ne_eof_of_mem {token : Token} (member : token ∈ (Cursor.ofTokens tokens).rest) :
    token.kind ≠ .eof := fun isEnd =>
  Cursor.noEnd_ofTokens tokens (List.mem_map.mpr ⟨token, member, isEnd⟩)

/-- In front of the tokens up to the first end token, it does not matter what stands behind it. -/
theorem stands_start {row after : List Token} {stop : Token} (isEnd : stop.kind = .eof)
    (position : stop.position = (Cursor.ofTokens tokens).stop)
    (upToEnd : row = (Cursor.ofTokens tokens).rest ++ stop :: after) :
    Stands row 0 (start (row.map (·.kind))) (Cursor.ofTokens tokens) :=
  ⟨rfl, ⟨stop, after, upToEnd, isEnd, position⟩, fun _ => kind_ne_eof_of_mem, rfl, rfl⟩

/-- A parser comes to what the reader of programs comes to, and closes all levels that it opens. -/
inductive Reads (tokens : List Token) (depth : Nat) :
    Except SyntaxError Program → EStateM.Result Halt Parser Program → Prop where
  | ok {program last} : last.depth = depth → Reads tokens depth (.ok program) (.ok program last)
  | error {cause index token last} : last.depth = depth → tokens[index]? = some token →
      token.position = cause.position →
      Reads tokens depth (.error cause) (.error (.error index cause.fault) last)

theorem reads_program (read : List Statement) (stands : Stands tokens depth parser cursor)
    (enough : 16 * cursor.rest.length + 13 < fuel) :
    Reads tokens depth (Cursor.program read cursor) (Parser.program fuel read parser) := by
  induction fuel generalizing read parser cursor with
  | zero => cases enough
  | succ fuel ih =>
    rw [Cursor.program, Parser.program, bind_of_ok stands.peek]
    by_cases isEnd : cursor.kind = .eof
    · rw [if_pos isEnd, if_pos isEnd]
      exact .ok stands.levels
    · rw [if_neg isEnd, if_neg isEnd]
      have declared := (statementsAgree tokens fuel).declaration stands (by omega)
      generalize cursor.declaration = front at declared
      generalize given : Parser.declaration fuel parser = result at declared
      cases declared with
      | ok same onward =>
        subst same
        rw [bind_of_ok given]
        exact ih _ onward (by omega)
      | error same found position =>
        rw [bind_of_error given]
        exact .error same found position

end Parser

end BlockScript
