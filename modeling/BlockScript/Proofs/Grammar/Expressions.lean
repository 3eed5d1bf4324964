import BlockScript.Proofs.Grammar.Readers

/-!
# The readers of expressions read the grammar

Whatever a reader gives is a phrase of its rank (`Reads.derives`), and every phrase that opens no
more levels than there is room for is read, unless the tokens behind it go on with it
(`Phrase.reads`).
-/

namespace BlockScript

/-! ### Tokens of the grammar -/

theorem operator?_eq_some {level : Precedence} {kind : TokenKind} {op : BinaryOp} :
    level.operator? kind = some op ↔ op.precedence = level ∧ kind = .symbol op.mark := by
  constructor
  · intro found
    unfold Precedence.operator? at found
    split at found <;> cases found <;> exact ⟨rfl, rfl⟩
  · rintro ⟨rfl, rfl⟩
    cases op <;> rfl

theorem unaryOp_ofToken?_eq_some {kind : TokenKind} {op : UnaryOp} :
    UnaryOp.ofToken? kind = some op ↔ kind = .symbol op.mark := by
  constructor
  · intro found
    unfold UnaryOp.ofToken? at found
    split at found <;> cases found <;> rfl
  · rintro rfl
    cases op <;> rfl

theorem expression_ofToken?_eq_some {kind : TokenKind} {value : Expression} :
    Expression.ofToken? kind = some value ↔ value.token? = some kind := by
  constructor
  · intro found
    unfold Expression.ofToken? at found
    split at found <;> cases found <;> rfl
  · intro found
    unfold Expression.token? at found
    split at found <;> cases found <;> rfl

/-! ### Ranks -/

/-- The levels whose operators may join an expression of a rank. -/
def Rank.chains : Rank → List Precedence
  | .assignment | .conditional => Precedence.levels
  | .operators level => level :: level.tighter
  | .unary | .primary => []

theorem Precedence.chains_operand (level : Precedence) : level.operand.chains = level.tighter := by
  cases level <;> rfl

theorem Precedence.not_mem_tighter (level : Precedence) : level ∉ level.tighter := by
  cases level <;> decide

/-- What holds of the tightest rank, and of every rank if it holds of the next tighter one, holds of
all ranks. -/
theorem Rank.from_tightest {motive : Rank → Prop} (primary : motive .primary)
    (unary : motive .primary → motive .unary)
    (operators : ∀ level : Precedence, motive level.operand → motive (.operators level))
    (conditional : motive (.operators .disjunction) → motive .conditional)
    (assignment : motive .conditional → motive .assignment) (rank : Rank) : motive rank := by
  have unary := unary primary
  have product := operators .product unary
  have sum := operators .sum product
  have comparison := operators .comparison sum
  have equality := operators .equality comparison
  have conjunction := operators .conjunction equality
  have disjunction := operators .disjunction conjunction
  have conditional := conditional disjunction
  cases rank with
  | assignment => exact assignment conditional
  | operators level => cases level <;> assumption
  | _ => assumption

theorem Phrase.precedence_mem {rank source value} (phrase : Phrase rank source value) :
    ∀ {op left right}, value = .binary op left right → op.precedence ∈ rank.chains := by
  -- The steps from one rank to a looser one keep the expression, and only chains are binary.
  induction phrase with
  | ofConditional _ inner | ofOperators _ inner => exact inner
  | binary same _ _ =>
    rintro _ _ _ ⟨⟩
    exact same ▸ List.mem_cons_self
  | @ofOperand level _ _ _ inner =>
    intro _ _ _ binary
    rw [Precedence.chains_operand] at inner
    exact List.mem_cons_of_mem _ (inner binary)
  | ofPrimary _ inner =>
    intro _ _ _ binary
    exact absurd (inner binary) List.not_mem_nil
  | atom token =>
    rintro _ _ _ rfl
    cases token
  | _ => intro _ _ _ binary; cases binary

/-- An operand of a level is no chain of that level. -/
theorem Phrase.links_operand {level source value} (phrase : Phrase level.operand source value) :
    value.links level = 0 := by
  unfold Expression.links
  split
  case h_1 op left right =>
    have tighter : op.precedence ∈ level.tighter :=
      level.chains_operand ▸ phrase.precedence_mem rfl
    have other : op.precedence ≠ level := by
      rintro rfl
      exact Precedence.not_mem_tighter _ tighter
    exact if_neg other
  case h_2 => rfl

theorem Phrase.source_variable {rank source value} (phrase : Phrase rank source value) :
    ∀ {name}, value = .variable name → source = [.identifier name] := by
  induction phrase with
  | ofConditional _ inner | ofOperators _ inner | ofOperand _ inner | ofPrimary _ inner =>
    exact inner
  | atom token =>
    rintro name rfl
    cases token
    rfl
  | _ => intro _ name; cases name

/-! ### What is read is a phrase -/

namespace Cursor

/-- A phrase of a rank stands between two cursors, and there is room for the levels it opens. -/
def Derives (rank : Rank) (start : Cursor) (value : Expression) (last : Cursor) : Prop :=
  ∃ source, Phrase rank source value ∧ start.Spans source last ∧
    start.depth + value.nesting ≤ maxNesting

/-- Whatever the reader of a rank gives at a cursor is a phrase. -/
def Sound (start : Cursor) (rank : Rank) : Prop :=
  ∀ ⦃value : Expression⦄ ⦃last : Cursor⦄, start.Reads rank value last →
    start.Derives rank value last

section Sound

variable {start : Cursor}
  (shorter : ∀ cursor : Cursor, cursor.rest.length < start.rest.length → ∀ rank,
    cursor.Sound rank)
include shorter

theorem sound_primary : start.Sound .primary := by
  intro value last reads
  rcases reads_primary.mp reads with takes | ⟨_, after, takes, full, inner, behind, inside, next,
    closed, rfl, rfl⟩
  · obtain ⟨kind, found, kinds, depth⟩ := takes.kinds_eq
    have token := expression_ofToken?_eq_some.mp found
    have flat : value.nesting = 0 := by
      cases value <;> first | rfl | cases token
    refine ⟨[kind], .atom token, ⟨kinds, depth⟩, ?_⟩
    rw [flat]
    exact start.depth_le
  · obtain ⟨source, phrase, spans, room⟩ := shorter (after.deeper full) takes.shorter _ inside
    have sameDepth := takes.spans.depth
    refine ⟨_, .grouping phrase, takes.spans.append (spans.append closed.spans).leave, ?_⟩
    rw [depth_deeper] at room
    simp only [Expression.nesting]
    omega

theorem sound_unary (tighter : start.Sound .primary) : start.Sound .unary := by
  intro value last reads
  rcases reads_unary.mp reads with ⟨reads, _⟩ | ⟨op, after, takes, full, operand, inner, inside,
    rfl, rfl⟩
  · obtain ⟨source, phrase, spans, room⟩ := tighter reads
    exact ⟨source, .ofPrimary phrase, spans, room⟩
  · obtain ⟨_, found, mark, sameDepth⟩ := takes.kinds_eq
    obtain rfl := unaryOp_ofToken?_eq_some.mp found
    obtain ⟨source, phrase, spans, room⟩ := shorter (after.deeper full) takes.shorter _ inside
    have spansMark : start.Spans [.symbol op.mark] after := ⟨mark, sameDepth⟩
    refine ⟨_, .unary phrase, spansMark.append spans.leave, ?_⟩
    rw [depth_deeper] at room
    simp only [Expression.nesting]
    omega

/-- The invariant of a chain: what has been read of it is a phrase of its level, and its operators
are the levels that it holds open. -/
theorem Chained.derives {level : Precedence} (tighter : start.Sound level.operand)
    {value : Expression} {here : Cursor} (chained : Chained level start value here) :
    ∃ source, Phrase (.operators level) source value ∧ start.kinds = source ++ here.kinds ∧
      here.depth = start.depth + value.links level ∧
      start.depth + value.nesting ≤ maxNesting := by
  induction chained with
  | first reads =>
    obtain ⟨source, phrase, spans, room⟩ := tighter reads
    refine ⟨source, .ofOperand phrase, spans.kinds, ?_, room⟩
    rw [phrase.links_operand]
    exact spans.depth
  | @link op left right here after next chained takes full reads before =>
    -- The operand is read one level deeper than all operators before it have brought the chain.
    obtain ⟨first, leftPhrase, kinds, depth, leftRoom⟩ := before
    obtain ⟨_, found, mark, sameDepth⟩ := takes.kinds_eq
    obtain ⟨rfl, rfl⟩ := operator?_eq_some.mp found
    obtain ⟨second, rightPhrase, spans, rightRoom⟩ :=
      shorter (after.deeper full) (Nat.lt_trans takes.shorter chained.shorter) _ reads
    have behind := spans.kinds
    have rightDepth := spans.depth
    rw [kinds_deeper] at behind
    rw [depth_deeper] at rightDepth rightRoom
    refine ⟨first ++ .symbol op.mark :: second, .binary rfl leftPhrase rightPhrase, ?_, ?_, ?_⟩
    · rw [kinds, mark, behind, List.append_assoc, List.cons_append]
    · rw [Expression.links, if_pos rfl]
      omega
    · simp only [Expression.nesting]
      omega

theorem sound_operators (level : Precedence) (tighter : start.Sound level.operand) :
    start.Sound (.operators level) := by
  intro value last reads
  obtain ⟨here, chained, _, rfl⟩ := reads_operators.mp reads
  obtain ⟨source, phrase, kinds, _, room⟩ := chained.derives shorter tighter
  exact ⟨source, phrase, ⟨kinds, rfl⟩, room⟩

theorem sound_conditional (tighter : start.Sound (.operators .disjunction)) :
    start.Sound .conditional := by
  intro value last reads
  rcases reads_conditional.mp reads with ⟨reads, _⟩ | ⟨condition, behind, readsCondition, after,
    takes, full, thenBranch, middle, readsThen, other, colon, elseBranch, inner, readsElse, rfl,
    rfl⟩
  · obtain ⟨source, phrase, spans, room⟩ := tighter reads
    exact ⟨source, .ofOperators phrase, spans, room⟩
  · -- The condition stands in front of the level that the mark opens, both branches stand in it.
    have afterShorter := Nat.lt_trans takes.shorter readsCondition.shorter
    have otherShorter := Nat.lt_trans (Nat.lt_trans colon.shorter readsThen.shorter) afterShorter
    obtain ⟨first, conditionPhrase, spansCondition, conditionRoom⟩ := tighter readsCondition
    obtain ⟨second, thenPhrase, spansThen, thenRoom⟩ :=
      shorter (after.deeper full) afterShorter _ readsThen
    obtain ⟨third, elsePhrase, spansElse, elseRoom⟩ := shorter other otherShorter _ readsElse
    have spansMark := spansCondition.append takes.spans
    have spansColon := spansThen.append colon.spans
    refine ⟨_, .conditional conditionPhrase thenPhrase elsePhrase, ?_, ?_⟩
    · simpa using spansMark.append (spansColon.append spansElse).leave
    · have sameDepth := spansMark.depth
      have innerDepth := spansColon.depth
      rw [depth_deeper] at thenRoom innerDepth
      simp only [Expression.nesting]
      omega

theorem sound_assignment (tighter : start.Sound .conditional) : start.Sound .assignment := by
  intro value last reads
  rcases reads_assignment.mp reads with ⟨reads, _⟩ | ⟨name, behind, target, after, takes, full,
    assigned, inner, inside, rfl, rfl⟩
  · obtain ⟨source, phrase, spans, room⟩ := tighter reads
    exact ⟨source, .ofConditional phrase, spans, room⟩
  · obtain ⟨first, targetPhrase, spansTarget, _⟩ := tighter target
    obtain ⟨second, phrase, spans, room⟩ :=
      shorter (after.deeper full) (Nat.lt_trans takes.shorter target.shorter) _ inside
    -- A target in front of an equals sign is a lone name, as names consist of one token.
    obtain rfl := targetPhrase.source_variable rfl
    have spansMark := spansTarget.append takes.spans
    refine ⟨_, .assign phrase, spansMark.append spans.leave, ?_⟩
    have sameDepth := spansMark.depth
    rw [depth_deeper] at room
    simp only [Expression.nesting]
    omega

end Sound

theorem sound (start : Cursor) (rank : Rank) : start.Sound rank := by
  -- Two inductions in one: behind a token fewer are left, in front of it the rank gets tighter.
  have shorter (cursor : Cursor) (_ : cursor.rest.length < start.rest.length) (rank : Rank) :
      cursor.Sound rank := sound cursor rank
  exact Rank.from_tightest (sound_primary shorter) (sound_unary shorter) (sound_operators shorter)
    (sound_conditional shorter) (sound_assignment shorter) rank
termination_by start.rest.length

end Cursor

/-! ### Every phrase is read -/

/-- No token that would be read on stands behind an expression of a rank. -/
structure Rank.Ends (rank : Rank) (rest : List TokenKind) : Prop where
  noEqual : rank = .assignment → .symbol .equal ∉ rest.head?
  noQuestion : rank = .assignment ∨ rank = .conditional → .symbol .question ∉ rest.head?
  noOperator : ∀ level ∈ rank.chains, ∀ kind ∈ rest.head?, level.operator? kind = none

namespace Rank.Ends

variable {rest : List TokenKind}

theorem conditional (ends : Rank.assignment.Ends rest) : Rank.conditional.Ends rest :=
  ⟨nofun, fun _ => ends.noQuestion (.inl rfl), ends.noOperator⟩

theorem disjunction (ends : Rank.conditional.Ends rest) :
    (Rank.operators .disjunction).Ends rest :=
  ⟨nofun, nofun, ends.noOperator⟩

theorem operand {level : Precedence} (ends : (Rank.operators level).Ends rest) :
    level.operand.Ends rest := by
  refine ⟨?_, ?_, ?_⟩
  · cases level <;> nofun
  · cases level <;> nofun
  · rw [Precedence.chains_operand]
    intro tighter member
    exact ends.noOperator tighter (List.mem_cons_of_mem _ member)

theorem of_chains_nil {rank : Rank} (tight : rank.chains = []) : rank.Ends rest := by
  refine ⟨?_, ?_, ?_⟩
  · rintro rfl
    cases tight
  · rintro (rfl | rfl) <;> cases tight
  · rw [tight]
    nofun

/-- An operator of a level stands behind its left operand. -/
theorem operand_mark (op : BinaryOp) : op.precedence.operand.Ends (.symbol op.mark :: rest) := by
  refine ⟨?_, ?_, ?_⟩
  · cases op <;> nofun
  · cases op <;> nofun
  · rw [Precedence.chains_operand]
    -- A finite table: the operators of a level are none of the levels that bind tighter.
    rintro level member _ ⟨⟩
    cases op <;> cases level <;> first | rfl | exact absurd member (by decide)

theorem conditional_equal : Rank.conditional.Ends (.symbol .equal :: rest) := by
  refine ⟨nofun, nofun, ?_⟩
  rintro level _ _ ⟨⟩
  cases level <;> rfl

theorem disjunction_question : (Rank.operators .disjunction).Ends (.symbol .question :: rest) := by
  refine ⟨nofun, nofun, ?_⟩
  rintro level _ _ ⟨⟩
  cases level <;> rfl

/-- A token that closes an expression ends it at every rank. -/
theorem of_closing {rank : Rank} {mark : Symbol}
    (closing : mark ∈ [Symbol.rightParen, .comma, .colon, .semicolon]) :
    rank.Ends (.symbol mark :: rest) := by
  simp only [List.mem_cons, List.not_mem_nil, or_false] at closing
  refine ⟨?_, ?_, ?_⟩
  · rintro - ⟨⟩
    simp at closing
  · rintro - ⟨⟩
    simp at closing
  · rintro level - _ ⟨⟩
    rcases closing with rfl | rfl | rfl | rfl <;> cases level <;> rfl

end Rank.Ends

namespace Cursor

/-- A row of tokens is read as an expression of a rank wherever there is room for the levels that it
opens and nothing goes on behind it. -/
def Readable (rank : Rank) (source : List TokenKind) (value : Expression) : Prop :=
  ∀ ⦃start : Cursor⦄ ⦃rest : List TokenKind⦄, start.kinds = source ++ rest →
    start.depth + value.nesting ≤ maxNesting → rank.Ends rest →
      ∃ last, start.Reads rank value last ∧ last.kinds = rest ∧ last.depth = start.depth

/-- A row of tokens is read as the beginning of a chain, up to a place where more operators of the
level may stand. -/
def Chainable (level : Precedence) (source : List TokenKind) (value : Expression) : Prop :=
  ∀ ⦃start : Cursor⦄ ⦃rest : List TokenKind⦄, start.kinds = source ++ rest →
    start.depth + value.nesting ≤ maxNesting → level.operand.Ends rest →
      ∃ here, Chained level start value here ∧ here.kinds = rest ∧
        here.depth = start.depth + value.links level

theorem Chainable.readable {level source value} (chainable : Chainable level source value) :
    Readable (.operators level) source value := by
  intro start rest kinds room ends
  obtain ⟨here, chained, behind, _⟩ := chainable kinds room ends.operand
  -- The chain may end at this place only because no operator of its own level stands behind it.
  have lacks : here.Lacks level.operator? := by
    unfold Lacks
    rw [behind]
    exact ends.noOperator level List.mem_cons_self
  exact ⟨_, reads_operators.mpr ⟨here, chained, lacks, rfl⟩, behind, rfl⟩

namespace Readable

variable {level : Precedence} {source : List TokenKind} {value : Expression}

theorem chainable (readable : Readable level.operand source value) (single : value.links level = 0) :
    Chainable level source value := by
  intro start rest kinds room ends
  obtain ⟨here, reads, behind, depth⟩ := readable kinds room ends
  refine ⟨here, .first reads, behind, ?_⟩
  rw [single]
  exact depth

theorem link {op first second left right} (chainable : Chainable op.precedence first left)
    (readable : Readable op.precedence.operand second right) :
    Chainable op.precedence (first ++ .symbol op.mark :: second) (.binary op left right) := by
  intro start rest kinds room ends
  simp only [Expression.nesting] at room
  rw [List.append_assoc, List.cons_append] at kinds
  obtain ⟨here, chained, behind, depth⟩ := chainable kinds (by omega) (.operand_mark op)
  obtain ⟨after, takes, afterKinds, afterDepth⟩ :=
    takes_of_kinds behind (operator?_eq_some.mpr ⟨rfl, rfl⟩)
  have full : after.depth < maxNesting := by omega
  have inside : (after.deeper full).kinds = second ++ rest := afterKinds
  obtain ⟨next, reads, nextKinds, nextDepth⟩ :=
    readable inside (by rw [depth_deeper]; omega) ends
  refine ⟨next, chained.link takes full reads, nextKinds, ?_⟩
  rw [nextDepth, depth_deeper, Expression.links, if_pos rfl]
  omega

theorem token {kind : TokenKind} (token : value.token? = some kind) :
    Readable .primary [kind] value := by
  intro start rest kinds _ _
  obtain ⟨last, takes, behind, depth⟩ :=
    takes_of_kinds kinds (expression_ofToken?_eq_some.mpr token)
  exact ⟨last, reads_primary.mpr (.inl takes), behind, depth⟩

theorem grouping (readable : Readable .assignment source value) :
    Readable .primary (.symbol .leftParen :: source ++ [.symbol .rightParen])
      (.grouping value) := by
  intro start rest kinds room _
  simp only [Expression.nesting] at room
  rw [List.cons_append, List.cons_append, List.append_assoc] at kinds
  obtain ⟨after, takes, afterKinds, afterDepth⟩ := takes_exactly kinds
  have noToken : start.Lacks Expression.ofToken? := by
    unfold Lacks
    rw [kinds]
    rintro _ ⟨⟩
    rfl
  have full : after.depth < maxNesting := by omega
  have inside : (after.deeper full).kinds = source ++ .symbol .rightParen :: rest := afterKinds
  obtain ⟨behind, reads, behindKinds, behindDepth⟩ :=
    readable inside (by rw [depth_deeper]; omega) (.of_closing (by decide))
  obtain ⟨next, closed, nextKinds, nextDepth⟩ := takes_exactly behindKinds
  rw [depth_deeper] at behindDepth
  refine ⟨next.leave, ?_, nextKinds, ?_⟩
  · exact reads_primary.mpr (.inr ⟨noToken, after, takes, full, value, behind, reads, next, closed,
      rfl, rfl⟩)
  · rw [depth_leave]
    omega

/-- No operator stands in front of what the tightest reader reads. -/
theorem noOperator {start last : Cursor} (reads : start.Reads .primary value last) :
    start.Lacks UnaryOp.ofToken? := by
  unfold Lacks
  -- It begins with a token of its own or with a parenthesis.
  rcases reads_primary.mp reads with takes | ⟨_, after, takes, _⟩
  · obtain ⟨kind, found, kinds, _⟩ := takes.kinds_eq
    rw [kinds]
    rintro _ ⟨⟩
    unfold Expression.ofToken? at found
    split at found <;> first | rfl | cases found
  · rw [takes.exactly.1]
    rintro _ ⟨⟩
    rfl

theorem ofPrimary (readable : Readable .primary source value) : Readable .unary source value := by
  intro start rest kinds room _
  obtain ⟨last, reads, behind, depth⟩ := readable kinds room (.of_chains_nil rfl)
  exact ⟨last, reads_unary.mpr (.inl ⟨reads, noOperator reads⟩), behind, depth⟩

theorem unary {op : UnaryOp} (readable : Readable .unary source value) :
    Readable .unary (.symbol op.mark :: source) (.unary op value) := by
  intro start rest kinds room ends
  simp only [Expression.nesting] at room
  obtain ⟨after, takes, afterKinds, afterDepth⟩ :=
    takes_of_kinds kinds (unaryOp_ofToken?_eq_some.mpr rfl)
  have full : after.depth < maxNesting := by omega
  have inside : (after.deeper full).kinds = source ++ rest := afterKinds
  obtain ⟨inner, reads, innerKinds, innerDepth⟩ :=
    readable inside (by rw [depth_deeper]; omega) ends
  rw [depth_deeper] at innerDepth
  refine ⟨inner.leave, ?_, innerKinds, ?_⟩
  · exact reads_unary.mpr (.inr ⟨op, after, takes, full, value, inner, reads, rfl, rfl⟩)
  · rw [depth_leave]
    omega

theorem ofOperators (readable : Readable (.operators .disjunction) source value) :
    Readable .conditional source value := by
  intro start rest kinds room ends
  obtain ⟨last, reads, behind, depth⟩ := readable kinds room ends.disjunction
  have lacks : last.Lacks (TokenKind.exactly (.symbol .question)) :=
    lacks_exactly.mpr (behind ▸ ends.noQuestion (.inr rfl))
  exact ⟨last, reads_conditional.mpr (.inl ⟨reads, lacks⟩), behind, depth⟩

theorem conditional {first second third condition thenBranch elseBranch}
    (readsCondition : Readable (.operators .disjunction) first condition)
    (readsThen : Readable .assignment second thenBranch)
    (readsElse : Readable .conditional third elseBranch) :
    Readable .conditional (first ++ .symbol .question :: second ++ .symbol .colon :: third)
      (.conditional condition thenBranch elseBranch) := by
  intro start rest kinds room ends
  simp only [Expression.nesting] at room
  simp only [List.append_assoc, List.cons_append] at kinds
  obtain ⟨behind, readsCondition, behindKinds, behindDepth⟩ :=
    readsCondition kinds (by omega) .disjunction_question
  obtain ⟨after, takes, afterKinds, afterDepth⟩ := takes_exactly behindKinds
  have full : after.depth < maxNesting := by omega
  have inside : (after.deeper full).kinds = second ++ .symbol .colon :: (third ++ rest) := afterKinds
  obtain ⟨middle, readsThen, middleKinds, middleDepth⟩ :=
    readsThen inside (by rw [depth_deeper]; omega) (.of_closing (by decide))
  rw [depth_deeper] at middleDepth
  obtain ⟨other, colon, otherKinds, otherDepth⟩ := takes_exactly middleKinds
  obtain ⟨inner, readsElse, innerKinds, innerDepth⟩ := readsElse otherKinds (by omega) ends
  refine ⟨inner.leave, ?_, innerKinds, ?_⟩
  · exact reads_conditional.mpr (.inr ⟨condition, behind, readsCondition, after, takes, full,
      thenBranch, middle, readsThen, other, colon, elseBranch, inner, readsElse, rfl, rfl⟩)
  · rw [depth_leave]
    omega

theorem ofConditional (readable : Readable .conditional source value) :
    Readable .assignment source value := by
  intro start rest kinds room ends
  obtain ⟨last, reads, behind, depth⟩ := readable kinds room ends.conditional
  have lacks : last.Lacks (TokenKind.exactly (.symbol .equal)) :=
    lacks_exactly.mpr (behind ▸ ends.noEqual rfl)
  exact ⟨last, reads_assignment.mpr (.inl ⟨reads, lacks⟩), behind, depth⟩

/-- A name is an expression of every rank, so it can be the target of an assignment. -/
theorem name (name : String) (rank : Rank) : Readable rank [.identifier name] (.variable name) :=
  Rank.from_tightest (motive := fun rank => Readable rank [.identifier name] (.variable name))
    (token rfl) ofPrimary (fun _ readable => (readable.chainable rfl).readable) ofOperators
    ofConditional rank

theorem assign {target : String} (readable : Readable .assignment source value) :
    Readable .assignment (.identifier target :: .symbol .equal :: source)
      (.assign target value) := by
  intro start rest kinds room ends
  simp only [Expression.nesting] at room
  -- The target is read as any conditional expression would be.
  obtain ⟨behind, reads, behindKinds, behindDepth⟩ :=
    name target .conditional kinds (Nat.le_trans (Nat.le_add_right _ _) room) .conditional_equal
  obtain ⟨after, takes, afterKinds, afterDepth⟩ := takes_exactly behindKinds
  have full : after.depth < maxNesting := by omega
  have inside : (after.deeper full).kinds = source ++ rest := afterKinds
  obtain ⟨inner, insideReads, innerKinds, innerDepth⟩ :=
    readable inside (by rw [depth_deeper]; omega) ends
  rw [depth_deeper] at innerDepth
  refine ⟨inner.leave, ?_, innerKinds, ?_⟩
  · exact reads_assignment.mpr (.inr ⟨target, behind, reads, after, takes, full, value, inner,
      insideReads, rfl, rfl⟩)
  · rw [depth_leave]
    omega

end Readable

end Cursor

theorem Phrase.readable {rank source value} (phrase : Phrase rank source value) :
    Cursor.Readable rank source value ∧
      ∀ level, rank = .operators level → Cursor.Chainable level source value := by
  -- A left operand read to its end would take the mark behind it, hence the second part.
  induction phrase with
  | assign _ inner => exact ⟨inner.1.assign, nofun⟩
  | ofConditional _ inner => exact ⟨inner.1.ofConditional, nofun⟩
  | conditional _ _ _ condition thenBranch elseBranch =>
    exact ⟨condition.1.conditional thenBranch.1 elseBranch.1, nofun⟩
  | ofOperators _ inner => exact ⟨inner.1.ofOperators, nofun⟩
  | binary same _ _ left right =>
    -- The left operand need not end where the mark stands: it is the beginning of the same chain.
    subst same
    have chainable := right.1.link (left.2 _ rfl)
    refine ⟨chainable.readable, ?_⟩
    rintro _ ⟨⟩
    exact chainable
  | ofOperand phrase inner =>
    have chainable := inner.1.chainable phrase.links_operand
    refine ⟨chainable.readable, ?_⟩
    rintro _ ⟨⟩
    exact chainable
  | unary _ inner => exact ⟨inner.1.unary, nofun⟩
  | ofPrimary _ inner => exact ⟨inner.1.ofPrimary, nofun⟩
  | atom token => exact ⟨.token token, nofun⟩
  | grouping _ inner => exact ⟨inner.1.grouping, nofun⟩

end BlockScript
