import BlockScript.Proofs.Grammar
import BlockScript.Proofs.Grammar.Cursor

/-!
# The readers of expressions taken apart

One equivalence for the reader of each rank says everything that it can do, and names the readers
that it calls.  A chain of operators is told by the places it passes (`Chained`).
-/

namespace BlockScript

/-- The levels that bind tighter than a level, from the loosest to the tightest. -/
def Precedence.tighter : Precedence → List Precedence
  | .disjunction => [.conjunction, .equality, .comparison, .sum, .product]
  | .conjunction => [.equality, .comparison, .sum, .product]
  | .equality => [.comparison, .sum, .product]
  | .comparison => [.sum, .product]
  | .sum => [.product]
  | .product => []

/-- The reader of a rank. -/
def Rank.read : Rank → (cursor : Cursor) → Outcome cursor.rest.length Expression
  | .assignment => Cursor.expression
  | .conditional => Cursor.conditional
  | .operators level => Cursor.chain (level :: level.tighter)
  | .unary => Cursor.unary
  | .primary => Cursor.primary

namespace Cursor

/-- The reader of a rank gives an expression and the cursor behind it. -/
def Reads (rank : Rank) (start : Cursor) (value : Expression) (last : Cursor) : Prop :=
  (rank.read start).Gives value last

variable {rank : Rank} {level : Precedence} {start last : Cursor} {value : Expression}

theorem Reads.shorter (reads : start.Reads rank value last) :
    last.rest.length < start.rest.length :=
  Outcome.Gives.shorter reads

/-- The places between the operators of a chain of one level.  A place stands one level deeper than
the one in front of it. -/
inductive Chained (level : Precedence) (start : Cursor) : Expression → Cursor → Prop where
  | first {value here} : start.Reads level.operand value here → Chained level start value here
  | link {op left right here after next} :
    Chained level start left here → here.Takes level.operator? op after →
      (room : after.depth < maxNesting) → (after.deeper room).Reads level.operand right next →
      Chained level start (.binary op left right) next

/-! ### Operators with two operands -/

theorem chain_tighter (level : Precedence) (cursor : Cursor) :
    chain level.tighter cursor = level.operand.read cursor := by
  cases level with
  | product => exact chain.eq_1 cursor
  | _ => rfl

theorem Chained.shorter {here : Cursor} (chained : Chained level start value here) :
    here.rest.length < start.rest.length := by
  induction chained with
  | first reads => exact reads.shorter
  | link _ takes _ reads before =>
    have behindMark := takes.shorter
    have behindOperand := reads.shorter
    rw [rest_deeper] at behindOperand
    omega

theorem links_gives {bound : Nat} {left : Expression} {here : Cursor}
    {fits : here.rest.length < bound} :
    (links bound level level.tighter left here fits).Gives value last ↔
      (here.Lacks level.operator? ∧ value = left ∧ last = here) ∨
        ∃ op after, here.Takes level.operator? op after ∧
          ∃ room right next fits, (after.deeper room).Reads level.operand right next ∧
            (links bound level level.tighter (.binary op left right) next fits).Gives value last := by
  rw [links]
  -- The chain ends where no operator of the level stands, and else goes on behind an operand.
  rcases here.take?_cases level.operator? with ⟨found, lacks⟩ | ⟨op, after, takes, found⟩
  · rw [found]
    constructor
    · intro gives
      exact .inl ⟨lacks, Outcome.ok_gives.mp gives⟩
    · rintro (⟨_, same⟩ | ⟨_, _, takes, _⟩)
      · exact Outcome.ok_gives.mpr same
      · exact absurd takes lacks.not_takes
  · rw [found]
    constructor
    · intro gives
      obtain ⟨room, inner⟩ := enter_gives.mp gives
      obtain ⟨right, next, reads, rest⟩ := Outcome.andThen_gives.mp inner
      rw [chain_tighter] at reads
      exact .inr ⟨op, after, takes, room, right, next, _, reads, rest⟩
    · rintro (⟨lacks, _⟩ | ⟨_, _, again, room, right, next, fits, reads, rest⟩)
      · exact absurd takes lacks.not_takes
      · obtain ⟨rfl, rfl⟩ := takes.unique again
        refine enter_gives.mpr ⟨room, Outcome.andThen_gives.mpr ⟨right, next, ?_, rest⟩⟩
        rw [chain_tighter]
        exact reads

/-- Reading on from a place of a chain ends at a later place, behind which no operator of the level
stands. -/
theorem chained_of_links {bound : Nat} {left : Expression} {here : Cursor}
    {fits : here.rest.length < bound} (chained : Chained level start left here)
    (gives : (links bound level level.tighter left here fits).Gives value last) :
    Chained level start value last ∧ last.Lacks level.operator? := by
  rcases links_gives.mp gives with ⟨lacks, rfl, rfl⟩ | ⟨op, after, takes, room, right, next, _,
    reads, rest⟩
  · exact ⟨chained, lacks⟩
  · -- One more operator is one more place of the chain, with fewer tokens behind it.
    have behindMark := takes.shorter
    have behindOperand : next.rest.length < after.rest.length := reads.shorter
    exact chained_of_links (chained.link takes room reads) rest
termination_by here.rest.length

/-- The reader of a chain passes every place of the chain. -/
theorem Chained.gives {here : Cursor} (chained : Chained level start value here) :
    ∀ {result : Expression} {last : Cursor} (fits : here.rest.length < start.rest.length),
      (links start.rest.length level level.tighter value here fits).Gives result last →
        ∃ first middle, ∃ _ : start.Reads level.operand first middle, ∃ fits,
          (links start.rest.length level level.tighter first middle fits).Gives result last := by
  -- From place to place back to the first one; what the reader gives in the end stays the same.
  induction chained with
  | first reads =>
    intro _ _ fits rest
    exact ⟨_, _, reads, fits, rest⟩
  | link chained takes room reads before =>
    intro _ _ fits rest
    exact before chained.shorter
      (links_gives.mpr (.inr ⟨_, _, takes, room, _, _, fits, reads, rest⟩))

theorem reads_operators :
    start.Reads (.operators level) value last ↔
      ∃ here, Chained level start value here ∧ here.Lacks level.operator? ∧
        last = here.restore start.depth start.depth_le := by
  change (chain (level :: level.tighter) start).Gives value last ↔ _
  rw [chain.eq_2, Outcome.restore_gives]
  refine exists_congr fun here => ?_
  rw [Outcome.andThen_gives, ← and_assoc]
  refine and_congr_left fun _ => ?_
  constructor
  · rintro ⟨first, middle, reads, rest⟩
    rw [chain_tighter] at reads
    exact chained_of_links (.first reads) rest
  · rintro ⟨chained, lacks⟩
    obtain ⟨first, middle, reads, _, rest⟩ :=
      chained.gives chained.shorter (links_gives.mpr (.inl ⟨lacks, rfl, rfl⟩))
    refine ⟨first, middle, ?_, rest⟩
    rw [chain_tighter]
    exact reads

/-! ### The other ranks -/

theorem reads_assignment :
    start.Reads .assignment value last ↔
      (start.Reads .conditional value last ∧
        last.Lacks (TokenKind.exactly (.symbol .equal))) ∨
        ∃ name behind, start.Reads .conditional (.variable name) behind ∧
          ∃ after, behind.Takes (TokenKind.exactly (.symbol .equal)) () after ∧
            ∃ room assigned inner, (after.deeper room).Reads .assignment assigned inner ∧
              value = .assign name assigned ∧ last = inner.leave := by
  change (expression start).Gives value last ↔ _
  rw [expression, Outcome.andThen_gives]
  constructor
  · rintro ⟨target, behind, reads, rest⟩
    rcases behind.take?_cases (TokenKind.exactly (.symbol .equal)) with
      ⟨found, lacks⟩ | ⟨⟨⟩, after, takes, found⟩
    · rw [found] at rest
      obtain ⟨rfl, rfl⟩ := Outcome.ok_gives.mp rest
      exact .inl ⟨reads, lacks⟩
    · rw [found] at rest
      obtain ⟨assigned, next, behindMark, rest⟩ := Outcome.andThen_gives.mp rest
      obtain ⟨room, inner, inside, rfl⟩ := nested_gives.mp behindMark
      -- Whether the target is a name is asked last.
      split at rest
      case h_1 _ name _ =>
        obtain ⟨rfl, rfl⟩ := Outcome.ok_gives.mp rest
        exact .inr ⟨name, behind, reads, after, takes, room, assigned, inner,
          Outcome.within_gives.mp inside, rfl, rfl⟩
      case h_2 => exact absurd rest Outcome.error_gives
  · rintro (⟨reads, lacks⟩ | ⟨name, behind, reads, after, takes, room, assigned, inner, inside,
      rfl, rfl⟩)
    · refine ⟨value, last, reads, ?_⟩
      rw [take?_eq_none_iff.mpr lacks]
      exact Outcome.ok_gives.mpr ⟨rfl, rfl⟩
    · refine ⟨.variable name, behind, reads, ?_⟩
      rw [takes.2]
      refine Outcome.andThen_gives.mpr ⟨assigned, inner.leave, ?_, Outcome.ok_gives.mpr ⟨rfl, rfl⟩⟩
      exact nested_gives.mpr ⟨room, inner, Outcome.within_gives.mpr inside, rfl⟩

theorem reads_conditional :
    start.Reads .conditional value last ↔
      (start.Reads (.operators .disjunction) value last ∧
        last.Lacks (TokenKind.exactly (.symbol .question))) ∨
        ∃ condition behind, start.Reads (.operators .disjunction) condition behind ∧
          ∃ after, behind.Takes (TokenKind.exactly (.symbol .question)) () after ∧
            ∃ room thenBranch middle, (after.deeper room).Reads .assignment thenBranch middle ∧
              ∃ other, middle.Takes (TokenKind.exactly (.symbol .colon)) () other ∧
                ∃ elseBranch inner, other.Reads .conditional elseBranch inner ∧
                  value = .conditional condition thenBranch elseBranch ∧ last = inner.leave := by
  change (conditional start).Gives value last ↔ _
  rw [conditional, Outcome.andThen_gives]
  constructor
  · rintro ⟨condition, behind, reads, rest⟩
    rcases behind.take?_cases (TokenKind.exactly (.symbol .question)) with
      ⟨found, lacks⟩ | ⟨⟨⟩, after, takes, found⟩
    · rw [found] at rest
      obtain ⟨rfl, rfl⟩ := Outcome.ok_gives.mp rest
      exact .inl ⟨reads, lacks⟩
    · rw [found] at rest
      obtain ⟨room, inner, inside, rfl⟩ := nested_gives.mp rest
      obtain ⟨thenBranch, middle, readsThen, inside⟩ := Outcome.andThen_gives.mp inside
      obtain ⟨⟨⟩, other, colon, inside⟩ := Outcome.andThen_gives.mp inside
      obtain ⟨elseBranch, next, readsElse, inside⟩ := Outcome.andThen_gives.mp inside
      obtain ⟨rfl, rfl⟩ := Outcome.ok_gives.mp inside
      exact .inr ⟨condition, behind, reads, after, takes, room, thenBranch, middle, readsThen, other,
        symbol_gives.mp colon, elseBranch, inner, readsElse, rfl, rfl⟩
  · rintro (⟨reads, lacks⟩ | ⟨condition, behind, reads, after, takes, room, thenBranch, middle,
      readsThen, other, colon, elseBranch, inner, readsElse, rfl, rfl⟩)
    · refine ⟨value, last, reads, ?_⟩
      rw [take?_eq_none_iff.mpr lacks]
      exact Outcome.ok_gives.mpr ⟨rfl, rfl⟩
    · refine ⟨condition, behind, reads, ?_⟩
      rw [takes.2]
      refine nested_gives.mpr ⟨room, inner, ?_, rfl⟩
      refine Outcome.andThen_gives.mpr ⟨thenBranch, middle, readsThen, ?_⟩
      refine Outcome.andThen_gives.mpr ⟨(), other, symbol_gives.mpr colon, ?_⟩
      exact Outcome.andThen_gives.mpr
        ⟨elseBranch, inner, readsElse, Outcome.ok_gives.mpr ⟨rfl, rfl⟩⟩

theorem reads_unary :
    start.Reads .unary value last ↔
      (start.Reads .primary value last ∧ start.Lacks UnaryOp.ofToken?) ∨
        ∃ op after, start.Takes UnaryOp.ofToken? op after ∧
          ∃ room operand inner, (after.deeper room).Reads .unary operand inner ∧
            value = .unary op operand ∧ last = inner.leave := by
  change (unary start).Gives value last ↔ _
  rw [unary]
  rcases start.take?_cases UnaryOp.ofToken? with ⟨found, lacks⟩ | ⟨op, after, takes, found⟩
  · rw [found]
    constructor
    · intro reads
      exact .inl ⟨reads, lacks⟩
    · rintro (⟨reads, _⟩ | ⟨_, _, takes, _⟩)
      · exact reads
      · exact absurd takes lacks.not_takes
  · rw [found]
    constructor
    · intro gives
      obtain ⟨room, inner, inside, rfl⟩ := nested_gives.mp gives
      obtain ⟨operand, reads, rfl⟩ := Outcome.map_gives.mp (Outcome.within_gives.mp inside)
      exact .inr ⟨op, after, takes, room, operand, inner, reads, rfl, rfl⟩
    · rintro (⟨_, lacks⟩ | ⟨_, _, again, room, operand, inner, reads, rfl, rfl⟩)
      · exact absurd takes lacks.not_takes
      · obtain ⟨rfl, rfl⟩ := takes.unique again
        exact nested_gives.mpr ⟨room, inner,
          Outcome.within_gives.mpr (Outcome.map_gives.mpr ⟨operand, reads, rfl⟩), rfl⟩

theorem reads_primary :
    start.Reads .primary value last ↔
      start.Takes Expression.ofToken? value last ∨
        (start.Lacks Expression.ofToken? ∧
          ∃ after, start.Takes (TokenKind.exactly (.symbol .leftParen)) () after ∧
            ∃ room inner behind, (after.deeper room).Reads .assignment inner behind ∧
              ∃ next, behind.Takes (TokenKind.exactly (.symbol .rightParen)) () next ∧
                value = .grouping inner ∧ last = next.leave) := by
  change (primary start).Gives value last ↔ _
  rw [primary]
  -- A single token goes first, so a parenthesis is only looked for where there is none.
  rcases start.take?_cases Expression.ofToken? with ⟨found, lacks⟩ | ⟨given, after, takes, found⟩
  · rw [found]
    rcases start.take?_cases (TokenKind.exactly (.symbol .leftParen)) with
      ⟨found, noParen⟩ | ⟨⟨⟩, after, takes, found⟩
    · rw [found]
      constructor
      · intro gives
        exact absurd gives Outcome.error_gives
      · rintro (takes | ⟨_, _, takes, _⟩)
        · exact absurd takes lacks.not_takes
        · exact absurd takes noParen.not_takes
    · rw [found]
      constructor
      · intro gives
        obtain ⟨room, next, inside, rfl⟩ := nested_gives.mp gives
        obtain ⟨inner, behind, reads, inside⟩ := Outcome.andThen_gives.mp inside
        obtain ⟨⟨⟩, next, closed, inside⟩ := Outcome.andThen_gives.mp inside
        obtain ⟨rfl, rfl⟩ := Outcome.ok_gives.mp inside
        exact .inr ⟨lacks, after, takes, room, inner, behind, reads, _, symbol_gives.mp closed, rfl,
          rfl⟩
      · rintro (takes | ⟨_, _, again, room, inner, behind, reads, next, closed, rfl, rfl⟩)
        · exact absurd takes lacks.not_takes
        · obtain ⟨-, rfl⟩ := takes.unique again
          refine nested_gives.mpr ⟨room, next, ?_, rfl⟩
          refine Outcome.andThen_gives.mpr ⟨inner, behind, reads, ?_⟩
          exact Outcome.andThen_gives.mpr
            ⟨(), next, symbol_gives.mpr closed, Outcome.ok_gives.mpr ⟨rfl, rfl⟩⟩
  · rw [found, Outcome.ok_gives]
    constructor
    · rintro ⟨rfl, rfl⟩
      exact .inl takes
    · rintro (again | ⟨lacks, _⟩)
      · exact takes.unique again
      · exact absurd takes lacks.not_takes

end Cursor

end BlockScript
