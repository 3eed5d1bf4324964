import BlockScript.Proofs.Grammar.Programs

/-!
# How high expressions grow

The height of an expression is how deep its evaluation recurses.  The levels that a chain opens are
given back behind it, although the chain may become the first operand of an operator that binds less
tightly.  So the height is not bounded by the levels that are open at once but by a square of them,
and there are programs that reach that bound.
-/

namespace BlockScript

namespace Expression

/-- How deep the evaluation of an expression recurses. -/
def height : Expression → Nat
  | .assign _ value => height value + 1
  | .unary _ operand => height operand + 1
  | .binary _ left right => max (height left) (height right) + 1
  | .conditional condition thenBranch elseBranch =>
    max (height condition) (max (height thenBranch) (height elseBranch)) + 1
  | .grouping inner => height inner + 1
  | _ => 1

/-- The operands of an expression. -/
def children : Expression → List Expression
  | .assign _ value => [value]
  | .unary _ operand => [operand]
  | .binary _ left right => [left, right]
  | .conditional condition thenBranch elseBranch => [condition, thenBranch, elseBranch]
  | .grouping inner => [inner]
  | _ => []

/-- An expression is another one or a part of it. -/
inductive PartOf (part : Expression) : Expression → Prop where
  | self : PartOf part part
  | child {child whole} : child ∈ whole.children → PartOf part child → PartOf part whole

/-- A statement has an expression at one of its places for expressions. -/
inductive StandsIn (value : Expression) : Statement → Prop where
  | expression : StandsIn value (.expression value)
  | initializer {name} : StandsIn value (.declare name value)
  | block {body statement} :
    statement ∈ body → StandsIn value statement → StandsIn value (.block body)
  | branchTest {thenBranch elseBranch} : StandsIn value (.branch value thenBranch elseBranch)
  | thenBranch {test thenBranch elseBranch} :
    StandsIn value thenBranch → StandsIn value (.branch test thenBranch elseBranch)
  | elseBranch {test thenBranch elseBranch} :
    StandsIn value elseBranch → StandsIn value (.branch test thenBranch (some elseBranch))
  | loopTest {body} : StandsIn value (.loop value body)
  | loopBody {test body} : StandsIn value body → StandsIn value (.loop test body)
  | x {y z name} : StandsIn value (.setBlock value y z name)
  | y {x z name} : StandsIn value (.setBlock x value z name)
  | z {x y name} : StandsIn value (.setBlock x y value name)
  | name {x y z} : StandsIn value (.setBlock x y z value)

/-- An expression occurs anywhere in a program. -/
def Occurs (value : Expression) (program : Program) : Prop :=
  ∃ statement ∈ program.statements, ∃ whole : Expression,
    whole.StandsIn statement ∧ value.PartOf whole

/-- An expression occurs in a program that is read from some tokens. -/
def Accepted (value : Expression) : Prop :=
  ∃ tokens program, Program.ofTokens tokens = .ok program ∧ value.Occurs program

theorem height_pos (value : Expression) : 0 < value.height := by
  cases value <;> simp [height]

theorem nesting_child {child whole : Expression} (member : child ∈ whole.children) :
    child.nesting ≤ whole.nesting := by
  cases whole <;>
    simp only [children, List.mem_cons, List.not_mem_nil, or_false] at member <;>
    simp only [nesting]
  case binary op left right => rcases member with rfl | rfl <;> omega
  case conditional condition thenBranch elseBranch =>
    rcases member with rfl | rfl | rfl <;> omega
  all_goals
    subst member
    exact Nat.le_succ _

theorem links_le_nesting (level : Precedence) (value : Expression) :
    value.links level ≤ value.nesting := by
  cases value with
  | binary op left right =>
    simp only [links, nesting]
    split
    case isTrue same =>
      subst same
      omega
    case isFalse => omega
  | _ => exact Nat.zero_le _

end Expression

/-! ### The highest expressions -/

/-- The greatest height of an expression that opens a number of levels. -/
def peak : Nat → Nat
  | 0 => 1
  | levels + 1 => peak levels + 6 * levels + 8

theorem peak_eq (levels : Nat) : peak levels = (3 * levels + 5) * levels + 1 := by
  induction levels with
  | zero => rfl
  | succ levels before =>
    rw [peak, before]
    simp only [Nat.mul_add, Nat.add_mul]
    omega

theorem peak_mono {fewer more : Nat} (le : fewer ≤ more) : peak fewer ≤ peak more := by
  induction le with
  | refl => exact Nat.le_refl _
  | step _ before =>
    rw [peak]
    omega

/-- The greatest height of an operand that opens a number of levels. -/
def operandPeak : Nat → Nat
  | 0 => 1
  | levels + 1 => peak levels + 1

/-- The greatest height of an expression of a rank that opens a number of levels: each level of
operators can grow by all of them. -/
def Rank.peak : Rank → Nat → Nat
  | .assignment, levels | .conditional, levels => BlockScript.peak levels
  | .operators level, levels => operandPeak levels + (level.tighter.length + 1) * levels
  | .unary, levels | .primary, levels => operandPeak levels

theorem operandPeak_mono {fewer more : Nat} (le : fewer ≤ more) :
    operandPeak fewer ≤ operandPeak more := by
  cases fewer with
  | zero => cases more <;> simp [operandPeak]
  | succ fewer =>
    cases more with
    | zero => exact absurd le (Nat.not_succ_le_zero _)
    | succ more =>
      have := peak_mono (Nat.le_of_succ_le_succ le)
      simp only [operandPeak]
      omega

theorem operandPeak_le (levels : Nat) : operandPeak levels ≤ peak levels := by
  cases levels with
  | zero => exact Nat.le_refl _
  | succ levels =>
    simp only [operandPeak, peak]
    omega

theorem Rank.peak_mono (rank : Rank) {fewer more : Nat} (le : fewer ≤ more) :
    rank.peak fewer ≤ rank.peak more := by
  cases rank with
  | assignment | conditional => exact BlockScript.peak_mono le
  | unary | primary => exact operandPeak_mono le
  | operators level =>
    exact Nat.add_le_add (operandPeak_mono le) (Nat.mul_le_mul_left _ le)

theorem peak_operators (level : Precedence) (levels : Nat) :
    (Rank.operators level).peak levels = level.operand.peak levels + levels := by
  cases level <;> simp only [Rank.peak, Precedence.operand, Precedence.tighter, List.length] <;> omega

theorem peak_succ (levels : Nat) :
    peak (levels + 1) = (Rank.operators .disjunction).peak (levels + 1) + 1 := by
  simp only [peak, Rank.peak, operandPeak, Precedence.tighter, List.length]
  omega

theorem Rank.peak_le (rank : Rank) (levels : Nat) :
    rank.peak levels ≤ BlockScript.peak levels := by
  cases rank with
  | assignment | conditional => exact Nat.le_refl _
  | unary | primary => exact operandPeak_le levels
  | operators level =>
    have few : level.tighter.length + 1 ≤ 6 := by cases level <;> decide
    have grows := Nat.mul_le_mul_right levels few
    cases levels with
    | zero => exact Nat.le_refl _
    | succ levels =>
      simp only [Rank.peak, operandPeak, BlockScript.peak] at grows ⊢
      omega

/-! ### No expression is higher -/

/-- The condition opens all levels at most and the branches one less, so there is a level. -/
theorem height_conditional_le {condition thenBranch elseBranch : Expression}
    (first : condition.height ≤ (Rank.operators .disjunction).peak condition.nesting)
    (second : thenBranch.height ≤ peak thenBranch.nesting)
    (third : elseBranch.height ≤ peak elseBranch.nesting) :
    (Expression.conditional condition thenBranch elseBranch).height ≤
      peak (Expression.conditional condition thenBranch elseBranch).nesting := by
  obtain ⟨levels, nesting⟩ : ∃ levels,
      (Expression.conditional condition thenBranch elseBranch).nesting = levels + 1 := by
    simp only [Expression.nesting]
    exact ⟨max (condition.nesting - 1) (max thenBranch.nesting elseBranch.nesting), by omega⟩
  have parts := nesting
  simp only [Expression.nesting] at parts
  have conditionHeight := Nat.le_trans first
    ((Rank.operators .disjunction).peak_mono (show condition.nesting ≤ levels + 1 by omega))
  have thenHeight := Nat.le_trans second (peak_mono (show thenBranch.nesting ≤ levels by omega))
  have elseHeight := Nat.le_trans third (peak_mono (show elseBranch.nesting ≤ levels by omega))
  -- One step of the peaks is more than what the operators of the condition can add.
  have step := peak_succ levels
  have grows : peak (levels + 1) = peak levels + 6 * levels + 8 := rfl
  rw [nesting]
  simp only [Expression.height] at conditionHeight step ⊢
  omega

/-- Of the height of a chain, every operator accounts for one, and the rest is that of an operand. -/
theorem height_binary_le {op : BinaryOp} {left right : Expression}
    (first : left.height ≤ op.precedence.operand.peak left.nesting + left.links op.precedence)
    (second : right.height ≤ op.precedence.operand.peak right.nesting) :
    (Expression.binary op left right).height ≤
      op.precedence.operand.peak (Expression.binary op left right).nesting +
        (Expression.binary op left right).links op.precedence := by
  have leftHeight := Nat.le_trans first (Nat.add_le_add_right (op.precedence.operand.peak_mono
    (@Expression.nesting_child left (.binary op left right) List.mem_cons_self)) _)
  have rightHeight := Nat.le_trans second (op.precedence.operand.peak_mono
    (@Expression.nesting_child right (.binary op left right)
      (List.mem_cons_of_mem _ List.mem_cons_self)))
  have links : (Expression.binary op left right).links op.precedence =
      left.links op.precedence + 1 := if_pos rfl
  rw [links]
  simp only [Expression.height]
  omega

/-- The induction follows a chain operator by operator, so a chain is also measured by its
operators. -/
theorem Phrase.height_le {rank source value} (phrase : Phrase rank source value) :
    value.height ≤ rank.peak value.nesting ∧
      ∀ level, rank = .operators level →
        value.height ≤ level.operand.peak value.nesting + value.links level := by
  induction phrase with
  | assign _ inner =>
    have height := inner.1
    refine ⟨?_, by rintro _ ⟨⟩⟩
    simp only [Expression.height, Expression.nesting, Rank.peak, peak] at height ⊢
    omega
  | ofConditional _ inner => exact ⟨inner.1, by rintro _ ⟨⟩⟩
  | conditional _ _ _ first second third =>
    exact ⟨height_conditional_le first.1 second.1 third.1, by rintro _ ⟨⟩⟩
  | ofOperators _ inner => exact ⟨Nat.le_trans inner.1 (Rank.peak_le _ _), by rintro _ ⟨⟩⟩
  | @binary op level _ _ left right same _ _ first second =>
    subst same
    have height := height_binary_le (first.2 _ rfl) second.1
    constructor
    · -- As many operators as levels at most: that is what a level of operators can add.
      have opened := (Expression.binary op left right).links_le_nesting op.precedence
      rw [peak_operators]
      omega
    · rintro _ ⟨⟩
      exact height
  | @ofOperand level _ value _ inner =>
    constructor
    · rw [peak_operators]
      exact Nat.le_trans inner.1 (Nat.le_add_right _ _)
    · rintro _ ⟨⟩
      exact Nat.le_trans inner.1 (Nat.le_add_right _ _)
  | unary _ inner =>
    exact ⟨Nat.succ_le_succ (Nat.le_trans inner.1 (operandPeak_le _)), by rintro _ ⟨⟩⟩
  | ofPrimary _ inner => exact ⟨inner.1, by rintro _ ⟨⟩⟩
  | @atom _ value token =>
    refine ⟨?_, by rintro _ ⟨⟩⟩
    cases value <;> first | exact Nat.le_refl _ | cases token
  | grouping _ inner => exact ⟨Nat.succ_le_succ inner.1, by rintro _ ⟨⟩⟩

theorem Phrase.child {rank source} {whole child : Expression} (phrase : Phrase rank source whole)
    (member : child ∈ whole.children) : ∃ rank source, Phrase rank source child := by
  induction phrase with
  | ofConditional _ inner | ofOperators _ inner | ofOperand _ inner | ofPrimary _ inner =>
    exact inner member
  | assign phrase _ | unary phrase _ | grouping phrase _ =>
    obtain rfl := List.mem_singleton.mp member
    exact ⟨_, _, phrase⟩
  | conditional condition thenBranch elseBranch _ _ _ =>
    simp only [Expression.children, List.mem_cons, List.not_mem_nil, or_false] at member
    rcases member with rfl | rfl | rfl
    · exact ⟨_, _, condition⟩
    · exact ⟨_, _, thenBranch⟩
    · exact ⟨_, _, elseBranch⟩
  | binary _ left right _ _ =>
    simp only [Expression.children, List.mem_cons, List.not_mem_nil, or_false] at member
    rcases member with rfl | rfl
    · exact ⟨_, _, left⟩
    · exact ⟨_, _, right⟩
  | @atom _ value token =>
    cases value <;> first | exact absurd member List.not_mem_nil | cases token

/-- A part of a phrase is a phrase that opens no more levels. -/
theorem Phrase.part {whole part : Expression} (inside : part.PartOf whole) :
    ∀ {rank source}, Phrase rank source whole →
      part.nesting ≤ whole.nesting ∧ ∃ rank source, Phrase rank source part := by
  induction inside with
  | self =>
    intro rank source phrase
    exact ⟨Nat.le_refl _, rank, source, phrase⟩
  | child member _ inner =>
    intro rank source phrase
    obtain ⟨_, _, phrase⟩ := phrase.child member
    obtain ⟨le, part⟩ := inner phrase
    exact ⟨Nat.le_trans le (Expression.nesting_child member), part⟩

theorem Phrase.Within.mono {room more source value} (within : Phrase.Within room source value)
    (le : room ≤ more) : Phrase.Within more source value :=
  ⟨within.1, Nat.le_trans within.2 le⟩

theorem Phrase.ofToken {kind value} (token : value.token? = some kind) (rank : Rank) :
    Phrase rank [kind] value :=
  Rank.from_tightest (motive := fun rank => Phrase rank [kind] value) (.atom token) .ofPrimary
    (fun _ => .ofOperand) .ofOperators .ofConditional rank

theorem Declaration.within {room source statement value}
    (declaration : Declaration room source statement)
    (stands : Expression.StandsIn value statement) : ∃ source, Phrase.Within room source value := by
  cases declaration with
  | plain =>
    cases stands
    exact ⟨_, .ofToken rfl _, Nat.zero_le _⟩
  | initialized within =>
    cases stands
    exact ⟨_, within⟩

theorem LoopStart.within {room source initializer statement value}
    (clause : LoopStart room source initializer) (member : statement ∈ initializer)
    (stands : Expression.StandsIn value statement) : ∃ source, Phrase.Within room source value := by
  cases clause with
  | absent => cases member
  | declaration declared =>
    cases member
    exact declared.within stands
  | expression within =>
    cases member
    cases stands
    exact ⟨_, within⟩

theorem LoopTest.within {room source value} (clause : LoopTest room source value) :
    ∃ source, Phrase.Within room source value := by
  cases clause with
  | absent => exact ⟨_, .ofToken rfl _, Nat.zero_le _⟩
  | expression within => exact ⟨_, within⟩

theorem LoopUpdate.within {room source update statement value}
    (clause : LoopUpdate room source update) (member : statement ∈ update)
    (stands : Expression.StandsIn value statement) : ∃ source, Phrase.Within room source value := by
  cases clause with
  | absent => cases member
  | expression within =>
    cases member
    cases stands
    exact ⟨_, within⟩

/-- A phrase that has room on a level has room on the level around it. -/
theorem exists_within_succ {room value} (inside : ∃ source, Phrase.Within room source value) :
    ∃ source, Phrase.Within (room + 1) source value := by
  obtain ⟨source, within⟩ := inside
  exact ⟨source, within.mono (Nat.le_succ _)⟩

/-- The tree of a counted loop is that of a conditional loop in a block, so the parts of the loop are
found two blocks deep. -/
theorem exists_within_of_countedLoop {room value first second third initializer test update body}
    (loopStart : LoopStart room first initializer) (loopTest : LoopTest room second test)
    (loopUpdate : LoopUpdate room third update)
    (inner : value.StandsIn body → ∃ source, Phrase.Within room source value)
    (stands : value.StandsIn
      (.block (initializer.toList ++ [.loop test (.block (body :: update.toList))]))) :
    ∃ source, Phrase.Within room source value := by
  cases stands with
  | block member stands =>
    rcases List.mem_append.mp member with member | member
    · exact loopStart.within (Option.mem_toList.mp member) stands
    · obtain rfl := List.mem_singleton.mp member
      cases stands with
      | loopTest => exact loopTest.within
      | loopBody stands =>
        cases stands with
        | block member stands =>
          rcases List.mem_cons.mp member with rfl | member
          · exact inner stands
          · exact loopUpdate.within (Option.mem_toList.mp member) stands

/-- Every expression of a sentence is a phrase, also where the reader puts one in. -/
theorem Sentence.within {form room source statement value}
    (sentence : Sentence form room source statement)
    (stands : Expression.StandsIn value statement) : ∃ source, Phrase.Within room source value := by
  induction sentence with
  | declaration declared => exact declared.within stands
  | ofStatement _ inner => exact inner stands
  | expression within =>
    cases stands
    exact ⟨_, within⟩
  | setBlock withinX withinY withinZ withinName =>
    cases stands with
    | x => exact ⟨_, withinX⟩
    | y => exact ⟨_, withinY⟩
    | z => exact ⟨_, withinZ⟩
    | name => exact ⟨_, withinName⟩
  | block _ inner =>
    cases stands with
    | block member stands =>
      obtain ⟨item, memberItem, rfl⟩ := List.mem_map.mp member
      exact exists_within_succ (inner item memberItem stands)
  | branch within _ inner =>
    cases stands with
    | branchTest => exact exists_within_succ ⟨_, within⟩
    | thenBranch stands => exact exists_within_succ (inner stands)
  | branchElse within _ _ thenBranch elseBranch =>
    cases stands with
    | branchTest => exact exists_within_succ ⟨_, within⟩
    | thenBranch stands => exact exists_within_succ (thenBranch stands)
    | elseBranch stands => exact exists_within_succ (elseBranch stands)
  | loop within _ inner =>
    cases stands with
    | loopTest => exact exists_within_succ ⟨_, within⟩
    | loopBody stands => exact exists_within_succ (inner stands)
  | countedLoop loopStart loopTest loopUpdate _ inner =>
    exact exists_within_succ
      (exists_within_of_countedLoop loopStart loopTest loopUpdate inner stands)

/-- Whatever occurs in an accepted program opens no more levels than are allowed, and is no higher
than the levels that it opens make possible. -/
theorem Expression.Accepted.height_le {value : Expression} (accepted : value.Accepted) :
    value.nesting ≤ maxNesting ∧ value.height ≤ peak value.nesting := by
  obtain ⟨tokens, program, read, statement, member, whole, stands, inside⟩ := accepted
  have levels : (Cursor.ofTokens tokens).depth + maxNesting = maxNesting := Nat.zero_add _
  have noEnd := Cursor.noEnd_ofTokens tokens
  obtain ⟨items, sentences, statements, _⟩ := Cursor.items_of_program read levels noEnd
  rw [statements, List.reverse_nil, List.nil_append] at member
  obtain ⟨item, memberItem, rfl⟩ := List.mem_map.mp member
  obtain ⟨source, phrase, room⟩ := (sentences item memberItem).within stands
  obtain ⟨le, rank, _, part⟩ := phrase.part inside
  exact ⟨Nat.le_trans le room, Nat.le_trans part.height_le.1 (rank.peak_le _)⟩

/-! ### Some expression is as high -/

/-- The operator that stands for a level in the highest chains. -/
def Precedence.sample : Precedence → BinaryOp
  | .disjunction => .or
  | .conjunction => .and
  | .equality => .eq
  | .comparison => .lt
  | .sum => .add
  | .product => .mul

theorem Precedence.precedence_sample (level : Precedence) : level.sample.precedence = level := by
  cases level <;> rfl

/-- A chain of operators of one level behind a first operand. -/
def Expression.tower (level : Precedence) (first : Expression) : Nat → Expression
  | 0 => first
  | count + 1 => .binary level.sample (tower level first count) .nil

/-- The row of tokens of such a chain behind that of its first operand. -/
def towerRow (level : Precedence) (source : List TokenKind) : Nat → List TokenKind
  | 0 => source
  | count + 1 => towerRow level source count ++ [.symbol level.sample.mark, .keyword .nil]

section Tower

variable {level : Precedence} {first : Expression}

theorem Phrase.tower {source} (phrase : Phrase level.operand source first) (count : Nat) :
    Phrase (.operators level) (towerRow level source count) (first.tower level count) := by
  induction count with
  | zero => exact .ofOperand phrase
  | succ count inner => exact .binary level.precedence_sample inner (.ofToken rfl _)

theorem links_tower (single : first.links level = 0) (count : Nat) :
    (first.tower level count).links level = count := by
  induction count with
  | zero => exact single
  | succ count inner =>
    rw [Expression.tower, Expression.links, if_pos level.precedence_sample, inner]

theorem nesting_tower (single : first.links level = 0) (count : Nat) :
    (first.tower level count).nesting = max first.nesting count := by
  induction count with
  | zero => exact (Nat.max_zero _).symm
  | succ count inner =>
    rw [Expression.tower, Expression.nesting, inner, level.precedence_sample,
      links_tower single]
    simp only [Expression.nesting]
    omega

theorem height_tower (count : Nat) : (first.tower level count).height = first.height + count := by
  have positive := first.height_pos
  induction count with
  | zero => rfl
  | succ count inner =>
    rw [Expression.tower, Expression.height, inner]
    simp only [Expression.height]
    omega

end Tower

/-- There are expressions of every rank that are as high as their levels make possible. -/
theorem Rank.peak_attained (levels : Nat) : ∀ rank : Rank, ∃ source value,
    Phrase rank source value ∧ value.nesting = levels ∧ value.height = rank.peak levels := by
  induction levels with
  | zero =>
    intro rank
    refine ⟨_, .nil, .ofToken rfl rank, rfl, ?_⟩
    cases rank <;> rfl
  | succ levels before =>
    refine Rank.from_tightest ?primary ?unary ?operators ?conditional ?assignment
    case primary =>
      obtain ⟨_, inner, phrase, nesting, height⟩ := before .assignment
      exact ⟨_, .grouping inner, .grouping phrase, congrArg (· + 1) nesting,
        congrArg (· + 1) height⟩
    case unary =>
      rintro ⟨_, value, phrase, nesting, height⟩
      exact ⟨_, value, .ofPrimary phrase, nesting, height⟩
    case operators =>
      -- Around an operand that opens all the levels stands a chain that opens all of them again.
      rintro level ⟨_, first, phrase, nesting, height⟩
      refine ⟨_, _, phrase.tower (levels + 1), ?_, ?_⟩
      · rw [nesting_tower phrase.links_operand, nesting, Nat.max_self]
      · rw [height_tower, height, peak_operators]
    case conditional =>
      rintro ⟨_, condition, phrase, nesting, height⟩
      refine ⟨_, .conditional condition .nil .nil,
        .conditional phrase (.ofToken rfl _) (.ofToken rfl _), ?_, ?_⟩
      · simp only [Expression.nesting]
        omega
      · have positive := condition.height_pos
        rw [Rank.peak, peak_succ, ← height]
        simp only [Expression.height]
        omega
    case assignment =>
      rintro ⟨_, value, phrase, nesting, height⟩
      exact ⟨_, value, .ofConditional phrase, nesting, height⟩

/-- A row of tokens without places in a text. -/
def tokensOf (row : List TokenKind) : List Token :=
  row.map fun kind => ⟨kind, "", .start⟩

/-- A phrase that opens no more levels than are allowed, and a semicolon behind it, are a program. -/
theorem Phrase.ofTokens_eq_ok {source value} (phrase : Phrase .assignment source value)
    (room : value.nesting ≤ maxNesting) :
    Program.ofTokens (tokensOf (source ++ [.symbol .semicolon])) = .ok ⟨[.expression value]⟩ := by
  have all (kind : TokenKind) (member : kind ∈ source) : decide (kind ≠ .eof) = true := by
    refine decide_eq_true ?_
    rintro rfl
    exact phrase.noEnd member
  have kinds : (Cursor.ofTokens (tokensOf (source ++ [.symbol .semicolon]))).kinds
      = source ++ [.symbol .semicolon] := by
    rw [Cursor.kinds_ofTokens, tokensOf, List.map_map]
    exact (congrArg _ (List.map_id _)).trans (List.takeWhile_append_of_pos all)
  have sentences : ∀ item ∈ [(source ++ [.symbol .semicolon], Statement.expression value)],
      Sentence .item maxNesting item.1 item.2 := by
    intro item member
    obtain rfl := List.mem_singleton.mp member
    exact .ofStatement (.expression ⟨phrase, room⟩)
  refine Cursor.program_of_items sentences [] ?_ (Nat.zero_add _)
  rw [kinds]
  exact (List.append_nil _).symm

/-- How high the expressions of accepted programs are that open a number of levels at most: a square
of that number bounds their height, some expression is as high, and so the limit on the levels is a
limit on the height just as long as there are five levels at most. -/
theorem greatest_height_of_accepted (levels : Nat) :
    (∀ value : Expression, value.Accepted → value.nesting ≤ levels →
      value.height ≤ (3 * min levels maxNesting + 5) * min levels maxNesting + 1) ∧
    (∃ value : Expression, value.Accepted ∧ value.nesting ≤ levels ∧
      value.height = (3 * min levels maxNesting + 5) * min levels maxNesting + 1) ∧
    ((∀ value : Expression, value.Accepted → value.nesting ≤ levels →
      value.height ≤ maxNesting + 1) ↔ levels ≤ 5) := by
  rw [← peak_eq]
  have bounded (value : Expression) (accepted : value.Accepted) (le : value.nesting ≤ levels) :
      value.height ≤ peak (min levels maxNesting) := by
    obtain ⟨room, height⟩ := accepted.height_le
    exact Nat.le_trans height (peak_mono (Nat.le_min.mpr ⟨le, room⟩))
  have attained : ∃ value : Expression, value.Accepted ∧ value.nesting ≤ levels ∧
      value.height = peak (min levels maxNesting) := by
    obtain ⟨_, value, phrase, nesting, height⟩ :=
      Rank.peak_attained (min levels maxNesting) .assignment
    have read := phrase.ofTokens_eq_ok (nesting ▸ Nat.min_le_right _ _)
    have occurs : value.Occurs ⟨[.expression value]⟩ :=
      ⟨_, List.mem_cons_self, value, .expression, .self⟩
    exact ⟨value, ⟨_, _, read, occurs⟩, nesting ▸ Nat.min_le_left _ _, height⟩
  refine ⟨bounded, attained, ?_, ?_⟩
  · -- With six levels the highest expression is already too high.
    intro low
    obtain ⟨value, accepted, le, height⟩ := attained
    have reached := low value accepted le
    rw [height] at reached
    by_cases few : levels ≤ 5
    · exact few
    · have six : peak 6 ≤ peak (min levels maxNesting) :=
        peak_mono (by simp only [maxNesting]; omega)
      exact absurd (Nat.le_trans six reached) (by decide)
  · intro few value accepted le
    have five : peak (min levels maxNesting) ≤ peak 5 :=
      peak_mono (Nat.le_trans (Nat.min_le_left _ _) few)
    exact Nat.le_trans (bounded value accepted le) (Nat.le_trans five (by decide))

/-- A product in front of as many plus signs as there are levels: the level of the product is given
back before the signs are counted, but the product stands below all of them. -/
theorem height_of_long_sum :
    ∃ program value, Program.ofTokens (tokensOf
        (towerRow .sum (towerRow .product [.keyword .nil] 1) maxNesting ++ [.symbol .semicolon]))
          = .ok program ∧
      Expression.Occurs value program ∧ maxNesting + 1 < value.height := by
  have first : Phrase Precedence.product.operand [.keyword .nil] .nil := .ofToken rfl _
  have product : Phrase Precedence.sum.operand _ _ := first.tower 1
  have sum : Phrase Precedence.comparison.operand _ _ := product.tower maxNesting
  have phrase : Phrase .assignment _ _ := .ofConditional (.ofOperators
    (.ofOperand (.ofOperand (.ofOperand (.ofOperand sum)))))
  have room : ((Expression.tower .product .nil 1).tower .sum maxNesting).nesting ≤ maxNesting := by
    rw [nesting_tower rfl, nesting_tower rfl]
    decide
  refine ⟨_, _, phrase.ofTokens_eq_ok room, ⟨_, List.mem_cons_self, _, .expression, .self⟩, ?_⟩
  rw [height_tower, height_tower]
  decide

end BlockScript
