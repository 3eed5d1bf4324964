import BlockScript.Proofs.Environment.Keepers

/-!
# Chains of scopes

A way to keep variables in a row of scopes, the outermost one first, each with the place of the one
around it.  Look-up walks along these links.  For a row that is made by operations the links are in
order (`linked_ofEnvironment`), so every walk ends, at the level at which the name is found
(`resolve?_ofEnvironment`), and what it finds is there.
-/

namespace BlockScript

/-- A scope with the place of the scope around it. -/
structure LinkedScope where
  contents : Scope
  parent : Option Nat

/-- Scopes in a row, the outermost one first. -/
structure Chain where
  scopes : List LinkedScope

namespace Chain

def empty : Chain := ⟨[⟨[], none⟩]⟩

/-- The place of the innermost scope. -/
def innermost? (chain : Chain) : Option Nat :=
  match chain.scopes.length with
  | 0 => none
  | last + 1 => some last

/-- Walks from a scope outward, to the first one that binds a name.  There is no answer if a scope is
missing, or if the walk takes more steps than allowed. -/
def walk (name : String) (chain : Chain) : (steps place : Nat) → Option (Option Nat)
  | 0, _ => none
  | steps + 1, place =>
    match chain.scopes[place]? with
    | none => none
    | some scope =>
      if scope.contents.binds name then some (some place)
      else
        match scope.parent with
        | none => some none
        | some parent => walk name chain steps parent

/-- The place of the scope in which a name is found.  A walk with more steps than there are scopes
would come to one of them twice, and never end. -/
def resolve? (name : String) (chain : Chain) : Option (Option Nat) :=
  chain.innermost?.bind (chain.walk name chain.scopes.length)

/-- Gives a name a value in the scope at a place. -/
def insert? (place : Nat) (name : String) (value : Value) (chain : Chain) : Option Chain :=
  chain.scopes[place]?.map fun scope =>
    ⟨chain.scopes.set place ⟨scope.contents.set name value, scope.parent⟩⟩

def perform : Operation → Chain → Option (Answer × Chain)
  | .enter, chain =>
    chain.innermost?.map fun place => (.done, ⟨chain.scopes ++ [⟨[], some place⟩]⟩)
  | .exit, chain =>
    some (.done, if 1 < chain.scopes.length then ⟨chain.scopes.dropLast⟩ else chain)
  | .define name value, chain =>
    (chain.innermost?.bind (chain.insert? · name value)).map (.done, ·)
  | .assign name value, chain =>
    match chain.resolve? name with
    | none => none
    | some none => some (.assigned (.error (.undefinedVariable name)), chain)
    | some (some place) => (chain.insert? place name value).map (.assigned (.ok ()), ·)
  | .get name, chain =>
    match chain.resolve? name with
    | none => none
    | some none => some (.found (.error (.undefinedVariable name)), chain)
    | some (some place) =>
      (chain.scopes[place]?.bind (·.contents.get? name)).map fun value =>
        (.found (.ok value), chain)
  | .binds name, chain => (chain.resolve? name).map fun found => (.bound found.isSome, chain)

def keeper : Keeper Chain :=
  ⟨perform, (·.scopes.length)⟩

/-- The place before a place. -/
def before? : Nat → Option Nat
  | 0 => none
  | place + 1 => some place

/-- The outermost scope has none around it, and any other one has the one before it. -/
def Linked (chain : Chain) : Prop :=
  ∀ place scope, chain.scopes[place]? = some scope → scope.parent = before? place

/-! ### Environments as chains -/

/-- Scopes in a row, made of a list with the innermost one first. -/
def link : List Scope → List LinkedScope
  | [] => []
  | scope :: outer => link outer ++ [⟨scope, before? outer.length⟩]

def ofEnvironment (environment : Environment) : Chain :=
  ⟨link environment.scopes⟩

variable {name : String} {scopes : List Scope}

@[simp]
theorem length_link (scopes : List Scope) : (link scopes).length = scopes.length := by
  induction scopes with
  | nil => rfl
  | cons scope outer ih => simp [link, ih]

/-- The innermost of some scopes stands behind those around it, whatever stands further inside. -/
theorem getElem?_link_cons (scope : Scope) (outer : List Scope) (inner : List LinkedScope) :
    (link (scope :: outer) ++ inner)[outer.length]? = some ⟨scope, before? outer.length⟩ := by
  simp [link]

theorem linked_ofEnvironment (environment : Environment) : (ofEnvironment environment).Linked := by
  unfold Linked ofEnvironment
  generalize environment.scopes = scopes
  induction scopes with
  | nil => simp [link]
  | cons scope outer ih =>
    intro place linked here
    have bounded := (List.getElem?_eq_some_iff.mp here).1
    simp only [length_link, List.length_cons] at bounded
    by_cases last : place = outer.length
    · subst last
      rw [← List.append_nil (link _), getElem?_link_cons] at here
      rw [← Option.some.inj here]
    · have before : place < (link outer).length := by
        rw [length_link]
        omega
      rw [link, List.getElem?_append_left before] at here
      exact ih place linked here

theorem innermost?_ofEnvironment (environment : Environment) :
    (ofEnvironment environment).innermost? = some environment.enclosing.length := by
  simp [innermost?, ofEnvironment, Environment.scopes]

/-! ### Look-up -/

theorem walk_succ {chain : Chain} {place : Nat} {scope : LinkedScope}
    (here : chain.scopes[place]? = some scope) (steps : Nat) :
    chain.walk name (steps + 1) place =
      if scope.contents.binds name then some (some place)
      else scope.parent.elim (some none) (chain.walk name steps) := by
  simp only [walk, here]
  cases scope.parent <;> rfl

/-- A walk from the innermost of some scopes ends where the name is found in them, whatever stands
further inside. -/
theorem walk_link (name : String) (scope : Scope) (outer : List Scope) (inner : List LinkedScope)
    (spare : Nat) :
    walk name ⟨link (scope :: outer) ++ inner⟩ (spare + outer.length + 1) outer.length =
      some (Environment.levelIn? name (scope :: outer)) := by
  induction outer generalizing scope inner with
  | nil =>
    rw [walk_succ (getElem?_link_cons scope [] inner), Environment.levelIn?]
    cases scope.binds name <;> rfl
  | cons next outer ih =>
    rw [walk_succ (getElem?_link_cons scope (next :: outer) inner), Environment.levelIn?]
    cases scope.binds name with
    | true => rfl
    | false =>
      -- For the scopes further out, the scope that the walk comes from is one further inside.
      have onward := ih next (⟨scope, before? (outer.length + 1)⟩ :: inner)
      rw [List.append_cons] at onward
      exact onward

theorem resolve?_ofEnvironment (name : String) (environment : Environment) :
    (ofEnvironment environment).resolve? name = some (environment.level? name) := by
  have walked := walk_link name environment.innermost environment.enclosing [] 0
  rw [List.append_nil, Nat.zero_add] at walked
  rw [resolve?, innermost?_ofEnvironment, Option.bind_some, ofEnvironment, length_link]
  exact walked

/-- What a name is found with is there, and an assignment gives it the new value there. -/
theorem link_reassign (value : Value) {level : Nat}
    (found : Environment.levelIn? name scopes = some level) :
    ∃ scope parent old changed, (link scopes)[level]? = some ⟨scope, parent⟩ ∧
      scope.get? name = some old ∧ Environment.lookup name scopes = some old ∧
      Environment.reassign name value scopes = some changed ∧
      (link scopes).set level ⟨scope.set name value, parent⟩ = link changed := by
  induction scopes with
  | nil => cases found
  | cons scope outer ih =>
    cases bound : scope.binds name with
    | true =>
      obtain ⟨old, value_eq⟩ := Option.isSome_iff_exists.mp bound
      simp only [Environment.levelIn?, bound, if_true, Option.some.injEq] at found
      subst found
      refine ⟨scope, before? outer.length, old, scope.set name value :: outer, ?_, value_eq, ?_, ?_,
        ?_⟩
      · simpa using getElem?_link_cons scope outer []
      · simp [Environment.lookup, value_eq]
      · simp [Environment.reassign, Scope.update?_eq, bound]
      · simp [link]
    | false =>
      simp only [Environment.levelIn?, bound, Bool.false_eq_true, if_false] at found
      -- The chain starts with that of the outer scopes, so what is found there keeps its place.
      have further : level < (link outer).length := by
        rw [length_link]
        exact Environment.levelIn?_lt found
      obtain ⟨holder, parent, old, changed, here, value_eq, looked_up, reassigned, set_eq⟩ := ih found
      have same_length : changed.length = outer.length := by
        simpa using congrArg List.length (Environment.binds_reassign reassigned)
      have unbound : scope.get? name = none := by simpa [Scope.binds] using bound
      refine ⟨holder, parent, old, scope :: changed, ?_, value_eq, ?_, ?_, ?_⟩
      · rw [link, List.getElem?_append_left further, here]
      · simp [Environment.lookup, unbound, looked_up]
      · simp [Environment.reassign, Scope.update?_eq, bound, reassigned]
      · rw [link, List.set_append_left _ _ further, set_eq, link, same_length]

/-! ### Operations -/

/-- Whatever is performed on an environment is performed on its chain in the same way. -/
theorem perform_ofEnvironment (operation : Operation) (environment : Environment) :
    (ofEnvironment environment).perform operation =
      some ((environment.perform operation).1,
        ofEnvironment (environment.perform operation).2) := by
  cases operation with
  | enter =>
    rw [perform, innermost?_ofEnvironment]
    rfl
  | exit =>
    obtain ⟨innermost, _ | ⟨scope, enclosing⟩⟩ := environment
    · rfl
    · simp [perform, Environment.perform, ofEnvironment, Environment.exit, Environment.scopes, link]
  | define name value =>
    obtain ⟨innermost, enclosing⟩ := environment
    rw [perform, innermost?_ofEnvironment]
    simp [insert?, ofEnvironment, Environment.scopes, link, Environment.perform, Environment.define]
  | assign name value =>
    have changes := Environment.scopes_assign name value environment
    simp only [perform, resolve?_ofEnvironment, Environment.perform, Evaluation.assign]
    cases found : environment.level? name with
    | none =>
      rw [Environment.reassign_eq_none_iff.mpr found, Option.map_eq_none_iff] at changes
      rw [changes]
    | some level =>
      obtain ⟨scope, parent, -, changed, here, -, -, reassigned, set_eq⟩ :=
        link_reassign value found
      rw [reassigned] at changes
      obtain ⟨after, assigned, rfl⟩ := Option.map_eq_some_iff.mp changes
      simp only [assigned, insert?, ofEnvironment, here, Option.map_some, set_eq]
  | get name =>
    simp only [perform, resolve?_ofEnvironment, Environment.perform, Evaluation.get]
    cases found : environment.level? name with
    | none =>
      have absent : (environment.get? name).isSome = (environment.level? name).isSome :=
        (Environment.isSome_levelIn? name environment.scopes).symm
      rw [found, Option.isSome_none, Option.isSome_eq_false_iff, Option.isNone_iff_eq_none] at absent
      rw [absent]
    | some level =>
      -- Reading is assigning, with the change left out.
      obtain ⟨scope, parent, old, -, here, there, looked_up, -⟩ := link_reassign .nil found
      have visible : environment.get? name = some old := looked_up
      simp only [visible, ofEnvironment, here, Option.bind_some, there, Option.map_some]
  | binds name =>
    simp only [perform, resolve?_ofEnvironment, Environment.perform, Option.map_some]
    rw [Environment.level?, Environment.isSome_levelIn?]
    rfl

theorem run_ofEnvironment {operations : List Operation} {environment last : Environment}
    {answers : List (Answer × Nat)}
    (performed : Environment.keeper.run operations environment = some (answers, last)) :
    keeper.run operations (ofEnvironment environment) = some (answers, ofEnvironment last) := by
  refine Keeper.run_image (fun environment => length_link environment.scopes) ?_ performed
  intro operation environment answer next one
  have image := perform_ofEnvironment operation environment
  rwa [Option.some.inj one] at image

end Chain

end BlockScript
