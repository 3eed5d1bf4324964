import BlockScript.Proofs.Environment.Chain

/-!
# Between entering a scope and leaving it

Whatever is done between entering a scope and leaving it again, a binding further out keeps its
value unless a name is assigned to that is found there (`KeepsOrAssigns.closed`).  Together with the
images of environments this says what an environment is: a stack of maps
(`environment_is_stack_of_maps`).
-/

namespace BlockScript

/-- Operations that leave every scope that they enter, and no other one. -/
inductive Balanced : List Operation → Prop where
  | nil : Balanced []
  | plain {operation rest} : operation ≠ .enter → operation ≠ .exit → Balanced rest →
      Balanced (operation :: rest)
  | scope {inner rest} : Balanced inner → Balanced rest →
      Balanced (.enter :: inner ++ .exit :: rest)

namespace Environment

variable {environment : Environment} {operations : List Operation} {level : Nat} {name : String}

/-! ### One operation -/

theorem perform_assign_cases (name : String) (value : Value) (environment : Environment) :
    (∃ changed, environment.assign? name value = some changed ∧
      environment.perform (.assign name value) = (.assigned (.ok ()), changed)) ∨
    environment.perform (.assign name value) =
      (.assigned (.error (.undefinedVariable name)), environment) := by
  simp only [perform, Evaluation.assign]
  cases environment.assign? name value with
  | some changed => exact .inl ⟨changed, rfl, rfl⟩
  | none => exact .inr rfl

theorem perform_get (name : String) (environment : Environment) :
    (environment.perform (.get name)).2 = environment := by
  simp only [perform, Evaluation.get]
  cases environment.get? name <;> rfl

/-- Behind some operations a binding has the value that it had before, or the one that has been
assigned to it where its name was found at its level. -/
def KeepsOrAssigns (environment : Environment) (operations : List Operation) (level : Nat)
    (name : String) : Prop :=
  (environment.behind operations).valueAt? level name = environment.valueAt? level name ∨
  ∃ before value rest, operations = before ++ .assign name value :: rest ∧
    (environment.behind before).level? name = some level ∧
      (environment.behind operations).valueAt? level name = some value

theorem KeepsOrAssigns.append {more : List Operation}
    (first : environment.KeepsOrAssigns operations level name)
    (second : (environment.behind operations).KeepsOrAssigns more level name) :
    environment.KeepsOrAssigns (operations ++ more) level name := by
  unfold KeepsOrAssigns at *
  rw [behind_append]
  -- The last operations that assigned to the binding decide.
  rcases second with kept | ⟨before, value, rest, rfl, found, now⟩
  · rw [kept]
    rcases first with kept | ⟨before, value, rest, rfl, found, now⟩
    · exact .inl kept
    · exact .inr ⟨before, value, rest ++ more, by simp, found, now⟩
  · refine .inr ⟨operations ++ before, value, rest, by simp, ?_, now⟩
    rwa [behind_append]

/-- No operation changes anything but the innermost scope, except for an assignment. -/
theorem keepsOrAssigns_perform (operation : Operation) (outside : level + 1 < environment.depth)
    (name : String) : environment.KeepsOrAssigns [operation] level name := by
  cases operation with
  | enter => exact .inl (valueAt?_enter (Nat.lt_of_succ_lt outside) name)
  | exit => exact .inl (valueAt?_exit outside name)
  | define declared value => exact .inl (valueAt?_define outside declared value name)
  | get other => exact .inl (congrArg _ (perform_get other environment))
  | binds other => exact .inl rfl
  | assign other value =>
    -- Only an assignment reaches beyond the innermost scope.
    obtain ⟨changed, assigned, performed⟩ | performed :=
      perform_assign_cases other value environment
    · have behind_eq : environment.behind [.assign other value] = changed :=
        congrArg Prod.snd performed
      have value_eq := valueAt?_assign assigned level name
      unfold KeepsOrAssigns
      rw [behind_eq, value_eq]
      split
      · next hit =>
        obtain ⟨found, rfl⟩ := hit
        exact .inr ⟨[], value, [], rfl, found, rfl⟩
      · exact .inl rfl
    · exact .inl (congrArg (valueAt? level name ·.2) performed)

/-! ### Balanced operations -/

theorem bindings_perform_tail {operation : Operation} (not_enter : operation ≠ .enter)
    (not_exit : operation ≠ .exit) (environment : Environment) :
    (environment.perform operation).2.bindings.tail = environment.bindings.tail := by
  cases operation with
  | enter => exact absurd rfl not_enter
  | exit => exact absurd rfl not_exit
  | define name value => rfl
  | binds name => rfl
  | get name => rw [perform_get]
  | assign name value =>
    obtain ⟨changed, assigned, performed⟩ | performed :=
      perform_assign_cases name value environment
    · rw [performed, bindings_assign assigned]
    · rw [performed]

theorem depth_eq_of_tail_eq {other : Environment}
    (same : other.bindings.tail = environment.bindings.tail) : other.depth = environment.depth := by
  have lengths := congrArg List.length same
  rw [List.length_tail, List.length_tail, length_bindings, length_bindings] at lengths
  have first := other.depth_pos
  have second := environment.depth_pos
  omega

/-- To leave a scope behind balanced operations is to leave the one that was entered before them. -/
theorem bindings_exit_of_enter {other : Environment}
    (same : other.bindings.tail = environment.enter.bindings.tail) :
    other.exit.bindings = environment.bindings := by
  have inside : 1 < other.depth := by
    rw [depth_eq_of_tail_eq same, depth_enter]
    exact Nat.succ_lt_succ environment.depth_pos
  rw [bindings_exit inside, same, bindings_enter, List.tail_cons]

theorem bindings_behind_tail (balanced : Balanced operations) (environment : Environment) :
    (environment.behind operations).bindings.tail = environment.bindings.tail := by
  induction balanced generalizing environment with
  | nil => rfl
  | plain not_enter not_exit _ ih =>
    rw [behind_cons, ih, bindings_perform_tail not_enter not_exit]
  | @scope inner rest _ _ inner_ih rest_ih =>
    -- The inner operations begin in the new scope, so the outer ones are the tail of theirs.
    rw [behind_append, behind_cons, behind_cons, rest_ih]
    exact congrArg List.tail (bindings_exit_of_enter (inner_ih environment.enter))

theorem bindings_behind_closed {inner : List Operation} (balanced : Balanced inner)
    (environment : Environment) :
    (environment.behind (.enter :: inner ++ [.exit])).bindings = environment.bindings := by
  rw [behind_append]
  exact bindings_exit_of_enter (bindings_behind_tail balanced environment.enter)

/-- The scope that is left behind balanced operations is the one that was entered before them, so
what they do to the scopes around it stays. -/
theorem valueAt?_closed {inner : List Operation} (balanced : Balanced inner)
    (outside : level < environment.depth) (name : String) :
    (environment.behind (.enter :: inner ++ [.exit])).valueAt? level name =
      (environment.enter.behind inner).valueAt? level name := by
  have depth := depth_eq_of_tail_eq (bindings_behind_tail balanced environment.enter)
  rw [depth_enter] at depth
  rw [behind_append]
  exact valueAt?_exit (by rw [behind_cons]; exact depth ▸ Nat.succ_lt_succ outside) name

theorem KeepsOrAssigns.closed {inner : List Operation}
    (inside : environment.enter.KeepsOrAssigns inner level name) (balanced : Balanced inner)
    (outside : level < environment.depth) :
    environment.KeepsOrAssigns (.enter :: inner ++ [.exit]) level name := by
  unfold KeepsOrAssigns at *
  rw [valueAt?_closed balanced outside]
  rcases inside with kept | ⟨before, value, rest, rfl, found, now⟩
  · exact .inl (kept.trans (valueAt?_enter outside name))
  · exact .inr ⟨.enter :: before, value, rest ++ [.exit], by simp, found, now⟩

/-- Balanced operations change the innermost scope, and further out what they assign to. -/
theorem keepsOrAssigns_behind (balanced : Balanced operations) (environment : Environment)
    (outside : level + 1 < environment.depth) (name : String) :
    environment.KeepsOrAssigns operations level name := by
  induction balanced generalizing environment with
  | nil => exact .inl rfl
  | @plain operation rest not_enter not_exit _ ih =>
    have same := depth_eq_of_tail_eq (bindings_perform_tail not_enter not_exit environment)
    have later := ih (environment.perform operation).2 (same.symm ▸ outside)
    exact (keepsOrAssigns_perform operation outside name).append later
  | @scope inner rest balanced _ inner_ih rest_ih =>
    have inside := inner_ih environment.enter (Nat.lt_succ_of_lt outside)
    have closed := inside.closed balanced (Nat.lt_of_succ_lt outside)
    -- Behind the inner scope there are as many scopes as before it.
    have same := depth_eq_of_bindings_eq (bindings_behind_closed balanced environment)
    have whole := closed.append (rest_ih _ (by omega))
    simpa using whole

end Environment

/-- An environment is a stack of maps from names to values.  Whatever operations are performed from
the beginning, the answers, and the number of scopes behind each of them, are those of a stack of
maps, and those of a chain of scopes, whose links are always in order, so that every walk along them
ends, and ends where the name is found.  An assignment that fails changes nothing.  Between entering
a scope and leaving it, a binding outside of it gets another value only by an assignment that finds
its name at its level. -/
theorem environment_is_stack_of_maps (operations : List Operation) :
    let environment := Environment.empty.behind operations
    (∃ answers,
      Environment.keeper.run operations .empty = some (answers, environment) ∧
      Maps.keeper.run operations .empty = some (answers, .ofEnvironment environment) ∧
      Chain.keeper.run operations .empty = some (answers, .ofEnvironment environment)) ∧
    (Chain.ofEnvironment environment).Linked ∧
    (∀ name, (Chain.ofEnvironment environment).resolve? name = some (environment.level? name)) ∧
    (∀ name value error after,
      environment.perform (.assign name value) = (.assigned (.error error), after) →
        after = environment) ∧
    ∀ inner, Balanced inner →
      (environment.behind (.enter :: inner ++ [.exit])).bindings = environment.bindings ∧
      ∀ level name,
        (environment.behind (.enter :: inner ++ [.exit])).valueAt? level name ≠
            environment.valueAt? level name →
          ∃ before value rest, inner = before ++ .assign name value :: rest ∧
            (environment.behind (.enter :: before)).level? name = some level ∧
            (environment.behind (.enter :: inner ++ [.exit])).valueAt? level name =
              some value := by
  intro environment
  refine ⟨?_, Chain.linked_ofEnvironment environment,
    fun name => Chain.resolve?_ofEnvironment name environment, ?_, ?_⟩
  · obtain ⟨answers, performed⟩ := Environment.run_eq operations .empty
    exact ⟨answers, performed, Maps.run_ofEnvironment performed, Chain.run_ofEnvironment performed⟩
  · intro name value error after failed
    obtain ⟨changed, -, performed⟩ | performed :=
      Environment.perform_assign_cases name value environment
    · rw [performed] at failed
      cases failed
    · rw [performed] at failed
      exact (Prod.mk.inj failed).2.symm
  · intro inner balanced
    have bindings := Environment.bindings_behind_closed balanced environment
    refine ⟨bindings, fun level name changed => ?_⟩
    have outside : level < environment.depth := by
      -- Further inside there is no scope on either side.
      by_contra beyond
      have depth := Environment.depth_eq_of_bindings_eq bindings
      apply changed
      rw [Environment.valueAt?_of_le (by omega), Environment.valueAt?_of_le (by omega)]
    rw [Environment.valueAt?_closed balanced outside] at changed ⊢
    have further : level + 1 < environment.enter.depth := Nat.succ_lt_succ outside
    rcases Environment.keepsOrAssigns_behind balanced _ further name with kept | assigns
    · exact absurd (kept.trans (Environment.valueAt?_enter outside name)) changed
    · exact assigns

end BlockScript
