import BlockScript.Proofs.Evaluation

/-!
# Levels

The scopes of an environment, numbered from the outermost one, which has the level zero.  The level
of a scope stays the same when others are opened and closed inside it, so a binding can be followed
by its level and its name.  To enter a scope, to leave one and to declare a name changes nothing
outside of the innermost scope.  An assignment changes one binding, that of the name at the level at
which it is found (`valueAt?_assign`).
-/

namespace BlockScript

namespace Scope

theorem get?_set (name other : String) (value : Value) (scope : Scope) :
    (scope.set name value).get? other = if name = other then some value else scope.get? other := by
  induction scope with
  | nil => rfl
  | cons entry rest ih =>
    obtain ⟨bound, old⟩ := entry
    by_cases here : bound = name
    -- The entry that changes is the one that is found.
    · simp only [set, here, if_true, get?]
      split <;> rfl
    · simp only [set, here, if_false, get?, ih]
      grind

/-- A scope that does not bind a name has nothing to change. -/
theorem update?_eq (name : String) (value : Value) (scope : Scope) :
    scope.update? name value = if scope.binds name then some (scope.set name value) else none := by
  induction scope with
  | nil => rfl
  | cons entry rest ih =>
    obtain ⟨bound, old⟩ := entry
    by_cases here : bound = name
    · simp [update?, set, binds, get?, here]
    · have later : binds ((bound, old) :: rest) name = binds rest name := by
        simp only [binds, get?, here, if_false]
      simp only [update?, set, here, if_false, later, ih]
      cases binds rest name <;> rfl

end Scope

namespace Environment

/-! ### Lists of scopes, the innermost first -/

/-- The value of a name in the scope at a level. -/
def valueIn? (level : Nat) (name : String) (scopes : List Scope) : Option Value :=
  scopes.reverse[level]?.bind (Scope.get? name)

/-- The level at which a name is found: that of the nearest scope that binds it. -/
def levelIn? (name : String) : List Scope → Option Nat
  | [] => none
  | scope :: outer => if scope.binds name then some outer.length else levelIn? name outer

theorem valueIn?_cons (level : Nat) (name : String) (scope : Scope) (outer : List Scope) :
    valueIn? level name (scope :: outer) =
      if level = outer.length then scope.get? name else valueIn? level name outer := by
  unfold valueIn?
  rw [List.reverse_cons]
  split
  · next here => simp [here]
  · next elsewhere =>
    congr 1
    rcases Nat.lt_or_gt_of_ne elsewhere with outside | inside
    · rw [List.getElem?_append_left (by simpa using outside)]
    · rw [List.getElem?_eq_none (by simpa using Nat.succ_le_of_lt inside),
        List.getElem?_eq_none (by simpa using Nat.le_of_lt inside)]

theorem valueIn?_of_le {level : Nat} {scopes : List Scope} (name : String)
    (le : scopes.length ≤ level) : valueIn? level name scopes = none := by
  rw [valueIn?, List.getElem?_eq_none (by simpa using le), Option.bind_none]

theorem levelIn?_lt {name : String} {scopes : List Scope} {level : Nat}
    (found : levelIn? name scopes = some level) : level < scopes.length := by
  induction scopes with
  | nil => cases found
  | cons scope outer ih =>
    unfold levelIn? at found
    split at found
    · cases found
      exact Nat.lt_succ_self _
    · exact Nat.lt_succ_of_lt (ih found)

/-- A name is found at the level of the innermost binding. -/
theorem valueIn?_of_levelIn?_lt {name : String} {scopes : List Scope} {level inner : Nat}
    (found : levelIn? name scopes = some level) (inside : level < inner) :
    valueIn? inner name scopes = none := by
  induction scopes with
  | nil => cases found
  | cons scope outer ih =>
    rw [valueIn?_cons]
    unfold levelIn? at found
    split at found
    · cases found
      rw [if_neg (Nat.ne_of_gt inside), valueIn?_of_le name (Nat.le_of_lt inside)]
    · next unbound =>
      split
      · simpa [Scope.binds] using unbound
      · exact ih found

/-- An assignment changes the binding that is found, and no other one. -/
theorem valueIn?_reassign {name : String} {value : Value} {scopes changed : List Scope}
    (reassigned : reassign name value scopes = some changed) (level : Nat) (other : String) :
    valueIn? level other changed =
      if levelIn? name scopes = some level ∧ name = other then some value
      else valueIn? level other scopes := by
  induction scopes generalizing changed with
  | nil => cases reassigned
  | cons scope outer ih =>
    simp only [reassign, Scope.update?_eq] at reassigned
    by_cases bound : scope.binds name
    · simp only [bound, if_true] at reassigned
      cases reassigned
      simp only [valueIn?_cons, levelIn?, bound, if_true, Scope.get?_set, Option.some.injEq]
      grind
    · simp only [bound, Bool.false_eq_true, if_false] at reassigned
      obtain ⟨others, reassigned_outer, rfl⟩ := Option.map_eq_some_iff.mp reassigned
      have same_length : others.length = outer.length := by
        simpa using congrArg List.length (binds_reassign reassigned_outer)
      simp only [valueIn?_cons, levelIn?, bound, Bool.false_eq_true, if_false, same_length,
        ih reassigned_outer]
      -- The name is found further out, so not at the level of this scope.
      have outside := @levelIn?_lt name outer level
      grind

/-- A name is found where it has a value. -/
theorem isSome_levelIn? (name : String) (scopes : List Scope) :
    (levelIn? name scopes).isSome = (lookup name scopes).isSome := by
  induction scopes with
  | nil => rfl
  | cons scope outer ih =>
    cases found : scope.get? name with
    | some value => simp [levelIn?, lookup, Scope.binds, found]
    | none => simpa [levelIn?, lookup, Scope.binds, found] using ih

/-- A name that is not found cannot be given a value. -/
theorem reassign_eq_none_iff {name : String} {value : Value} {scopes : List Scope} :
    reassign name value scopes = none ↔ levelIn? name scopes = none := by
  induction scopes with
  | nil => simp [reassign, levelIn?]
  | cons scope outer ih =>
    simp only [reassign, Scope.update?_eq, levelIn?]
    split <;> simp_all

theorem levelIn?_congr {name : String} {first second : List Scope}
    (same : first.map Scope.binds = second.map Scope.binds) :
    levelIn? name first = levelIn? name second := by
  induction first generalizing second with
  | nil =>
    obtain rfl : second = [] := by simpa using same.symm
    rfl
  | cons scope outer ih =>
    obtain ⟨other, others, rfl, bound, same⟩ := List.map_eq_cons_iff.mp same.symm
    have length : outer.length = others.length := by simpa using (congrArg List.length same).symm
    simp only [levelIn?, bound, length, ih same.symm]

/-! ### Environments -/

variable {environment other : Environment} {name : String} {level : Nat}

/-- The value of a name in the scope at a level. -/
def valueAt? (level : Nat) (name : String) (environment : Environment) : Option Value :=
  valueIn? level name environment.scopes

/-- The level at which a name is found. -/
def level? (name : String) (environment : Environment) : Option Nat :=
  levelIn? name environment.scopes

/-- A binding is shadowed by one of the same name further inside. -/
def Shadowed (level : Nat) (name : String) (environment : Environment) : Prop :=
  ∃ inner > level, (environment.valueAt? inner name).isSome

theorem valueAt?_of_le (le : environment.depth ≤ level) (name : String) :
    environment.valueAt? level name = none :=
  valueIn?_of_le name le

theorem level?_ne_of_shadowed (shadowed : environment.Shadowed level name) :
    environment.level? name ≠ some level := by
  intro found
  obtain ⟨inner, inside, bound⟩ := shadowed
  rw [valueAt?, valueIn?_of_levelIn?_lt found inside] at bound
  cases bound

theorem level?_eq_of_bindings_eq (same : other.bindings = environment.bindings) (name : String) :
    other.level? name = environment.level? name :=
  levelIn?_congr same

theorem valueAt?_enter (outside : level < environment.depth) (name : String) :
    environment.enter.valueAt? level name = environment.valueAt? level name :=
  (valueIn?_cons level name [] environment.scopes).trans (if_neg (Nat.ne_of_lt outside))

theorem valueAt?_exit (outside : level + 1 < environment.depth) (name : String) :
    environment.exit.valueAt? level name = environment.valueAt? level name := by
  obtain ⟨innermost, enclosing⟩ := environment
  cases enclosing with
  | nil => rfl
  | cons scope enclosing =>
    have elsewhere : level ≠ (scope :: enclosing).length :=
      Nat.ne_of_lt (Nat.lt_of_succ_lt_succ outside)
    exact ((valueIn?_cons level name innermost _).trans (if_neg elsewhere)).symm

theorem valueAt?_define (outside : level + 1 < environment.depth) (declared : String)
    (value : Value) (name : String) :
    (environment.define declared value).valueAt? level name = environment.valueAt? level name := by
  have elsewhere : level ≠ environment.enclosing.length :=
    Nat.ne_of_lt (Nat.lt_of_succ_lt_succ outside)
  simp only [valueAt?, scopes, define, valueIn?_cons, if_neg elsewhere]

/-- To assign is to reassign in the list of all scopes. -/
theorem scopes_assign (name : String) (value : Value) (environment : Environment) :
    (environment.assign? name value).map scopes = reassign name value environment.scopes := by
  simp only [assign?, scopes, reassign]
  split
  · rfl
  · rw [Option.map_map]
    rfl

/-- An assignment changes the binding that is found, and no other one. -/
theorem valueAt?_assign {value : Value} {changed : Environment}
    (assigned : environment.assign? name value = some changed) (level : Nat) (other : String) :
    changed.valueAt? level other =
      if environment.level? name = some level ∧ name = other then some value
      else environment.valueAt? level other := by
  have reassigned := scopes_assign name value environment
  rw [assigned] at reassigned
  exact valueIn?_reassign reassigned.symm level other

end Environment

end BlockScript
