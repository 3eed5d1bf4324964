import BlockScript.Value

/-!
# Environments

The variables that are visible at some point of a run: scopes inside one another, of which the
outermost is never left.  Declarations go to the innermost scope; look-up and assignment go outward
to the nearest scope that binds the name.
-/

namespace BlockScript

/-- The variables of one scope, each name at most once. -/
abbrev Scope := List (String × Value)

namespace Scope

def get? (name : String) : Scope → Option Value
  | [] => none
  | (bound, value) :: rest => if bound = name then some value else get? name rest

/-- Gives a name a value, whether it has one or not. -/
def set (name : String) (value : Value) : Scope → Scope
  | [] => [(name, value)]
  | (bound, old) :: rest =>
    if bound = name then (name, value) :: rest else (bound, old) :: set name value rest

/-- Gives a name that has a value another one. -/
def update? (name : String) (value : Value) : Scope → Option Scope
  | [] => none
  | (bound, old) :: rest =>
    if bound = name then some ((name, value) :: rest)
    else (update? name value rest).map ((bound, old) :: ·)

end Scope

/-- Scopes inside one another. -/
structure Environment where
  innermost : Scope
  enclosing : List Scope
  deriving DecidableEq

namespace Environment

def empty : Environment := ⟨[], []⟩

/-- All scopes, from the innermost outward. -/
def scopes (environment : Environment) : List Scope :=
  environment.innermost :: environment.enclosing

/-- How many scopes there are, at least one. -/
def depth (environment : Environment) : Nat :=
  environment.scopes.length

/-- Opens a scope inside all others. -/
def enter (environment : Environment) : Environment :=
  ⟨[], environment.scopes⟩

/-- Closes the innermost scope, unless it is the only one. -/
def exit : Environment → Environment
  | ⟨_, scope :: enclosing⟩ => ⟨scope, enclosing⟩
  | ⟨scope, []⟩ => ⟨scope, []⟩

/-- Gives a name a value in the innermost scope. -/
def define (name : String) (value : Value) (environment : Environment) : Environment :=
  ⟨environment.innermost.set name value, environment.enclosing⟩

/-- The value of a name in the nearest scope that binds it. -/
def lookup (name : String) : List Scope → Option Value
  | [] => none
  | scope :: outer =>
    match scope.get? name with
    | some value => some value
    | none => lookup name outer

/-- Gives a name another value in the nearest scope that binds it. -/
def reassign (name : String) (value : Value) : List Scope → Option (List Scope)
  | [] => none
  | scope :: outer =>
    match scope.update? name value with
    | some changed => some (changed :: outer)
    | none => (reassign name value outer).map (scope :: ·)

def get? (name : String) (environment : Environment) : Option Value :=
  lookup name environment.scopes

/-- Gives the visible variable of a name another value; there is no answer if there is none. -/
def assign? (name : String) (value : Value) (environment : Environment) : Option Environment :=
  match environment.innermost.update? name value with
  | some changed => some ⟨changed, environment.enclosing⟩
  | none => (reassign name value environment.enclosing).map (⟨environment.innermost, ·⟩)

def binds (name : String) (environment : Environment) : Bool :=
  (environment.get? name).isSome

end Environment

end BlockScript
