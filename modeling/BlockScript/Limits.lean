/-!
# Limits

How long a run may take: a number of steps and a number of commands, each of which may be left
unlimited.
-/

namespace BlockScript

structure Limits where
  maxSteps : Option Nat
  maxInstructions : Option Nat
  deriving DecidableEq, Repr

namespace Limits

/-- The steps that a run may take unless something else is said. -/
def defaultMaxSteps : Nat := 10000000

/-- The limits of a run about which nothing else is said. -/
def default : Limits := ⟨some defaultMaxSteps, none⟩

/-- No limits: an endless loop runs forever. -/
def unbounded : Limits := ⟨none, none⟩

def withMaxSteps (limits : Limits) (limit : Option Nat) : Limits :=
  ⟨limit, limits.maxInstructions⟩

def withMaxInstructions (limits : Limits) (limit : Option Nat) : Limits :=
  ⟨limits.maxSteps, limit⟩

/-- The greatest number that can be set as a limit. -/
def greatest : Nat := Nat.pow 2 64 - 1

end Limits

end BlockScript
