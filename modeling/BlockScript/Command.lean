/-!
# Commands

The one effect that a program has: a block of a given name is set at a position.
-/

namespace BlockScript

/-- A block to be set. -/
structure Command where
  x : Int32
  y : Int32
  z : Int32
  name : String
  deriving DecidableEq

namespace Command

/-- Where the block goes. -/
def position (command : Command) : Int32 × Int32 × Int32 :=
  (command.x, command.y, command.z)

/-- A command as a program would give it. -/
def printed (command : Command) : String :=
  "setBlock(" ++ toString command.x.toInt ++ ", " ++ toString command.y.toInt ++ ", " ++
    toString command.z.toInt ++ ", \"" ++ command.name ++ "\")"

end Command

end BlockScript
