/-!
# Targets

A target is a named callable. Its body is referred to by a label and the numbers it closes over, so
two targets share a body exactly when these agree; the program that runs says what a body does.
-/

namespace EffectLoop

/-- Whether calling a target gives a plain computation or a coroutine to be driven. -/
inductive Shape
  | function
  | coroutine
deriving DecidableEq, Inhabited

/-- The word for a shape. -/
def Shape.text : Shape → String
  | .function => "function"
  | .coroutine => "coroutine"

/-- A reference to the code of a target: its label and what it closes over. -/
structure Body where
  label : String
  captured : List Nat := []
deriving DecidableEq, Inhabited

/-- A named callable. -/
structure Target where
  name : String
  shape : Shape
  body : Body
deriving DecidableEq, Inhabited

/-- Short text of a target. -/
def Target.text (t : Target) : String := "Target(" ++ t.shape.text ++ " " ++ t.name ++ ")"

end EffectLoop
