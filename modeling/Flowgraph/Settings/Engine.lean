import Flowgraph.Settings.Value
/-!
# Engines

The engines that can decide branch constraints, by name: one that is always there, and an external one.
-/

namespace Flowgraph

/-- An engine that decides constraints. -/
inductive Engine where
  | internal
  | external
  deriving DecidableEq, Repr

namespace Engine

def all : List Engine := [.internal, .external]

def name : Engine → String
  | .internal => "internal"
  | .external => "z3"

def ofValue? : Value → Option Engine
  | .text s => all.find? (·.name == s)
  | _ => none

end Engine

end Flowgraph
