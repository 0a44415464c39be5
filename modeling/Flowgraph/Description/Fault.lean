import Flowgraph.Diagnostic.Incident
import Flowgraph.Text.Position
/-!
# Faults in descriptions

Why the text that describes functions is refused. All faults but one have a place in the text.
-/

namespace Flowgraph.Description

open Text (Position quote)
open Diagnostic (Incident)

/-- Why a description is refused. -/
inductive Fault where
  /-- The text goes on with something that is no function. -/
  | unexpected (place : Position) (next : String)
  /-- A function declares a node twice. -/
  | declaredTwice (place : Position) (node function : String)
  /-- An edge has two labels. -/
  | twoLabels (place : Position) (src dst : String)
  /-- An edge has an option that there is not. -/
  | unknownOption (place : Position) (key : String)
  /-- Two functions have one name. -/
  | definedTwice (place : Position) (function : String)
  /-- The text should describe one function and describes another number of them. -/
  | notSingle (found : Nat)
  deriving DecidableEq, Repr

def Fault.place? : Fault → Option Position
  | .unexpected place _ | .declaredTwice place _ _ | .twoLabels place _ _ | .unknownOption place _
  | .definedTwice place _ => some place
  | .notSingle _ => none

def Fault.wording : Fault → String
  | .unexpected _ next => s!"unexpected input {quote next}"
  | .declaredTwice _ node function => s!"node {quote node} is declared twice in {quote function}"
  | .twoLabels _ src dst => s!"edge {src} -> {dst} has two condition labels"
  | .unknownOption _ key => s!"unknown edge option {quote key}"
  | .definedTwice _ function => s!"function {quote function} is defined twice"
  | .notSingle found => s!"expected exactly one function, found {found}"

def Fault.incident (f : Fault) : Incident :=
  .inDescription f.wording (f.place?.map (·.line)) (f.place?.map (·.column))

end Flowgraph.Description
