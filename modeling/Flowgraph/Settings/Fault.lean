import Flowgraph.Settings.Engine
/-!
# Faults in settings

What can be wrong with the values that are given to settings, and how it is worded.
-/

namespace Flowgraph.Settings

/-- Why settings are refused. -/
inductive Fault where
  /-- A limit is not an integer above zero. -/
  | notPositive (field : String) (value : Value)
  /-- The settings name an engine that there is not. -/
  | unknownEngine (value : Value)
  /-- The verbosity is below zero. -/
  | negativeVerbosity (value : Value)
  /-- Values of two types are compared that have no order. -/
  | unordered (relation left right : String)
  /-- Keys that name no setting, in order. -/
  | unknownKeys (keys : List String)
  /-- A key that names no setting, where keys are taken one by one. -/
  | unexpectedKey (key : String)
  /-- A text that stands for no truth value. -/
  | notBoolean (key raw : String)
  /-- A text that stands for no integer. -/
  | notInteger (key raw : String)

/-- Whether a value of the wrong type is at fault, rather than a wrong value. -/
def Fault.concernsType : Fault → Bool
  | .unordered .. | .unexpectedKey _ => true
  | _ => false

def Fault.message : Fault → String
  | .notPositive field value => s!"{field} must be a positive integer, got {value.display}"
  | .unknownEngine value =>
    let expected := ", ".intercalate (Engine.all.map Engine.name)
    s!"unknown solver backend {value.display} (expected one of {expected})"
  | .negativeVerbosity value => s!"verbose must be >= 0, got {value.display}"
  | .unordered relation left right =>
    s!"'{relation}' not supported between instances of '{left}' and '{right}'"
  | .unknownKeys keys => "unknown configuration key(s): " ++ ", ".intercalate keys
  | .unexpectedKey key => s!"AnalysisConfig.__init__() got an unexpected keyword argument '{key}'"
  | .notBoolean key raw => s!"{key}: expected a boolean, got {Text.quote raw}"
  | .notInteger key raw => s!"{key}: expected an integer, got {Text.quote raw}"

end Flowgraph.Settings
