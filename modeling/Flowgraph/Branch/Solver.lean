import Flowgraph.Branch.External
import Flowgraph.Settings.Basic
/-!
# Solvers

A solver decides whether constraints can hold together, for at most as many conditions as it is allowed. As each
constraint concerns one condition, they can unless one of them contradicts another; the internal engine looks for that and
records it. An external engine that does not know is taken to have said yes, with a warning. Limits are the values of settings,
and need not be integers.
-/

namespace Flowgraph

/-- The engine of a solver; an external one has a time limit in milliseconds. -/
inductive Backend where
  | internal
  | external (z : External) (timeout : Value)

/-- An engine and the number of conditions that it may be given. -/
structure Solver where
  backend : Backend := .internal
  maxConditions : Value := .int 4096

/-- A ruling as an answer. One that is not known is yes, and is recorded. -/
def Ruling.answer : Ruling → Task Bool
  | .sat => return true
  | .unsat => return false
  | .unknown reason => do
    Task.log .warning .solver s!"z3 returned unknown ({reason}); treating the path as feasible"
    return true

/-- Decides constraints, and records what stands against them or in the way of an answer. -/
def Backend.decide (cs : List Constraint) : Backend → Task Bool
  | .internal =>
    match Constraint.firstConflict? cs with
    | none => return true
    | some condition => do
      Task.log .debug .solver s!"conflict on {condition}"
      return false
  | .external z timeout => do
    (z.check (← get) timeout cs).answer

namespace Solver

/-- The solver with an engine. The external one may not be there. -/
def ofEngine (engine : Engine) (maxConditions timeout : Value) (external : Option External) : Except Fault Solver :=
  match engine, external with
  | .internal, _ => .ok ⟨.internal, maxConditions⟩
  | .external, some z => .ok ⟨.external z timeout, maxConditions⟩
  | .external, none => .error .engineMissing

def ofValue (engine maxConditions timeout : Value) (external : Option External) : Except Fault Solver :=
  match Engine.ofValue? engine with
  | none => .error (.noSuchEngine engine)
  | some e => ofEngine e maxConditions timeout external

def ofLimits (limits : Settings.Limits) (external : Option External) : Except Fault Solver :=
  ofEngine limits.engine (.int limits.maxConditions) (.int limits.solverTimeout) external

variable (s : Solver)

def engine : Engine :=
  match s.backend with
  | .internal => .internal
  | .external .. => .external

/-- Refuses constraints on more conditions than allowed. -/
def checkSize (cs : List Constraint) : Except Fault Unit :=
  let used := Constraint.countConditions cs
  match s.maxConditions.isBelow? used with
  | none => .error (.settings (.unordered ">" "int" s.maxConditions.typeName))
  | some true => .error (.tooManyConditions used s.maxConditions)
  | some false => .ok ()

/-- Decides constraints, if they are not on too many conditions. -/
def solve (cs : List Constraint) : Task Bool := do
  Task.ofExcept (s.checkSize cs)
  s.backend.decide cs

end Solver

end Flowgraph
