import Flowgraph.Diagnostic.Code
import Flowgraph.Settings.Value
/-!
# Incidents

What is reported to a user about a coded condition: its category, its code, a message, and for some
categories the figures behind the message. A category is a kind of error or a kind of warning, and
belongs to the general category of its sort.
-/

namespace Flowgraph.Diagnostic

/-- The categories of errors and warnings. -/
inductive Category where
  | error
  | malformedGraph
  | brokenInvariant
  | unknownNode
  | unreachableNode
  | pathLimit
  | solverLimit
  | badDescription
  | warning
  | disconnectedEvents
  | unsupportedBranch
  deriving DecidableEq, Repr

namespace Category

def all : List Category :=
  [.error, .malformedGraph, .brokenInvariant, .unknownNode, .unreachableNode, .pathLimit,
   .solverLimit, .badDescription, .warning, .disconnectedEvents, .unsupportedBranch]

def name : Category → String
  | .error => "LsapError"
  | .malformedGraph => "MalformedGraph"
  | .brokenInvariant => "GraphInvariantError"
  | .unknownNode => "UnknownNodeError"
  | .unreachableNode => "UnreachableNodeError"
  | .pathLimit => "PathLimitExceeded"
  | .solverLimit => "SolverResourceExhausted"
  | .badDescription => "GraphSyntaxError"
  | .warning => "LsapWarning"
  | .disconnectedEvents => "DisconnectedEventSet"
  | .unsupportedBranch => "UnsupportedBranchCondition"

def ofName? (s : String) : Option Category := all.find? (·.name == s)

def isWarning : Category → Bool
  | .warning | .disconnectedEvents | .unsupportedBranch => true
  | _ => false

/-- A category and the general one that it belongs to, the narrower first. -/
def lineage (c : Category) : List Category :=
  let general := if c.isWarning then warning else error
  if c = general then [c] else [c, general]

/-- The code of an incident that is given none. -/
def defaultCode : Category → Code
  | .error | .brokenInvariant => .brokenInvariant
  | .malformedGraph => .noRoot
  | .unknownNode => .unknownNode
  | .unreachableNode => .unreachableNode
  | .pathLimit => .pathLimit
  | .solverLimit => .solverLimit
  | .badDescription => .badDescription
  | .warning | .disconnectedEvents => .noExitConnection
  | .unsupportedBranch => .unsupportedBranch

end Category

/-- The figures behind a message. -/
inductive Detail where
  | none
  | place (line column : Option Int)
  | limit (limit : Value)
  | conditions (used limit : Value)
  | branch (condition : String) (label : Option String)

/-- A coded condition as reported to a user. -/
structure Incident where
  category : Category
  code : Code
  message : String
  detail : Detail := .none

namespace Incident

/-- An incident with the code of its category. -/
def ofMessage (category : Category) (message : String) (detail : Detail := .none) : Incident :=
  ⟨category, category.defaultCode, message, detail⟩

/-- An incident in a description. A message with a line starts with the place. -/
def inDescription (message : String) (line column : Option Int) : Incident :=
  let message := match line with
    | .none => message
    | some l =>
      let c := match column with
        | .none => "None"
        | some c => toString c
      s!"line {l}, column {c}: {message}"
  .ofMessage .badDescription message (.place line column)

/-- The full text: the code in brackets, then the message. -/
def text (i : Incident) : String := s!"[{i.code.text}] {i.message}"

end Incident

end Flowgraph.Diagnostic
