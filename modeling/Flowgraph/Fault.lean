import Flowgraph.Description.Fault
import Flowgraph.Graph.Element
import Flowgraph.Settings.Fault
import Flowgraph.Text.Utf8
/-!
# Faults and cautions

Every reason for which an operation fails is a `Fault`, and every condition that it warns about and
carries on is a `Caution`. Both are kept as causes; `Fault.message` and `Caution.incident` word them.
-/

namespace Flowgraph

open Diagnostic (Category Code Detail Incident)
open Text (quote)

/-- Where an element was looked for. -/
inductive Place where
  | graph
  | arena
  | store
  deriving DecidableEq, Repr

/-- Why an operation fails. -/
inductive Fault where
  /-- Two nodes have one identity. -/
  | duplicateNode (id : Int)
  /-- Two edges have one identity. -/
  | duplicateEdge (id : Int)
  /-- An edge has an end that is no node of the graph. -/
  | danglingEdge (id src dst : Int)
  /-- An edge is asked for whose ends are not both there. -/
  | missingEndpoint (place : Place) (src dst : Int)
  /-- A function's graph already has entry or exit nodes. -/
  | syntheticNodes (nodes : List Node)
  /-- A reduction kept an edge at a node that it consumed. -/
  | consumedEndpoint (edge : Edge)
  /-- A table is asked for a key that it lacks. -/
  | absentEntry (key : Int)
  /-- There is no such node. -/
  | unknownNode (place : Place) (ref : NodeRef)
  /-- There is no such edge. -/
  | unknownEdge (place : Place) (id : Int)
  /-- No node has the display name. -/
  | noNodeNamed (name : String)
  /-- No node has the identifier. -/
  | noNodeIdentified (ident : String)
  /-- Control enters the function nowhere. -/
  | noRoot (function : Option String)
  /-- Edges that close cycles are not flagged, and may not be dropped. -/
  | unflaggedCycles (count : Nat)
  /-- Dominators are asked for of a node that the analysis does not reach. -/
  | unreachable (node root : String) (direction : Direction)
  /-- The function has more paths than allowed. -/
  | tooManyPaths (function : Option String) (limit : Nat)
  /-- A query has more distinct conditions than allowed. -/
  | tooManyConditions (used : Nat) (limit : Value)
  /-- A description is refused. -/
  | description (cause : Description.Fault)
  /-- Settings are refused. -/
  | settings (cause : Settings.Fault)
  /-- A solver is asked for with an engine that there is not. -/
  | noSuchEngine (value : Value)
  /-- The external engine is not installed. -/
  | engineMissing
  /-- A file does not hold text. -/
  | notText (cause : Text.Utf8.Fault)

/-- What an operation warns about. -/
inductive Caution where
  /-- In the reduced graph, the entry does not reach the exit. -/
  | disconnected (function : Option String)
  /-- A branch has no label. -/
  | unlabelled (condition next : String)
  /-- The label of a branch is neither true nor false. -/
  | unclearLabel (condition label : String)
  deriving DecidableEq, Repr

/-- A function's name after a noun; nothing for a function without a name. -/
def ofFunction : Option String → String
  | some name => if name = "" then "" else s!" of {quote name}"
  | none => ""

/-- The name of the node relation that an analysis computes by walking in a direction. -/
def Direction.analysisName : Direction → String
  | .forward => "dominance"
  | .backward => "post-dominance"

namespace Fault

/-- Where an edge's ends should have been. -/
def endpointWording : Place → String
  | .graph => "the graph"
  | .arena => "the builder"
  | .store => "store"

/-- Where an element should have been. -/
def membershipWording : Place → String
  | .graph => "part of this graph"
  | .arena => "in the builder"
  | .store => "in the store"

/-- The incident that reports a fault of the analyses. Faults in tables, in settings, in the choice of an engine and
in files have no code. -/
def incident? : Fault → Option Incident
  | .duplicateNode id => some (.ofMessage .brokenInvariant s!"duplicate node identity {id}")
  | .duplicateEdge id => some (.ofMessage .brokenInvariant s!"duplicate edge identity {id}")
  | .danglingEdge id src dst => some (.ofMessage .brokenInvariant
      s!"edge {id} ({src} -> {dst}) references a node outside the graph")
  | .missingEndpoint place src dst => some (.ofMessage .brokenInvariant
      s!"cannot connect {src} -> {dst}: endpoint not in {endpointWording place}")
  | .syntheticNodes nodes =>
    let shown := ", ".intercalate (nodes.map Node.display)
    some (.ofMessage .brokenInvariant s!"raw CFG already contains synthetic node(s) [{shown}]")
  | .consumedEndpoint edge => some (.ofMessage .brokenInvariant
      s!"EFG edge {edge.display} references a consumed node")
  | .unknownNode place ref => some (.ofMessage .unknownNode
      s!"node {ref.display} is not {membershipWording place}")
  | .unknownEdge place id => some (.ofMessage .unknownNode
      s!"edge {id} is not {membershipWording place}")
  | .noNodeNamed name => some (.ofMessage .unknownNode s!"no node named {quote name}")
  | .noNodeIdentified ident => some (.ofMessage .unknownNode
      s!"no node with identifier {quote ident}")
  | .noRoot function => some (.ofMessage .malformedGraph
      s!"CFG{ofFunction function} has no control-flow root")
  | .unflaggedCycles count => some ⟨.malformedGraph, .cyclic,
      s!"{count} cycle-closing edge(s) are not flagged as back edges", .none⟩
  | .unreachable node root direction => some (.ofMessage .unreachableNode
      s!"{node} is unreachable from {root} ({direction.analysisName})")
  | .tooManyPaths function limit => some (.ofMessage .pathLimit
      s!"CFG{ofFunction function} has more than {limit} paths" (.limit (.int limit)))
  | .tooManyConditions used limit => some (.ofMessage .solverLimit
      s!"query uses {used} distinct conditions; the limit is {limit.display}"
      (.conditions (.int used) limit))
  | .description cause => some cause.incident
  | .absentEntry _ | .settings _ | .noSuchEngine _ | .engineMissing | .notText _ => none

/-- The wording of bytes that are not text. -/
def notTextMessage (f : Text.Utf8.Fault) : String :=
  let bytes := match f.bytes with
    | [b] => s!"byte 0x{String.ofList (Text.hexDigits 2 b.toNat)} in position {f.start}"
    | bs => s!"bytes in position {f.start}-{f.start + bs.length - 1}"
  s!"'utf-8' codec can't decode {bytes}: {f.reason.text}"

def message (f : Fault) : String :=
  match f with
  | .absentEntry key => toString key
  | .settings cause => cause.message
  | .noSuchEngine value => s!"{value.display} is not a valid SolverBackend"
  | .engineMissing => "Z3 Python bindings ('z3-solver') required for Z3ConstraintSolver"
  | .notText cause => notTextMessage cause
  | _ => (f.incident?.map Incident.text).getD ""

end Fault

def Caution.incident : Caution → Incident
  | .disconnected function => .ofMessage .disconnectedEvents
      s!"EFG{ofFunction function}: no path connects EFG_ENTRY to EFG_EXIT"
  | .unlabelled condition next => .ofMessage .unsupportedBranch
      s!"branch {quote condition} -> {quote next} has no condition label" (.branch condition none)
  | .unclearLabel condition label => .ofMessage .unsupportedBranch
      s!"cannot know the exact condition value {quote label} for {quote condition}"
      (.branch condition (some label))

end Flowgraph
