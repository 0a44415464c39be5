import Flowgraph.Dominance.Basic
import Flowgraph.Reduction.Elimination
/-!
# Reduction to events

Given some nodes of an augmented graph as events, the reduced graph keeps the events that the entry reaches, the
entry and the exit, and every branch that decides whether one of the nodes kept is reached: the events closed under
post-dominance frontiers. All other nodes are consumed.
-/

namespace Flowgraph

/-- A reduced graph, with the events in it, the nodes kept and the nodes consumed. -/
structure EventGraph where
  graph : Graph
  entry : Node
  exit : Node
  events : List Node
  retained : List Node
  consumed : List Node
  disconnected : Bool

/-- The edges that the reduction made. -/
def EventGraph.bypassEdges (r : EventGraph) : List Edge := r.graph.edges.filter (·.kind == .bypass)

/-- A reduction to be done: an augmented graph, its events without repetition, and a name for messages. -/
structure Reduction where
  augmented : Augmented
  name : Option String
  events : List Node

namespace Reduction

/-- The reduction of an augmented graph to the events that are asked for. Without a name of its own it has the name of
the graph. -/
def ofEvents (a : Augmented) (refs : List NodeRef) (name : Option String) : Except Fault Reduction := do
  let nodes ← refs.mapM a.graph.resolve
  return ⟨a, name.or a.name, firstPer Node.id [] nodes⟩

variable (r : Reduction)

/-- The events that the entry reaches. -/
def kept : List Node :=
  let reachable := r.augmented.graph.reachable .forward r.augmented.entry.id
  r.events.filter (reachable.contains ·.id)

/-- The events that the entry does not reach. -/
def dropped : List Node :=
  let reachable := r.augmented.graph.reachable .forward r.augmented.entry.id
  r.events.filter (!reachable.contains ·.id)

/-- The events that do not reach the exit. -/
def stuck (pdom : Dominance) : List Node := r.kept.filter (!pdom.order.contains ·.id)

def retainedIds (pdom : Dominance) : List Int :=
  r.augmented.entry.id :: r.augmented.exit.id :: pdom.closure (r.kept.map Node.id)

/-- An edge of the reduced graph must be between nodes to keep. -/
def checkEnds (ids : List Int) (e : Edge) : Except Fault Unit :=
  [e.src, e.dst].forM fun i => do
    let n ← r.augmented.graph.resolve (.id i)
    unless ids.contains n.id do throw (.consumedEndpoint e)

/-- The reduced graph, by the post-dominators of the augmented graph. -/
def reduce (pdom : Dominance) : Except Fault EventGraph := do
  let g := r.augmented.graph
  let ids := r.retainedIds pdom
  let retained := g.pick ids
  let consumed := g.others ids
  let edges ← g.eliminate (consumed.map Node.id)
  edges.forM (r.checkEnds ids)
  let h ← Graph.ofLists retained edges
  let entry := r.augmented.entry
  let exit := r.augmented.exit
  return {
    graph := h
    entry := entry
    exit := exit
    events := r.kept
    retained := retained
    consumed := consumed
    disconnected := !h.leadsTo .forward entry.id exit.id }

def warning (text : String) : Report :=
  .record ⟨.warning, .reduction, s!"EFG{ofFunction r.name}: {text}"⟩

/-- What is recorded of events that the entry does not reach. -/
def dropReports : List Report :=
  let lost := r.dropped
  if lost.isEmpty then []
  else [r.warning
    s!"dropping {lost.length} event(s) unreachable from the entry node: {nameList lost}"]

/-- What is recorded of events that do not reach the exit. -/
def stuckReports (pdom : Dominance) : List Report :=
  let lost := r.stuck pdom
  if lost.isEmpty then []
  else [r.warning (s!"{lost.length} event(s) cannot reach the exit node, the branches leading to them " ++
    s!"are not retained: {nameList lost}")]

def finalReports (e : EventGraph) : List Report :=
  let caution := Caution.disconnected r.name
  (if e.disconnected then
    [.record ⟨.warning, .reduction, caution.incident.message⟩, .caution caution]
   else []) ++
  [.record ⟨.info, .reduction, s!"EFG{ofFunction r.name}: {e.events.length} event(s), " ++
    s!"{e.retained.length} node(s) retained, {e.consumed.length} consumed, {e.graph.edges.length} edge(s)"⟩]

def construct : Task EventGraph := do
  Task.reportAll r.dropReports
  let pdom ← r.augmented.dominance .backward
  Task.reportAll (r.stuckReports pdom)
  let e ← Task.ofExcept (r.reduce pdom)
  Task.reportAll (r.finalReports e)
  return e

end Reduction

end Flowgraph
