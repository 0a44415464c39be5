import Flowgraph.Reduction.Basic
import Flowgraph.Store.Journal
/-!
# Reduced graphs into the store

A reduced graph is written into a store that holds the function's own elements. Nodes that are there get a tag,
entry and exit are created; an edge that is there between the same nodes gets a tag, every other edge is created. All
of it is noted in a journal. If a node is missing, writing stops there, and what is already written stays.
-/

namespace Flowgraph

/-- Writing to a store with a journal. A failure keeps what has been written. -/
abbrev Writing := ExceptT Fault (StateM (Journal × Store))

namespace Writing

def createNode (draft : NodeDraft) : Writing Node :=
  modifyGet fun (j, s) =>
    let (n, j, s) := j.createNode s draft ∅
    (n, j, s)

/-- Writes something that may be refused, in which case nothing changes. -/
def attempt {α : Type} (f : Journal → Store → Except Fault (α × Journal × Store)) : Writing α := do
  let (j, s) ← get
  match f j s with
  | .ok (a, next) =>
    set next
    return a
  | .error fault => throw fault

def createEdge (src dst : Int) (draft : EdgeDraft) : Writing Edge :=
  attempt fun j s => j.createEdge s src dst draft

def tag (el : ElementRef) (t : String) : Writing Unit :=
  attempt fun j s => (fun next => ((), next)) <$> j.tag s el t

def node (n : Node) : Writing Node := attempt fun j s => (fun m => (m, j, s)) <$> s.node (.node n)

end Writing

namespace EventGraph

open Writing

/-- Writes a node: the node of the store that stands for it. -/
def writeNode (n : Node) : Writing (Int × Int) := do
  let stored ← match n.kind with
    | .entry => do
      let m ← createNode n.plainDraft
      tag (.node m) Augmented.entryName
      pure m
    | .exit => do
      let m ← createNode n.plainDraft
      tag (.node m) Augmented.exitName
      pure m
    | _ => node n
  tag (.node stored) Tag.eventNode
  return (n.id, stored.id)

/-- Whether the store has an edge of the function between the same nodes. -/
def isStored (s : Store) (e : Edge) (src dst : Int) : Bool :=
  e.kind == .reduced && e.tags.toList.contains EdgeKind.structural.name &&
    s.edges.any fun t => t.item.id == e.id && t.item.src == src && t.item.dst == dst

/-- Writes an edge between the nodes that stand for its ends. -/
def writeEdge (places : List (Int × Int)) (e : Edge) : Writing Unit := do
  let src := (places.lookup e.src).getD e.src
  let dst := (places.lookup e.dst).getD e.dst
  let (_, s) ← get
  if isStored s e src dst then tag (.edge e.id) Tag.eventEdge
  else
    let _ ← createEdge src dst { e.draft with tags := e.tags.insert Tag.eventEdge }

/-- Writes the nodes, then the edges. -/
def write (r : EventGraph) : Writing Unit := do
  let places ← r.graph.nodes.mapM writeNode
  r.graph.edges.forM (writeEdge places)

/-- Writes a reduced graph into a store: the journal, or the node that is missing, and the store afterwards. -/
def materialize (r : EventGraph) (s : Store) : Except Fault Journal × Store :=
  let (result, j, s) := r.write.run.run ({}, s)
  (result.map fun _ => j, s)

/-- What is recorded of a reduced graph that has been written. -/
def writtenReport (j : Journal) : Report :=
  .record ⟨.info, .reduction, s!"materialized EFG: {j.nodes.length} node(s) created, " ++
    s!"{j.edges.length} edge(s) created, {j.tags.length} tag(s) added"⟩

end EventGraph

end Flowgraph
