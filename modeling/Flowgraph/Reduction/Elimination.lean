import Flowgraph.Graph.Basic
import Flowgraph.Table
/-!
# Elimination of nodes

To consume a node, each edge into it is joined with each edge out of it into a bypass, which keeps the label, the
flag, the attributes and the tags of the edge into it; then the node's edges are dropped. Loops at the node are
dropped without a bypass. Meanwhile the edges are kept in a table, and for each node the identities of the edges out
of it and into it in two others. When all nodes to be consumed are gone, of the edges between two nodes the first one
stays, and edges that are no bypasses are marked as reduced.
-/

namespace Flowgraph

namespace Tag

/-- The tag of the nodes of a reduced graph. -/
def eventNode : String := "EFG_NODE"

/-- The tag of the edges of a reduced graph. -/
def eventEdge : String := "EFG_EDGE"

/-- The tag of the edges that a reduction made. -/
def newEventEdge : String := "NEW_EFG_EDGE"

end Tag

/-- The edge that stands for an edge into a node and an edge out of it. -/
def Edge.bypass (id : Int) (into outOf : Edge) : Edge where
  id := id
  src := into.src
  dst := outOf.dst
  kind := .bypass
  label := into.label
  back := into.back
  tags := into.tags.insertAll [Tag.newEventEdge, Tag.eventEdge]
  attrs := into.attrs

/-- The edges of a graph whose nodes are being consumed, the identities of those out of each node and into each node, and
the next identity to hand out. -/
structure IndexedEdges where
  edges : Table Edge
  out : Table (List Int)
  into : Table (List Int)
  nextEdge : Int

namespace IndexedEdges

/-- Puts an identity on a list. One that is there keeps its place. -/
def enlist (id : Int) (ids : List Int) : List Int := if id ∈ ids then ids else ids ++ [id]

/-- Takes an identity off a list. -/
def delist (id : Int) (ids : List Int) : List Int := ids.filter (· != id)

variable (w : IndexedEdges)

def add (e : Edge) : Except Fault IndexedEdges := do
  let out ← w.out.change e.src (enlist e.id)
  let into ← w.into.change e.dst (enlist e.id)
  return { w with edges := w.edges.put e.id e, out := out, into := into }

def remove (e : Edge) : Except Fault IndexedEdges := do
  let edges ← w.edges.without e.id
  let out ← w.out.change e.src (delist e.id)
  let into ← w.into.change e.dst (delist e.id)
  return { w with edges := edges, out := out, into := into }

def ofGraph (g : Graph) : Except Fault IndexedEdges :=
  let noIds := g.nodeIds.map fun n => (n, [])
  g.edges.foldlM add ⟨[], noIds, noIds, g.maxEdgeId + 1⟩

def inEdges (n : Int) : Except Fault (List Edge) := do
  (← w.into.entry n).mapM w.edges.entry

def outEdges (n : Int) : Except Fault (List Edge) := do
  (← w.out.entry n).mapM w.edges.entry

/-- Adds the bypass of an edge into a node and an edge out of it. -/
def join (p : Edge × Edge) : Except Fault IndexedEdges := do
  let w ← w.add (.bypass w.nextEdge p.1 p.2)
  return { w with nextEdge := w.nextEdge + 1 }

/-- Removes an edge if it is still there. -/
def discard (e : Edge) : Except Fault IndexedEdges :=
  if e.id ∈ w.edges.keys then w.remove e else .ok w

/-- Consumes a node. A loop at it is both an edge into it and an edge out of it. -/
def consume (n : Int) : Except Fault IndexedEdges := do
  let ins := (← w.inEdges n).filter (!·.isLoop)
  let outs := (← w.outEdges n).filter (!·.isLoop)
  let w ← (ins.flatMap fun i => outs.map fun o => (i, o)).foldlM join w
  ((← w.inEdges n) ++ (← w.outEdges n)).foldlM discard w

def consumeAll (ns : List Int) : Except Fault IndexedEdges := ns.foldlM consume w

end IndexedEdges

def Edge.ends (e : Edge) : Int × Int := (e.src, e.dst)

/-- An edge in the reduced graph. Its old kind stays as a tag. -/
def Edge.asReduced (e : Edge) : Edge :=
  if e.kind = .bypass then e
  else { e with kind := .reduced, tags := e.tags.insertAll [e.kind.name, Tag.eventEdge] }

/-- The edges of a graph after some nodes are consumed: the first between each two nodes. -/
def Graph.eliminate (g : Graph) (consumed : List Int) : Except Fault (List Edge) := do
  let w ← (← IndexedEdges.ofGraph g).consumeAll consumed
  return (firstPer Edge.ends [] w.edges.values).map Edge.asReduced

end Flowgraph
