import Flowgraph.Report
import Flowgraph.Store.Basic
/-!
# Journals

A client that writes to a shared store keeps a journal of the nodes and edges it creates and of the tags that it
adds, and can take all of them back. What has gone from the store in the meantime is passed over. A journal is undone
once; later requests change nothing.
-/

namespace Flowgraph

/-- What one client has written to a store. -/
structure Journal where
  nodes : List Node := []
  edges : List Edge := []
  tags : List (ElementRef × String) := []
  undone : Bool := false

namespace Journal

variable (j : Journal) (s : Store)

/-- Creates a node and notes it. -/
def createNode (draft : NodeDraft) (tags : TagSet) : Node × Journal × Store :=
  let (n, s) := s.createNode draft tags
  (n, { j with nodes := j.nodes ++ [n] }, s)

/-- Creates an edge and notes it. -/
def createEdge (src dst : Int) (draft : EdgeDraft) : Except Fault (Edge × Journal × Store) := do
  let (e, s) ← s.createEdge src dst draft
  return (e, { j with edges := j.edges ++ [e] }, s)

/-- Gives an element a tag, and notes it if the element did not carry it. -/
def tag (el : ElementRef) (t : String) : Except Fault (Journal × Store) := do
  let (added, s) ← s.tag el t
  return (if added then { j with tags := j.tags ++ [(el, t)] } else j, s)

/-- The store without the tags, the edges and the nodes of a journal, the latest first. -/
def revert : Store :=
  let s := j.tags.reverse.foldl (fun s (el, t) => s.changeTags (·.erase t) el) s
  let s := j.edges.reverse.foldl (fun s e => s.dropEdge e.id) s
  j.nodes.reverse.foldl (fun s n => s.dropNode n.id) s

/-- Takes back what a journal notes, unless that is done. -/
def undo : Journal × Store := if j.undone then (j, s) else ({ j with undone := true }, j.revert s)

/-- What is recorded when a journal is undone. -/
def undoReports : List Report :=
  if j.undone then []
  else [.record ⟨.debug, .store,
    s!"undid {j.nodes.length} node(s), {j.edges.length} edge(s), {j.tags.length} tag(s)"⟩]

end Journal

end Flowgraph
