import Flowgraph.Graph.Copy
import Flowgraph.Store.Basic
/-!
# Graphs into the store

A graph is imported as a copy under the next identities of the store. Edges carry their tags, nodes none.
-/

namespace Flowgraph.Store

variable (s : Store) (g : Graph)

/-- The copy under which a graph is imported. -/
def importCopy : Graph := g.copy s.nextNode s.nextEdge

theorem wired_import : Wired (items (s.nodes ++ (s.importCopy g).nodes.map fun n => ⟨n, ∅⟩))
    (items (s.edges ++ (s.importCopy g).edges.map fun e => ⟨e, e.tags⟩)) := by
  simp only [items_append, items_map_mk]
  refine s.wired.append (s.importCopy g).wired (fun m hm n hn => ?_) (fun e he f hf => ?_)
  · have := s.nodes_below m hm
    have := g.copiedNode_bounds s.nextNode hn
    omega
  · have := s.edges_below e he
    have := g.copiedEdge_bounds s.nextNode s.nextEdge hf
    omega

theorem import_nodes_below (n : Node)
    (hn : n ∈ items (s.nodes ++ (s.importCopy g).nodes.map fun n => ⟨n, ∅⟩)) :
    n.id < s.nextNode + g.nodes.length := by
  simp only [items_append, items_map_mk, List.mem_append] at hn
  rcases hn with hn | hn
  · have := s.nodes_below n hn
    omega
  · exact (g.copiedNode_bounds s.nextNode hn).2

theorem import_edges_below (e : Edge)
    (he : e ∈ items (s.edges ++ (s.importCopy g).edges.map fun e => ⟨e, e.tags⟩)) :
    e.id < s.nextEdge + g.edges.length := by
  simp only [items_append, items_map_mk, List.mem_append] at he
  rcases he with he | he
  · have := s.edges_below e he
    omega
  · exact (g.copiedEdge_bounds s.nextNode s.nextEdge he).2

def importGraph : Store where
  nodes := s.nodes ++ (s.importCopy g).nodes.map fun n => ⟨n, ∅⟩
  edges := s.edges ++ (s.importCopy g).edges.map fun e => ⟨e, e.tags⟩
  nextNode := s.nextNode + g.nodes.length
  nextEdge := s.nextEdge + g.edges.length
  wired := s.wired_import g
  nodes_below := s.import_nodes_below g
  edges_below := s.import_edges_below g

end Flowgraph.Store
