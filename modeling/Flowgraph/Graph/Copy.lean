import Flowgraph.Graph.Basic
import Flowgraph.Graph.Draft
/-!
# Copies under other identities

A copy of a graph has the same nodes and edges in the same order, numbered from given first identities on. A node
without a name is named after its new identity.
-/

namespace Flowgraph.Graph

variable (g : Graph) (firstNode firstEdge : Int)

/-- The new identity of a node. -/
def renumber (id : Int) : Int := firstNode + g.nodeIds.idxOf id

def copiedNodes : List Node := g.nodes.map fun n => n.draft.withId (g.renumber firstNode n.id)

/-- The edges under their new identities, between the new nodes. -/
def copiedEdges : List Edge :=
  g.edges.zipIdx.map fun (e, i) =>
    e.draft.withId (firstEdge + i) (g.renumber firstNode e.src) (g.renumber firstNode e.dst)

theorem copiedNodes_ids :
    (g.copiedNodes firstNode).map Node.id = g.nodeIds.map (g.renumber firstNode) := by
  simp [copiedNodes, nodeIds, Function.comp_def]

theorem copiedEdges_ids :
    (g.copiedEdges firstNode firstEdge).map Edge.id
      = (List.range g.edges.length).map fun (i : Nat) => firstEdge + i := by
  have h : (g.copiedEdges firstNode firstEdge).map Edge.id
      = (g.edges.zipIdx.map Prod.snd).map fun (i : Nat) => firstEdge + i := by
    simp only [copiedEdges, List.map_map]
    rfl
  rw [h, List.zipIdx_map_snd, ← List.range_eq_range']

theorem renumber_mem {id : Int} (h : id ∈ g.nodeIds) :
    firstNode ≤ g.renumber firstNode id ∧ g.renumber firstNode id < firstNode + g.nodes.length := by
  have := List.idxOf_lt_length_of_mem h
  simp only [nodeIds, List.length_map] at this
  simp only [renumber, nodeIds]
  omega

theorem copiedNode_bounds {n : Node} (h : n ∈ g.copiedNodes firstNode) :
    firstNode ≤ n.id ∧ n.id < firstNode + g.nodes.length := by
  obtain ⟨m, hm, rfl⟩ := List.mem_map.1 h
  exact g.renumber_mem firstNode (List.mem_map_of_mem hm)

theorem copiedEdge_bounds {e : Edge} (h : e ∈ g.copiedEdges firstNode firstEdge) :
    firstEdge ≤ e.id ∧ e.id < firstEdge + g.edges.length := by
  have : e.id ∈ (List.range g.edges.length).map fun (i : Nat) => firstEdge + i :=
    g.copiedEdges_ids firstNode firstEdge ▸ List.mem_map_of_mem h
  obtain ⟨i, hi, hid⟩ := List.mem_map.1 this
  have := List.mem_range.1 hi
  omega

theorem wired_copy : Wired (g.copiedNodes firstNode) (g.copiedEdges firstNode firstEdge) where
  nodes_distinct := by
    rw [copiedNodes_ids, List.Nodup, List.pairwise_map]
    refine g.wired.nodes_distinct.imp_of_mem fun {a b} ha hb hab heq => hab ?_
    have ha : a ∈ g.nodeIds := ha
    have hb : b ∈ g.nodeIds := hb
    have hidx : g.nodeIds.idxOf a = g.nodeIds.idxOf b := by simp only [renumber] at heq; omega
    rw [← List.getElem_idxOf (List.idxOf_lt_length_of_mem ha),
      ← List.getElem_idxOf (List.idxOf_lt_length_of_mem hb)]
    simp only [hidx]
  edges_distinct := by
    rw [copiedEdges_ids, List.Nodup, List.pairwise_map]
    exact List.nodup_range.imp fun {i j} hij heq => hij (by omega)
  closed e he := by
    obtain ⟨⟨f, i⟩, hf, rfl⟩ := List.mem_map.1 he
    have := g.wired.closed f (List.fst_mem_of_mem_zipIdx hf)
    rw [copiedNodes_ids]
    exact ⟨List.mem_map_of_mem this.1, List.mem_map_of_mem this.2⟩

def copy : Graph := ⟨g.copiedNodes firstNode, g.copiedEdges firstNode firstEdge, g.wired_copy firstNode firstEdge⟩

end Flowgraph.Graph
