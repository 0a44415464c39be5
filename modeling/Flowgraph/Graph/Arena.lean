import Flowgraph.Graph.Basic
import Flowgraph.Graph.Draft
/-!
# Arenas

An arena is a graph that grows. It hands out identities, each one above all identities in use, so that what
it holds is a graph at every moment.
-/

namespace Flowgraph

/-- A graph with the next identities to hand out. -/
structure Arena extends Graph where
  nextNode : Int
  nextEdge : Int
  nodes_below : ∀ n ∈ nodes, n.id < nextNode
  edges_below : ∀ e ∈ edges, e.id < nextEdge

namespace Arena

def empty : Arena := ⟨⟨[], [], .nil⟩, 0, 0, by simp, by simp⟩

instance : Inhabited Arena := ⟨empty⟩

/-- The arena that holds a graph, and goes on after its largest identities. -/
def ofGraph (g : Graph) : Arena where
  toGraph := g
  nextNode := g.maxNodeId + 1
  nextEdge := g.maxEdgeId + 1
  nodes_below _ hn := Int.lt_add_one_of_le (Graph.le_largest (List.mem_map_of_mem hn))
  edges_below _ he := Int.lt_add_one_of_le (Graph.le_largest (List.mem_map_of_mem he))

variable (a : Arena)

theorem nextNode_fresh : a.nextNode ∉ a.nodes.map Node.id := by
  intro h
  obtain ⟨n, hn, he⟩ := List.mem_map.1 h
  have := a.nodes_below _ hn
  omega

theorem nextEdge_fresh : a.nextEdge ∉ a.edges.map Edge.id := by
  intro h
  obtain ⟨e, he, hid⟩ := List.mem_map.1 h
  have := a.edges_below e he
  omega

/-- Adds a node under the next identity. -/
def addNode (draft : NodeDraft) : Node × Arena :=
  let n := draft.withId a.nextNode
  (n, { nodes := a.nodes ++ [n]
        edges := a.edges
        wired := a.wired.addNode a.nextNode_fresh
        nextNode := a.nextNode + 1
        nextEdge := a.nextEdge
        nodes_below := by
          intro m hm
          rcases List.mem_append.1 hm with hm | hm
          · have := a.nodes_below m hm; omega
          · rw [List.mem_singleton] at hm
            subst hm
            exact Int.lt_succ a.nextNode
        edges_below := a.edges_below })

/-- Adds an edge under the next identity, if both its ends are there. -/
def addEdge (src dst : Int) (draft : EdgeDraft) : Except Fault (Edge × Arena) :=
  if h : src ∈ a.nodeIds ∧ dst ∈ a.nodeIds then
    let e := draft.withId a.nextEdge src dst
    .ok (e, { nodes := a.nodes
              edges := a.edges ++ [e]
              wired := a.wired.addEdge a.nextEdge_fresh h.1 h.2
              nextNode := a.nextNode
              nextEdge := a.nextEdge + 1
              nodes_below := a.nodes_below
              edges_below := by
                intro f hf
                rcases List.mem_append.1 hf with hf | hf
                · have := a.edges_below f hf; omega
                · rw [List.mem_singleton] at hf
                  subst hf
                  exact Int.lt_succ a.nextEdge })
  else .error (.missingEndpoint .arena src dst)

/-- The arena's own node for a reference. -/
def resolve (ref : NodeRef) : Except Fault Node :=
  match a.node? ref.key with
  | some n => .ok n
  | none => .error (.unknownNode .arena ref)

end Arena

end Flowgraph
