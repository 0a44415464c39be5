import Flowgraph.Graph.Basic
/-!
# Reachability

The nodes that a walk can get to, found by a search that visits each node once. The search keeps the list of
nodes that it has not visited; every visit makes it shorter. Where only one node is of interest, the search stops there.
-/

namespace Flowgraph.Graph

variable (g : Graph) (dir : Direction)

/-- Visits the pending nodes and whatever they lead to, and gives the nodes that stay unvisited. -/
def explore (unvisited pending : List Int) : List Int :=
  match pending with
  | [] => unvisited
  | n :: pending =>
    if n ∈ unvisited then explore (unvisited.erase n) (g.ahead dir n ++ pending)
    else explore unvisited pending
  termination_by (unvisited.length, pending.length)
  decreasing_by
    · rename_i h
      have := List.length_erase_of_mem h
      have := List.length_pos_of_mem h
      apply Prod.Lex.left
      omega
    · apply Prod.Lex.right
      simp

/-- The nodes reachable from a node, in graph order. -/
def reachable (start : Int) : List Int :=
  let unvisited := g.explore dir g.nodeIds [start]
  g.nodeIds.filter fun n => !unvisited.contains n

/-- Whether a search from the pending nodes comes upon a node. -/
def finds (goal : Int) (unvisited pending : List Int) : Bool :=
  match pending with
  | [] => false
  | n :: pending =>
    if n = goal then true
    else if n ∈ unvisited then finds goal (unvisited.erase n) (g.ahead dir n ++ pending)
    else finds goal unvisited pending
  termination_by (unvisited.length, pending.length)
  decreasing_by
    · rename_i h
      have := List.length_erase_of_mem h
      have := List.length_pos_of_mem h
      apply Prod.Lex.left
      omega
    · apply Prod.Lex.right
      simp

/-- Whether a node can be reached from a node. -/
def leadsTo (start goal : Int) : Bool := g.finds dir goal g.nodeIds [start]

end Flowgraph.Graph
