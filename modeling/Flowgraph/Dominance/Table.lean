import Flowgraph.Augmented.Preorder
/-!
# Dominator tables

A node dominates another if every walk from the root to the second passes through the first. The dominators of
all reachable nodes are computed together. At first every node but the root is taken to be dominated by all;
then, pass after pass, the dominators of a node become the node itself and what dominates all the nodes before
it, until a pass changes nothing.

Every set of nodes lists them in the order of the depth-first walk, so that equal sets are equal lists.
-/

namespace Flowgraph

/-- A graph walked from a root in a direction. -/
structure Flow where
  graph : Graph
  direction : Direction
  root : Int

/-- Sets of nodes for some nodes. -/
abbrev NodeTable := List (Int × List Int)

namespace NodeTable

/-- The set of a node; a node that is not in the table has none. -/
def sets (t : NodeTable) (n : Int) : List Int := (t.lookup n).getD []

def set (t : NodeTable) (n : Int) (s : List Int) : NodeTable :=
  t.map fun row => if row.1 = n then (n, s) else row

/-- The number of entries of all sets together. -/
def weight : NodeTable → Nat
  | [] => 0
  | (_, s) :: t => s.length + weight t

end NodeTable

namespace Flow

variable (f : Flow)

/-- The reachable nodes, in the order of the depth-first walk. -/
def order : List Int := f.graph.preorder f.direction f.root

/-- The nodes among some others that a walk comes from on its way to a node. -/
def predsIn (order : List Int) (n : Int) : List Int :=
  (f.graph.behind f.direction n).filter order.contains

/-- What dominates a node according to what the table says of the nodes before it. -/
def recompute (order : List Int) (t : NodeTable) (n : Int) : List Int :=
  match f.predsIn order n with
  | [] => [n]
  | preds =>
    let above := preds.map t.sets
    order.filter fun x => x == n || above.all (·.contains x)

/-- One pass over all nodes but the root, each recomputed from the table as it then is. -/
def pass (order : List Int) (t : NodeTable) : NodeTable :=
  order.foldl (fun t n => if n = f.root then t else t.set n (f.recompute order t n)) t

def initial (order : List Int) : NodeTable :=
  order.map fun n => (n, if n = f.root then [n] else order)

/-- Passes until one changes nothing, and their number. A pass that changes something makes the table smaller. -/
def settle (order : List Int) (t : NodeTable) (passes : Nat) : NodeTable × Nat :=
  let t' := f.pass order t
  if t' = t then (t', passes + 1)
  else if t'.weight < t.weight then settle order t' (passes + 1)
  else (t', passes + 1)
  termination_by t.weight

/-- The dominators of every reachable node, and the number of passes it took to find them. -/
def dominators : NodeTable × Nat := f.settle f.order (f.initial f.order) 0

end Flow

end Flowgraph
