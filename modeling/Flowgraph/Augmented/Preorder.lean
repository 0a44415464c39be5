import Flowgraph.Augmented.Basic
/-!
# Depth-first pre-order

A walk that emits a node, then goes on from it in the order of its neighbours, deepest first. It remembers the
arcs that it has still to cross, and crosses each of them once: a node is emitted once for each arc to it that the
walk crosses, and the start once more. The walk can be taken step by step (`next?`, `pull`) or to its end
(`rest`); every step uses up an arc or a waiting node.
-/

namespace Flowgraph

/-- A walk under way: the arcs not yet crossed, and the nodes that wait, the next one first. -/
structure Preorder where
  graph : Graph
  direction : Direction
  uncrossed : List (Int × Int)
  waiting : List Int

namespace Preorder

/-- The pairs of neighbours in a direction, each once. -/
def arcs (g : Graph) : Direction → List (Int × Int)
  | .forward => (g.edges.map fun e => (e.src, e.dst)).eraseDups
  | .backward => (g.edges.map fun e => (e.dst, e.src)).eraseDups

def start (g : Graph) (direction : Direction) (node : Int) : Preorder :=
  ⟨g, direction, arcs g direction, [node]⟩

/-- Crosses the arcs from a node to some neighbours, as far as they are uncrossed: the neighbours reached in
this way, and the arcs still uncrossed. -/
def cross (n : Int) : List Int → List (Int × Int) → List Int × List (Int × Int)
  | [], uncrossed => ([], uncrossed)
  | m :: ms, uncrossed =>
    if (n, m) ∈ uncrossed then
      let (reached, left) := cross n ms (uncrossed.erase (n, m))
      (m :: reached, left)
    else cross n ms uncrossed

theorem length_cross (n : Int) (ms : List Int) (uncrossed : List (Int × Int)) :
    (cross n ms uncrossed).1.length + (cross n ms uncrossed).2.length = uncrossed.length := by
  induction ms generalizing uncrossed with
  | nil => simp [cross]
  | cons m ms ih =>
    simp only [cross]
    split
    · rename_i h
      have := ih (uncrossed.erase (n, m))
      have := List.length_erase_of_mem h
      have := List.length_pos_of_mem h
      simp only [List.length_cons]
      omega
    · exact ih uncrossed

/-- The next node, and the walk after it. -/
def next? (p : Preorder) : Option (Int × Preorder) :=
  match p.waiting with
  | [] => none
  | n :: waiting =>
    let (reached, uncrossed) := cross n (p.graph.ahead p.direction n) p.uncrossed
    some (n, { p with uncrossed := uncrossed, waiting := reached ++ waiting })

/-- The steps that are left to a walk. -/
def remaining (p : Preorder) : Nat := p.uncrossed.length + p.waiting.length

theorem remaining_next? {p q : Preorder} {n : Int} (h : p.next? = some (n, q)) :
    q.remaining + 1 = p.remaining := by
  unfold next? at h
  split at h
  · cases h
  · rename_i m waiting hw
    have := length_cross m (p.graph.ahead p.direction m) p.uncrossed
    simp only [Option.some.injEq, Prod.mk.injEq] at h
    obtain ⟨-, rfl⟩ := h
    simp only [remaining, hw, List.length_append, List.length_cons]
    omega

/-- The next nodes, at most as many as asked for, and the walk after them. -/
def pull : Nat → Preorder → List Int × Preorder
  | 0, p => ([], p)
  | k + 1, p =>
    match p.next? with
    | none => ([], p)
    | some (n, q) =>
      let (ns, r) := pull k q
      (n :: ns, r)

def rest (p : Preorder) : List Int :=
  match _h : p.next? with
  | none => []
  | some (n, q) => n :: q.rest
  termination_by p.remaining
  decreasing_by have := remaining_next? _h; omega

/-- The walk with nothing left to emit. -/
def done (p : Preorder) : Preorder := { p with uncrossed := [], waiting := [] }

end Preorder

/-- The nodes in the order in which a walk first emits them. -/
def Graph.preorder (g : Graph) (direction : Direction) (node : Int) : List Int :=
  (Preorder.start g direction node).rest.eraseDups

end Flowgraph
