import Flowgraph.Graph.Basic
import Flowgraph.Report
/-!
# Loops

Back edges are the edges that a depth-first search finds to lead to a node of the path it stands on. Without
them a graph has no cycle. Loop removal drops the edges that are flagged as closing a loop and then, if it
may, the back edges that are left.
-/

namespace Flowgraph.Graph

variable (g : Graph)

/-- The nodes on the search's path, the last one first, each with the edges it has still to follow. -/
abbrev Path := List (Int × List Edge)

/-- How much a path has still to do. -/
def Path.work : Path → Nat
  | [] => 0
  | (_, edges) :: path => edges.length + 1 + work path

/-- A depth-first search from the given starts in turn, following edges in order: the edges that lead back to
the path it stands on. -/
def searchBack (unvisited : List Int) (path : Path) (starts : List Int) : List Edge :=
  match path with
  | [] =>
    match starts with
    | [] => []
    | s :: starts =>
      if s ∈ unvisited then searchBack (unvisited.erase s) [(s, g.outEdges s)] starts
      else searchBack unvisited [] starts
  | (_, []) :: path => searchBack unvisited path starts
  | (n, e :: es) :: path =>
    let path := (n, es) :: path
    if path.any (·.1 == e.dst) then e :: searchBack unvisited path starts
    else if e.dst ∈ unvisited then
      searchBack (unvisited.erase e.dst) ((e.dst, g.outEdges e.dst) :: path) starts
    else searchBack unvisited path starts
  termination_by (unvisited.length, Path.work path + starts.length)
  decreasing_by
    · rename_i h
      have := List.length_erase_of_mem h
      have := List.length_pos_of_mem h
      apply Prod.Lex.left
      omega
    · apply Prod.Lex.right
      simp [Path.work]
    · apply Prod.Lex.right
      simp [Path.work]
    · apply Prod.Lex.right
      simp [Path.work]
    · rename_i h
      have := List.length_erase_of_mem h
      have := List.length_pos_of_mem h
      apply Prod.Lex.left
      omega
    · apply Prod.Lex.right
      simp [Path.work]

/-- The back edges that a search from some nodes, and then from all others, finds. -/
def backEdgesFrom (starts : List Int) : List Edge :=
  g.searchBack g.nodeIds [] (starts ++ g.nodeIds.filter fun n => !starts.contains n)

/-- The back edges that a search from the roots, and then from all other nodes, finds. -/
def backEdges : List Edge := g.backEdgesFrom (g.roots.map Node.id)

/-- The back edges that a search from the nodes that are asked for finds. -/
def backEdgesOf (refs : List NodeRef) : Except Fault (List Edge) := do
  let starts ← refs.mapM g.resolve
  return g.backEdgesFrom (starts.map Node.id)

def isAcyclic : Bool := g.backEdges.isEmpty

/-- The graph without the edges that are flagged as closing a loop. -/
def unflagged : Graph := g.withoutEdges ((g.edges.filter (·.back)).map Edge.id)

/-- The graph without loops. Cycles of edges that are not flagged are broken only under `repair`. -/
def loopFree (repair : Bool) : Except Fault Graph :=
  let h := g.unflagged
  let closing := h.backEdges
  if closing.isEmpty then .ok h
  else if repair then .ok (h.withoutEdges (closing.map Edge.id))
  else .error (.unflaggedCycles closing.length)

/-- Removes loops, and records the edges that had to be dropped though they are not flagged. -/
def removeLoops (repair : Bool) : Task Graph := do
  let closing := g.unflagged.backEdges
  let h ← Task.ofExcept (g.loopFree repair)
  unless closing.isEmpty do
    let shown := ", ".intercalate (closing.map fun e => s!"{e.src}->{e.dst}")
    Task.log .warning .augmentation
      s!"dropping {closing.length} unflagged back edge(s) to obtain a DAG: {shown}"
  return h

end Flowgraph.Graph
