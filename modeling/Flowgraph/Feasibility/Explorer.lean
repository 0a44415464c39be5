import Flowgraph.Augmented.Basic
import Flowgraph.Branch.Solver
import Flowgraph.Graph.Loop
/-!
# Paths of a function

An explorer holds the loop-free graph of a function with all its paths, each from a root to a node without
successors. Paths are listed root by root and then in the order of successors; a function with more paths than allowed
is refused.
-/

namespace Flowgraph

/-- A function without its loops, its paths, and a solver for their constraints. -/
structure Explorer where
  name : Option String
  graph : Graph
  solver : Solver
  paths : List (List Node)

def Graph.successors (g : Graph) (n : Node) : List Node := g.lookUp (g.succs n.id)

namespace Explorer

/-- Adds a path to those found, unless that makes too many. -/
def addPath (limit : Nat) (found : Array (List Node)) (path : List Node) : Option (Array (List Node)) :=
  if limit < found.size + 1 then none else some (found.push path)

/-- Adds the paths that go on from a node after some others, at most `depth` nodes deep. -/
def extend (g : Graph) (limit : Nat) : (depth : Nat) → (before : List Node) → Node →
    Array (List Node) → Option (Array (List Node))
  | 0, _, _, found => some found
  | depth + 1, before, n, found =>
    match g.successors n with
    | [] => addPath limit found (before ++ [n])
    | children => children.foldlM (fun found c => extend g limit depth (before ++ [n]) c found) found

/-- The paths from some roots, if they are not too many. A path of a graph without cycles has no more nodes than the
graph. -/
def enumerate (g : Graph) (limit : Nat) (roots : List Node) : Option (List (List Node)) :=
  (roots.foldlM (fun found r => extend g limit g.nodes.length [] r found) #[]).map Array.toList

/-- Explores a function. Settings are checked first, then the function; the solver is the given one or, without one,
that of the settings. -/
def create (g : Graph) (settings : Settings) (solver : Option Solver) (external : Option External)
    (name : Option String) : Task Explorer := do
  let limits ← match settings.limits with
    | .ok limits => pure limits
    | .error fault => throw (.settings fault)
  let a ← g.augment name
  let h ← g.removeLoops limits.repairCycles
  let solver ← match solver with
    | some s => pure s
    | none => Task.ofExcept (Solver.ofLimits limits external)
  match enumerate h limits.maxPaths a.base.roots with
  | none => throw (.tooManyPaths name limits.maxPaths)
  | some paths =>
    Task.log .info .feasibility s!"CFG{ofFunction name}: enumerated {paths.length} path(s)"
    return ⟨name, h, solver, paths⟩

variable (x : Explorer)

/-! ## Selecting paths -/

def containing (ref : NodeRef) : Except Fault (List (List Node)) := do
  let n ← x.graph.resolve ref
  return x.paths.filter fun p => p.any (·.id == n.id)

def containingBoth (a b : NodeRef) : Except Fault (List (List Node)) := do
  let m ← x.graph.resolve a
  let n ← x.graph.resolve b
  return x.paths.filter fun p => p.any (·.id == m.id) && p.any (·.id == n.id)

/-- Whether a path is selected by a first node, a second node and nodes to avoid. Without a first node nothing to be
avoided may come before the second; without a second node, nothing after the first; with both, the first comes
no later than the second and nothing to be avoided lies strictly between them. -/
def selects (first second : Option Int) (avoid path : List Int) : Bool :=
  let clean (part : List Int) : Bool := part.all fun n => !avoid.contains n
  match first, second with
  | none, none => true
  | none, some b => path.contains b && clean (path.take (path.idxOf b))
  | some a, none => path.contains a && clean (path.drop (path.idxOf a + 1))
  | some a, some b =>
    path.contains a && path.contains b && path.idxOf a ≤ path.idxOf b &&
      (a == b || clean ((path.take (path.idxOf b)).drop (path.idxOf a + 1)))

/-- What a query asks for: paths from a first node to a second, avoiding some others in between. -/
structure Query where
  first : Option NodeRef := none
  second : Option NodeRef := none
  excluded : List NodeRef := []

/-- A query with its nodes looked up. -/
structure Selection where
  first : Option Node
  second : Option Node
  excluded : List Node

/-- Looks up the nodes of a query. -/
def look (q : Query) : Except Fault Selection := do
  let first ← q.first.mapM x.graph.resolve
  let second ← q.second.mapM x.graph.resolve
  let excluded ← q.excluded.mapM x.graph.resolve
  return ⟨first, second, excluded⟩

/-- The paths of a selection, in order. -/
def select (s : Selection) : List (List Node) :=
  x.paths.filter fun p =>
    selects (s.first.map Node.id) (s.second.map Node.id) (s.excluded.map Node.id) (p.map Node.id)

/-- The paths that a query selects. -/
def between (q : Query) : Except Fault (List (List Node)) := x.select <$> x.look q

/-- The conditions of the function, each once, in graph order. -/
def conditionNames : List String := ((x.graph.nodes.filter Node.isCondition).map Node.name).eraseDups

def display : String :=
  let name := match x.name with
    | some name => Text.quote name
    | none => "None"
  s!"FeasibilityChecker(name={name}, paths={x.paths.length}, solver={Text.quote x.solver.engine.name})"

end Explorer

end Flowgraph
