import Flowgraph.Dominance.Table
/-!
# Dominance analysis

The dominators of an augmented graph seen from its entry or, against the edges, from its exit; the immediate
dominators, which make a tree; and the dominance frontiers. The frontier of a node holds the nodes that it does not
strictly dominate though it dominates a node right before them. It is found by climbing the tree from each
node right before a node up to the immediate dominator of that node.
-/

namespace Flowgraph

/-- The results of an analysis. Sets belong to the nodes of `order`, the reachable ones. -/
structure Dominance where
  flow : Flow
  rootName : String
  order : List Int
  table : NodeTable
  passes : Nat
  idoms : List (Int × Option Int)
  frontiers : NodeTable

namespace Dominance

/-! ## Immediate dominators and frontiers -/

/-- The strict dominator of a node that all its other strict dominators dominate. -/
def idomIn (root : Int) (table : NodeTable) (n : Int) : Option Int :=
  if n = root then none
  else
    let strict := (table.sets n).filter (· != n)
    strict.find? fun d => table.sets d == strict

def parent (idoms : List (Int × Option Int)) (n : Int) : Option Int := (idoms.lookup n).getD none

/-- The nodes from a node upwards in the tree, up to and without a last one. Dominators have fewer dominators than
the nodes they dominate. -/
def climb (table : NodeTable) (idoms : List (Int × Option Int)) (stop : Option Int) (n : Int) : List Int :=
  if some n = stop then []
  else n :: match parent idoms n with
    | none => []
    | some d =>
      if (table.sets d).length < (table.sets n).length then climb table idoms stop d else []
  termination_by (table.sets n).length

/-- The nodes that have a node in their frontier. -/
def facing (f : Flow) (order : List Int) (table : NodeTable) (idoms : List (Int × Option Int)) (n : Int) :
    List Int :=
  (f.predsIn order n).flatMap (climb table idoms (parent idoms n))

/-- The frontier of every reachable node. -/
def frontiersIn (f : Flow) (order : List Int) (table : NodeTable) (idoms : List (Int × Option Int)) :
    NodeTable :=
  let faced := order.map fun n => (n, facing f order table idoms n)
  order.map fun x => (x, (faced.filter fun row => row.2.contains x).map Prod.fst)

/-! ## The analysis -/

def analyse (a : Augmented) (direction : Direction) : Dominance :=
  let f : Flow := ⟨a.graph, direction, (a.root direction).id⟩
  let order := f.order
  let (table, passes) := f.dominators
  let idoms := order.map fun n => (n, idomIn f.root table n)
  { flow := f
    rootName := (a.root direction).name
    order := order
    table := table
    passes := passes
    idoms := idoms
    frontiers := frontiersIn f order table idoms }

variable (d : Dominance)

/-- The nodes that the analysis does not reach, in graph order. -/
def unreachable : List Node := d.flow.graph.others d.order

/-- The node that is asked for, which must be reachable. -/
def check (ref : NodeRef) : Except Fault Node := do
  let n ← d.flow.graph.resolve ref
  if d.order.contains n.id then return n
  else throw (.unreachable n.name d.rootName d.flow.direction)

/-- All the nodes that dominate a node, the node itself included. -/
def dominators (ref : NodeRef) : Except Fault (List Int) := do
  let n ← d.check ref
  return d.table.sets n.id

/-- The closest strict dominator of a node. The root has none. -/
def immediate (ref : NodeRef) : Except Fault (Option Int) := do
  let n ← d.check ref
  return parent d.idoms n.id

def dominates (a b : NodeRef) : Except Fault Bool := do
  let n ← d.check a
  let above ← d.dominators b
  return above.contains n.id

/-- Whether the first node dominates the second and is another node. -/
def strictlyDominates (a b : NodeRef) : Except Fault Bool := do
  let m ← d.flow.graph.resolve a
  let n ← d.flow.graph.resolve b
  if m.id = n.id then return false else d.dominates a b

/-- The frontier of a node. A node that is not reachable has an empty one. -/
def frontier (ref : NodeRef) : Except Fault (List Int) := do
  let n ← d.flow.graph.resolve ref
  return d.frontiers.sets n.id

/-- The nodes that each node immediately dominates. -/
def tree : NodeTable := d.order.map fun n => (n, d.order.filter fun c => parent d.idoms c == some n)

/-! ## Closure under frontiers -/

/-- Adds a node to a closure, unless it is there. The second list holds the nodes outside. -/
def absorb (state : List Int × List Int) (n : Int) : List Int × List Int :=
  if n ∈ state.2 then (state.1 ++ [n], state.2.erase n) else state

/-- Adds the frontiers of all members of a closure, each in the order of identities. -/
def spread (state : List Int × List Int) : List Int × List Int :=
  state.1.foldl (fun s n => ((d.frontiers.sets n).mergeSort (· ≤ ·)).foldl absorb s) state

/-- Spreads a closure until it does not grow. -/
def close (state : List Int × List Int) : List Int :=
  let state' := d.spread state
  if state'.2.length < state.2.length then close state' else state'.1
  termination_by state.2.length

/-- Some nodes closed under frontiers: the nodes themselves, then those added, in the order of discovery. -/
def closure (seeds : List Int) : List Int :=
  let seeds := seeds.eraseDups
  d.close (seeds, d.flow.graph.nodeIds.filter fun n => !seeds.contains n)

/-- The nodes that are asked for, closed under frontiers. -/
def iteratedFrontier (refs : List NodeRef) : Except Fault (List Int) := do
  let seeds ← refs.mapM d.flow.graph.resolve
  return d.closure (seeds.map Node.id)

/-! ## Messages -/

def reports : List Report :=
  let what := d.flow.direction.analysisName
  let missed := d.unreachable
  (if missed.isEmpty then []
   else [.record ⟨.info, .dominance,
    s!"{what} analysis: {missed.length} node(s) unreachable from {d.rootName}: {nameList missed}"⟩]) ++
  [.record ⟨.debug, .dominance, s!"{what} fixpoint reached after {d.passes} pass(es)"⟩]

def display : String :=
  s!"DominanceAnalysis({d.flow.direction.analysisName}, root={Text.quote d.rootName}, " ++
  s!"reachable={d.order.length}, unreachable={d.unreachable.length})"

end Dominance

def Augmented.dominance (a : Augmented) (direction : Direction) : Task Dominance := do
  let d := Dominance.analyse a direction
  Task.reportAll d.reports
  return d

end Flowgraph
