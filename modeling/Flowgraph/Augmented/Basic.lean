import Flowgraph.Graph.Draft
import Flowgraph.Graph.Reach
import Flowgraph.Report
/-!
# Augmented graphs

A function may be entered at several roots and left at several exit points. An augmented graph wraps it between
one entry, with an edge to each root, and one exit, with an edge from each exit point. The new elements come
after the function's own ones and have identities above theirs.
-/

namespace Flowgraph

/-- A function's graph that can be augmented: it has a root, and neither entry nor exit yet. -/
structure Augmented where
  base : Graph
  name : Option String
  unaugmented : base.nodesOfKind [.entry, .exit] = []
  rooted : base.roots ≠ []

namespace Augmented

/-- The name and tag of the entry. -/
def entryName : String := "EFG_ENTRY"

/-- The name and tag of the exit. -/
def exitName : String := "EFG_EXIT"

def entryLinkTag : String := "CFG_ENTRY_EDGE"

def exitLinkTag : String := "CFG_EXIT_EDGE"

/-- Takes a function's graph, if it can be augmented. -/
def ofGraph (g : Graph) (name : Option String) : Except Fault Augmented :=
  if hp : g.nodesOfKind [.entry, .exit] = [] then
    if hr : g.roots = [] then .error (.noRoot name) else .ok ⟨g, name, hp, hr⟩
  else .error (.syntheticNodes (g.nodesOfKind [.entry, .exit]))

variable (a : Augmented)

def entry : Node :=
  { id := a.base.maxNodeId + 1, kind := .entry, name := entryName, attrs := [("tag", entryName)] }

def exit : Node :=
  { id := a.base.maxNodeId + 2, kind := .exit, name := exitName, attrs := [("tag", exitName)] }

/-- The new edges without their identities: to each root, then from each exit point. -/
def links : List (EdgeDraft × Int × Int) :=
  (a.base.roots.map fun n =>
    ({ kind := .entryLink, tags := .ofList [entryLinkTag] }, a.entry.id, n.id)) ++
  (a.base.exitPoints.map fun n =>
    ({ kind := .exitLink, tags := .ofList [exitLinkTag] }, n.id, a.exit.id))

def linkEdges : List Edge :=
  a.links.zipIdx.map fun ((draft, src, dst), i) => draft.withId (a.base.maxEdgeId + 1 + i) src dst

theorem linkEdges_ids :
    a.linkEdges.map Edge.id = (List.range a.links.length).map fun (i : Nat) => a.base.maxEdgeId + 1 + i := by
  have h : a.linkEdges.map Edge.id
      = (a.links.zipIdx.map Prod.snd).map fun (i : Nat) => a.base.maxEdgeId + 1 + i := by
    simp only [linkEdges, List.map_map]
    rfl
  rw [h, List.zipIdx_map_snd, ← List.range_eq_range']

theorem wired : Wired (a.base.nodes ++ [a.entry, a.exit]) (a.base.edges ++ a.linkEdges) where
  nodes_distinct := by
    rw [List.map_append, List.nodup_append]
    refine ⟨a.base.wired.nodes_distinct, by simp [entry, exit], fun i hi j hj => ?_⟩
    have : i ≤ a.base.maxNodeId := Graph.le_largest hi
    simp [entry, exit] at hj
    omega
  edges_distinct := by
    rw [List.map_append, List.nodup_append, linkEdges_ids]
    refine ⟨a.base.wired.edges_distinct, ?_, fun i hi j hj => ?_⟩
    · rw [List.Nodup, List.pairwise_map]
      exact List.nodup_range.imp fun {i j} hij heq => hij (by omega)
    · have : i ≤ a.base.maxEdgeId := Graph.le_largest hi
      obtain ⟨k, -, rfl⟩ := List.mem_map.1 hj
      omega
  closed e he := by
    have own {n : Node} {p : Node → Bool} (h : n ∈ a.base.nodes.filter p) :
        n.id ∈ (a.base.nodes ++ [a.entry, a.exit]).map Node.id :=
      List.mem_map_of_mem (List.mem_append_left _ (List.mem_filter.1 h).1)
    rcases List.mem_append.1 he with he | he
    · have := a.base.wired.closed e he
      simp only [List.map_append, List.mem_append]
      exact ⟨Or.inl this.1, Or.inl this.2⟩
    · obtain ⟨⟨⟨draft, src, dst⟩, i⟩, hl, rfl⟩ := List.mem_map.1 he
      rcases List.mem_append.1 (List.fst_mem_of_mem_zipIdx hl) with hl | hl
      · obtain ⟨n, hn, heq⟩ := List.mem_map.1 hl
        simp only [Prod.mk.injEq] at heq
        obtain ⟨-, rfl, rfl⟩ := heq
        exact ⟨by simp, own hn⟩
      · obtain ⟨n, hn, heq⟩ := List.mem_map.1 hl
        simp only [Prod.mk.injEq] at heq
        obtain ⟨-, rfl, rfl⟩ := heq
        exact ⟨own hn, by simp⟩

def graph : Graph := ⟨a.base.nodes ++ [a.entry, a.exit], a.base.edges ++ a.linkEdges, a.wired⟩

/-- The node where an analysis in a direction starts. -/
def root : Direction → Node
  | .forward => a.entry
  | .backward => a.exit

/-- The nodes that a walk from a node gets to. -/
def reachableFrom (ref : NodeRef) (dir : Direction) : Except Fault (List Int) := do
  let n ← a.graph.resolve ref
  return a.graph.reachable dir n.id

def display : String :=
  let name := match a.name with
    | some name => Text.quote name
    | none => "None"
  s!"ControlFlowGraph(name={name}, nodes={a.graph.nodes.length}, edges={a.graph.edges.length})"

/-- What is recorded when a function's graph is augmented. -/
def reports : List Report :=
  let function := ofFunction a.name
  (if a.base.exitPoints.isEmpty then
    [.record ⟨.warning, .augmentation,
      s!"CFG{function} has no control-flow exit point; the master exit node is unreachable"⟩]
   else []) ++
  [.record ⟨.debug, .augmentation, s!"augmented CFG{function}: {a.base.roots.length} roots, " ++
    s!"{a.base.exitPoints.length} exit points, {a.graph.display}"⟩]

end Augmented

/-- Augments a function's graph, and records it. -/
def Graph.augment (g : Graph) (name : Option String) : Task Augmented := do
  let a ← Task.ofExcept (Augmented.ofGraph g name)
  Task.reportAll a.reports
  return a

end Flowgraph
