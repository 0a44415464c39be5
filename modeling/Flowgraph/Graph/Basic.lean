import Flowgraph.Distinct
import Flowgraph.Fault
/-!
# Flow graphs

A flow graph is a list of nodes and a list of edges that are `Wired`: identities are distinct, and both
ends of every edge are nodes. `Graph.ofLists` accepts exactly the wired lists (`Graph.fault?_eq_none_iff`).

Nodes and edges keep the order in which they were given, and the neighbours of a node come in the order of
the first edge to each of them. Every analysis follows these orders.
-/

namespace Flowgraph

/-- Distinct identities, and edges whose ends are nodes. -/
structure Wired (nodes : List Node) (edges : List Edge) : Prop where
  nodes_distinct : (nodes.map Node.id).Nodup
  edges_distinct : (edges.map Edge.id).Nodup
  closed : ∀ e ∈ edges, e.src ∈ nodes.map Node.id ∧ e.dst ∈ nodes.map Node.id

/-- A directed graph with several edges allowed between two nodes. -/
structure Graph where
  nodes : List Node
  edges : List Edge
  wired : Wired nodes edges

namespace Wired

theorem nil : Wired [] [] := ⟨List.nodup_nil, List.nodup_nil, by simp⟩

theorem addNode {nodes : List Node} {edges : List Edge} (h : Wired nodes edges) {n : Node}
    (fresh : n.id ∉ nodes.map Node.id) : Wired (nodes ++ [n]) edges where
  nodes_distinct := by
    rw [List.map_append, List.nodup_append]
    exact ⟨h.nodes_distinct, by simp, by grind⟩
  edges_distinct := h.edges_distinct
  closed e he := by have := h.closed e he; simp_all

theorem addEdge {nodes : List Node} {edges : List Edge} (h : Wired nodes edges) {e : Edge}
    (fresh : e.id ∉ edges.map Edge.id) (src : e.src ∈ nodes.map Node.id)
    (dst : e.dst ∈ nodes.map Node.id) : Wired nodes (edges ++ [e]) where
  nodes_distinct := h.nodes_distinct
  edges_distinct := by
    rw [List.map_append, List.nodup_append]
    exact ⟨h.edges_distinct, by simp, by grind⟩
  closed f hf := by
    rcases List.mem_append.1 hf with hf | hf
    · exact h.closed f hf
    · rw [List.mem_singleton] at hf
      exact hf ▸ ⟨src, dst⟩

/-- Two graphs side by side, without a common identity. -/
theorem append {nodes₁ nodes₂ : List Node} {edges₁ edges₂ : List Edge} (h₁ : Wired nodes₁ edges₁)
    (h₂ : Wired nodes₂ edges₂) (nodes : ∀ m ∈ nodes₁, ∀ n ∈ nodes₂, m.id ≠ n.id)
    (edges : ∀ e ∈ edges₁, ∀ f ∈ edges₂, e.id ≠ f.id) :
    Wired (nodes₁ ++ nodes₂) (edges₁ ++ edges₂) where
  nodes_distinct := by
    rw [List.map_append, List.nodup_append]
    refine ⟨h₁.nodes_distinct, h₂.nodes_distinct, ?_⟩
    simp only [List.forall_mem_map]
    exact nodes
  edges_distinct := by
    rw [List.map_append, List.nodup_append]
    refine ⟨h₁.edges_distinct, h₂.edges_distinct, ?_⟩
    simp only [List.forall_mem_map]
    exact edges
  closed e he := by
    simp only [List.map_append, List.mem_append] at he ⊢
    rcases he with he | he
    · exact ⟨Or.inl (h₁.closed e he).1, Or.inl (h₁.closed e he).2⟩
    · exact ⟨Or.inr (h₂.closed e he).1, Or.inr (h₂.closed e he).2⟩

theorem dropEdges {nodes : List Node} {edges : List Edge} (h : Wired nodes edges) (q : Edge → Bool) :
    Wired nodes (edges.filter q) where
  nodes_distinct := h.nodes_distinct
  edges_distinct := h.edges_distinct.sublist (List.filter_sublist.map _)
  closed e he := h.closed e (List.mem_filter.1 he).1

/-- Nodes and edges may be left out, as long as no edge stays without its ends. -/
theorem restrict {nodes : List Node} {edges : List Edge} (h : Wired nodes edges) (p : Node → Bool)
    (q : Edge → Bool)
    (keeps : ∀ e ∈ edges, q e → ∀ n ∈ nodes, n.id = e.src ∨ n.id = e.dst → p n) :
    Wired (nodes.filter p) (edges.filter q) where
  nodes_distinct := h.nodes_distinct.sublist (List.filter_sublist.map _)
  edges_distinct := h.edges_distinct.sublist (List.filter_sublist.map _)
  closed e he := by
    obtain ⟨he, hq⟩ := List.mem_filter.1 he
    obtain ⟨hs, hd⟩ := h.closed e he
    obtain ⟨s, hs, hse⟩ := List.mem_map.1 hs
    obtain ⟨d, hd, hde⟩ := List.mem_map.1 hd
    exact ⟨List.mem_map.2 ⟨s, List.mem_filter.2 ⟨hs, keeps e he hq s hs (Or.inl hse)⟩, hse⟩,
      List.mem_map.2 ⟨d, List.mem_filter.2 ⟨hd, keeps e he hq d hd (Or.inr hde)⟩, hde⟩⟩

end Wired

namespace Graph

instance : Inhabited Graph := ⟨⟨[], [], .nil⟩⟩

theorem ext {g h : Graph} (nodes : g.nodes = h.nodes) (edges : g.edges = h.edges) : g = h := by
  cases g
  cases h
  cases nodes
  cases edges
  rfl

/-! ## Construction -/

/-- The first thing wrong with an edge, `seen` being the identities of the edges before it. -/
def edgeFault? (ids seen : List Int) : List Edge → Option Fault
  | [] => none
  | e :: es =>
    if e.id ∈ seen then some (.duplicateEdge e.id)
    else if e.src ∈ ids ∧ e.dst ∈ ids then edgeFault? ids (e.id :: seen) es
    else some (.danglingEdge e.id e.src e.dst)

/-- The first thing wrong with lists of nodes and edges. -/
def fault? (nodes : List Node) (edges : List Edge) : Option Fault :=
  match firstRepeat? Node.id [] nodes with
  | some n => some (.duplicateNode n.id)
  | none => edgeFault? (nodes.map Node.id) [] edges

theorem edgeFault?_eq_none_iff {ids seen : List Int} {edges : List Edge} :
    edgeFault? ids seen edges = none ↔
      (edges.map Edge.id).Nodup ∧ (∀ e ∈ edges, e.id ∉ seen) ∧
        ∀ e ∈ edges, e.src ∈ ids ∧ e.dst ∈ ids := by
  induction edges generalizing seen with
  | nil => simp [edgeFault?]
  | cons e es ih =>
    simp only [edgeFault?]
    split
    · simp_all
    · split
      · simp only [ih, List.map_cons, List.nodup_cons, List.mem_map, List.mem_cons]
        grind
      · simp_all

theorem fault?_eq_none_iff {nodes : List Node} {edges : List Edge} :
    fault? nodes edges = none ↔ Wired nodes edges := by
  simp only [fault?]
  split
  · rename_i n h
    refine ⟨fun h => by simp at h, fun w => ?_⟩
    rw [firstRepeat?_nil_eq_none_iff.2 w.nodes_distinct] at h
    cases h
  · rename_i h
    have hn := firstRepeat?_nil_eq_none_iff.1 h
    rw [edgeFault?_eq_none_iff]
    constructor
    · rintro ⟨he, -, hc⟩
      exact ⟨hn, he, hc⟩
    · intro w
      exact ⟨w.edges_distinct, by simp, w.closed⟩

/-- The graph with the given nodes and edges. -/
def ofLists (nodes : List Node) (edges : List Edge) : Except Fault Graph :=
  match h : fault? nodes edges with
  | some fault => .error fault
  | none => .ok ⟨nodes, edges, fault?_eq_none_iff.1 h⟩

variable (g : Graph)

/-! ## Elements -/

def nodeIds : List Int := g.nodes.map Node.id

def node? (id : Int) : Option Node := g.nodes.find? (·.id == id)

def edge? (id : Int) : Option Edge := g.edges.find? (·.id == id)

def hasNode (id : Int) : Bool := g.nodes.any (·.id == id)

def hasEdge (id : Int) : Bool := g.edges.any (·.id == id)

/-- The graph's own node for a reference. -/
def resolve (ref : NodeRef) : Except Fault Node :=
  match g.node? ref.key with
  | some n => .ok n
  | none => .error (.unknownNode .graph ref)

/-- The edge of an identity, or the fault that there is none. -/
def edge (id : Int) : Except Fault Edge :=
  match g.edge? id with
  | some e => .ok e
  | none => .error (.unknownEdge .graph id)

/-- The first node of a display name. -/
def named (name : String) : Except Fault Node :=
  match g.nodes.find? (·.name == name) with
  | some n => .ok n
  | none => .error (.noNodeNamed name)

/-- The nodes with one of some identities, in graph order. -/
def pick (ids : List Int) : List Node := g.nodes.filter (ids.contains ·.id)

/-- The nodes without one of some identities, in graph order. -/
def others (ids : List Int) : List Node := g.nodes.filter (!ids.contains ·.id)

/-- The nodes of some identities, in the order of these. -/
def lookUp (ids : List Int) : List Node := ids.filterMap g.node?

def nodesOfKind (kinds : List NodeKind) : List Node := g.nodes.filter (kinds.contains ·.kind)

/-- The nodes where control enters the function. -/
def roots : List Node := g.nodes.filter (·.isRoot)

/-- The nodes where control leaves the function. -/
def exitPoints : List Node := g.nodes.filter (·.isExitPoint)

/-! ## Neighbours -/

def outEdges (id : Int) : List Edge := g.edges.filter (·.src == id)

def inEdges (id : Int) : List Edge := g.edges.filter (·.dst == id)

/-- The nodes that the edges of a node lead to, each once, in the order of the first edge to it. -/
def succs (id : Int) : List Int := ((g.outEdges id).map Edge.dst).eraseDups

/-- The nodes that the edges to a node come from, each once, in the order of the first edge from it. -/
def preds (id : Int) : List Int := ((g.inEdges id).map Edge.src).eraseDups

/-- The neighbours that a walk in a direction goes on to. -/
def ahead : Direction → Int → List Int
  | .forward => g.succs
  | .backward => g.preds

/-- The neighbours that a walk in a direction comes from. -/
def behind : Direction → Int → List Int
  | .forward => g.preds
  | .backward => g.succs

/-- The edges that lead back to their own source. -/
def loops : List Edge := g.edges.filter Edge.isLoop

def between (src dst : Int) : List Edge := (g.outEdges src).filter (·.dst == dst)

/-- The edges between two nodes that are asked for. The second reference is looked up first. -/
def edgesBetween (src dst : NodeRef) : Except Fault (List Edge) := do
  let d ← g.resolve dst
  let s ← g.resolve src
  return g.between s.id d.id

/-! ## Parts of a graph -/

def withoutEdges (ids : List Int) : Graph :=
  ⟨g.nodes, g.edges.filter (!ids.contains ·.id), g.wired.dropEdges _⟩

/-- The nodes of some identities and the edges between them. -/
def induced (ids : List Int) : Graph :=
  ⟨g.pick ids, g.edges.filter fun e => ids.contains e.src && ids.contains e.dst,
    g.wired.restrict _ _ fun e _ hq n _ hn => by
      simp only [Bool.and_eq_true] at hq
      rcases hn with hn | hn
      · exact hn ▸ hq.1
      · exact hn ▸ hq.2⟩

/-! ## Sizes and largest identities -/

/-- The largest of some identities, and minus one where there are none. -/
def largest (ids : List Int) : Int := ids.max?.getD (-1)

theorem le_largest {ids : List Int} {i : Int} (h : i ∈ ids) : i ≤ largest ids := by
  cases hm : ids.max? with
  | none => simp_all
  | some m => simpa [largest, hm] using (List.max?_le_iff hm).1 (Int.le_refl m) i h

def maxNodeId : Int := largest g.nodeIds

def maxEdgeId : Int := largest (g.edges.map Edge.id)

def display : String := s!"Graph(nodes={g.nodes.length}, edges={g.edges.length})"

end Graph

end Flowgraph
