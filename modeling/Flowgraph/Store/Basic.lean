import Flowgraph.Graph.Basic
import Flowgraph.Graph.Draft
import Flowgraph.Text.LowerCase
/-!
# Stores

A store holds the nodes and edges of many functions for tools that share them, each element with the tags that it
carries at present. It hands out identities, and never one twice: every identity in use is below the next one.
What it holds is a graph at every moment (`Store.graph`).

An edge also remembers the tags that it was created with.
-/

namespace Flowgraph

/-- An element with the tags that it carries. -/
structure Tagged (α : Type) where
  item : α
  tags : TagSet
  deriving DecidableEq

def items {α : Type} (l : List (Tagged α)) : List α := l.map (·.item)

/-- Tagged nodes and edges, with the next identities to hand out. -/
structure Store where
  nodes : List (Tagged Node)
  edges : List (Tagged Edge)
  nextNode : Int
  nextEdge : Int
  wired : Wired (items nodes) (items edges)
  nodes_below : ∀ n ∈ items nodes, n.id < nextNode
  edges_below : ∀ e ∈ items edges, e.id < nextEdge

namespace Store

def empty : Store := ⟨[], [], 0, 0, .nil, by simp [items], by simp [items]⟩

instance : Inhabited Store := ⟨empty⟩

@[simp] theorem items_map_mk {α : Type} (l : List α) (tags : α → TagSet) :
    items (l.map fun x => ⟨x, tags x⟩) = l := by
  simp [items, Function.comp_def]

/-- The store that holds a graph under its own identities. Edges carry their tags, nodes none. -/
def ofGraph (g : Graph) : Store where
  nodes := g.nodes.map fun n => ⟨n, ∅⟩
  edges := g.edges.map fun e => ⟨e, e.tags⟩
  nextNode := g.maxNodeId + 1
  nextEdge := g.maxEdgeId + 1
  wired := by simpa using g.wired
  nodes_below n hn := Int.lt_add_one_of_le (Graph.le_largest (List.mem_map_of_mem (by simpa using hn)))
  edges_below e he := Int.lt_add_one_of_le (Graph.le_largest (List.mem_map_of_mem (by simpa using he)))

variable (s : Store)

/-! ## Looking up -/

def nodeIds : List Int := (items s.nodes).map Node.id

def hasNode (id : Int) : Bool := s.nodes.any (·.item.id == id)

def hasEdge (id : Int) : Bool := s.edges.any (·.item.id == id)

def has : ElementRef → Bool
  | .node ref => s.hasNode ref.key
  | .edge id => s.hasEdge id

/-- The node that is asked for, with its tags. -/
def taggedNode (ref : NodeRef) : Except Fault (Tagged Node) :=
  match s.nodes.find? (·.item.id == ref.key) with
  | some n => .ok n
  | none => .error (.unknownNode .store ref)

/-- The edge of an identity, with its tags. -/
def taggedEdge (id : Int) : Except Fault (Tagged Edge) :=
  match s.edges.find? (·.item.id == id) with
  | some e => .ok e
  | none => .error (.unknownEdge .store id)

def node (ref : NodeRef) : Except Fault Node := (·.item) <$> s.taggedNode ref

/-- The edge of an identity, with the tags that it was created with. -/
def edge (id : Int) : Except Fault Edge := (·.item) <$> s.taggedEdge id

/-- The tags that an element carries. -/
def tagsOf : ElementRef → Except Fault TagSet
  | .node ref => (·.tags) <$> s.taggedNode ref
  | .edge id => (·.tags) <$> s.taggedEdge id

/-- The nodes that carry a tag. -/
def nodesTagged (tag : String) : List Node := items (s.nodes.filter (tag ∈ ·.tags))

/-- The edges that carry a tag. -/
def edgesTagged (tag : String) : List Edge := items (s.edges.filter (tag ∈ ·.tags))

/-- An attribute of a node. Its name counts as one. -/
def nodeAttr (ref : NodeRef) (key : String) : Except Fault (Option String) := do
  let n ← s.node ref
  return if key = "name" then some n.name else n.attrs.lookup key

/-- An attribute of an edge. Its label counts as one, and is given in lower case. -/
def edgeAttr (id : Int) (key : String) : Except Fault (Option String) := do
  let e ← s.edge id
  return if key = "condition" then e.label.map Text.lower else e.attrs.lookup key

/-! ## Graphs out of the store -/

/-- An edge as the graph of the store shows it, with the tags that it carries. -/
def present (e : Tagged Edge) : Edge := { e.item with tags := e.tags }

theorem wired_present : Wired (items s.nodes) (s.edges.map present) where
  nodes_distinct := s.wired.nodes_distinct
  edges_distinct := by
    have := s.wired.edges_distinct
    simp only [items, List.map_map] at this ⊢
    exact this
  closed e he := by
    obtain ⟨t, ht, rfl⟩ := List.mem_map.1 he
    exact s.wired.closed t.item (List.mem_map_of_mem ht)

def graph : Graph := ⟨items s.nodes, s.edges.map present, s.wired_present⟩

/-- The part of the store between some nodes. -/
def snapshot (ids : List Int) : Graph := s.graph.induced ids

def display : String := s!"TaggedGraphStore(nodes={s.nodes.length}, edges={s.edges.length})"

/-! ## Creating -/

theorem nextNode_fresh : s.nextNode ∉ (items s.nodes).map Node.id := by
  intro h
  obtain ⟨n, hn, he⟩ := List.mem_map.1 h
  have := s.nodes_below n hn
  omega

theorem nextEdge_fresh : s.nextEdge ∉ (items s.edges).map Edge.id := by
  intro h
  obtain ⟨e, he, hid⟩ := List.mem_map.1 h
  have := s.edges_below e he
  omega

@[simp] theorem items_append {α : Type} (l m : List (Tagged α)) : items (l ++ m) = items l ++ items m :=
  List.map_append

@[simp] theorem items_singleton {α : Type} (x : Tagged α) : items [x] = [x.item] := rfl

def createNode (draft : NodeDraft) (tags : TagSet) : Node × Store :=
  let n := draft.withId s.nextNode
  (n, { nodes := s.nodes ++ [⟨n, tags⟩]
        edges := s.edges
        nextNode := s.nextNode + 1
        nextEdge := s.nextEdge
        wired := by simpa using s.wired.addNode s.nextNode_fresh
        nodes_below := by
          intro m hm
          simp only [items_append, items_singleton, List.mem_append, List.mem_singleton] at hm
          rcases hm with hm | rfl
          · have := s.nodes_below m hm; omega
          · exact Int.lt_succ s.nextNode
        edges_below := s.edges_below })

/-- Creates an edge under the next identity, if both its ends are there. -/
def createEdge (src dst : Int) (draft : EdgeDraft) : Except Fault (Edge × Store) :=
  if h : src ∈ s.nodeIds ∧ dst ∈ s.nodeIds then
    let e := draft.withId s.nextEdge src dst
    .ok (e, { nodes := s.nodes
              edges := s.edges ++ [⟨e, draft.tags⟩]
              nextNode := s.nextNode
              nextEdge := s.nextEdge + 1
              wired := by simpa using s.wired.addEdge s.nextEdge_fresh h.1 h.2
              nodes_below := s.nodes_below
              edges_below := by
                intro f hf
                simp only [items_append, items_singleton, List.mem_append, List.mem_singleton] at hf
                rcases hf with hf | rfl
                · have := s.edges_below f hf; omega
                · exact Int.lt_succ s.nextEdge })
  else .error (.missingEndpoint .store src dst)

/-! ## Deleting -/

theorem items_filter {α : Type} (l : List (Tagged α)) (p : α → Bool) :
    items (l.filter (p ·.item)) = (items l).filter p := by
  induction l with
  | nil => rfl
  | cons x l ih =>
    simp only [List.filter_cons, items, List.map_cons] at ih ⊢
    split <;> simp_all

def dropEdge (id : Int) : Store :=
  { s with
    edges := s.edges.filter (·.item.id != id)
    wired := by
      rw [items_filter s.edges (·.id != id)]
      exact s.wired.dropEdges _
    edges_below := fun e he => s.edges_below e (by
      rw [items_filter s.edges (·.id != id)] at he
      exact (List.mem_filter.1 he).1) }

def dropNode (id : Int) : Store :=
  { s with
    nodes := s.nodes.filter (·.item.id != id)
    edges := s.edges.filter fun e => e.item.src != id && e.item.dst != id
    wired := by
      rw [items_filter s.nodes (·.id != id), items_filter s.edges fun e => e.src != id && e.dst != id]
      refine s.wired.restrict _ _ fun e _ hq n _ hn => ?_
      simp only [Bool.and_eq_true] at hq
      rcases hn with hn | hn
      · exact hn ▸ hq.1
      · exact hn ▸ hq.2
    nodes_below := fun n hn => s.nodes_below n (by
      rw [items_filter s.nodes (·.id != id)] at hn
      exact (List.mem_filter.1 hn).1)
    edges_below := fun e he => s.edges_below e (by
      rw [items_filter s.edges fun e => e.src != id && e.dst != id] at he
      exact (List.mem_filter.1 he).1) }

/-- Deletes an element. With a node go its edges. -/
def delete : ElementRef → Except Fault Store
  | .edge id => do
    let _ ← s.edge id
    return s.dropEdge id
  | .node ref => do
    let n ← s.node ref
    return s.dropNode n.id

/-! ## Tags -/

/-- Changes the tags of one item. -/
def retag {α : Type} (p : α → Bool) (f : TagSet → TagSet) (l : List (Tagged α)) : List (Tagged α) :=
  l.map fun x => if p x.item then { x with tags := f x.tags } else x

@[simp] theorem items_retag {α : Type} (p : α → Bool) (f : TagSet → TagSet) (l : List (Tagged α)) :
    items (retag p f l) = items l := by
  simp only [items, retag, List.map_map]
  exact List.map_congr_left fun x _ => by simp only [Function.comp]; split <;> rfl

def changeTags (f : TagSet → TagSet) : ElementRef → Store
  | .node ref =>
    { s with
      nodes := retag (·.id == ref.key) f s.nodes
      wired := by simpa using s.wired
      nodes_below := by simpa using s.nodes_below }
  | .edge id =>
    { s with
      edges := retag (·.id == id) f s.edges
      wired := by simpa using s.wired
      edges_below := by simpa using s.edges_below }

/-- Gives an element a tag; false if it carried it before. -/
def tag (el : ElementRef) (t : String) : Except Fault (Bool × Store) := do
  let tags ← s.tagsOf el
  if t ∈ tags then return (false, s) else return (true, s.changeTags (·.insert t) el)

/-- Takes a tag from an element; false if it did not carry it. -/
def untag (el : ElementRef) (t : String) : Except Fault (Bool × Store) := do
  let tags ← s.tagsOf el
  if t ∈ tags then return (true, s.changeTags (·.erase t) el) else return (false, s)

end Store

end Flowgraph
