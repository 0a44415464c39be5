import Flowgraph.Proofs.Store.Lookup
import Flowgraph.Proofs.Table
import Flowgraph.Store.Import
import Flowgraph.Store.Journal
import Flowgraph.Table
/-!
# Stores kept in tables

A store can be kept in four tables, of nodes, of edges and of the tags of both, with two counters. Every request then reads and
writes tables entry by entry, and may find that a table lacks an entry which another one has (`Lapse.absent`); what it has
written until then stays written (`Keeping`).

The tables of a store (`Store.tables`) have its elements in order, and looking up, adding and leaving out entries is looking up,
adding and leaving out elements.
-/

namespace Flowgraph

/-! ## Tables -/

/-- Four tables and two counters. -/
structure Tables where
  nodes : Table Node := []
  edges : Table Edge := []
  nodeTags : Table TagSet := []
  edgeTags : Table TagSet := []
  nextNode : Int := 0
  nextEdge : Int := 0

def Tables.ofGraph (g : Graph) : Tables where
  nodes := g.nodes.foldl (fun t n => t.put n.id n) []
  edges := g.edges.foldl (fun t e => t.put e.id e) []
  nodeTags := g.nodes.foldl (fun t n => t.put n.id ∅) []
  edgeTags := g.edges.foldl (fun t e => t.put e.id e.tags) []
  nextNode := g.maxNodeId + 1
  nextEdge := g.maxEdgeId + 1

/-- Why a request fails: it is at fault itself, or a table lacks an entry. -/
inductive Lapse where
  | fault (f : Fault)
  | absent (key : Int)

/-- Keeping a store in tables. A failure keeps what has been written. -/
abbrev Keeping := ExceptT Lapse (StateM Tables)

namespace Keeping

def entry {α : Type} (t : Table α) (k : Int) (lapse : Lapse) : Keeping α :=
  match t.lookup k with
  | some a => pure a
  | none => throw lapse

/-- A table without the entry of a key, which must be there. -/
def without {α : Type} (t : Table α) (k : Int) : Keeping (Table α) :=
  if k ∈ Table.keys t then pure (t.filter (·.1 != k)) else throw (.absent k)

def node (ref : NodeRef) : Keeping Node := do
  entry (← get).nodes ref.key (.fault (.unknownNode .store ref))

def edge (id : Int) : Keeping Edge := do
  entry (← get).edges id (.fault (.unknownEdge .store id))

def createNode (draft : NodeDraft) (tags : TagSet) : Keeping Node := do
  let t ← get
  let n := draft.withId t.nextNode
  set { t with
    nodes := t.nodes.put n.id n
    nodeTags := t.nodeTags.put n.id tags
    nextNode := t.nextNode + 1 }
  return n

def createEdge (src dst : Int) (draft : EdgeDraft) : Keeping Edge := do
  let t ← get
  if src ∈ t.nodes.keys ∧ dst ∈ t.nodes.keys then
    let e := draft.withId t.nextEdge src dst
    set { t with
      edges := t.edges.put e.id e
      edgeTags := t.edgeTags.put e.id draft.tags
      nextEdge := t.nextEdge + 1 }
    return e
  else throw (.fault (.missingEndpoint .store src dst))

def deleteEdge (id : Int) : Keeping Unit := do
  let _ ← edge id
  let edges ← without (← get).edges id
  modify fun t => { t with edges := edges }
  let edgeTags ← without (← get).edgeTags id
  modify fun t => { t with edgeTags := edgeTags }

/-- Deletes the edges of a node one by one, then the node. -/
def deleteNode (ref : NodeRef) : Keeping Unit := do
  let n ← node ref
  let t ← get
  (t.edges.values.filter fun e => e.src == n.id || e.dst == n.id).forM fun e => deleteEdge e.id
  let nodes ← without (← get).nodes n.id
  modify fun t => { t with nodes := nodes }
  let nodeTags ← without (← get).nodeTags n.id
  modify fun t => { t with nodeTags := nodeTags }

def delete : ElementRef → Keeping Unit
  | .node ref => deleteNode ref
  | .edge id => deleteEdge id

def tagsOf : ElementRef → Keeping TagSet
  | .node ref => do
    let n ← node ref
    entry (← get).nodeTags n.id (.absent n.id)
  | .edge id => do
    let _ ← edge id
    entry (← get).edgeTags id (.absent id)

def putTags (tags : TagSet) : ElementRef → Keeping Unit
  | .node ref => modify fun t => { t with nodeTags := t.nodeTags.put ref.key tags }
  | .edge id => modify fun t => { t with edgeTags := t.edgeTags.put id tags }

def tag (el : ElementRef) (t : String) : Keeping Bool := do
  let tags ← tagsOf el
  if t ∈ tags then return false
  else
    putTags (tags.insert t) el
    return true

def untag (el : ElementRef) (t : String) : Keeping Bool := do
  let tags ← tagsOf el
  if t ∈ tags then
    putTags (tags.erase t) el
    return true
  else return false

/-- Creates the nodes of a graph, then its edges between them. -/
def importGraph (g : Graph) : Keeping Graph := do
  let nodes ← g.nodes.mapM fun n => createNode n.draft ∅
  let places := g.nodeIds.zip (nodes.map Node.id)
  let edges ← g.edges.mapM fun e => do
    let src ← entry places e.src (.absent e.src)
    let dst ← entry places e.dst (.absent e.dst)
    createEdge src dst e.draft
  match Graph.ofLists nodes edges with
  | .ok h => return h
  | .error fault => throw (.fault fault)

/-- Whether an element is in the tables. -/
def present (el : ElementRef) : Keeping Bool := do
  let t ← get
  match el with
  | .node ref => return decide (ref.key ∈ t.nodes.keys)
  | .edge id => return decide (id ∈ t.edges.keys)

/-- Takes back what a journal notes and the tables still have. -/
def takeBack (j : Journal) : Keeping Unit := do
  j.tags.reverse.forM fun (el, t) => do
    if ← present el then
      let _ ← untag el t
  j.edges.reverse.forM fun e => do
    if ← present (.edge e.id) then deleteEdge e.id
  j.nodes.reverse.forM fun n => do
    if ← present (.node n) then deleteNode n

/-- The graph of the tables, or its part between some nodes. -/
def snapshot (ids : Option (List Int)) : Keeping Graph := do
  let t ← get
  let keep (i : Int) : Bool := ids.all (·.contains i)
  let edges ← (t.edges.values.filter fun e => keep e.src && keep e.dst).mapM fun e => do
    let tags ← entry t.edgeTags e.id (.absent e.id)
    return { e with tags := tags }
  match Graph.ofLists (t.nodes.values.filter (keep ·.id)) edges with
  | .ok g => return g
  | .error fault => throw (.fault fault)

end Keeping

/-! ## The tables of a store -/

/-- Something about tagged elements, by the identity of the element. -/
def tableOf {α β : Type} (id : α → Int) (f : Tagged α → β) (l : List (Tagged α)) : Table β :=
  l.map fun x => (id x.item, f x)

def Store.tables (s : Store) : Tables where
  nodes := tableOf Node.id Tagged.item s.nodes
  edges := tableOf Edge.id Tagged.item s.edges
  nodeTags := tableOf Node.id Tagged.tags s.nodes
  edgeTags := tableOf Edge.id Tagged.tags s.edges
  nextNode := s.nextNode
  nextEdge := s.nextEdge

section tableOf

variable {α β : Type} {id : α → Int} {f : Tagged α → β} {l : List (Tagged α)} {k : Int}

@[simp] theorem keys_tableOf : Table.keys (tableOf id f l) = (items l).map id := by
  simp [Table.keys, tableOf, items, Function.comp_def]

@[simp] theorem values_tableOf : Table.values (tableOf id f l) = l.map f := by
  simp [Table.values, tableOf, Function.comp_def]

theorem lookup_tableOf : (tableOf id f l).lookup k = (l.find? (id ·.item == k)).map f := by
  induction l with
  | nil => rfl
  | cons x l ih =>
    simp only [tableOf, List.map_cons, List.lookup_cons, List.find?_cons] at ih ⊢
    rw [BEq.comm (a := k)]
    split
    · rfl
    · exact ih

theorem filter_tableOf : (tableOf id f l).filter (·.1 != k) = tableOf id f (l.filter (id ·.item != k)) := by
  simp [tableOf, List.filter_map, Function.comp_def]

theorem put_tableOf_new {x : Tagged α} (hnew : id x.item ∉ (items l).map id) :
    Table.put (tableOf id f l) (id x.item) (f x) = tableOf id f (l ++ [x]) := by
  rw [items, List.map_map] at hnew
  exact Table.put_ofList (fun y : Tagged α => id y.item) f hnew

theorem tableOf_item_retag {p : α → Bool} {g : TagSet → TagSet} :
    tableOf id Tagged.item (Store.retag p g l) = tableOf id Tagged.item l := by
  simp only [tableOf, Store.retag, List.map_map]
  refine List.map_congr_left fun x _ => ?_
  simp only [Function.comp_apply]
  split <;> rfl

/-- Putting the changed tags of an element in their place changes its tags. -/
theorem put_tableOf_tags (hdistinct : ((items l).map id).Nodup) {x : Tagged α} (hx : x ∈ l) (g : TagSet → TagSet) :
    Table.put (tableOf id Tagged.tags l) (id x.item) (g x.tags) =
      tableOf id Tagged.tags (Store.retag (id · == id x.item) g l) := by
  have hmem : id x.item ∈ (items l).map id := List.mem_map_of_mem (List.mem_map_of_mem hx)
  rw [Table.put, keys_tableOf, if_pos hmem]
  simp only [tableOf, Store.retag, List.map_map]
  refine List.map_congr_left fun y hy => ?_
  simp only [Function.comp_apply]
  by_cases heq : id y.item = id x.item
  · rw [items, List.map_map] at hdistinct
    obtain rfl : y = x := List.inj_on_of_nodup_map hdistinct hy hx heq
    simp
  · simp [heq]

end tableOf

theorem Store.tables_congr {s s' : Store} (hnodes : s.nodes = s'.nodes) (hedges : s.edges = s'.edges)
    (hnextNode : s.nextNode = s'.nextNode) (hnextEdge : s.nextEdge = s'.nextEdge) : s.tables = s'.tables := by
  simp only [tables, hnodes, hedges, hnextNode, hnextEdge]

theorem foldl_put_tableOf {α β : Type} {id : α → Int} (f : Tagged α → β) (tags : α → TagSet) (l : List α)
    (before : List (Tagged α)) (hdistinct : ((items before ++ l).map id).Nodup) :
    l.foldl (fun t x => Table.put t (id x) (f ⟨x, tags x⟩)) (tableOf id f before) =
      tableOf id f (before ++ l.map fun x => ⟨x, tags x⟩) := by
  have hkeys : ((before ++ l.map fun x => (⟨x, tags x⟩ : Tagged α)).map fun y => id y.item).Nodup := by
    simpa [items, Function.comp_def] using hdistinct
  have hrows := Table.foldl_put_ofList (fun y : Tagged α => id y.item) f _ before hkeys
  rw [List.foldl_map] at hrows
  exact hrows

theorem Tables.ofGraph_eq (g : Graph) : Tables.ofGraph g = (Store.ofGraph g).tables := by
  have hnodes : ((items ([] : List (Tagged Node)) ++ g.nodes).map Node.id).Nodup := g.wired.nodes_distinct
  have hedges : ((items ([] : List (Tagged Edge)) ++ g.edges).map Edge.id).Nodup := g.wired.edges_distinct
  unfold Tables.ofGraph Store.tables Store.ofGraph
  congr 1
  · exact foldl_put_tableOf Tagged.item (fun _ => ∅) g.nodes [] hnodes
  · exact foldl_put_tableOf Tagged.item Edge.tags g.edges [] hedges
  · exact foldl_put_tableOf Tagged.tags (fun _ => ∅) g.nodes [] hnodes
  · exact foldl_put_tableOf Tagged.tags Edge.tags g.edges [] hedges

end Flowgraph
