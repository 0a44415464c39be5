import Flowgraph.Graph.Arena
import Flowgraph.Graph.Walk
import Flowgraph.Proofs.Graph.Lookup
/-!
# The construction of graphs

A graph is accepted or refused as a whole, from two lists, and says who its neighbours are by looking through its edges. Graphs can
also be constructed one element at a time, in tables of which nothing is known:

* `Graph.Files` has the nodes and the edges by identity, and for each node the edges out of it and into it, to which every edge
  is added at both of its ends. The files are refused when the lists are, for the same fault, and otherwise they are those of
  the graph (`Graph.Files.ofLists_eq`).
* `Arena.Ledger` has nodes and edges by identity and the next identities to hand out. It would write over a node if an
  identity came up twice, and its graph would be refused if an edge lost an end. Neither happens: call by call it is the ledger
  of an arena (`Arena.run_perform`), and the graph that is built from it is the arena's (`Arena.build_ledger`).
-/

namespace Flowgraph

namespace Graph

variable {g : Graph} {u v : Int}

/-! ## Neighbours -/

/-- The place of the first edge from a node to another, among all edges. -/
def firstPlace (g : Graph) (u v : Int) : Nat := g.edges.findIdx fun e => e.src == u && e.dst == v

/-- What is found at the far ends of the edges that have a node at their near end comes in the order of the first of these edges. -/
theorem pairwise_far_ends (near far : Edge → Int) (edges : List Edge) (u : Int) :
    ((edges.filter (near · == u)).map far).eraseDups.Pairwise fun v w =>
      edges.findIdx (fun e => near e == u && far e == v) < edges.findIdx (fun e => near e == u && far e == w) := by
  refine (pairwise_eraseDups _).imp fun {v w} hless => ?_
  rw [List.idxOf, List.idxOf, List.findIdx_map, List.findIdx_map] at hless
  exact findIdx_lt_of_filter hless

theorem pairwise_succs (g : Graph) (u : Int) :
    (g.succs u).Pairwise fun v w => g.firstPlace u v < g.firstPlace u w :=
  pairwise_far_ends Edge.src Edge.dst g.edges u

theorem pairwise_preds (g : Graph) (v : Int) :
    (g.preds v).Pairwise fun u w => g.firstPlace u v < g.firstPlace w v := by
  refine (pairwise_far_ends Edge.dst Edge.src g.edges v).imp fun {u w} hless => ?_
  simpa only [firstPlace, Bool.and_comm] using hless

theorem between_ne_nil_iff : g.between u v ≠ [] ↔ v ∈ g.succs u := by
  rw [mem_succs_iff]
  constructor
  · intro hsome
    obtain ⟨e, he⟩ := List.exists_mem_of_ne_nil _ hsome
    exact ⟨e, mem_between_iff.1 he⟩
  · rintro ⟨e, he⟩
    exact List.ne_nil_of_mem (mem_between_iff.2 he)

theorem edgesBetween_eq_ok {src dst : NodeRef} (hsrc : src.key ∈ g.nodeIds) (hdst : dst.key ∈ g.nodeIds) :
    g.edgesBetween src dst = .ok (g.between src.key dst.key) := by
  obtain ⟨s, hs⟩ := exists_resolve_iff.2 hsrc
  obtain ⟨d, hd⟩ := exists_resolve_iff.2 hdst
  rw [edgesBetween, hd, hs, ← (resolve_eq_ok_iff.1 hs).2, ← (resolve_eq_ok_iff.1 hd).2]
  rfl

/-! ## Graphs in files -/

/-- Nodes and edges by identity, and for each node the edges out of it and into it. -/
structure Files where
  nodes : Table Node
  edges : Table Edge
  out : Table (List Edge)
  into : Table (List Edge)

namespace Files

variable {nodes : List Node} {edges : List Edge} {e : Edge}

/-- Enters a node under its identity, which must be new. -/
def enterNode (t : Table Node) (n : Node) : Except Fault (Table Node) :=
  if n.id ∈ t.keys then .error (.duplicateNode n.id) else .ok (t.put n.id n)

/-- Enters an edge under its identity, which must be new, and at both of its ends, which must be nodes. -/
def enterEdge (w : Files) (e : Edge) : Except Fault Files :=
  if e.id ∈ w.edges.keys then .error (.duplicateEdge e.id)
  else if e.src ∈ w.nodes.keys ∧ e.dst ∈ w.nodes.keys then do
    let out ← w.out.change e.src (· ++ [e])
    let into ← w.into.change e.dst (· ++ [e])
    return { w with edges := w.edges.put e.id e, out := out, into := into }
  else .error (.danglingEdge e.id e.src e.dst)

/-- Enters nodes, then edges. -/
def ofLists (nodes : List Node) (edges : List Edge) : Except Fault Files := do
  let table ← nodes.foldlM enterNode []
  let noEdges := table.keys.map fun n => (n, [])
  edges.foldlM enterEdge ⟨table, [], noEdges, noEdges⟩

/-- The files of nodes and edges that have been entered. -/
def listing (nodes : List Node) (edges : List Edge) : Files where
  nodes := .ofList Node.id (fun n => n) nodes
  edges := .ofList Edge.id (fun e => e) edges
  out := .tabulate (nodes.map Node.id) fun n => edges.filter (·.src == n)
  into := .tabulate (nodes.map Node.id) fun n => edges.filter (·.dst == n)

theorem append_to_end {ids : List Int} (side : Edge → Int) (hend : side e ∈ ids) :
    (Table.tabulate ids fun n => edges.filter (side · == n)).change (side e) (· ++ [e]) =
      .ok (Table.tabulate ids fun n => (edges ++ [e]).filter (side · == n)) := by
  refine Table.change_tabulate hend ?_ fun m hm => ?_
  · simp
  · simp [List.filter_append, Ne.symm hm]

theorem enterEdge_listing (hnew : e.id ∉ edges.map Edge.id) (hsrc : e.src ∈ nodes.map Node.id)
    (hdst : e.dst ∈ nodes.map Node.id) : (listing nodes edges).enterEdge e = .ok (listing nodes (edges ++ [e])) := by
  have hput := Table.put_ofList Edge.id (fun e => e) hnew
  simp only [enterEdge, listing, Table.keys_ofList]
  rw [if_neg hnew, if_pos ⟨hsrc, hdst⟩, append_to_end Edge.src hsrc, append_to_end Edge.dst hdst, hput]
  rfl

/-- Entering nodes stops at the first identity that has occurred before. -/
theorem foldlM_enterNode (nodes before : List Node) (seen : List Int)
    (hseen : ∀ i, i ∈ seen ↔ i ∈ before.map Node.id) :
    nodes.foldlM enterNode (.ofList Node.id (fun n => n) before) =
      (firstRepeat? Node.id seen nodes).elim (.ok (.ofList Node.id (fun n => n) (before ++ nodes)))
        fun n => .error (.duplicateNode n.id) := by
  induction nodes generalizing before seen with
  | nil =>
    rw [List.append_nil]
    rfl
  | cons n nodes ih =>
    rw [List.foldlM_cons, firstRepeat?, enterNode, Table.keys_ofList]
    by_cases hmem : n.id ∈ before.map Node.id
    · rw [if_pos hmem, if_pos ((hseen n.id).2 hmem)]
      rfl
    · rw [if_neg hmem, if_neg (mt (hseen n.id).1 hmem), Table.put_ofList Node.id (fun n => n) hmem]
      have happend : before ++ n :: nodes = before ++ [n] ++ nodes := by simp
      rw [happend]
      exact ih (before ++ [n]) (n.id :: seen) (by simp [hseen, or_comm])

/-- Entering edges stops at the first one that is at fault. -/
theorem foldlM_enterEdge (nodes : List Node) (edges before : List Edge) (seen : List Int)
    (hseen : ∀ i, i ∈ seen ↔ i ∈ before.map Edge.id) :
    edges.foldlM enterEdge (listing nodes before) =
      (edgeFault? (nodes.map Node.id) seen edges).elim (.ok (listing nodes (before ++ edges))) .error := by
  induction edges generalizing before seen with
  | nil =>
    rw [List.append_nil]
    rfl
  | cons e edges ih =>
    rw [List.foldlM_cons, edgeFault?]
    by_cases hmem : e.id ∈ before.map Edge.id
    · rw [if_pos ((hseen e.id).2 hmem), enterEdge, listing, Table.keys_ofList, if_pos hmem]
      rfl
    · rw [if_neg (mt (hseen e.id).1 hmem)]
      by_cases hends : e.src ∈ nodes.map Node.id ∧ e.dst ∈ nodes.map Node.id
      · have happend : before ++ e :: edges = before ++ [e] ++ edges := by simp
        rw [if_pos hends, enterEdge_listing hmem hends.1 hends.2, happend]
        exact ih (before ++ [e]) (e.id :: seen) (by simp [hseen, or_comm])
      · rw [if_neg hends, enterEdge, listing, Table.keys_ofList, if_neg hmem, Table.keys_ofList, if_neg hends]
        rfl

end Files

def files (g : Graph) : Files := .listing g.nodes g.edges

theorem ofLists_eq_error {nodes : List Node} {edges : List Edge} {fault : Fault} (h : fault? nodes edges = some fault) :
    ofLists nodes edges = .error fault := by
  unfold ofLists
  split
  · rename_i found hfound
    rw [hfound, Option.some.injEq] at h
    rw [h]
  · rename_i hnone
    rw [hnone] at h
    cases h

theorem map_files_ofLists (nodes : List Node) (edges : List Edge) :
    files <$> ofLists nodes edges = (fault? nodes edges).elim (.ok (.listing nodes edges)) .error := by
  cases h : fault? nodes edges with
  | some fault =>
    rw [ofLists_eq_error h]
    rfl
  | none =>
    rw [ofLists_eq_ok (fault?_eq_none_iff.1 h)]
    rfl

/-- Files take the nodes and edges of a graph, and refuse other lists for the fault that the graph is refused for. -/
theorem Files.ofLists_eq (nodes : List Node) (edges : List Edge) :
    Files.ofLists nodes edges = files <$> Graph.ofLists nodes edges := by
  have hnodes : nodes.foldlM enterNode [] = _ := foldlM_enterNode nodes [] [] (by simp)
  have hedges := foldlM_enterEdge nodes edges [] [] (by simp)
  rw [map_files_ofLists, fault?, Files.ofLists, hnodes]
  cases firstRepeat? Node.id [] nodes with
  | some n => rfl
  | none =>
    simp only [Option.elim_none, bind, Except.bind, List.nil_append, Table.keys_ofList]
    exact hedges

/-! ## Parts -/

theorem ofLists_eq_ok_iff {nodes : List Node} {edges : List Edge} :
    ofLists nodes edges = .ok g ↔ g.nodes = nodes ∧ g.edges = edges := by
  constructor
  · intro h
    unfold ofLists at h
    split at h
    · cases h
    · cases h
      exact ⟨rfl, rfl⟩
  · rintro ⟨rfl, rfl⟩
    exact ofLists_eq_ok g.wired

theorem exists_ofLists_iff {nodes : List Node} {edges : List Edge} :
    (∃ g, ofLists nodes edges = .ok g) ↔ (nodes.map Node.id).Nodup ∧ (edges.map Edge.id).Nodup ∧
      ∀ e ∈ edges, e.src ∈ nodes.map Node.id ∧ e.dst ∈ nodes.map Node.id := by
  constructor
  · rintro ⟨g, hg⟩
    obtain ⟨rfl, rfl⟩ := ofLists_eq_ok_iff.1 hg
    exact ⟨g.wired.nodes_distinct, g.wired.edges_distinct, g.wired.closed⟩
  · rintro ⟨hnodes, hedges, hclosed⟩
    exact ⟨_, ofLists_eq_ok ⟨hnodes, hedges, hclosed⟩⟩

theorem ofLists_withoutEdges (g : Graph) (ids : List Int) :
    ofLists g.nodes (g.edges.filter fun e => e.id ∉ ids) = .ok (g.withoutEdges ids) := by
  refine ofLists_eq_ok_iff.2 ⟨rfl, List.filter_congr fun e _ => ?_⟩
  rw [List.contains_eq_mem, decide_not]

theorem ofLists_induced (g : Graph) (ids : List Int) :
    ofLists (g.nodes.filter fun n => n.id ∈ ids) (g.edges.filter fun e => e.src ∈ ids ∧ e.dst ∈ ids) =
      .ok (g.induced ids) := by
  refine ofLists_eq_ok_iff.2 ⟨List.filter_congr fun n _ => ?_, List.filter_congr fun e _ => ?_⟩
  · rw [List.contains_eq_mem]
  · rw [List.contains_eq_mem, List.contains_eq_mem, Bool.decide_and]

end Graph

namespace Arena

/-! ## Arenas in ledgers -/

/-- A call that adds an element to an arena. -/
inductive Call where
  | node (draft : NodeDraft)
  | edge (src dst : NodeRef) (draft : EdgeDraft)

/-- What a call gives, and the arena after it. A call that fails leaves the arena as it was. -/
def answer (a : Arena) : Call → Except Fault Element × Arena
  | .node draft => (.ok (.node (a.addNode draft).1), (a.addNode draft).2)
  | .edge src dst draft =>
    match a.addEdge src.key dst.key draft with
    | .ok (e, b) => (.ok (.edge e), b)
    | .error fault => (.error fault, a)

def after (a : Arena) (calls : List Call) : Arena := calls.foldl (fun a call => (a.answer call).2) a

/-- Nodes and edges by identity, and the next identities to hand out. -/
structure Ledger where
  nodes : Table Node := []
  edges : Table Edge := []
  nextNode : Int := 0
  nextEdge : Int := 0

/-- Keeping a ledger. A failure keeps what has been written. -/
abbrev Bookkeeping := ExceptT Fault (StateM Ledger)

namespace Ledger

/-- Enters the elements of a graph, to go on after its largest identities. -/
def ofGraph (g : Graph) : Ledger where
  nodes := g.nodes.foldl (fun t n => t.put n.id n) []
  edges := g.edges.foldl (fun t e => t.put e.id e) []
  nextNode := g.maxNodeId + 1
  nextEdge := g.maxEdgeId + 1

def addNode (draft : NodeDraft) : Bookkeeping Node := do
  let l ← get
  let n := draft.withId l.nextNode
  set { l with nodes := l.nodes.put n.id n, nextNode := l.nextNode + 1 }
  return n

def addEdge (src dst : NodeRef) (draft : EdgeDraft) : Bookkeeping Edge := do
  let l ← get
  if src.key ∈ l.nodes.keys ∧ dst.key ∈ l.nodes.keys then
    let e := draft.withId l.nextEdge src.key dst.key
    set { l with edges := l.edges.put e.id e, nextEdge := l.nextEdge + 1 }
    return e
  else throw (.missingEndpoint .arena src.key dst.key)

def perform : Call → Bookkeeping Element
  | .node draft => Element.node <$> addNode draft
  | .edge src dst draft => Element.edge <$> addEdge src dst draft

/-- The ledger after some calls, each of which may have failed. -/
def after (l : Ledger) (calls : List Call) : Ledger := calls.foldl (fun l call => ((perform call).run l).2) l

def build (l : Ledger) : Except Fault Graph := Graph.ofLists l.nodes.values l.edges.values

theorem run_map {α β : Type} (f : α → β) (t : Bookkeeping α) (l : Ledger) :
    (f <$> t).run l = (f <$> (t.run l).1, (t.run l).2) := by
  rw [ExceptT.run_map]
  rfl

theorem run_addEdge (l : Ledger) (src dst : NodeRef) (draft : EdgeDraft) :
    (addEdge src dst draft).run l =
      if src.key ∈ l.nodes.keys ∧ dst.key ∈ l.nodes.keys then
        (.ok (draft.withId l.nextEdge src.key dst.key),
          { l with
            edges := l.edges.put l.nextEdge (draft.withId l.nextEdge src.key dst.key)
            nextEdge := l.nextEdge + 1 })
      else (.error (.missingEndpoint .arena src.key dst.key), l) := by
  show (if src.key ∈ l.nodes.keys ∧ dst.key ∈ l.nodes.keys then _ else _ : Bookkeeping Edge).run l = _
  split
  · rfl
  · rfl

/-- A call that fails has written nothing. -/
theorem run_of_error {l : Ledger} {call : Call} {fault : Fault} (h : ((perform call).run l).1 = .error fault) :
    ((perform call).run l).2 = l := by
  cases call with
  | node draft => cases h
  | edge src dst draft =>
    rw [perform, run_map, run_addEdge] at h ⊢
    by_cases hends : src.key ∈ l.nodes.keys ∧ dst.key ∈ l.nodes.keys
    · rw [if_pos hends] at h
      cases h
    · rw [if_neg hends]

end Ledger

def ledger (a : Arena) : Ledger where
  nodes := .ofList Node.id (fun n => n) a.nodes
  edges := .ofList Edge.id (fun e => e) a.edges
  nextNode := a.nextNode
  nextEdge := a.nextEdge

theorem ledger_ofGraph (g : Graph) : (ofGraph g).ledger = .ofGraph g := by
  have hnodes := Table.foldl_put_ofList Node.id (fun n => n) g.nodes [] g.wired.nodes_distinct
  have hedges := Table.foldl_put_ofList Edge.id (fun e => e) g.edges [] g.wired.edges_distinct
  unfold ledger Ledger.ofGraph
  congr 1
  · exact hnodes.symm
  · exact hedges.symm

/-- A call on the ledger of an arena is a call on the arena: what it enters, it enters under an identity not in use. -/
theorem run_perform (a : Arena) (call : Call) :
    (Ledger.perform call).run a.ledger = ((a.answer call).1, (a.answer call).2.ledger) := by
  cases call with
  | node draft =>
    have hput : a.ledger.nodes.put a.nextNode (draft.withId a.nextNode) =
        .ofList Node.id (fun n => n) (a.nodes ++ [draft.withId a.nextNode]) :=
      Table.put_ofList Node.id (fun n => n) (x := draft.withId a.nextNode) a.nextNode_fresh
    show (Except.ok (Element.node (draft.withId a.nextNode)), { a.ledger with
      nodes := a.ledger.nodes.put a.nextNode (draft.withId a.nextNode)
      nextNode := a.nextNode + 1 }) = _
    rw [hput]
    rfl
  | edge src dst draft =>
    have hkeys : a.ledger.nodes.keys = a.nodeIds := Table.keys_ofList _ _ _
    have hput : a.ledger.edges.put a.nextEdge (draft.withId a.nextEdge src.key dst.key) =
        .ofList Edge.id (fun e => e) (a.edges ++ [draft.withId a.nextEdge src.key dst.key]) :=
      Table.put_ofList Edge.id (fun e => e) (x := draft.withId a.nextEdge src.key dst.key) a.nextEdge_fresh
    rw [Ledger.perform, Ledger.run_map, Ledger.run_addEdge, hkeys, answer, addEdge]
    by_cases hends : src.key ∈ a.nodeIds ∧ dst.key ∈ a.nodeIds
    · rw [if_pos hends, dif_pos hends]
      show (Except.ok (Element.edge (draft.withId a.nextEdge src.key dst.key)), { a.ledger with
        edges := a.ledger.edges.put a.nextEdge (draft.withId a.nextEdge src.key dst.key)
        nextEdge := a.nextEdge + 1 }) = _
      rw [hput]
      rfl
    · rw [if_neg hends, dif_neg hends]
      rfl

theorem after_ledger (a : Arena) (calls : List Call) : a.ledger.after calls = (a.after calls).ledger := by
  induction calls generalizing a with
  | nil => rfl
  | cons call calls ih =>
    have hstep : ((Ledger.perform call).run a.ledger).2 = (a.answer call).2.ledger := by rw [run_perform]
    rw [Ledger.after, List.foldl_cons, hstep]
    exact ih (a.answer call).2

theorem build_ledger (a : Arena) : a.ledger.build = .ok a.toGraph := by
  rw [Ledger.build, ledger, Table.values_ofList, Table.values_ofList, List.map_id', List.map_id']
  exact Graph.ofLists_eq_ok a.wired

end Arena

namespace Graph

/-! ## Coherence -/

/-- Two lists make a graph exactly if identities are distinct and both ends of every edge are there, and filing them element by
element comes to the same. In a graph each end of an edge is a neighbour of the other, and neighbours are listed once, in the order
of the first edge to them. Whatever calls are made on a new ledger or on that of a graph, those that fail have no effect and
a graph can be built afterwards; and graphs can be made of the parts of a graph. -/
theorem construction_stays_coherent (nodes : List Node) (edges : List Edge) (g : Graph) (calls : List Arena.Call)
    (dropped : List Edge) (kept : List NodeRef) :
    ((∃ h, ofLists nodes edges = .ok h) ↔ (nodes.map Node.id).Nodup ∧ (edges.map Edge.id).Nodup ∧
      ∀ e ∈ edges, e.src ∈ nodes.map Node.id ∧ e.dst ∈ nodes.map Node.id) ∧
    (∀ h, ofLists nodes edges = .ok h ↔ h.nodes = nodes ∧ h.edges = edges) ∧
    Files.ofLists nodes edges = files <$> ofLists nodes edges ∧
    (∀ u v : NodeRef, u.key ∈ g.nodeIds → v.key ∈ g.nodeIds → ∃ direct, g.edgesBetween u v = .ok direct ∧
      (v.key ∈ g.succs u.key ↔ u.key ∈ g.preds v.key) ∧ (u.key ∈ g.preds v.key ↔ direct ≠ [])) ∧
    (∀ u, (g.succs u).Nodup ∧ (g.succs u).Pairwise fun v w => g.firstPlace u v < g.firstPlace u w) ∧
    (∀ v, (g.preds v).Nodup ∧ (g.preds v).Pairwise fun u w => g.firstPlace u v < g.firstPlace w v) ∧
    (∀ (l : Arena.Ledger) (call : Arena.Call) (fault : Fault),
      ((Arena.Ledger.perform call).run l).1 = .error fault → ((Arena.Ledger.perform call).run l).2 = l) ∧
    (Arena.Ledger.after {} calls).build = .ok (Arena.empty.after calls).toGraph ∧
    ((Arena.Ledger.ofGraph g).after calls).build = .ok ((Arena.ofGraph g).after calls).toGraph ∧
    ofLists g.nodes (g.edges.filter fun e => e.id ∉ dropped.map Edge.id) = .ok (g.withoutEdges (dropped.map Edge.id)) ∧
    ofLists (g.nodes.filter fun n => n.id ∈ kept.map NodeRef.key)
        (g.edges.filter fun e => e.src ∈ kept.map NodeRef.key ∧ e.dst ∈ kept.map NodeRef.key) =
      .ok (g.induced (kept.map NodeRef.key)) := by
  refine ⟨exists_ofLists_iff, fun _ => ofLists_eq_ok_iff, Files.ofLists_eq nodes edges, fun u v hu hv => ?_,
    fun u => ⟨nodup_eraseDups _, g.pairwise_succs u⟩, fun v => ⟨nodup_eraseDups _, g.pairwise_preds v⟩,
    fun l call fault => Arena.Ledger.run_of_error, ?_, ?_, g.ofLists_withoutEdges _, g.ofLists_induced _⟩
  · refine ⟨_, edgesBetween_eq_ok hu hv, mem_preds_iff_mem_succs.symm, ?_⟩
    rw [mem_preds_iff_mem_succs, between_ne_nil_iff]
  · rw [← Arena.build_ledger, ← Arena.after_ledger]
    rfl
  · rw [← Arena.build_ledger, ← Arena.after_ledger, Arena.ledger_ofGraph]

/-- A graph with parallel edges, a loop and a negative identity, whose edges are not in the order of their identities. -/
def tangle : Graph where
  nodes := [{ id := 4, name := "hub", isRoot := true }, { id := -2, name := "rim" }, { id := 0, name := "end", isExitPoint := true }]
  edges := [⟨7, 4, -2, .structural, none, false, ∅, []⟩, ⟨3, 4, 4, .structural, none, true, ∅, []⟩,
    ⟨-5, -2, 4, .structural, none, true, ∅, []⟩, ⟨1, 4, -2, .structural, none, false, ∅, []⟩,
    ⟨0, 4, 0, .structural, none, false, ∅, []⟩]
  wired := ⟨by decide, by decide, by decide⟩

theorem construction_stays_coherent_tangle :
    ((4 : Int) ∈ tangle.nodeIds ∧ (-2 : Int) ∈ tangle.nodeIds) ∧
    (∃ direct, tangle.edgesBetween (.id 4) (.id (-2)) = .ok direct ∧
      (-2 ∈ tangle.succs 4 ↔ 4 ∈ tangle.preds (-2)) ∧ (4 ∈ tangle.preds (-2) ↔ direct ≠ [])) ∧
    ((Arena.Ledger.perform (.edge (.id 4) (.id 9) {})).run (.ofGraph tangle)).1 =
      .error (.missingEndpoint .arena 4 9) ∧
    ((Arena.Ledger.perform (.edge (.id 4) (.id 9) {})).run (.ofGraph tangle)).2 = .ofGraph tangle := by
  have hmem : (4 : Int) ∈ tangle.nodeIds ∧ (-2 : Int) ∈ tangle.nodeIds := by decide
  have hfault : ((Arena.Ledger.perform (.edge (.id 4) (.id 9) {})).run (.ofGraph tangle)).1 =
      .error (.missingEndpoint .arena 4 9) := rfl
  obtain ⟨-, -, -, hends, -, -, hfails, -⟩ :=
    construction_stays_coherent tangle.nodes tangle.edges tangle [] [] []
  exact ⟨hmem, hends (.id 4) (.id (-2)) hmem.1 hmem.2, hfault, hfails _ _ _ hfault⟩

end Graph

end Flowgraph
