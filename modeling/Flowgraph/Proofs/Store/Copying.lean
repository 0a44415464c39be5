import Flowgraph.Proofs.Store.History
/-!
# Copying graphs into a store and out of it

A store that is opened with a graph shows that graph again (`Store.graph_ofGraph`). A graph that is imported later is the same graph
under other identities (`Graph.Renumbers`), all of them new in the history of the store, and stands beside what the store
held before (`Store.Keeps`). Between its own nodes the store then shows the imported graph and nothing else
(`Store.snapshot_importGraph`).
-/

namespace Flowgraph

/-! ## Graphs under other identities -/

/-- A node under another identity. One without a name is named after the identity. -/
def Node.under (n : Node) (id : Int) : Node := { n with id := id, name := if n.name = "" then s!"n{id}" else n.name }

/-- An edge under another identity, between other nodes. -/
def Edge.under (e : Edge) (id src dst : Int) : Edge := { e with id := id, src := src, dst := dst }

/-- Whether a graph is another one under other identities, which increase along its nodes and along its edges. -/
structure Graph.Renumbers (g h : Graph) (node edge : Int → Int) : Prop where
  nodes : h.nodes = g.nodes.map fun n => n.under (node n.id)
  edges : h.edges = g.edges.map fun e => e.under (edge e.id) (node e.src) (node e.dst)
  nodes_ordered : h.nodeIds.Pairwise (· < ·)
  edges_ordered : (h.edges.map Edge.id).Pairwise (· < ·)

theorem pairwise_range (i j : Int) : (Int.range i j).Pairwise (· < ·) := by
  refine List.pairwise_lt_range.map _ fun a b hab => ?_
  show i + (a : Int) < i + (b : Int)
  omega

theorem Store.renumbers_importCopy (s : Store) (g : Graph) :
    g.Renumbers (s.importCopy g) (g.renumber s.nextNode) (fun i => s.nextEdge + (g.edges.map Edge.id).idxOf i) where
  nodes := rfl
  edges := Keeping.map_zipIdx_eq g.wired.edges_distinct fun e i =>
    e.draft.withId (s.nextEdge + i) (g.renumber s.nextNode e.src) (g.renumber s.nextNode e.dst)
  nodes_ordered := by
    rw [show (s.importCopy g).nodeIds = _ from (Issued.Between.importGraph s g).nodes]
    exact pairwise_range _ _
  edges_ordered := by
    rw [show (s.importCopy g).edges.map Edge.id = _ from (Issued.Between.importGraph s g).edges]
    exact pairwise_range _ _

/-! ## Graphs out of a store -/

theorem Store.map_present (l : List Edge) : (l.map fun e => (⟨e, e.tags⟩ : Tagged Edge)).map present = l := by
  rw [List.map_map]
  exact List.map_id l

theorem Store.graph_ofGraph (g : Graph) : (Store.ofGraph g).graph = g :=
  Graph.ext (items_map_mk g.nodes fun _ => ∅) (map_present g.edges)

theorem Store.nodes_graph_importGraph (s : Store) (g : Graph) :
    (s.importGraph g).graph.nodes = s.graph.nodes ++ (s.importCopy g).nodes := by
  show items (s.importGraph g).nodes = items s.nodes ++ _
  rw [importGraph, items_append, items_map_mk]

theorem Store.edges_graph_importGraph (s : Store) (g : Graph) :
    (s.importGraph g).graph.edges = s.graph.edges ++ (s.importCopy g).edges := by
  show (s.importGraph g).edges.map present = s.edges.map present ++ _
  rw [importGraph, List.map_append, map_present]

theorem Store.not_mem_importCopy {s : Store} {i : Int} (hi : i ∈ s.nodeIds) (g : Graph) : i ∉ (s.importCopy g).nodeIds := by
  obtain ⟨n, hn, rfl⟩ := List.mem_map.1 hi
  intro hcopy
  obtain ⟨m, hm, hid⟩ := List.mem_map.1 hcopy
  have hbelow := s.nodes_below n hn
  have hbounds := g.copiedNode_bounds s.nextNode hm
  omega

/-- Between the nodes of an imported graph a store shows that graph. -/
theorem Store.snapshot_importGraph (s : Store) (g : Graph) :
    (s.importGraph g).snapshot (s.importCopy g).nodeIds = s.importCopy g := by
  let h := s.importCopy g
  apply Graph.ext
  · -- the nodes before have other identities
    show (s.importGraph g).graph.nodes.filter (h.nodeIds.contains ·.id) = h.nodes
    have hold : s.graph.nodes.filter (h.nodeIds.contains ·.id) = [] := by
      refine List.filter_eq_nil_iff.2 fun n hn hmem => ?_
      exact not_mem_importCopy (List.mem_map_of_mem hn) g (List.contains_iff_mem.1 hmem)
    have hnew : h.nodes.filter (h.nodeIds.contains ·.id) = h.nodes :=
      List.filter_eq_self.2 fun n hn => List.contains_iff_mem.2 (List.mem_map_of_mem hn)
    rw [nodes_graph_importGraph, List.filter_append, hold, hnew, List.nil_append]
  · -- and the edges before are between them
    let inside (e : Edge) : Bool := h.nodeIds.contains e.src && h.nodeIds.contains e.dst
    show (s.importGraph g).graph.edges.filter inside = h.edges
    have hold : s.graph.edges.filter inside = [] := by
      refine List.filter_eq_nil_iff.2 fun e he hmem => ?_
      have hsrc := (Bool.and_eq_true _ _ ▸ hmem).1
      exact not_mem_importCopy (s.graph.wired.closed e he).1 g (List.contains_iff_mem.1 hsrc)
    have hnew : h.edges.filter inside = h.edges := by
      refine List.filter_eq_self.2 fun e he => ?_
      show (_ && _) = true
      rw [Bool.and_eq_true, List.contains_iff_mem, List.contains_iff_mem]
      exact h.wired.closed e he
    rw [edges_graph_importGraph, List.filter_append, hold, hnew, List.nil_append]

/-! ## What a store keeps -/

/-- Whether a store still has all that another one has, in the same order and with the same tags. -/
structure Store.Keeps (s s' : Store) : Prop where
  nodes : s.nodes <+: s'.nodes
  edges : s.edges <+: s'.edges
  node : ∀ ref n, s.node ref = .ok n → s'.node ref = .ok n
  edge : ∀ id e, s.edge id = .ok e → s'.edge id = .ok e
  tags : ∀ el tags, s.tagsOf el = .ok tags → s'.tagsOf el = .ok tags

theorem Store.keeps_of_initial {s s' : Store} (hnodes : s.nodes <+: s'.nodes) (hedges : s.edges <+: s'.edges) :
    s.Keeps s' where
  nodes := hnodes
  edges := hedges
  node ref n h := by
    obtain ⟨x, hx, rfl⟩ := map_eq_ok_iff.1 h
    obtain ⟨hmem, hid⟩ := taggedNode_eq_ok_iff.1 hx
    exact map_eq_ok_iff.2 ⟨x, taggedNode_eq_ok_iff.2 ⟨hnodes.subset hmem, hid⟩, rfl⟩
  edge id e h := by
    obtain ⟨x, hx, rfl⟩ := map_eq_ok_iff.1 h
    obtain ⟨hmem, hid⟩ := taggedEdge_eq_ok_iff.1 hx
    exact map_eq_ok_iff.2 ⟨x, taggedEdge_eq_ok_iff.2 ⟨hedges.subset hmem, hid⟩, rfl⟩
  tags el tags h := by
    cases el with
    | node ref =>
      obtain ⟨x, hx, hrest⟩ := tagsOf_node_eq_ok_iff.1 h
      exact tagsOf_node_eq_ok_iff.2 ⟨x, hnodes.subset hx, hrest⟩
    | edge id =>
      obtain ⟨x, hx, hrest⟩ := tagsOf_edge_eq_ok_iff.1 h
      exact tagsOf_edge_eq_ok_iff.2 ⟨x, hedges.subset hx, hrest⟩

/-! ## Imports in a history -/

variable {ι : Type} [DecidableEq ι]

/-- Identities that are handed out after a history are none of those from which the store was opened or which it has handed out. -/
theorem Desk.nodup_issued (start : Option Graph) (actions : List (Action ι)) {issued : Issued} {s' : Store}
    (h : issued.Between (actions.foldl Shared.act (Shared.opened (Store.opened start))).store s') :
    let used := issuedByAll ((opened start).run actions).1
    ((opened (ι := ι) start).tables.nodes.keys ++ (used.nodes ++ issued.nodes)).Nodup ∧
      ((opened (ι := ι) start).tables.edges.keys ++ (used.edges ++ issued.edges)).Nodup := by
  intro used
  obtain ⟨-, hused⟩ := run_eq (Shared.opened (Store.opened start)) actions
  rw [← opened_eq] at hused
  have hall := hused.append h
  have hstart := (Store.opened start).inStep_tables
  constructor
  · rw [show used.nodes ++ issued.nodes = _ from hall.nodes, opened_eq]
    exact nodup_append_range hstart.nodes_distinct hstart.nodes_below
  · rw [show used.edges ++ issued.edges = _ from hall.edges, opened_eq]
    exact nodup_append_range hstart.edges_distinct hstart.edges_below

/-- A store opened with a graph shows that graph. After any history, importing a graph gives the graph under other identities, in
the same order and none of them used before; all that the store had stays as it was, and only that graph is added; and between
the nodes of the imported graph the store shows that graph. A store that is kept in tables gives the same graphs. -/
theorem Store.copying_loses_nothing (g : Graph) :
    (Store.ofGraph g).graph = g ∧ (Keeping.snapshot none).run (Tables.ofGraph g) = (.ok g, Tables.ofGraph g) ∧
    ∀ (start : Option Graph) (actions : List (Action ι)),
      let s := (actions.foldl Shared.act (Shared.opened (Store.opened start))).store
      let used := Desk.issuedByAll ((Desk.opened start).run actions).1
      let h := s.importCopy g
      let s' := s.importGraph g
      (∃ node edge, g.Renumbers h node edge) ∧
        ((Desk.opened (ι := ι) start).tables.nodes.keys ++ (used.nodes ++ h.nodeIds)).Nodup ∧
        ((Desk.opened (ι := ι) start).tables.edges.keys ++ (used.edges ++ h.edges.map Edge.id)).Nodup ∧
        s.Keeps s' ∧ s'.graph.nodes = s.graph.nodes ++ h.nodes ∧ s'.graph.edges = s.graph.edges ++ h.edges ∧
        s'.snapshot h.nodeIds = h ∧
        ((Desk.opened start).run actions).2.tables = s.tables ∧
        (Keeping.importGraph g).run s.tables = (.ok h, s'.tables) ∧
        (Keeping.snapshot (some h.nodeIds)).run s'.tables = (.ok h, s'.tables) := by
  refine ⟨Store.graph_ofGraph g, ?_, ?_⟩
  · rw [Tables.ofGraph_eq, Keeping.run_snapshot]
    exact congrArg (fun graph => (Except.ok graph, (Store.ofGraph g).tables)) (Store.graph_ofGraph g)
  · intro start actions s used h s'
    obtain ⟨hnodes, hedges⟩ := Desk.nodup_issued start actions (Issued.Between.importGraph s g)
    have hsnapshot : s'.snapshot h.nodeIds = h := s.snapshot_importGraph g
    have hdesk := (Desk.run_eq (Shared.opened (Store.opened start)) actions).1
    rw [← Desk.opened_eq] at hdesk
    refine ⟨⟨_, _, s.renumbers_importCopy g⟩, hnodes, hedges, ?_, s.nodes_graph_importGraph g, s.edges_graph_importGraph g,
      hsnapshot, ?_, Keeping.run_importGraph s g, ?_⟩
    · exact Store.keeps_of_initial (List.prefix_append _ _) (List.prefix_append _ _)
    · exact congrArg Desk.tables hdesk
    · rw [Keeping.run_snapshot]
      exact congrArg (fun graph => (Except.ok graph, s'.tables)) hsnapshot

end Flowgraph
