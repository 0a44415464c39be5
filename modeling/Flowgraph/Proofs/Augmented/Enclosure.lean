import Flowgraph.Graph.Arena
import Flowgraph.Proofs.Augmented.Ends
import Flowgraph.Proofs.Run
/-!
# A function between one source and one sink

Augmentation leaves the function as it is and puts it between two new nodes (`Encloses`): the entry, at which no edge arrives
and from which one new edge leads to each root, and the exit, which no edge leaves and to which one new edge leads from each
exit point. The new edges are links under successive identities (`numbered`); apart from the identities they are the links
(`map_link_numbered`).

The same graph comes about if the new elements are added one at a time to an arena that holds the function
(`Augmented.assembled_eq`), which hands out the identities by itself and refuses edges at nodes that it does not hold.
-/

namespace Flowgraph

variable {first : Int} {links more : List (EdgeDraft × Int × Int)} {e : Edge}

/-! ## Links under successive identities -/

/-- Edges with given ends, numbered from an identity on. -/
def numbered (first : Int) (links : List (EdgeDraft × Int × Int)) : List Edge :=
  links.zipIdx.map fun ((draft, src, dst), i) => draft.withId (first + i) src dst

/-- An edge without its identity. -/
def Edge.link (e : Edge) : EdgeDraft × Int × Int := (e.draft, e.src, e.dst)

theorem map_link_numbered (first : Int) (links : List (EdgeDraft × Int × Int)) :
    (numbered first links).map Edge.link = links := by
  rw [numbered, List.map_map]
  exact List.zipIdx_map_fst 0 links

theorem numbered_append (first : Int) (links more : List (EdgeDraft × Int × Int)) :
    numbered first (links ++ more) = numbered first links ++ numbered (first + links.length) more := by
  simp only [numbered, List.zipIdx_append, List.map_append, Nat.zero_add]
  congr 1
  rw [List.zipIdx_eq_map_add, List.map_map]
  refine List.map_congr_left fun ⟨link, i⟩ _ => ?_
  simp [Int.add_comm, Int.add_left_comm]

theorem numbered_singleton (first : Int) (draft : EdgeDraft) (src dst : Int) :
    numbered first [(draft, src, dst)] = [draft.withId first src dst] := by
  simp [numbered]

theorem first_le_of_mem_numbered (he : e ∈ numbered first links) : first ≤ e.id := by
  obtain ⟨⟨link, i⟩, -, rfl⟩ := List.mem_map.1 he
  rw [EdgeDraft.id_withId]
  omega

theorem link_mem_of_mem_numbered (he : e ∈ numbered first links) : e.link ∈ links := by
  rw [← map_link_numbered first links]
  exact List.mem_map_of_mem he

/-! ## The same graph from an arena -/

namespace Arena

variable {a : Arena}

def addEdges (a : Arena) (links : List (EdgeDraft × Int × Int)) : Except Fault Arena :=
  links.foldlM (fun a (draft, src, dst) => Prod.snd <$> a.addEdge src dst draft) a

theorem addEdge_eq_ok {src dst : Int} (draft : EdgeDraft) (hsrc : src ∈ a.nodeIds) (hdst : dst ∈ a.nodeIds) :
    ∃ b, a.addEdge src dst draft = .ok (draft.withId a.nextEdge src dst, b) ∧ b.nodes = a.nodes ∧
      b.edges = a.edges ++ [draft.withId a.nextEdge src dst] ∧ b.nextNode = a.nextNode ∧
      b.nextEdge = a.nextEdge + 1 := by
  rw [addEdge, dif_pos ⟨hsrc, hdst⟩]
  exact ⟨_, rfl, rfl, rfl, rfl, rfl⟩

/-- Edges between nodes that are there are added under successive identities. -/
theorem addEdges_eq_ok (a : Arena) (links : List (EdgeDraft × Int × Int))
    (hends : ∀ link ∈ links, link.2.1 ∈ a.nodeIds ∧ link.2.2 ∈ a.nodeIds) :
    ∃ b, a.addEdges links = .ok b ∧ b.nodes = a.nodes ∧ b.edges = a.edges ++ numbered a.nextEdge links ∧
      b.nextNode = a.nextNode ∧ b.nextEdge = a.nextEdge + links.length := by
  induction links generalizing a with
  | nil => exact ⟨a, rfl, rfl, by simp [numbered], rfl, by simp⟩
  | cons link links ih =>
    obtain ⟨draft, src, dst⟩ := link
    obtain ⟨⟨hsrc, hdst⟩, hends⟩ := List.forall_mem_cons.1 hends
    obtain ⟨b, hb, hnodes, hedges, hnode, hedge⟩ := addEdge_eq_ok draft hsrc hdst
    have hids : b.nodeIds = a.nodeIds := congrArg (List.map Node.id) hnodes
    obtain ⟨c, hc, hnodes', hedges', hnode', hedge'⟩ := ih b fun link hlink => hids ▸ hends link hlink
    refine ⟨c, ?_, hnodes'.trans hnodes, ?_, hnode'.trans hnode, ?_⟩
    · rw [addEdges, List.foldlM_cons]
      show (Prod.snd <$> a.addEdge src dst draft >>= _) = _
      rw [hb]
      exact hc
    · rw [hedges', hedges, hedge, ← List.singleton_append (l := links), numbered_append, numbered_singleton,
        List.append_assoc]
      rfl
    · rw [hedge', hedge, List.length_cons]
      omega

/-- A node is added, and then edges between it and nodes that are there. -/
theorem addNode_addEdges (a : Arena) (draft : NodeDraft) (links : List (EdgeDraft × Int × Int))
    (hends : ∀ link ∈ links, (link.2.1 ∈ a.nodeIds ∨ link.2.1 = a.nextNode) ∧
      (link.2.2 ∈ a.nodeIds ∨ link.2.2 = a.nextNode)) :
    ∃ b, (a.addNode draft).2.addEdges links = .ok b ∧ b.nodes = a.nodes ++ [draft.withId a.nextNode] ∧
      b.edges = a.edges ++ numbered a.nextEdge links ∧ b.nextNode = a.nextNode + 1 ∧
      b.nextEdge = a.nextEdge + links.length := by
  have hids : ∀ i, i ∈ (a.addNode draft).2.nodeIds ↔ i ∈ a.nodeIds ∨ i = a.nextNode := by
    intro i
    show i ∈ (a.nodes ++ [draft.withId a.nextNode]).map Node.id ↔ _
    rw [List.map_append, List.mem_append]
    exact or_congr_right (by simp)
  apply addEdges_eq_ok
  intro link hlink
  rw [hids, hids]
  exact hends link hlink

end Arena

namespace Augmented

/-- The entry before it has an identity. -/
def entryDraft : NodeDraft := { kind := .entry, name := entryName, attrs := [("tag", entryName)] }

/-- The exit before it has an identity. -/
def exitDraft : NodeDraft := { kind := .exit, name := exitName, attrs := [("tag", exitName)] }

/-- The links from an entry to the roots of a graph. -/
def rootLinks (g : Graph) (entry : Int) : List (EdgeDraft × Int × Int) :=
  g.roots.map fun n => ({ kind := .entryLink, tags := .ofList [entryLinkTag] }, entry, n.id)

/-- The links from the exit points of a graph to an exit. -/
def exitLinks (g : Graph) (exit : Int) : List (EdgeDraft × Int × Int) :=
  g.exitPoints.map fun n => ({ kind := .exitLink, tags := .ofList [exitLinkTag] }, n.id, exit)

variable (a : Augmented)

/-- The new edges from the entry. -/
def entering : List Edge := numbered (a.base.maxEdgeId + 1) (rootLinks a.base a.entry.id)

/-- The new edges to the exit. -/
def leaving : List Edge :=
  numbered (a.base.maxEdgeId + 1 + (rootLinks a.base a.entry.id).length) (exitLinks a.base a.exit.id)

theorem linkEdges_eq : a.linkEdges = a.entering ++ a.leaving :=
  numbered_append (a.base.maxEdgeId + 1) (rootLinks a.base a.entry.id) (exitLinks a.base a.exit.id)

/-- The augmented graph, put together in an arena one element at a time. -/
def assembled : Except Fault Graph := do
  let (entry, arena) := (Arena.ofGraph a.base).addNode entryDraft
  let arena ← arena.addEdges (rootLinks a.base entry.id)
  let (exit, arena) := arena.addNode exitDraft
  let arena ← arena.addEdges (exitLinks a.base exit.id)
  return arena.toGraph

theorem root_mem_nodeIds {n : Node} (hn : n ∈ a.base.roots) : n.id ∈ a.base.nodeIds :=
  List.mem_map_of_mem (List.mem_filter.1 hn).1

theorem exitPoint_mem_nodeIds {n : Node} (hn : n ∈ a.base.exitPoints) : n.id ∈ a.base.nodeIds :=
  List.mem_map_of_mem (List.mem_filter.1 hn).1

theorem assembled_eq : a.assembled = .ok a.graph := by
  obtain ⟨b, hb, hnodes, hedges, hnode, hedge⟩ := (Arena.ofGraph a.base).addNode_addEdges entryDraft
    (rootLinks a.base a.entry.id) fun link hlink => by
      obtain ⟨n, hn, rfl⟩ := List.mem_map.1 hlink
      exact ⟨Or.inr rfl, Or.inl (a.root_mem_nodeIds hn)⟩
  have hexit : b.nextNode = a.exit.id := by
    have hentry : (Arena.ofGraph a.base).nextNode = a.base.maxNodeId + 1 := rfl
    have hid : a.exit.id = a.base.maxNodeId + 2 := rfl
    omega
  obtain ⟨c, hc, hnodes', hedges', -, -⟩ := b.addNode_addEdges exitDraft (exitLinks a.base a.exit.id)
    fun link hlink => by
      obtain ⟨n, hn, rfl⟩ := List.mem_map.1 hlink
      refine ⟨Or.inl ?_, Or.inr hexit.symm⟩
      rw [Graph.nodeIds, hnodes, List.map_append]
      exact List.mem_append_left _ (a.exitPoint_mem_nodeIds hn)
  have hrun : a.assembled = .ok c.toGraph := by
    show (((Arena.ofGraph a.base).addNode entryDraft).2.addEdges (rootLinks a.base a.entry.id) >>= fun arena =>
      (arena.addNode exitDraft).2.addEdges (exitLinks a.base arena.nextNode) >>= fun arena => pure arena.toGraph) = _
    rw [hb]
    show ((b.addNode exitDraft).2.addEdges (exitLinks a.base b.nextNode) >>= fun arena => pure arena.toGraph) = _
    rw [hexit, hc]
    rfl
  have hgraph : c.toGraph = a.graph := by
    apply Graph.ext
    · rw [hnodes', hnodes, hexit, List.append_assoc]
      rfl
    · rw [hedges', hedges, hedge, List.append_assoc]
      exact congrArg (a.base.edges ++ ·) a.linkEdges_eq.symm
  rw [hrun, hgraph]

/-! ## The new edges -/

variable {a}

theorem of_mem_entering (he : e ∈ a.entering) :
    e.src = a.entry.id ∧ e.dst ∈ a.base.nodeIds ∧ e.kind = .entryLink := by
  obtain ⟨n, hn, hlink⟩ := List.mem_map.1 (link_mem_of_mem_numbered he)
  obtain ⟨hdraft, hends⟩ := Prod.mk.inj hlink
  obtain ⟨hsrc, hdst⟩ := Prod.mk.inj hends
  exact ⟨hsrc.symm, hdst ▸ a.root_mem_nodeIds hn, (congrArg EdgeDraft.kind hdraft).symm⟩

theorem of_mem_leaving (he : e ∈ a.leaving) :
    e.src ∈ a.base.nodeIds ∧ e.dst = a.exit.id ∧ e.kind = .exitLink := by
  obtain ⟨n, hn, hlink⟩ := List.mem_map.1 (link_mem_of_mem_numbered he)
  obtain ⟨hdraft, hends⟩ := Prod.mk.inj hlink
  obtain ⟨hsrc, hdst⟩ := Prod.mk.inj hends
  exact ⟨hsrc ▸ a.exitPoint_mem_nodeIds hn, hdst.symm, (congrArg EdgeDraft.kind hdraft).symm⟩

variable (a)

theorem edges_graph : a.graph.edges = a.base.edges ++ (a.entering ++ a.leaving) :=
  congrArg (a.base.edges ++ ·) a.linkEdges_eq

theorem map_dst_entering : a.entering.map Edge.dst = a.base.roots.map Node.id := by
  have hlinks := map_link_numbered (a.base.maxEdgeId + 1) (rootLinks a.base a.entry.id)
  have hdst : a.entering.map Edge.dst = (a.entering.map Edge.link).map fun link => link.2.2 := by
    rw [List.map_map]
    rfl
  rw [hdst, entering, hlinks, rootLinks, List.map_map]
  rfl

theorem map_src_leaving : a.leaving.map Edge.src = a.base.exitPoints.map Node.id := by
  have hlinks := map_link_numbered (a.base.maxEdgeId + 1 + (rootLinks a.base a.entry.id).length)
    (exitLinks a.base a.exit.id)
  have hsrc : a.leaving.map Edge.src = (a.leaving.map Edge.link).map fun link => link.2.1 := by
    rw [List.map_map]
    rfl
  rw [hsrc, leaving, hlinks, exitLinks, List.map_map]
  rfl

/-- Of three parts of a list, the one whose members have a key. -/
theorem filter_key_eq_middle {before kept after : List Edge} {key : Edge → Int} {k : Int} (hbefore : ∀ e ∈ before, key e ≠ k)
    (hkept : ∀ e ∈ kept, key e = k) (hafter : ∀ e ∈ after, key e ≠ k) :
    (before ++ (kept ++ after)).filter (key · == k) = kept := by
  have hnone : ∀ {l : List Edge}, (∀ e ∈ l, key e ≠ k) → l.filter (key · == k) = [] := by
    intro l hl
    rw [List.filter_eq_nil_iff]
    intro e he
    simpa using hl e he
  have hall : kept.filter (key · == k) = kept := by
    rw [List.filter_eq_self]
    intro e he
    exact beq_iff_eq.2 (hkept e he)
  rw [List.filter_append, List.filter_append, hnone hbefore, hnone hafter, hall, List.nil_append, List.append_nil]

theorem outEdges_entry : a.graph.outEdges a.entry.id = a.entering := by
  rw [Graph.outEdges, edges_graph]
  apply filter_key_eq_middle
  · intro e he
    exact Int.ne_of_lt (own_lt_entry (a.base.wired.closed e he).1)
  · intro e he
    exact (of_mem_entering he).1
  · intro e he
    exact Int.ne_of_lt (own_lt_entry (of_mem_leaving he).1)

theorem inEdges_exit : a.graph.inEdges a.exit.id = a.leaving := by
  have hown : ∀ {i : Int}, i ∈ a.base.nodeIds → i ≠ a.exit.id := by
    intro i hi
    exact Int.ne_of_lt (Int.lt_trans (own_lt_entry hi) a.entry_lt_exit)
  have hedges : a.graph.edges = a.base.edges ++ a.entering ++ (a.leaving ++ []) := by
    rw [edges_graph, List.append_nil, List.append_assoc]
  rw [Graph.inEdges, hedges]
  apply filter_key_eq_middle
  · intro e he
    rcases List.mem_append.1 he with he | he
    · exact hown (a.base.wired.closed e he).2
    · exact hown (of_mem_entering he).2.1
  · intro e he
    exact (of_mem_leaving he).2.1
  · simp

theorem inEdges_entry : a.graph.inEdges a.entry.id = [] := by
  rw [Graph.inEdges, List.filter_eq_nil_iff]
  intro e he
  simpa using (edge_ends he).1

theorem outEdges_exit : a.graph.outEdges a.exit.id = [] := by
  rw [Graph.outEdges, List.filter_eq_nil_iff]
  intro e he
  simpa using (edge_ends he).2

end Augmented

/-! ## Source and sink -/

/-- A graph that has, after the nodes and edges of another, new ones: one entry, to which no edge leads and from which one edge
leads to each root in turn, and one exit, which no edge leaves and to which one edge leads from each exit point in turn. -/
structure Encloses (g h : Graph) (entry exit : Node) (entering leaving : List Edge) : Prop where
  nodes : h.nodes = g.nodes ++ [entry, exit]
  edges : h.edges = g.edges ++ (entering ++ leaving)
  nodes_new : entry.id ∉ g.nodeIds ∧ exit.id ∉ g.nodeIds
  edges_new : ∀ e ∈ entering ++ leaving, e.id ∉ g.edges.map Edge.id
  entries : h.nodesOfKind [.entry] = [entry]
  exits : h.nodesOfKind [.exit] = [exit]
  source : h.inEdges entry.id = []
  leads_in : h.outEdges entry.id = entering
  to_roots : entering.map Edge.dst = g.roots.map Node.id
  entry_links : ∀ e ∈ entering, e.kind = .entryLink
  sink : h.outEdges exit.id = []
  leads_out : h.inEdges exit.id = leaving
  from_exitPoints : leaving.map Edge.src = g.exitPoints.map Node.id
  exit_links : ∀ e ∈ leaving, e.kind = .exitLink

theorem Graph.nodesOfKind_eq_nil_iff {g : Graph} :
    g.nodesOfKind [.entry, .exit] = [] ↔ ∀ n ∈ g.nodes, n.kind ≠ .entry ∧ n.kind ≠ .exit := by
  simp [Graph.nodesOfKind]

namespace Augmented

theorem encloses (a : Augmented) : Encloses a.base a.graph a.entry a.exit a.entering a.leaving where
  nodes := rfl
  edges := a.edges_graph
  nodes_new := by
    have hlt := a.entry_lt_exit
    refine ⟨fun h => ?_, fun h => ?_⟩
    · exact absurd (own_lt_entry h) (by omega)
    · exact absurd (own_lt_entry h) (by omega)
  edges_new e he hold := by
    have hle : e.id ≤ a.base.maxEdgeId := Graph.le_largest hold
    rcases List.mem_append.1 he with he | he
    · have hfirst := first_le_of_mem_numbered he
      omega
    · have hfirst := first_le_of_mem_numbered he
      omega
  entries := by
    have hnone : a.base.nodes.filter (fun n => [NodeKind.entry].contains n.kind) = [] := by
      rw [List.filter_eq_nil_iff]
      intro n hn
      simpa using (Graph.nodesOfKind_eq_nil_iff.1 a.unaugmented n hn).1
    rw [Graph.nodesOfKind, graph, List.filter_append, hnone]
    rfl
  exits := by
    have hnone : a.base.nodes.filter (fun n => [NodeKind.exit].contains n.kind) = [] := by
      rw [List.filter_eq_nil_iff]
      intro n hn
      simpa using (Graph.nodesOfKind_eq_nil_iff.1 a.unaugmented n hn).2
    rw [Graph.nodesOfKind, graph, List.filter_append, hnone]
    rfl
  source := a.inEdges_entry
  leads_in := a.outEdges_entry
  to_roots := a.map_dst_entering
  entry_links e he := (of_mem_entering he).2.2
  sink := a.outEdges_exit
  leads_out := a.inEdges_exit
  from_exitPoints := a.map_src_leaving
  exit_links e he := (of_mem_leaving he).2.2

/-! ## Augmentation -/

variable {g : Graph} (name : Option String)

theorem ofGraph_of_synthetic (h : ∃ n ∈ g.nodes, n.kind = .entry ∨ n.kind = .exit) :
    ofGraph g name = .error (.syntheticNodes (g.nodesOfKind [.entry, .exit])) := by
  have hsome : g.nodesOfKind [.entry, .exit] ≠ [] := by
    rw [ne_eq, Graph.nodesOfKind_eq_nil_iff]
    obtain ⟨n, hn, hkind⟩ := h
    intro hnone
    exact hkind.elim (hnone n hn).1 (hnone n hn).2
  rw [ofGraph, dif_neg hsome]

theorem ofGraph_of_rootless (hplain : ∀ n ∈ g.nodes, n.kind ≠ .entry ∧ n.kind ≠ .exit)
    (hroots : ∀ n ∈ g.nodes, n.isRoot = false) : ofGraph g name = .error (.noRoot name) := by
  have hnone : g.roots = [] := by simpa [Graph.roots] using hroots
  rw [ofGraph, dif_pos (Graph.nodesOfKind_eq_nil_iff.2 hplain), dif_pos hnone]

theorem ofGraph_of_rooted (hplain : ∀ n ∈ g.nodes, n.kind ≠ .entry ∧ n.kind ≠ .exit)
    (hroot : ∃ n ∈ g.nodes, n.isRoot = true) : ∃ a, ofGraph g name = .ok a ∧ a.base = g := by
  have hsome : g.roots ≠ [] := by
    obtain ⟨n, hn, hn'⟩ := hroot
    exact List.ne_nil_of_mem (List.mem_filter.2 ⟨hn, hn'⟩)
  rw [ofGraph, dif_pos (Graph.nodesOfKind_eq_nil_iff.2 hplain), dif_neg hsome]
  exact ⟨_, rfl, rfl⟩

end Augmented

namespace Graph

/-- Augmentation refuses exactly the graphs with an entry or an exit and, of the others, those without a root. It encloses any
other graph between one source and one sink, and gives what an arena gives to which the new elements are added in turn. -/
theorem augmentation_encloses (g : Graph) (name : Option String) (log : Array Report) :
    (((g.augment name).run log).1 = .error (.syntheticNodes (g.nodesOfKind [.entry, .exit])) ↔
      ∃ n ∈ g.nodes, n.kind = .entry ∨ n.kind = .exit) ∧
    (((g.augment name).run log).1 = .error (.noRoot name) ↔
      (∀ n ∈ g.nodes, n.kind ≠ .entry ∧ n.kind ≠ .exit) ∧ ∀ n ∈ g.nodes, n.isRoot = false) ∧
    ((∀ n ∈ g.nodes, n.kind ≠ .entry ∧ n.kind ≠ .exit) → (∃ n ∈ g.nodes, n.isRoot = true) →
      ∃ a, ((g.augment name).run log).1 = .ok a ∧ a.assembled = .ok a.graph ∧
        ∃ entering leaving, Encloses g a.graph a.entry a.exit entering leaving) := by
  rw [g.gives_augment name log]
  by_cases hplain : ∀ n ∈ g.nodes, n.kind ≠ .entry ∧ n.kind ≠ .exit
  · have hnot : ¬∃ n ∈ g.nodes, n.kind = .entry ∨ n.kind = .exit := by
      rintro ⟨n, hn, hkind⟩
      exact hkind.elim (hplain n hn).1 (hplain n hn).2
    by_cases hroot : ∃ n ∈ g.nodes, n.isRoot = true
    · obtain ⟨a, ha, rfl⟩ := Augmented.ofGraph_of_rooted name hplain hroot
      have hrooted : ¬∀ n ∈ a.base.nodes, n.isRoot = false := by simpa using hroot
      rw [ha]
      refine ⟨by simpa using hnot, by simp [hrooted], fun _ _ => ?_⟩
      exact ⟨a, rfl, a.assembled_eq, a.entering, a.leaving, a.encloses⟩
    · have hroots : ∀ n ∈ g.nodes, n.isRoot = false := by simpa using hroot
      rw [Augmented.ofGraph_of_rootless name hplain hroots]
      exact ⟨by simpa using hnot, iff_of_true rfl ⟨hplain, hroots⟩, fun _ h => absurd h hroot⟩
  · have hsynthetic : ∃ n ∈ g.nodes, n.kind = .entry ∨ n.kind = .exit := by
      by_contra hnone
      apply hplain
      intro n hn
      exact ⟨fun h => hnone ⟨n, hn, Or.inl h⟩, fun h => hnone ⟨n, hn, Or.inr h⟩⟩
    rw [Augmented.ofGraph_of_synthetic name hsynthetic]
    exact ⟨iff_of_true rfl hsynthetic, by simp [hplain], fun h => absurd h hplain⟩

/-- A function with two roots, one of them an exit point as well, and negative identities. -/
def negativeIds : Graph where
  nodes := [{ id := -3, name := "late", isRoot := true, isExitPoint := true }, { id := -7, name := "early", isRoot := true }]
  edges := [⟨-4, -7, -3, .structural, none, false, ∅, []⟩]
  wired := ⟨by decide, by decide, by decide⟩

theorem augmentation_encloses_negativeIds :
    ((∀ n ∈ negativeIds.nodes, n.kind ≠ .entry ∧ n.kind ≠ .exit) ∧ ∃ n ∈ negativeIds.nodes, n.isRoot = true) ∧
    ∃ a, ((negativeIds.augment none).run #[]).1 = .ok a ∧ a.assembled = .ok a.graph ∧
      ∃ entering leaving, Encloses negativeIds a.graph a.entry a.exit entering leaving := by
  have hplain : ∀ n ∈ negativeIds.nodes, n.kind ≠ .entry ∧ n.kind ≠ .exit := by decide
  have hroot : ∃ n ∈ negativeIds.nodes, n.isRoot = true := by decide
  exact ⟨⟨hplain, hroot⟩, (augmentation_encloses negativeIds none #[]).2.2 hplain hroot⟩

end Graph

end Flowgraph
