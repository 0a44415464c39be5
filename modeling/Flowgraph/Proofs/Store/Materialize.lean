import Flowgraph.Proofs.Reduction.Walk
import Flowgraph.Proofs.Store.Writing
/-!
# Reading a reduced graph back

A reduced graph is written into a store that holds the function it was made from, and perhaps other functions. Entry, exit,
links and bypasses have identities that may belong to elements of other functions there. An edge is therefore taken for one of
the function only by its kind and its tags, and those that are so taken are edges of the function
(`Augmented.exists_base_edge`). So the nodes and edges of the reduced graph are found again by their tags, and everything else
in the store stays as it was (`EventGraph.materialized_graph_reads_back`).
-/

namespace Flowgraph

namespace EventGraph

open Writing

variable {s : Store} {n : Node}

/-! ## Writing nodes -/

theorem writes_stored (hentry : n.kind ≠ .entry) (hexit : n.kind ≠ .exit) {x : Tagged Node} (hx : x ∈ s.nodes)
    (hid : x.item.id = n.id) (hclean : Tag.eventNode ∉ x.tags) :
    ∃ s', Writes (writeNode n) s (n.id, n.id) s' ∧ Gains Tag.eventNode s.nodes x.item s'.nodes ∧
      items s'.nodes = items s.nodes ∧ s'.edges = s.edges ∧ s'.nextNode = s.nextNode := by
  refine ⟨s.changeTags (·.insert Tag.eventNode) (.node x.item), ?_, ?_, ?_, rfl, rfl⟩
  · have htag : Writes (tag (.node x.item) Tag.eventNode) s () _ :=
      .tag (Store.tagsOf_node_eq_ok_iff.2 ⟨x, hx, rfl, rfl⟩) hclean
    rw [writeNode]
    cases hkind : n.kind with
    | entry => exact absurd hkind hentry
    | exit => exact absurd hkind hexit
    | regular => exact (Writes.node hx hid).bind (htag.bind (hid ▸ .pure _ _))
    | condition => exact (Writes.node hx hid).bind (htag.bind (hid ▸ .pure _ _))
  · exact Store.gains_retag s.wired.nodes_distinct hx hclean
  · simp [Store.changeTags]

/-- A node of its own, with a tag of its own, is created and marked. -/
theorem writes_fresh (draft : NodeDraft) {name : String} (hname : Tag.eventNode ≠ name) (i : Int) :
    ∃ s', Writes (do
        let m ← createNode draft
        tag (.node m) name
        let stored ← pure m
        tag (.node stored) Tag.eventNode
        return (i, stored.id)) s (i, s.nextNode) s' ∧
      Gains Tag.eventNode s.nodes (draft.withId s.nextNode) s'.nodes ∧ s'.edges = s.edges ∧
      s'.nextNode = s.nextNode + 1 := by
  let m := draft.withId s.nextNode
  have hold : ∀ y ∈ s.nodes, (y.item.id == m.id) = false := by
    intro y hy
    have hlt : y.item.id < s.nextNode := s.nodes_below _ (List.mem_map_of_mem hy)
    have hm : m.id = s.nextNode := rfl
    simp
    omega
  let s₁ := (s.createNode draft ∅).2
  let s₂ := s₁.changeTags (·.insert name) (.node m)
  let s₃ := s₂.changeTags (·.insert Tag.eventNode) (.node m)
  have h₁ : s₁.nodes = s.nodes ++ [⟨m, ∅⟩] := rfl
  have h₂ : s₂.nodes = s.nodes ++ [⟨m, (∅ : TagSet).insert name⟩] := by
    rw [Store.nodes_changeTags, h₁]
    exact Store.retag_middle hold (by simp [NodeRef.key]) (by simp)
  have h₃ : s₃.nodes = s.nodes ++ [⟨m, ((∅ : TagSet).insert name).insert Tag.eventNode⟩] := by
    rw [Store.nodes_changeTags, h₂]
    exact Store.retag_middle hold (by simp [NodeRef.key]) (by simp)
  refine ⟨s₃, ?_, ?_, rfl, rfl⟩
  · have hname₁ : Writes (tag (.node m) name) s₁ () s₂ := by
      refine .tag (Store.tagsOf_node_eq_ok_iff.2 ⟨⟨m, ∅⟩, ?_, rfl, rfl⟩) (TagSet.not_mem_empty name)
      rw [h₁]
      simp
    have hevent : Writes (tag (.node m) Tag.eventNode) s₂ () s₃ := by
      refine .tag (Store.tagsOf_node_eq_ok_iff.2 ⟨⟨m, (∅ : TagSet).insert name⟩, ?_, rfl, rfl⟩) ?_
      · rw [h₂]
        simp
      · rw [TagSet.mem_insert]
        exact not_or.2 ⟨hname, TagSet.not_mem_empty _⟩
    exact (Writes.createNode draft s).bind (hname₁.bind ((Writes.pure m s₂).bind (hevent.bind (.pure _ _))))
  · rw [h₃]
    exact .append (TagSet.mem_insert.2 (.inl rfl))

theorem writes_created (hkind : n.kind = .entry ∨ n.kind = .exit) :
    ∃ s', Writes (writeNode n) s (n.id, s.nextNode) s' ∧
      Gains Tag.eventNode s.nodes (n.plainDraft.withId s.nextNode) s'.nodes ∧ s'.edges = s.edges ∧
      s'.nextNode = s.nextNode + 1 := by
  rcases hkind with hkind | hkind
  · have hname : Tag.eventNode ≠ Augmented.entryName := by decide
    rw [writeNode, hkind]
    exact writes_fresh n.plainDraft hname n.id
  · have hname : Tag.eventNode ≠ Augmented.exitName := by decide
    rw [writeNode, hkind]
    exact writes_fresh n.plainDraft hname n.id

/-- Nodes that the store has under their identities are marked one by one. -/
theorem writes_storedNodes {nodes : List Node} (hkinds : ∀ n ∈ nodes, n.kind ≠ .entry ∧ n.kind ≠ .exit)
    (hdistinct : (nodes.map Node.id).Nodup)
    (hstored : ∀ n ∈ nodes, ∃ x ∈ s.nodes, x.item.id = n.id ∧ Tag.eventNode ∉ x.tags) :
    ∃ marked s', Writes (nodes.mapM writeNode) s (nodes.map fun n => (n.id, n.id)) s' ∧
      GainsAll Tag.eventNode s.nodes marked s'.nodes ∧ marked.map Node.id = nodes.map Node.id ∧
      (∀ m ∈ marked, m ∈ items s.nodes) ∧ items s'.nodes = items s.nodes ∧ s'.edges = s.edges ∧
      s'.nextNode = s.nextNode := by
  induction nodes generalizing s with
  | nil => exact ⟨[], s, .mapM_nil _ s, .nil, rfl, by simp, rfl, rfl, rfl⟩
  | cons n nodes ih =>
    rw [List.map_cons, List.nodup_cons] at hdistinct
    obtain ⟨hn, hdistinct⟩ := hdistinct
    obtain ⟨x, hx, hid, hclean⟩ := hstored n (by simp)
    obtain ⟨hentry, hexit⟩ := hkinds n (by simp)
    obtain ⟨s₁, hwrites, hgains, hitems, hedges, hnext⟩ := writes_stored hentry hexit hx hid hclean
    -- the nodes to come are not touched
    have hrest : ∀ m ∈ nodes, ∃ y ∈ s₁.nodes, y.item.id = m.id ∧ Tag.eventNode ∉ y.tags := by
      intro m hm
      obtain ⟨y, hy, hyid, hyclean⟩ := hstored m (by simp [hm])
      refine ⟨y, hgains.mem hy ?_, hyid, hyclean⟩
      intro heq
      apply hn
      rw [← hid, ← heq, hyid]
      exact List.mem_map_of_mem hm
    obtain ⟨marked, s', hwrites', hgains', hids, hmem, hitems', hedges', hnext'⟩ :=
      ih (fun m hm => hkinds m (by simp [hm])) hdistinct hrest
    refine ⟨x.item :: marked, s', hwrites.mapM_cons hwrites', .cons hgains hgains', ?_, ?_, hitems'.trans hitems,
      hedges'.trans hedges, hnext'.trans hnext⟩
    · rw [List.map_cons, hid, hids, List.map_cons]
    · intro m hm
      rcases List.mem_cons.1 hm with rfl | hm
      · exact List.mem_map_of_mem hx
      · exact hitems ▸ hmem m hm

end EventGraph

/-! ## Writing edges -/

/-- An edge is another one with its ends moved. Label, flag and attributes are the same. -/
structure Edge.MovesTo (place : Int → Int) (d x : Edge) : Prop where
  src : x.src = place d.src
  dst : x.dst = place d.dst
  label : x.label = d.label
  back : x.back = d.back
  attrs : x.attrs = d.attrs

/-- Whether an edge of a reduced graph is taken for one of the function. -/
def Edge.isOriginal (d : Edge) : Bool := d.kind == .reduced && d.tags.toList.contains EdgeKind.structural.name

theorem Edge.isOriginal_asReduced {b : Edge} (h : b.asReduced.isOriginal) :
    b.kind ≠ .bypass ∧ (b.kind.name = EdgeKind.structural.name ∨ EdgeKind.structural.name ∈ b.tags) := by
  by_cases hkind : b.kind = .bypass
  · have hsame : b.asReduced = b := if_pos hkind
    rw [hsame, isOriginal, hkind] at h
    cases h
  · refine ⟨hkind, ?_⟩
    rw [asReduced, if_neg hkind, isOriginal, Bool.and_eq_true, List.contains_iff_mem, ← TagSet.mem_def,
      TagSet.mem_insertAll] at h
    refine h.2.imp_left fun hmem => ?_
    have hother : EdgeKind.structural.name ≠ Tag.eventEdge := by decide
    simpa [hother, eq_comm] using hmem

namespace EventGraph

open Writing

variable {s : Store} {places : List (Int × Int)} {place : Int → Int}

/-- An edge of the function is marked, any other edge is created. -/
theorem writes_edge {d : Edge} (hsrc : (places.lookup d.src).getD d.src = place d.src)
    (hdst : (places.lookup d.dst).getD d.dst = place d.dst)
    (hends : place d.src ∈ s.nodeIds ∧ place d.dst ∈ s.nodeIds)
    (hstored : d.isOriginal → ∃ x ∈ s.edges, x.item.id = d.id ∧ d.MovesTo place x.item ∧ Tag.eventEdge ∉ x.tags) :
    ∃ image s', Writes (writeEdge places d) s () s' ∧ Gains Tag.eventEdge s.edges image s'.edges ∧
      d.MovesTo place image ∧ (∀ y ∈ s.edges, y.item.id ≠ d.id → y ∈ s'.edges) ∧ s'.nodes = s.nodes := by
  by_cases horiginal : d.isOriginal
  · obtain ⟨x, hx, hid, hmoves, hclean⟩ := hstored horiginal
    have hfound : isStored s d (place d.src) (place d.dst) = true := by
      rw [isStored, Bool.and_eq_true]
      refine ⟨horiginal, List.any_eq_true.2 ⟨x, hx, ?_⟩⟩
      simp [hid, hmoves.src, hmoves.dst]
    have hgains : Gains Tag.eventEdge s.edges x.item (s.changeTags (·.insert Tag.eventEdge) (.edge d.id)).edges := by
      rw [← hid]
      exact Store.gains_retag s.wired.edges_distinct hx hclean
    refine ⟨x.item, _, ?_, hgains, hmoves, ?_, rfl⟩
    · simp only [writeEdge, hsrc, hdst]
      refine .after_get fun j => ?_
      simp only [hfound, if_true]
      exact .tag (Store.tagsOf_edge_eq_ok_iff.2 ⟨x, hx, hid, rfl⟩) hclean
    · intro y hy hne
      exact hgains.mem hy fun heq => hne (heq ▸ hid)
  · have hfound : isStored s d (place d.src) (place d.dst) = false := by
      rw [isStored, Bool.and_eq_false_iff]
      exact .inl (Bool.eq_false_iff.2 horiginal)
    let draft : EdgeDraft := { d.draft with tags := d.tags.insert Tag.eventEdge }
    obtain ⟨s', hcreated⟩ := Store.exists_createEdge hends.1 hends.2 draft
    obtain ⟨-, hnodes, hedges, -, -⟩ := Store.createEdge_eq_ok hcreated
    refine ⟨draft.withId s.nextEdge (place d.src) (place d.dst), s', ?_, ?_, ⟨rfl, rfl, rfl, rfl, rfl⟩, ?_, hnodes⟩
    · simp only [writeEdge, hsrc, hdst]
      refine .after_get fun j => ?_
      simp only [hfound, Bool.false_eq_true, if_false]
      exact (Writes.createEdge hcreated).bind (.pure _ _)
    · rw [hedges]
      exact .append (TagSet.mem_insert.2 (.inl rfl))
    · intro y hy _
      rw [hedges]
      exact List.mem_append_left _ hy

theorem writes_edges {edges : List Edge}
    (hplaces : ∀ d ∈ edges, (places.lookup d.src).getD d.src = place d.src ∧ (places.lookup d.dst).getD d.dst = place d.dst)
    (hends : ∀ d ∈ edges, place d.src ∈ s.nodeIds ∧ place d.dst ∈ s.nodeIds) (hdistinct : (edges.map Edge.id).Nodup)
    (hstored : ∀ d ∈ edges, d.isOriginal →
      ∃ x ∈ s.edges, x.item.id = d.id ∧ d.MovesTo place x.item ∧ Tag.eventEdge ∉ x.tags) :
    ∃ images s', Writes (edges.forM (writeEdge places)) s () s' ∧ GainsAll Tag.eventEdge s.edges images s'.edges ∧
      List.Forall₂ (Edge.MovesTo place) edges images ∧ s'.nodes = s.nodes := by
  induction edges generalizing s with
  | nil => exact ⟨[], s, .pure _ _, .nil, .nil, rfl⟩
  | cons d edges ih =>
    rw [List.map_cons, List.nodup_cons] at hdistinct
    obtain ⟨hd, hdistinct⟩ := hdistinct
    obtain ⟨hsrc, hdst⟩ := hplaces d (by simp)
    obtain ⟨image, s₁, hwrites, hgains, hmoves, hstay, hnodes⟩ :=
      writes_edge hsrc hdst (hends d (by simp)) (hstored d (by simp))
    have hids : s₁.nodeIds = s.nodeIds := by rw [Store.nodeIds, hnodes, Store.nodeIds]
    obtain ⟨images, s', hwrites', hgains', hmoves', hnodes'⟩ := ih (fun c hc => hplaces c (by simp [hc]))
      (fun c hc => hids ▸ hends c (by simp [hc])) hdistinct (fun c hc horiginal => by
        -- the edges to come are not touched
        obtain ⟨x, hx, hid, hx'⟩ := hstored c (by simp [hc]) horiginal
        refine ⟨x, hstay x hx fun heq => hd ?_, hid, hx'⟩
        rw [← heq, hid]
        exact List.mem_map_of_mem hc)
    exact ⟨image :: images, s', hwrites.bind hwrites', .cons hgains hgains', .cons hmoves hmoves', hnodes'.trans hnodes⟩

end EventGraph

/-! ## The reduced graph in the store -/

namespace Augmented

variable {a : Augmented} {s : Store} {i : Int}

/-- Where the nodes of an augmented graph are in a store into which it is written: entry and exit are new there. -/
def placeIn (a : Augmented) (s : Store) (i : Int) : Int :=
  if i = a.entry.id then s.nextNode else if i = a.exit.id then s.nextNode + 1 else i

theorem lt_entry (hi : i ∈ a.base.nodeIds) : i < a.entry.id := Int.lt_add_one_of_le (Graph.le_largest hi)

theorem exit_id (a : Augmented) : a.exit.id = a.entry.id + 1 := by
  show a.base.maxNodeId + 2 = a.base.maxNodeId + 1 + 1
  omega

theorem placeIn_own (hi : i ∈ a.base.nodeIds) : a.placeIn s i = i := by
  have hlt := lt_entry hi
  have hexit := a.exit_id
  rw [placeIn, if_neg (by omega), if_neg (by omega)]

theorem placeIn_entry : a.placeIn s a.entry.id = s.nextNode := if_pos rfl

theorem placeIn_exit : a.placeIn s a.exit.id = s.nextNode + 1 := by
  have hexit := a.exit_id
  rw [placeIn, if_neg (by omega), if_pos rfl]

theorem kind_of_mem_base {n : Node} (hn : n ∈ a.base.nodes) : n.kind ≠ .entry ∧ n.kind ≠ .exit := by
  have hnone := a.unaugmented
  rw [Graph.nodesOfKind, List.filter_eq_nil_iff] at hnone
  simpa using hnone n hn

theorem tags_of_mem_linkEdges {e : Edge} (he : e ∈ a.linkEdges) :
    e.kind = .entryLink ∧ e.tags = .ofList [entryLinkTag] ∨ e.kind = .exitLink ∧ e.tags = .ofList [exitLinkTag] := by
  obtain ⟨⟨⟨draft, src, dst⟩, k⟩, hlink, rfl⟩ := List.mem_map.1 he
  rcases List.mem_append.1 (List.fst_mem_of_mem_zipIdx hlink) with hlink | hlink
  · obtain ⟨n, -, heq⟩ := List.mem_map.1 hlink
    cases heq
    exact .inl ⟨rfl, rfl⟩
  · obtain ⟨n, -, heq⟩ := List.mem_map.1 hlink
    cases heq
    exact .inr ⟨rfl, rfl⟩

/-- Only edges of the function are taken for such. -/
theorem exists_base_edge {ns : List Int} {d : Edge} (hd : d ∈ a.graph.edgesWithout ns) (horiginal : d.isOriginal) :
    ∃ b ∈ a.base.edges, d = b.asReduced := by
  obtain ⟨b, rfl, hb⟩ := Graph.exists_of_mem_edgesWithout hd
  obtain ⟨hbypass, hstructural⟩ := Edge.isOriginal_asReduced horiginal
  rcases List.mem_append.1 (hb.resolve_right hbypass) with hb | hb
  · exact ⟨b, hb, rfl⟩
  · -- neither the kind nor the tags of a link say so
    rcases tags_of_mem_linkEdges hb with ⟨hkind, htags⟩ | ⟨hkind, htags⟩
    · rw [hkind, htags] at hstructural
      exact absurd hstructural (by decide)
    · rw [hkind, htags] at hstructural
      exact absurd hstructural (by decide)

/-- The nodes that are kept: those of the function, then entry and exit. -/
theorem pick_eq {ids : List Int} (hentry : a.entry.id ∈ ids) (hexit : a.exit.id ∈ ids) :
    a.graph.pick ids = a.base.pick ids ++ [a.entry, a.exit] := by
  simp [graph, Graph.pick, hentry, hexit]

end Augmented

namespace EventGraph

open Writing

variable {a : Augmented} {s : Store}

/-- Writing the nodes that are kept: those of the function are marked, entry and exit are created. -/
theorem writes_nodes (ids : List Int) (hstored : ∀ n ∈ a.base.nodes, n.id ∈ s.nodeIds)
    (hclean : s.nodesTagged Tag.eventNode = []) :
    ∃ marked s', Writes ((a.base.pick ids ++ [a.entry, a.exit]).mapM writeNode) s
        (((a.base.pick ids ++ [a.entry, a.exit]).map Node.id).map fun i => (i, a.placeIn s i)) s' ∧
      GainsAll Tag.eventNode s.nodes
        (marked ++ [a.entry.draft.withId s.nextNode, a.exit.draft.withId (s.nextNode + 1)]) s'.nodes ∧
      marked.map Node.id = (a.base.pick ids).map Node.id ∧ (∀ m ∈ marked, m ∈ items s.nodes) ∧ s'.edges = s.edges := by
  have hown : ∀ n ∈ a.base.pick ids, n ∈ a.base.nodes := fun n hn => (List.mem_filter.1 hn).1
  have hstored' : ∀ n ∈ a.base.pick ids, ∃ x ∈ s.nodes, x.item.id = n.id ∧ Tag.eventNode ∉ x.tags := by
    intro n hn
    obtain ⟨m, hm, hid⟩ := List.mem_map.1 (hstored n (hown n hn))
    obtain ⟨x, hx, rfl⟩ := List.mem_map.1 hm
    exact ⟨x, hx, hid, not_mem_tags_of_taggedItems_eq_nil hclean hx⟩
  obtain ⟨marked, s₁, hwrites, hgains, hids, hmem, -, hedges, hnext⟩ := writes_storedNodes
    (fun n hn => Augmented.kind_of_mem_base (hown n hn))
    (a.base.wired.nodes_distinct.sublist (List.filter_sublist.map _)) hstored'
  obtain ⟨s₂, hentry, hgains₂, hedges₂, hnext₂⟩ := writes_created (s := s₁) (n := a.entry) (.inl rfl)
  obtain ⟨s₃, hexit, hgains₃, hedges₃, -⟩ := writes_created (s := s₂) (n := a.exit) (.inr rfl)
  rw [hnext] at hentry hgains₂ hnext₂
  rw [hnext₂] at hexit hgains₃
  refine ⟨marked, s₃, ?_, hgains.append (.cons hgains₂ (.cons hgains₃ .nil)), hids, hmem, ?_⟩
  · have hplaces : ((a.base.pick ids).map Node.id).map (fun i => (i, a.placeIn s i)) =
        (a.base.pick ids).map fun n => (n.id, n.id) := by
      rw [List.map_map]
      refine List.map_congr_left fun n hn => ?_
      rw [Function.comp_apply, Augmented.placeIn_own (List.mem_map_of_mem (hown n hn))]
    rw [List.map_append, List.map_append, hplaces, List.map_cons, List.map_cons, List.map_cons, List.map_cons,
      Augmented.placeIn_entry, Augmented.placeIn_exit]
    exact hwrites.mapM_append (hentry.mapM_cons (hexit.mapM_cons (.mapM_nil _ s₃)))
  · rw [hedges₃, hedges₂, hedges]

/-- A store that has the edges of a function has those that a reduced graph takes for such. -/
theorem exists_stored_edge {ns : List Int} {d : Edge} (hd : d ∈ a.graph.edgesWithout ns) (horiginal : d.isOriginal)
    (hedges : ∀ b ∈ a.base.edges, ∃ x ∈ items s.edges, x.id = b.id ∧ b.MovesTo (fun i => i) x)
    (hclean : s.edgesTagged Tag.eventEdge = []) :
    ∃ x ∈ s.edges, x.item.id = d.id ∧ d.MovesTo (a.placeIn s) x.item ∧ Tag.eventEdge ∉ x.tags := by
  obtain ⟨b, hb, rfl⟩ := Augmented.exists_base_edge hd horiginal
  obtain ⟨y, hy, hid, hmoves⟩ := hedges b hb
  obtain ⟨x, hx, rfl⟩ := List.mem_map.1 hy
  have hreduced : b.asReduced = { b with kind := .reduced, tags := b.tags.insertAll [b.kind.name, Tag.eventEdge] } :=
    if_neg (Edge.isOriginal_asReduced horiginal).1
  obtain ⟨hsrc, hdst⟩ := a.base.wired.closed b hb
  refine ⟨x, hx, by rw [hid, Edge.id_asReduced], ?_, not_mem_tags_of_taggedItems_eq_nil hclean hx⟩
  rw [hreduced]
  refine ⟨?_, ?_, hmoves.label, hmoves.back, hmoves.attrs⟩
  · rw [hmoves.src]
    exact (Augmented.placeIn_own hsrc).symm
  · rw [hmoves.dst]
    exact (Augmented.placeIn_own hdst).symm

/-- Writing a graph with the kept nodes of a function, entry and exit, and the edges around the others. -/
theorem writes_graph {e : EventGraph} {ids ns : List Int} (hgraph : e.graph.nodes = a.base.pick ids ++ [a.entry, a.exit])
    (hreduced : e.graph.edges = a.graph.edgesWithout ns) (hnodes : ∀ n ∈ a.base.nodes, n.id ∈ s.nodeIds)
    (hedges : ∀ b ∈ a.base.edges, ∃ x ∈ items s.edges, x.id = b.id ∧ b.MovesTo (fun i => i) x)
    (hnodeTags : s.nodesTagged Tag.eventNode = []) (hedgeTags : s.edgesTagged Tag.eventEdge = []) :
    ∃ marked images s', Writes e.write s () s' ∧
      GainsAll Tag.eventNode s.nodes
        (marked ++ [a.entry.draft.withId s.nextNode, a.exit.draft.withId (s.nextNode + 1)]) s'.nodes ∧
      marked.map Node.id = (a.base.pick ids).map Node.id ∧ (∀ m ∈ marked, m ∈ items s.nodes) ∧
      GainsAll Tag.eventEdge s.edges images s'.edges ∧
      List.Forall₂ (Edge.MovesTo (a.placeIn s)) e.graph.edges images := by
  obtain ⟨marked, s₁, hwrites, hgains, hids, hmem, hsame⟩ := writes_nodes ids hnodes hnodeTags
  rw [← hgraph] at hwrites
  have hplaces : ∀ i ∈ e.graph.nodeIds,
      ((e.graph.nodeIds.map fun i => (i, a.placeIn s i)).lookup i).getD i = a.placeIn s i := by
    intro i hi
    rw [lookup_map_pair _ _ hi]
    rfl
  -- the ends of edges stand where their nodes were written
  have hends : ∀ i ∈ e.graph.nodeIds, a.placeIn s i ∈ s₁.nodeIds := by
    have hwritten : ∀ m ∈ marked ++ [a.entry.draft.withId s.nextNode, a.exit.draft.withId (s.nextNode + 1)],
        m.id ∈ s₁.nodeIds := by
      intro m hm
      have htagged := hgains.perm.mem_iff.2 (List.mem_append_left _ hm)
      obtain ⟨x, hx, rfl⟩ := List.mem_map.1 htagged
      exact List.mem_map_of_mem (List.mem_map_of_mem (List.mem_filter.1 hx).1)
    intro i hi
    rw [Graph.nodeIds, hgraph, List.map_append, List.mem_append, ← hids] at hi
    rcases hi with hi | hi
    · obtain ⟨m, hm, rfl⟩ := List.mem_map.1 hi
      have hbase : m.id ∈ a.base.nodeIds := (Graph.mem_pick_iff.1 (hids ▸ hi)).1
      rw [Augmented.placeIn_own hbase]
      exact hwritten m (List.mem_append_left _ hm)
    · simp only [List.map_cons, List.map_nil, List.mem_cons, List.not_mem_nil, or_false] at hi
      rcases hi with rfl | rfl
      · rw [Augmented.placeIn_entry]
        exact hwritten (a.entry.draft.withId s.nextNode) (by simp)
      · rw [Augmented.placeIn_exit]
        exact hwritten (a.exit.draft.withId (s.nextNode + 1)) (by simp)
  obtain ⟨images, s', hwrites', hgains', hmoves, hnodes'⟩ := writes_edges (s := s₁)
    (fun d hd => ⟨hplaces _ (e.graph.wired.closed d hd).1, hplaces _ (e.graph.wired.closed d hd).2⟩)
    (fun d hd => ⟨hends _ (e.graph.wired.closed d hd).1, hends _ (e.graph.wired.closed d hd).2⟩)
    e.graph.wired.edges_distinct
    (fun d hd horiginal => by
      rw [hsame]
      exact exists_stored_edge (hreduced ▸ hd) horiginal hedges hedgeTags)
  refine ⟨marked, images, s', hwrites.bind hwrites', ?_, hids, hmem, ?_, hmoves⟩
  · rw [hnodes']
    exact hgains
  · rw [← hsame]
    exact hgains'

theorem mem_marked_iff {ids : List Int} {marked : List Node} (hids : marked.map Node.id = (a.base.pick ids).map Node.id)
    (hmem : ∀ m ∈ marked, m ∈ items s.nodes) {n : Node} :
    n ∈ marked ↔ n ∈ items s.nodes ∧ n.id ∈ a.base.nodeIds ∧
      n.id ∈ (a.base.pick ids ++ [a.entry, a.exit]).map Node.id := by
  rw [List.map_append, List.mem_append]
  constructor
  · intro hn
    have hid : n.id ∈ (a.base.pick ids).map Node.id := hids ▸ List.mem_map_of_mem hn
    exact ⟨hmem n hn, (Graph.mem_pick_iff.1 hid).1, .inl hid⟩
  · intro h
    obtain ⟨hn, hbase, hid | hid⟩ := h
    · rw [← hids] at hid
      obtain ⟨m, hm, hmn⟩ := List.mem_map.1 hid
      rwa [← List.inj_on_of_nodup_map s.wired.nodes_distinct (hmem m hm) hn hmn]
    · -- entry and exit are no nodes of the function
      have hlt := Augmented.lt_entry hbase
      have hexit : a.exit.id = a.entry.id + 1 := a.exit_id
      simp only [List.map_cons, List.map_nil, List.mem_cons, List.not_mem_nil, or_false] at hid
      omega

/-- A reduced graph that is written into a store is read back from it. The nodes of its tag are the kept nodes of the function
and new ones for entry and exit; the edges of its tag are its edges one by one, with their ends moved to these nodes; and
nothing else has happened to nodes and edges. -/
theorem materialized_graph_reads_back {refs : List NodeRef} {name : Option String} {r : Reduction} {e : EventGraph}
    {log : Array Report} (hr : Reduction.ofEvents a refs name = .ok r) (he : (r.construct.run log).1 = .ok e)
    (hnodes : ∀ n ∈ a.base.nodes, n.id ∈ s.nodeIds)
    (hedges : ∀ b ∈ a.base.edges, ∃ x ∈ items s.edges, x.id = b.id ∧ b.MovesTo (fun i => i) x)
    (hnodeTags : s.nodesTagged Tag.eventNode = []) (hedgeTags : s.edgesTagged Tag.eventEdge = []) :
    ∃ j s', e.materialize s = (.ok j, s') ∧
      (∀ n, n ∈ s'.nodesTagged Tag.eventNode ↔
        (n ∈ items s.nodes ∧ n.id ∈ a.base.nodeIds ∧ n.id ∈ e.retained.map Node.id) ∨
          n = a.entry.draft.withId s.nextNode ∨ n = a.exit.draft.withId (s.nextNode + 1)) ∧
      (∃ images, images.Perm (s'.edgesTagged Tag.eventEdge) ∧
        List.Forall₂ (Edge.MovesTo (a.placeIn s)) e.graph.edges images) ∧
      OnlyGains Tag.eventNode s.nodes s'.nodes ∧ OnlyGains Tag.eventEdge s.edges s'.edges := by
  obtain ⟨rfl, -⟩ := Reduction.ofEvents_eq_ok hr
  obtain ⟨e', he', -, hretained, -, hgraph, hreduced⟩ := r.reduce_eq_ok (Dominance.analyse r.augmented .backward)
  obtain rfl : e' = e := Except.ok.inj (he'.symm.trans ((r.gives_construct log).symm.trans he))
  rw [Augmented.pick_eq (by simp [Reduction.retainedIds]) (by simp [Reduction.retainedIds])] at hretained
  obtain ⟨marked, images, s', hwrites, hgains, hids, hmem, hgains', hmoves⟩ :=
    writes_graph (hgraph.trans hretained) hreduced hnodes hedges hnodeTags hedgeTags
  obtain ⟨j, hrun⟩ := hwrites {}
  have hnodesTagged : (s'.nodesTagged Tag.eventNode).Perm (_ ++ s.nodesTagged Tag.eventNode) := hgains.perm
  have hedgesTagged : (s'.edgesTagged Tag.eventEdge).Perm (images ++ s.edgesTagged Tag.eventEdge) := hgains'.perm
  rw [hnodeTags, List.append_nil] at hnodesTagged
  rw [hedgeTags, List.append_nil] at hedgesTagged
  refine ⟨j, s', ?_, fun n => ?_, ⟨images, hedgesTagged.symm, hmoves⟩, hgains.onlyGains, hgains'.onlyGains⟩
  · rw [materialize, show e'.write.run.run ({}, s) = _ from hrun]
    rfl
  · rw [hnodesTagged.mem_iff, List.mem_append, hretained, mem_marked_iff hids hmem]
    simp

/-- A branch around a node. -/
def branch : Augmented where
  base := ⟨[{ id := 0, kind := .condition, name := "p", isRoot := true }, { id := 1 }, { id := 2, isExitPoint := true }],
    [{ id := 0, src := 0, dst := 1, label := some "true" }, { id := 1, src := 1, dst := 2 },
      { id := 2, src := 0, dst := 2, label := some "false" }], ⟨by decide, by decide, by decide⟩⟩
  name := none
  unaugmented := by decide
  rooted := by decide

/-- A store with the branch and another function, whose elements have the identities of the branch's entry, exit and links. -/
def crowdedStore : Store :=
  .ofGraph ⟨branch.base.nodes ++ [{ id := 3, isRoot := true }, { id := 4, isExitPoint := true }],
    branch.base.edges ++ [{ id := 3, src := 3, dst := 4 }, { id := 4, src := 4, dst := 3, tags := .ofList ["structural"] }],
    ⟨by decide, by decide, by decide⟩⟩

theorem materialized_graph_reads_back_crowdedStore :
    (∀ n ∈ branch.base.nodes, n.id ∈ crowdedStore.nodeIds) ∧ (∀ b ∈ branch.base.edges, b ∈ items crowdedStore.edges) ∧
    crowdedStore.nodesTagged Tag.eventNode = [] ∧ crowdedStore.edgesTagged Tag.eventEdge = [] ∧
    ∃ r e j s', Reduction.ofEvents branch [.id 1] none = .ok r ∧ (r.construct.run #[]).1 = .ok e ∧
      e.materialize crowdedStore = (.ok j, s') ∧
      ∃ images, images.Perm (s'.edgesTagged Tag.eventEdge) ∧
        List.Forall₂ (Edge.MovesTo (branch.placeIn crowdedStore)) e.graph.edges images := by
  have hnodes : ∀ n ∈ branch.base.nodes, n.id ∈ crowdedStore.nodeIds := by decide
  have hedges : ∀ b ∈ branch.base.edges, b ∈ items crowdedStore.edges := by decide
  have hnodeTags : crowdedStore.nodesTagged Tag.eventNode = [] := by decide
  have hedgeTags : crowdedStore.edgesTagged Tag.eventEdge = [] := by decide
  have hrefs : ∀ ref ∈ [NodeRef.id 1], ref.key ∈ branch.graph.nodeIds := by decide
  obtain ⟨r, hr⟩ := Reduction.exists_ofEvents none hrefs
  obtain ⟨e, he, -⟩ := Reduction.construct_eq_ok hr
  obtain ⟨j, s', hwritten, -, himages, -⟩ := materialized_graph_reads_back hr (he #[]) hnodes
    (fun b hb => ⟨b, hedges b hb, rfl, rfl, rfl, rfl, rfl, rfl⟩) hnodeTags hedgeTags
  exact ⟨hnodes, hedges, hnodeTags, hedgeTags, r, e, j, s', hr, he #[], hwritten, himages⟩

end EventGraph

end Flowgraph
