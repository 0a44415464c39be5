import Flowgraph.Proofs.Store.Tables
/-!
# Keeping a store in tables

Started on the tables of a store, each request gives the answer of the store and leaves the tables of the store that comes
next. So no table ever lacks an entry, and a request that is refused has written nothing.

* `Keeping.run_createNode`, `Keeping.run_createEdge`, `Keeping.run_delete`, `Keeping.run_tag` and `Keeping.run_untag` are about
  single elements. A node is deleted after its edges, one by one (`Keeping.run_deleteEdges`).
* `Keeping.run_importGraph`, `Keeping.run_takeBack` and `Keeping.run_snapshot` are about whole graphs and journals.
-/

namespace Flowgraph

/-! ## Single elements -/

/-- The answer of a store to a request as tables give it. -/
def Store.outcome {α : Type} (s : Store) : Except Fault (α × Store) → Except Lapse α × Tables
  | .ok (a, s') => (.ok a, s'.tables)
  | .error fault => (.error (.fault fault), s.tables)

namespace Keeping

variable {α β : Type} {w : Keeping α} {k : α → Keeping β} {t t₁ : Tables} {a : α} {lapse : Lapse} {s : Store}

theorem run_bind_ok (h : w.run t = (.ok a, t₁)) : (w >>= k).run t = (k a).run t₁ := by
  show (match w t with | (r, t₁) => ExceptT.bindCont k r t₁) = (k a) t₁
  rw [show w t = _ from h]
  rfl

theorem run_bind_error (h : w.run t = (.error lapse, t₁)) : (w >>= k).run t = (.error lapse, t₁) := by
  show (match w t with | (r, t₁) => ExceptT.bindCont k r t₁) = (.error lapse, t₁)
  rw [show w t = _ from h]
  rfl

theorem run_get_bind {k : Tables → Keeping β} : (get >>= k).run t = (k t).run t := rfl

theorem run_entry_some {tb : Table α} {i : Int} (h : tb.lookup i = some a) : (entry tb i lapse).run t = (.ok a, t) := by
  rw [entry, h]
  rfl

theorem run_entry_none {tb : Table α} {i : Int} (h : tb.lookup i = none) :
    (entry tb i lapse).run t = (.error lapse, t) := by
  rw [entry, h]
  rfl

theorem run_node (s : Store) (ref : NodeRef) :
    (node ref).run s.tables = s.outcome ((fun n => (n, s)) <$> s.node ref) := by
  unfold node Store.node Store.taggedNode
  rw [run_get_bind]
  cases hfind : s.nodes.find? (·.item.id == ref.key) with
  | some x => exact run_entry_some (by rw [Store.tables, lookup_tableOf, hfind]; rfl)
  | none => exact run_entry_none (by rw [Store.tables, lookup_tableOf, hfind]; rfl)

theorem run_edge (s : Store) (id : Int) :
    (edge id).run s.tables = s.outcome ((fun e => (e, s)) <$> s.edge id) := by
  unfold edge Store.edge Store.taggedEdge
  rw [run_get_bind]
  cases hfind : s.edges.find? (·.item.id == id) with
  | some x => exact run_entry_some (by rw [Store.tables, lookup_tableOf, hfind]; rfl)
  | none => exact run_entry_none (by rw [Store.tables, lookup_tableOf, hfind]; rfl)

theorem run_createNode (s : Store) (draft : NodeDraft) (tags : TagSet) :
    (createNode draft tags).run s.tables = (.ok (s.createNode draft tags).1, (s.createNode draft tags).2.tables) := by
  have hnew : (draft.withId s.nextNode).id ∉ (items s.nodes).map Node.id := s.nextNode_fresh
  show (Except.ok (draft.withId s.nextNode), { s.tables with
    nodes := s.tables.nodes.put (draft.withId s.nextNode).id (draft.withId s.nextNode)
    nodeTags := s.tables.nodeTags.put (draft.withId s.nextNode).id tags
    nextNode := s.nextNode + 1 }) = _
  unfold Store.tables
  rw [put_tableOf_new (x := ⟨draft.withId s.nextNode, tags⟩) hnew,
    put_tableOf_new (x := ⟨draft.withId s.nextNode, tags⟩) hnew]
  rfl

theorem run_createEdge (s : Store) (src dst : Int) (draft : EdgeDraft) :
    (createEdge src dst draft).run s.tables = s.outcome (s.createEdge src dst draft) := by
  unfold createEdge
  rw [run_get_bind]
  have hkeys : s.tables.nodes.keys = s.nodeIds := keys_tableOf
  rw [hkeys]
  by_cases hends : src ∈ s.nodeIds ∧ dst ∈ s.nodeIds
  · obtain ⟨s', hcreated⟩ := Store.exists_createEdge hends.1 hends.2 draft
    obtain ⟨-, hnodes, hedges, hnextNode, hnextEdge⟩ := Store.createEdge_eq_ok hcreated
    have hnew : (draft.withId s.nextEdge src dst).id ∉ (items s.edges).map Edge.id := s.nextEdge_fresh
    rw [if_pos hends, hcreated]
    show (Except.ok (draft.withId s.nextEdge src dst), { s.tables with
      edges := s.tables.edges.put (draft.withId s.nextEdge src dst).id (draft.withId s.nextEdge src dst)
      edgeTags := s.tables.edgeTags.put (draft.withId s.nextEdge src dst).id draft.tags
      nextEdge := s.nextEdge + 1 }) = (Except.ok _, s'.tables)
    unfold Store.tables
    rw [put_tableOf_new (x := ⟨draft.withId s.nextEdge src dst, draft.tags⟩) hnew,
      put_tableOf_new (x := ⟨draft.withId s.nextEdge src dst, draft.tags⟩) hnew, hnodes, hedges, hnextNode, hnextEdge]
  · rw [if_neg hends, Store.createEdge, dif_neg hends]
    rfl

/-! ### Deleting -/

theorem run_without {tb : Table α} {i : Int} (h : i ∈ Table.keys tb) :
    (without tb i).run t = (.ok (tb.filter (·.1 != i)), t) := by
  rw [without, if_pos h]
  rfl

theorem run_modify_bind {f : Tables → Tables} {k : Unit → Keeping β} :
    ((modify f : Keeping Unit) >>= k).run t = (k ()).run (f t) := rfl

theorem run_deleteEdge {i : Int} (hi : i ∈ (items s.edges).map Edge.id) :
    (deleteEdge i).run s.tables = (.ok (), (s.dropEdge i).tables) := by
  obtain ⟨e, he, rfl⟩ := List.mem_map.1 hi
  obtain ⟨x, hx, rfl⟩ := List.mem_map.1 he
  have hedge : (edge x.item.id).run s.tables = (.ok x.item, s.tables) := by
    rw [run_edge, Store.edge, Store.taggedEdge_eq_ok_iff.2 ⟨hx, rfl⟩]
    rfl
  unfold deleteEdge
  rw [run_bind_ok hedge, run_get_bind, run_bind_ok (run_without (by rw [Store.tables, keys_tableOf]; exact hi)),
    run_modify_bind, run_get_bind, run_bind_ok (run_without (by simp only [Store.tables, keys_tableOf]; exact hi))]
  simp only [Store.tables, filter_tableOf]
  rfl

theorem run_deleteEdges (edges : List Edge) (s : Store) (hedges : ∀ e ∈ edges, e.id ∈ (items s.edges).map Edge.id)
    (hdistinct : (edges.map Edge.id).Nodup) :
    ∃ s' : Store, (edges.forM fun e => deleteEdge e.id).run s.tables = (.ok (), s'.tables) ∧ s'.nodes = s.nodes ∧
      s'.edges = s.edges.filter (fun x => decide (x.item.id ∉ edges.map Edge.id)) ∧ s'.nextNode = s.nextNode ∧
      s'.nextEdge = s.nextEdge := by
  induction edges generalizing s with
  | nil => exact ⟨s, rfl, rfl, by simp, rfl, rfl⟩
  | cons e edges ih =>
    obtain ⟨hfirst, hdistinct⟩ := List.nodup_cons.1 hdistinct
    -- the edges to come are still there
    have hrest : ∀ d ∈ edges, d.id ∈ (items (s.dropEdge e.id).edges).map Edge.id := by
      intro d hd
      obtain ⟨d', hd', hid⟩ := List.mem_map.1 (hedges d (by simp [hd]))
      refine List.mem_map.2 ⟨d', ?_, hid⟩
      have hne : d'.id ≠ e.id := fun heq => hfirst (by rw [← heq, hid]; exact List.mem_map_of_mem hd)
      show d' ∈ items (s.edges.filter (·.item.id != e.id))
      rw [Store.items_filter s.edges (·.id != e.id), List.mem_filter]
      exact ⟨hd', by simpa using hne⟩
    obtain ⟨s', hrun, hnodes, hleft, hnextNode, hnextEdge⟩ := ih (s.dropEdge e.id) hrest hdistinct
    refine ⟨s', ?_, hnodes, ?_, hnextNode, hnextEdge⟩
    · exact (run_bind_ok (run_deleteEdge (hedges e (by simp)))).trans hrun
    · rw [hleft]
      show List.filter _ (s.edges.filter (·.item.id != e.id)) = _
      rw [List.filter_filter]
      refine List.filter_congr fun x _ => ?_
      rw [Bool.eq_iff_iff, Bool.and_eq_true, decide_eq_true_iff, decide_eq_true_iff, bne_iff_ne, List.map_cons,
        List.mem_cons, not_or, and_comm]

theorem run_deleteNode {ref : NodeRef} (hi : ref.key ∈ s.nodeIds) :
    (deleteNode ref).run s.tables = (.ok (), (s.dropNode ref.key).tables) := by
  obtain ⟨n, hn, hid⟩ := List.mem_map.1 hi
  obtain ⟨x, hx, rfl⟩ := List.mem_map.1 hn
  have hnode : (node ref).run s.tables = (.ok x.item, s.tables) := by
    rw [run_node, Store.node, Store.taggedNode_eq_ok_iff.2 ⟨hx, hid⟩]
    rfl
  rw [← hid]
  let touching := (items s.edges).filter fun e => e.src == x.item.id || e.dst == x.item.id
  have hvalues : s.tables.edges.values = items s.edges := values_tableOf
  obtain ⟨s₁, hrun, hnodes, hedges, hnextNode, hnextEdge⟩ := run_deleteEdges touching s
    (fun e he => List.mem_map_of_mem (List.mem_filter.1 he).1)
    (s.wired.edges_distinct.sublist (List.filter_sublist.map _))
  -- identities are distinct, so what is left are the edges that do not touch the node
  have hleft : s₁.edges = s.edges.filter fun e => e.item.src != x.item.id && e.item.dst != x.item.id := by
    rw [hedges]
    refine List.filter_congr fun y hy => ?_
    have hmem : y.item.id ∈ touching.map Edge.id ↔ y.item ∈ touching := by
      refine ⟨fun h => ?_, List.mem_map_of_mem⟩
      obtain ⟨e, he, heq⟩ := List.mem_map.1 h
      rwa [← List.inj_on_of_nodup_map s.wired.edges_distinct (List.mem_filter.1 he).1 (List.mem_map_of_mem hy) heq]
    have hitem : y.item ∈ items s.edges := List.mem_map_of_mem hy
    rw [Bool.eq_iff_iff, decide_eq_true_iff, hmem, List.mem_filter]
    simp [hitem]
  have hkey : x.item.id ∈ (items s₁.nodes).map Node.id := by rw [hnodes]; exact List.mem_map_of_mem hn
  unfold deleteNode
  rw [run_bind_ok hnode, run_get_bind, hvalues, run_bind_ok hrun, run_get_bind,
    run_bind_ok (run_without (by rw [Store.tables, keys_tableOf]; exact hkey)), run_modify_bind, run_get_bind,
    run_bind_ok (run_without (by simp only [Store.tables, keys_tableOf]; exact hkey))]
  simp only [Store.tables, filter_tableOf, hnodes, hleft, hnextNode, hnextEdge]
  rfl

theorem run_delete (s : Store) (el : ElementRef) :
    (delete el).run s.tables = s.outcome ((fun s' => ((), s')) <$> s.delete el) := by
  cases el with
  | node ref =>
    cases hnode : s.node ref with
    | error fault =>
      rw [Store.delete, hnode]
      exact run_bind_error (by rw [run_node, hnode]; rfl)
    | ok n =>
      obtain ⟨x, hx, rfl⟩ := map_eq_ok_iff.1 hnode
      obtain ⟨hmem, hid⟩ := Store.taggedNode_eq_ok_iff.1 hx
      have hdelete : s.delete (.node ref) = .ok (s.dropNode ref.key) := by
        rw [Store.delete, hnode, ← hid]
        rfl
      rw [hdelete]
      exact run_deleteNode (List.mem_map.2 ⟨x.item, List.mem_map_of_mem hmem, hid⟩)
  | edge i =>
    cases hedge : s.edge i with
    | error fault =>
      rw [Store.delete, hedge]
      exact run_bind_error (by rw [run_edge, hedge]; rfl)
    | ok e =>
      obtain ⟨x, hx, rfl⟩ := map_eq_ok_iff.1 hedge
      obtain ⟨hmem, hid⟩ := Store.taggedEdge_eq_ok_iff.1 hx
      rw [Store.delete, hedge]
      exact run_deleteEdge (List.mem_map.2 ⟨x.item, List.mem_map_of_mem hmem, hid⟩)

/-! ### Tags -/

theorem run_tagsOf (s : Store) (el : ElementRef) :
    (tagsOf el).run s.tables = s.outcome ((fun tags => (tags, s)) <$> s.tagsOf el) := by
  cases el with
  | node ref =>
    cases hnode : s.taggedNode ref with
    | error fault =>
      rw [Store.tagsOf, hnode]
      exact run_bind_error (by rw [run_node, Store.node, hnode]; rfl)
    | ok x =>
      have hrun : (node ref).run s.tables = (.ok x.item, s.tables) := by rw [run_node, Store.node, hnode]; rfl
      have hfind : s.nodes.find? (·.item.id == x.item.id) = some x :=
        (find?_key_eq_some_iff (by simpa [items, Function.comp_def] using s.wired.nodes_distinct)).2
          ⟨(Store.taggedNode_eq_ok_iff.1 hnode).1, rfl⟩
      rw [Store.tagsOf, hnode]
      exact (run_bind_ok hrun).trans (run_entry_some (by rw [Store.tables, lookup_tableOf, hfind]; rfl))
  | edge i =>
    cases hedge : s.taggedEdge i with
    | error fault =>
      rw [Store.tagsOf, hedge]
      exact run_bind_error (by rw [run_edge, Store.edge, hedge]; rfl)
    | ok x =>
      have hrun : (edge i).run s.tables = (.ok x.item, s.tables) := by rw [run_edge, Store.edge, hedge]; rfl
      have hfind : s.edges.find? (·.item.id == i) = some x :=
        (find?_key_eq_some_iff (by simpa [items, Function.comp_def] using s.wired.edges_distinct)).2
          (Store.taggedEdge_eq_ok_iff.1 hedge)
      rw [Store.tagsOf, hedge]
      exact (run_bind_ok hrun).trans (run_entry_some (by rw [Store.tables, lookup_tableOf, hfind]; rfl))

theorem run_putTags {el : ElementRef} {tags : TagSet} (htags : s.tagsOf el = .ok tags) (g : TagSet → TagSet) :
    (putTags (g tags) el).run s.tables = (.ok (), (s.changeTags g el).tables) := by
  cases el with
  | node ref =>
    obtain ⟨x, hx, hid, rfl⟩ := Store.tagsOf_node_eq_ok_iff.1 htags
    show (Except.ok (), { s.tables with nodeTags := s.tables.nodeTags.put ref.key (g x.tags) }) = _
    simp only [Store.tables, Store.changeTags, ← hid, tableOf_item_retag,
      put_tableOf_tags s.wired.nodes_distinct hx]
  | edge i =>
    obtain ⟨x, hx, rfl, rfl⟩ := Store.tagsOf_edge_eq_ok_iff.1 htags
    show (Except.ok (), { s.tables with edgeTags := s.tables.edgeTags.put x.item.id (g x.tags) }) = _
    simp only [Store.tables, Store.changeTags, tableOf_item_retag, put_tableOf_tags s.wired.edges_distinct hx]

theorem run_tag (s : Store) (el : ElementRef) (t : String) : (tag el t).run s.tables = s.outcome (s.tag el t) := by
  unfold tag Store.tag
  cases htags : s.tagsOf el with
  | error fault => exact run_bind_error (by rw [run_tagsOf, htags]; rfl)
  | ok tags =>
    refine (run_bind_ok (by rw [run_tagsOf, htags]; rfl)).trans ?_
    by_cases ht : t ∈ tags
    · rw [if_pos ht]
      show _ = s.outcome (if t ∈ tags then _ else _)
      rw [if_pos ht]
      rfl
    · rw [if_neg ht]
      show _ = s.outcome (if t ∈ tags then _ else _)
      rw [if_neg ht]
      exact run_bind_ok (run_putTags htags (·.insert t))

theorem run_untag (s : Store) (el : ElementRef) (t : String) : (untag el t).run s.tables = s.outcome (s.untag el t) := by
  unfold untag Store.untag
  cases htags : s.tagsOf el with
  | error fault => exact run_bind_error (by rw [run_tagsOf, htags]; rfl)
  | ok tags =>
    refine (run_bind_ok (by rw [run_tagsOf, htags]; rfl)).trans ?_
    by_cases ht : t ∈ tags
    · rw [if_pos ht]
      show _ = s.outcome (if t ∈ tags then _ else _)
      rw [if_pos ht]
      exact run_bind_ok (run_putTags htags (·.erase t))
    · rw [if_neg ht]
      show _ = s.outcome (if t ∈ tags then _ else _)
      rw [if_neg ht]
      rfl

/-! ## Graphs and journals -/

/-! ### Importing -/

/-- Where keys are distinct, the position of an element is that of its key. -/
theorem map_zipIdx_eq {key : α → Int} {l : List α} (hdistinct : (l.map key).Nodup) (f : α → Nat → β) :
    (l.zipIdx.map fun (a, i) => f a i) = l.map fun a => f a ((l.map key).idxOf (key a)) := by
  refine List.ext_getElem (by simp) fun i h h' => ?_
  have hi : i < (l.map key).length := by simpa using h'
  have hidx : (l.map key).idxOf ((l.map key)[i]) = i := List.Nodup.idxOf_getElem hdistinct i hi
  rw [List.getElem_map] at hidx
  simp [hidx]

theorem run_createNodes (nodes : List Node) (first : Int) (k : Nat) (s : Store) (hnext : s.nextNode = first + k) :
    ∃ s' : Store, (nodes.mapM fun n => createNode n.draft ∅).run s.tables =
        (.ok ((nodes.zipIdx k).map fun (n, i) => n.draft.withId (first + i)), s'.tables) ∧
      s'.nodes = s.nodes ++ ((nodes.zipIdx k).map fun (n, i) => n.draft.withId (first + i)).map (⟨·, ∅⟩) ∧
      s'.edges = s.edges ∧ s'.nextNode = s.nextNode + nodes.length ∧ s'.nextEdge = s.nextEdge := by
  induction nodes generalizing k s with
  | nil => exact ⟨s, rfl, by simp, rfl, by simp, rfl⟩
  | cons n nodes ih =>
    have hnext₁ : (s.createNode n.draft ∅).2.nextNode = first + ((k + 1 : Nat) : Int) := by
      show s.nextNode + 1 = _
      omega
    obtain ⟨s', hrun, hnodes, hedges, hnextNode, hnextEdge⟩ := ih (k + 1) (s.createNode n.draft ∅).2 hnext₁
    have hfirst : (s.createNode n.draft ∅).1 = n.draft.withId (first + k) := by rw [← hnext]; rfl
    refine ⟨s', ?_, ?_, hedges, ?_, hnextEdge⟩
    · rw [List.mapM_cons, run_bind_ok (run_createNode s n.draft ∅), run_bind_ok hrun, hfirst]
      rfl
    · rw [hnodes, List.zipIdx_cons, List.map_cons, List.map_cons]
      show (s.nodes ++ [⟨n.draft.withId s.nextNode, ∅⟩]) ++ _ = s.nodes ++ ⟨n.draft.withId (first + k), ∅⟩ :: _
      rw [hnext, List.append_assoc]
      rfl
    · rw [hnextNode, List.length_cons]
      show s.nextNode + 1 + _ = _
      omega

theorem run_createEdges (edges : List Edge) (places : Table Int) (place : Int → Int) (first : Int) (k : Nat) (s : Store)
    (hnext : s.nextEdge = first + k)
    (hplaces : ∀ e ∈ edges, places.lookup e.src = some (place e.src) ∧ places.lookup e.dst = some (place e.dst))
    (hends : ∀ e ∈ edges, place e.src ∈ s.nodeIds ∧ place e.dst ∈ s.nodeIds) :
    ∃ s' : Store, (edges.mapM fun e => do
          let src ← entry places e.src (.absent e.src)
          let dst ← entry places e.dst (.absent e.dst)
          createEdge src dst e.draft : Keeping (List Edge)).run s.tables =
        (.ok ((edges.zipIdx k).map fun (e, i) => e.draft.withId (first + i) (place e.src) (place e.dst)), s'.tables) ∧
      s'.nodes = s.nodes ∧
      s'.edges = s.edges ++ ((edges.zipIdx k).map fun (e, i) =>
        e.draft.withId (first + i) (place e.src) (place e.dst)).map (fun e => ⟨e, e.tags⟩) ∧
      s'.nextNode = s.nextNode ∧ s'.nextEdge = s.nextEdge + edges.length := by
  induction edges generalizing k s with
  | nil => exact ⟨s, rfl, rfl, by simp, rfl, by simp⟩
  | cons e edges ih =>
    obtain ⟨hsrc, hdst⟩ := hplaces e (by simp)
    obtain ⟨s₁, hcreated⟩ := Store.exists_createEdge (hends e (by simp)).1 (hends e (by simp)).2 e.draft
    obtain ⟨-, hnodes₁, hedges₁, hnextNode₁, hnextEdge₁⟩ := Store.createEdge_eq_ok hcreated
    have hids : s₁.nodeIds = s.nodeIds := by rw [Store.nodeIds, hnodes₁, Store.nodeIds]
    have hnext₁ : s₁.nextEdge = first + ((k + 1 : Nat) : Int) := by omega
    obtain ⟨s', hrun, hnodes, hedges, hnextNode, hnextEdge⟩ := ih (k + 1) s₁ hnext₁
      (fun d hd => hplaces d (by simp [hd])) (fun d hd => hids ▸ hends d (by simp [hd]))
    refine ⟨s', ?_, hnodes.trans hnodes₁, ?_, hnextNode.trans hnextNode₁, ?_⟩
    · have hfirst : (do
          let src ← entry places e.src (.absent e.src)
          let dst ← entry places e.dst (.absent e.dst)
          createEdge src dst e.draft : Keeping Edge).run s.tables =
          (.ok (e.draft.withId s.nextEdge (place e.src) (place e.dst)), s₁.tables) := by
        rw [run_bind_ok (run_entry_some hsrc), run_bind_ok (run_entry_some hdst), run_createEdge, hcreated]
        rfl
      rw [List.mapM_cons, run_bind_ok hfirst, run_bind_ok hrun, hnext]
      rfl
    · rw [hedges, hedges₁, List.zipIdx_cons, List.map_cons, List.map_cons, List.append_assoc, hnext]
      rfl
    · rw [hnextEdge, hnextEdge₁, List.length_cons]
      omega

/-- The nodes of a copy are numbered in order. -/
theorem copiedNodes_eq (g : Graph) (first : Int) :
    g.copiedNodes first = g.nodes.zipIdx.map fun (n, i) => n.draft.withId (first + i) :=
  (map_zipIdx_eq g.wired.nodes_distinct fun n i => n.draft.withId (first + i)).symm

theorem run_importGraph (s : Store) (g : Graph) :
    (importGraph g).run s.tables = (.ok (s.importCopy g), (s.importGraph g).tables) := by
  obtain ⟨s₁, hrun₁, hnodes₁, hedges₁, hnextNode₁, hnextEdge₁⟩ :=
    run_createNodes g.nodes s.nextNode 0 s (by simp)
  rw [← copiedNodes_eq] at hrun₁ hnodes₁
  have hplaces : g.nodeIds.zip ((g.copiedNodes s.nextNode).map Node.id) =
      g.nodeIds.map fun i => (i, g.renumber s.nextNode i) := by
    rw [Graph.copiedNodes_ids]
    exact List.ext_getElem (by simp) fun i h h' => by simp
  have hcopied : ∀ i ∈ g.nodeIds, g.renumber s.nextNode i ∈ s₁.nodeIds := by
    intro i hi
    rw [Store.nodeIds, hnodes₁, Store.items_append, Store.items_map_mk, List.map_append, Graph.copiedNodes_ids]
    exact List.mem_append_right _ (List.mem_map_of_mem hi)
  obtain ⟨s₂, hrun₂, hnodes₂, hedges₂, hnextNode₂, hnextEdge₂⟩ :=
    run_createEdges g.edges (g.nodeIds.map fun i => (i, g.renumber s.nextNode i)) (g.renumber s.nextNode) s.nextEdge 0 s₁
      (by rw [hnextEdge₁]; simp)
      (fun e he => ⟨lookup_map_pair _ _ (g.wired.closed e he).1, lookup_map_pair _ _ (g.wired.closed e he).2⟩)
      (fun e he => ⟨hcopied _ (g.wired.closed e he).1, hcopied _ (g.wired.closed e he).2⟩)
  have htables : s₂.tables = (s.importGraph g).tables := by
    refine Store.tables_congr ?_ ?_ ?_ ?_
    · rw [hnodes₂, hnodes₁]
      rfl
    · rw [hedges₂, hedges₁]
      rfl
    · rw [hnextNode₂, hnextNode₁]
      rfl
    · rw [hnextEdge₂, hnextEdge₁]
      rfl
  unfold importGraph
  rw [run_bind_ok hrun₁, hplaces, run_bind_ok hrun₂, htables]
  have hlists : Graph.ofLists (g.copiedNodes s.nextNode) (g.copiedEdges s.nextNode s.nextEdge) = .ok (s.importCopy g) :=
    Graph.ofLists_eq_ok (g.wired_copy s.nextNode s.nextEdge)
  rw [show (g.edges.zipIdx.map fun (e, i) => e.draft.withId (s.nextEdge + i) (g.renumber s.nextNode e.src)
    (g.renumber s.nextNode e.dst)) = g.copiedEdges s.nextNode s.nextEdge from rfl, hlists]
  rfl

/-! ### Taking back -/

theorem run_forM {f : α → Keeping Unit} (step : Store → α → Store)
    (hstep : ∀ s a, (f a).run s.tables = (.ok (), (step s a).tables)) (l : List α) (s : Store) :
    (l.forM f).run s.tables = (.ok (), (l.foldl step s).tables) := by
  induction l generalizing s with
  | nil => rfl
  | cons a l ih => exact (run_bind_ok (hstep s a)).trans (ih _)

theorem run_present (s : Store) (el : ElementRef) : (present el).run s.tables = (.ok (s.has el), s.tables) := by
  have hmem : ∀ {α : Type} (id : α → Int) (l : List (Tagged α)) (k : Int),
      decide (k ∈ (items l).map id) = l.any (id ·.item == k) := by
    intro α id l k
    rw [Bool.eq_iff_iff, decide_eq_true_iff, List.any_eq_true]
    simp [items]
  cases el with
  | node ref =>
    show (Except.ok (decide (ref.key ∈ s.tables.nodes.keys)), s.tables) = _
    rw [Store.tables, keys_tableOf, hmem]
    rfl
  | edge i =>
    show (Except.ok (decide (i ∈ s.tables.edges.keys)), s.tables) = _
    rw [Store.tables, keys_tableOf, hmem]
    rfl

/-- Taking a tag from where it is not changes nothing. -/
theorem tables_erase_tag {el : ElementRef} {t : String} (h : ∀ tags, s.tagsOf el = .ok tags → t ∉ tags) :
    (s.changeTags (·.erase t) el).tables = s.tables := by
  cases el with
  | node ref =>
    have hsame : Store.retag (·.id == ref.key) (·.erase t) s.nodes = s.nodes := by
      refine Store.retag_eq_self fun x hx hp => TagSet.erase_of_not_mem ?_
      exact h x.tags (Store.tagsOf_node_eq_ok_iff.2 ⟨x, hx, by simpa using hp, rfl⟩)
    exact Store.tables_congr hsame rfl rfl rfl
  | edge i =>
    have hsame : Store.retag (·.id == i) (·.erase t) s.edges = s.edges := by
      refine Store.retag_eq_self fun x hx hp => TagSet.erase_of_not_mem ?_
      exact h x.tags (Store.tagsOf_edge_eq_ok_iff.2 ⟨x, hx, by simpa using hp, rfl⟩)
    exact Store.tables_congr rfl hsame rfl rfl

theorem run_untag_present (s : Store) (el : ElementRef) (t : String) :
    (do if ← present el then let _ ← untag el t : Keeping Unit).run s.tables =
      (.ok (), (s.changeTags (·.erase t) el).tables) := by
  rw [run_bind_ok (run_present s el)]
  by_cases hhas : s.has el
  · obtain ⟨tags, htags⟩ := Store.has_iff.1 hhas
    rw [hhas, if_pos rfl]
    by_cases ht : t ∈ tags
    · have huntag : s.untag el t = .ok (true, s.changeTags (·.erase t) el) := by
        rw [Store.untag, htags]
        exact if_pos ht
      exact run_bind_ok (by rw [run_untag, huntag]; rfl)
    · have huntag : s.untag el t = .ok (false, s) := by
        rw [Store.untag, htags]
        exact if_neg ht
      rw [tables_erase_tag fun tags' h => by rw [htags] at h; cases h; exact ht]
      exact run_bind_ok (by rw [run_untag, huntag]; rfl)
  · rw [tables_erase_tag fun tags htags => absurd (Store.has_iff.2 ⟨tags, htags⟩) hhas, if_neg hhas]
    rfl

theorem run_deleteEdge_present (s : Store) (i : Int) :
    (do if ← present (.edge i) then deleteEdge i : Keeping Unit).run s.tables = (.ok (), (s.dropEdge i).tables) := by
  rw [run_bind_ok (run_present s (.edge i))]
  by_cases hi : i ∈ (items s.edges).map Edge.id
  · have hhas : s.has (.edge i) = true := by simpa [Store.has, Store.hasEdge, items] using hi
    rw [hhas, if_pos rfl, run_deleteEdge hi]
  · have hhas : s.has (.edge i) = false := by simpa [Store.has, Store.hasEdge, items] using hi
    have hsame : (s.dropEdge i).tables = s.tables := by
      refine Store.tables_congr rfl (List.filter_eq_self.2 fun x hx => ?_) rfl rfl
      exact bne_iff_ne.2 fun heq => hi (heq ▸ List.mem_map_of_mem (List.mem_map_of_mem hx))
    rw [hhas, hsame]
    rfl

theorem run_deleteNode_present (s : Store) (n : Node) :
    (do if ← present (.node n) then deleteNode n : Keeping Unit).run s.tables = (.ok (), (s.dropNode n.id).tables) := by
  rw [run_bind_ok (run_present s (.node n))]
  by_cases hi : n.id ∈ s.nodeIds
  · have hhas : s.has (.node n) = true := by simpa [Store.has, Store.hasNode, Store.nodeIds, items, NodeRef.key] using hi
    rw [hhas, if_pos rfl, run_deleteNode hi]
    rfl
  · have hhas : s.has (.node n) = false := by
      simpa [Store.has, Store.hasNode, Store.nodeIds, items, NodeRef.key] using hi
    have hsame : (s.dropNode n.id).tables = s.tables := by
      refine Store.tables_congr (List.filter_eq_self.2 fun x hx => ?_) (List.filter_eq_self.2 fun x hx => ?_) rfl rfl
      · exact bne_iff_ne.2 fun heq => hi (heq ▸ List.mem_map_of_mem (List.mem_map_of_mem hx))
      · obtain ⟨hsrc, hdst⟩ := s.wired.closed x.item (List.mem_map_of_mem hx)
        rw [Bool.and_eq_true, bne_iff_ne, bne_iff_ne]
        exact ⟨fun heq => hi (heq ▸ hsrc), fun heq => hi (heq ▸ hdst)⟩
    rw [hhas, hsame]
    rfl

theorem run_takeBack (s : Store) (j : Journal) : (takeBack j).run s.tables = (.ok (), (j.revert s).tables) := by
  unfold takeBack
  rw [run_bind_ok (run_forM (fun s note => s.changeTags (·.erase note.2) note.1)
      (fun s note => run_untag_present s note.1 note.2) _ s),
    run_bind_ok (run_forM (fun s e => s.dropEdge e.id) (fun s e => run_deleteEdge_present s e.id) _ _),
    run_forM (fun s n => s.dropNode n.id) run_deleteNode_present]
  rfl

/-! ### Snapshots -/

theorem run_mapM {f : α → Keeping β} {g : α → β} (l : List α) (h : ∀ a ∈ l, (f a).run t = (.ok (g a), t)) :
    (l.mapM f).run t = (.ok (l.map g), t) := by
  induction l with
  | nil => rfl
  | cons a l ih =>
    rw [List.mapM_cons, run_bind_ok (h a (by simp)), run_bind_ok (ih fun b hb => h b (by simp [hb]))]
    rfl

end Keeping

/-- The graph of a store, or its part between some nodes. -/
def Store.view (s : Store) : Option (List Int) → Graph
  | none => s.graph
  | some ids => s.snapshot ids

theorem Store.nodes_view (s : Store) (ids : Option (List Int)) :
    (s.view ids).nodes = (items s.nodes).filter fun n => ids.all (·.contains n.id) := by
  cases ids with
  | none => exact (List.filter_eq_self.2 fun n _ => rfl).symm
  | some ids => rfl

theorem Store.edges_view (s : Store) (ids : Option (List Int)) :
    (s.view ids).edges =
      (s.edges.filter fun x => ids.all (·.contains x.item.src) && ids.all (·.contains x.item.dst)).map present := by
  cases ids with
  | none => exact congrArg (List.map present) (List.filter_eq_self.2 fun x _ => rfl).symm
  | some ids => exact List.filter_map

namespace Keeping

theorem lookup_edgeTags {s : Store} {x : Tagged Edge} (hx : x ∈ s.edges) :
    s.tables.edgeTags.lookup x.item.id = some x.tags := by
  have hfind : s.edges.find? (·.item.id == x.item.id) = some x :=
    (find?_key_eq_some_iff (by simpa [items, Function.comp_def] using s.wired.edges_distinct)).2 ⟨hx, rfl⟩
  rw [Store.tables, lookup_tableOf, hfind]
  rfl

/-- The edges of a view are those of the table, each with the tags that it carries. -/
theorem edges_view_tables (s : Store) (ids : Option (List Int)) :
    (s.tables.edges.values.filter fun e => ids.all (·.contains e.src) && ids.all (·.contains e.dst)).map
      (fun e => { e with tags := (s.tables.edgeTags.lookup e.id).getD ∅ }) = (s.view ids).edges := by
  have hvalues : s.tables.edges.values = items s.edges := values_tableOf
  rw [hvalues, Store.edges_view,
    ← Store.items_filter s.edges fun e => ids.all (·.contains e.src) && ids.all (·.contains e.dst), items, List.map_map]
  refine List.map_congr_left fun x hx => ?_
  show ({ x.item with tags := (s.tables.edgeTags.lookup x.item.id).getD ∅ } : Edge) = Store.present x
  rw [lookup_edgeTags (List.mem_filter.1 hx).1]
  rfl

theorem run_snapshot (s : Store) (ids : Option (List Int)) :
    (snapshot ids).run s.tables = (.ok (s.view ids), s.tables) := by
  have hnodes : s.tables.nodes.values = items s.nodes := values_tableOf
  have hvalues : s.tables.edges.values = items s.edges := values_tableOf
  have hedges := run_mapM (t := s.tables)
    (g := fun e => { e with tags := (s.tables.edgeTags.lookup e.id).getD ∅ })
    (f := fun e => do
      let tags ← entry s.tables.edgeTags e.id (.absent e.id)
      return { e with tags := tags })
    (s.tables.edges.values.filter fun e => ids.all (·.contains e.src) && ids.all (·.contains e.dst)) (fun e he => by
      rw [hvalues] at he
      obtain ⟨x, hx, rfl⟩ := List.mem_map.1 (List.mem_filter.1 he).1
      rw [run_bind_ok (run_entry_some (lookup_edgeTags hx))]
      show _ = (Except.ok { x.item with tags := (s.tables.edgeTags.lookup x.item.id).getD ∅ }, s.tables)
      rw [lookup_edgeTags hx]
      rfl)
  unfold snapshot
  rw [run_get_bind, run_bind_ok hedges, edges_view_tables, hnodes, ← Store.nodes_view, Graph.ofLists_eq_ok (s.view ids).wired]
  rfl

end Keeping

end Flowgraph
