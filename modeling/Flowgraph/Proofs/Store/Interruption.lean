import Flowgraph.Proofs.Store.Materialize
/-!
# Writing that is interrupted

Writing a reduced graph into a store stops at the first node of the function that the store does not have, and nothing else
stops it. No journal is handed out then, and what was written before stays: the store is as it was only if every
node before the missing one carried the tag already (`EventGraph.interrupted_writing_stays`).
-/

namespace Flowgraph

/-! ## Refusals -/

/-- Writing to a store is refused and leaves a store behind, whatever the journal. -/
def Stops {α : Type} (w : Writing α) (s : Store) (fault : Fault) (s' : Store) : Prop :=
  ∀ j, ∃ j', w.run (j, s) = (.error fault, (j', s'))

section Stops

variable {α β : Type} {w : Writing α} {k : α → Writing β} {s s₁ s' : Store} {fault : Fault} {a : α}

theorem Stops.bind (h : Stops w s fault s') : Stops (w >>= k) s fault s' := by
  intro j
  obtain ⟨j', h⟩ := h j
  exact ⟨j', by rw [run_bind, h]⟩

theorem Writes.then_stops (hw : Writes w s a s₁) (hk : Stops (k a) s₁ fault s') : Stops (w >>= k) s fault s' := by
  intro j
  obtain ⟨j₁, hw⟩ := hw j
  obtain ⟨j', hk⟩ := hk j₁
  exact ⟨j', by rw [run_bind, hw]; exact hk⟩

theorem Stops.attempt {f : Journal → Store → Except Fault (α × Journal × Store)} (h : ∀ j, f j s = .error fault) :
    Stops (Writing.attempt f) s fault s := by
  intro j
  refine ⟨j, ?_⟩
  have hget : ∀ k : Journal × Store → Writing α, (get >>= k).run (j, s) = (k (j, s)).run (j, s) := fun _ => rfl
  rw [Writing.attempt, hget]
  dsimp only
  rw [h]
  rfl

theorem Stops.node {n : Node} (hn : n.id ∉ s.nodeIds) : Stops (Writing.node n) s (.unknownNode .store (.node n)) s := by
  have hmissing : s.taggedNode (.node n) = .error (.unknownNode .store (.node n)) := by
    unfold Store.taggedNode
    split
    · rename_i x hx
      have hid : x.item.id = n.id := by simpa [NodeRef.key] using List.find?_some hx
      exact absurd (List.mem_map.2 ⟨x.item, List.mem_map_of_mem (List.mem_of_find?_eq_some hx), hid⟩) hn
    · rfl
  refine .attempt fun j => ?_
  rw [Store.node, hmissing]
  rfl

theorem Writes.tag_again {el : ElementRef} {t : String} {tags : TagSet} (htags : s.tagsOf el = .ok tags) (ht : t ∈ tags) :
    Writes (Writing.tag el t) s () s := by
  refine .attempt fun j => ⟨j, ?_⟩
  have htag : s.tag el t = .ok (false, s) := by
    rw [Store.tag, htags]
    exact if_pos ht
  rw [Journal.tag, htag]
  rfl

theorem Writes.exists_tag {el : ElementRef} {t : String} {tags : TagSet} (htags : s.tagsOf el = .ok tags) :
    ∃ s', Writes (Writing.tag el t) s () s' ∧ (s' = s ∨ s' = s.changeTags (·.insert t) el) := by
  by_cases ht : t ∈ tags
  · exact ⟨s, .tag_again htags ht, .inl rfl⟩
  · exact ⟨_, .tag htags ht, .inr rfl⟩

end Stops

/-! ## Lists that only gain -/

section OnlyGains

variable {α : Type} {t : String} {l l' : List (Tagged α)}

theorem OnlyGains.exists_mem (h : OnlyGains t l l') {x : Tagged α} (hx : x ∈ l) :
    ∃ y ∈ l', y.item = x.item ∧ (t ∈ x.tags → t ∈ y.tags) := by
  induction h with
  | added => cases hx
  | @kept z y l l' hitem htags _ ih =>
    rcases List.mem_cons.1 hx with rfl | hx
    · refine ⟨y, by simp, hitem, fun ht => ?_⟩
      rcases htags with htags | htags
      · rwa [htags]
      · rw [htags]
        exact TagSet.mem_insert.2 (.inl rfl)
    · obtain ⟨y', hy', h⟩ := ih hx
      exact ⟨y', by simp [hy'], h⟩

theorem OnlyGains.antisymm (h : OnlyGains t l l') (h' : OnlyGains t l' l) : l' = l := by
  induction h with
  | added =>
    cases h' with
    | added => rfl
  | @kept x y l l' hitem htags _ ih =>
    cases h' with
    | kept hitem' htags' h' =>
      rw [ih h']
      have htags : y.tags = x.tags := by
        rcases htags' with htags' | htags'
        · exact htags'.symm
        · rcases htags with htags | htags
          · exact htags
          · -- the tag was there, so giving it again changes nothing
            have hmem : t ∈ x.tags := by
              rw [htags']
              exact TagSet.mem_insert.2 (.inl rfl)
            rw [htags, TagSet.insert_of_mem hmem]
      cases x
      cases y
      simp_all

end OnlyGains

/-! ## Nodes that are written -/

/-- Whether a node belongs to the function itself. Entry and exit do not. -/
def Node.isOwn (n : Node) : Bool := n.kind != .entry && n.kind != .exit

/-- Among some nodes there is the given one with the tag of reduced graphs. -/
def Marked (nodes : List (Tagged Node)) (n : Node) : Prop :=
  ∃ x ∈ nodes, x.item.id = n.id ∧ Tag.eventNode ∈ x.tags

theorem Marked.mono {l l' : List (Tagged Node)} {n : Node} (h : Marked l n) (hl : OnlyGains Tag.eventNode l l') :
    Marked l' n := by
  obtain ⟨x, hx, hid, ht⟩ := h
  obtain ⟨y, hy, hitem, hmem⟩ := hl.exists_mem hx
  exact ⟨y, hy, hitem ▸ hid, hmem ht⟩

theorem OnlyGains.mem_nodeIds {s s' : Store} (h : OnlyGains Tag.eventNode s.nodes s'.nodes) {i : Int}
    (hi : i ∈ s.nodeIds) : i ∈ s'.nodeIds := by
  obtain ⟨n, hn, rfl⟩ := List.mem_map.1 hi
  obtain ⟨x, hx, rfl⟩ := List.mem_map.1 hn
  obtain ⟨y, hy, hitem, -⟩ := h.exists_mem hx
  exact List.mem_map.2 ⟨y.item, List.mem_map_of_mem hy, by rw [hitem]⟩

namespace EventGraph

open Writing

/-- What writing a node does to a store that has it or does not need it. -/
structure Marks (n : Node) (s s' : Store) : Prop where
  edges : s'.edges = s.edges
  nodes : OnlyGains Tag.eventNode s.nodes s'.nodes
  marked : n.isOwn → Marked s'.nodes n
  nodes_eq_iff : s'.nodes = s.nodes ↔ n.isOwn ∧ Marked s.nodes n

variable {s : Store} {n : Node}

theorem writeNode_of_isOwn (hown : n.isOwn) : writeNode n = (do
    let m ← node n
    tag (.node m) Tag.eventNode
    return (n.id, m.id)) := by
  unfold writeNode
  cases hkind : n.kind with
  | entry => simp [Node.isOwn, hkind] at hown
  | exit => simp [Node.isOwn, hkind] at hown
  | regular => rfl
  | condition => rfl

theorem isOwn_iff : n.isOwn ↔ ¬(n.kind = .entry ∨ n.kind = .exit) := by
  simp [Node.isOwn]

/-- A node that the store has is written, and changes the store unless it carries the tag. -/
theorem writes_own (hown : n.isOwn) (hn : n.id ∈ s.nodeIds) :
    ∃ s', Writes (writeNode n) s (n.id, n.id) s' ∧ n.id ∈ s'.nodeIds ∧ Marks n s s' := by
  obtain ⟨m, hm, hid⟩ := List.mem_map.1 hn
  obtain ⟨x, hx, rfl⟩ := List.mem_map.1 hm
  have htags : s.tagsOf (.node x.item) = .ok x.tags := Store.tagsOf_node_eq_ok_iff.2 ⟨x, hx, rfl, rfl⟩
  by_cases ht : Tag.eventNode ∈ x.tags
  · have hmarked : Marked s.nodes n := ⟨x, hx, hid, ht⟩
    refine ⟨s, ?_, hn, rfl, .refl _ _, fun _ => hmarked, by simp [hown, hmarked]⟩
    rw [writeNode_of_isOwn hown]
    exact (Writes.node hx hid).bind ((Writes.tag_again htags ht).bind (hid ▸ .pure _ _))
  · obtain ⟨hentry, hexit⟩ := not_or.1 (isOwn_iff.1 hown)
    obtain ⟨s', hwrites, hgains, hitems, hedges, -⟩ := writes_stored hentry hexit hx hid ht
    refine ⟨s', hwrites, ?_, hedges, hgains.onlyGains, fun _ => ?_, ?_⟩
    · rwa [Store.nodeIds, hitems]
    · obtain ⟨y, hy, hitem⟩ := List.mem_map.1 (hgains.perm.mem_iff.2 (List.mem_cons_self ..))
      obtain ⟨hy, hty⟩ := List.mem_filter.1 hy
      exact ⟨y, hy, by rw [hitem, hid], by simpa using hty⟩
    · constructor
      · intro hsame
        have hlength := hgains.perm.length_eq
        rw [hsame] at hlength
        simp at hlength
      · rintro ⟨-, y, hy, hidy, hty⟩
        have hdistinct : (s.nodes.map (·.item.id)).Nodup := by
          simpa [items, Function.comp_def] using s.wired.nodes_distinct
        obtain rfl : y = x := List.inj_on_of_nodup_map hdistinct hy hx (hidy.trans hid.symm)
        exact absurd hty ht

/-- Entry and exit are created, and so change the store. -/
theorem writes_added (hown : ¬n.isOwn) :
    ∃ s', Writes (writeNode n) s (n.id, s.nextNode) s' ∧ s.nextNode ∈ s'.nodeIds ∧ Marks n s s' := by
  obtain ⟨s', hwrites, hgains, hedges, -⟩ := writes_created (s := s) (not_not.1 fun h => hown (isOwn_iff.2 h))
  obtain ⟨x, hx, hitem⟩ := List.mem_map.1 (hgains.perm.mem_iff.2 (List.mem_cons_self ..))
  have hnew : s.nextNode ∈ s'.nodeIds :=
    List.mem_map.2 ⟨_, List.mem_map.2 ⟨x, (List.mem_filter.1 hx).1, hitem⟩, rfl⟩
  refine ⟨s', hwrites, hnew, hedges, hgains.onlyGains, fun h => absurd h hown, ?_, fun h => absurd h.1 hown⟩
  intro hsame
  rw [Store.nodeIds, hsame] at hnew
  exact absurd hnew s.nextNode_fresh

/-- A node is written, unless the store should have it and does not. -/
theorem writeNode_step (s : Store) (n : Node) :
    (n.id ∉ s.nodeIds ∧ Stops (writeNode n) s (.unknownNode .store (.node n)) s) ∨
    ∃ i s', Writes (writeNode n) s (n.id, i) s' ∧ i ∈ s'.nodeIds ∧ Marks n s s' := by
  by_cases hown : n.isOwn
  · by_cases hn : n.id ∈ s.nodeIds
    · exact .inr ⟨n.id, writes_own hown hn⟩
    · refine .inl ⟨hn, ?_⟩
      rw [writeNode_of_isOwn hown]
      exact (Stops.node hn).bind
  · exact .inr ⟨s.nextNode, writes_added hown⟩

/-- Writing nodes one by one comes to an end, or stops at the first that is missing. -/
theorem writeNodes_run (nodes : List Node) (s : Store) :
    (∃ places s', Writes (nodes.mapM writeNode) s places s' ∧ places.map Prod.fst = nodes.map Node.id ∧
      OnlyGains Tag.eventNode s.nodes s'.nodes ∧ ∀ p ∈ places, p.2 ∈ s'.nodeIds) ∨
    ∃ before n after s', nodes = before ++ n :: after ∧ n.id ∉ s'.nodeIds ∧
      Stops (nodes.mapM writeNode) s (.unknownNode .store (.node n)) s' ∧ s'.edges = s.edges ∧
      OnlyGains Tag.eventNode s.nodes s'.nodes ∧ (∀ m ∈ before, m.isOwn → Marked s'.nodes m) ∧
      (s'.nodes = s.nodes ↔ ∀ m ∈ before, m.isOwn ∧ Marked s.nodes m) := by
  induction nodes generalizing s with
  | nil => exact .inl ⟨[], s, .mapM_nil _ s, rfl, .refl _ _, by simp⟩
  | cons n nodes ih =>
    rcases writeNode_step s n with ⟨hn, hstops⟩ | ⟨i, s₁, hwrites, hi, hmarks⟩
    · refine .inr ⟨[], n, nodes, s, rfl, hn, ?_, rfl, .refl _ _, by simp, by simp⟩
      rw [List.mapM_cons]
      exact hstops.bind
    · rcases ih s₁ with ⟨places, s', hrest, hkeys, hgains, hplaces⟩ |
        ⟨before, m, after, s', rfl, hm, hstops, hedges, hgains, hmarked, hsame⟩
      · refine .inl ⟨(n.id, i) :: places, s', hwrites.mapM_cons hrest, ?_, hmarks.nodes.trans hgains, ?_⟩
        · rw [List.map_cons, hkeys, List.map_cons]
        · simpa using ⟨hgains.mem_nodeIds hi, fun k j hp => hplaces (k, j) hp⟩
      · refine .inr ⟨n :: before, m, after, s', rfl, hm, ?_, hedges.trans hmarks.edges, hmarks.nodes.trans hgains, ?_, ?_⟩
        · rw [List.mapM_cons]
          exact hwrites.then_stops hstops.bind
        · rintro k hk hown
          rcases List.mem_cons.1 hk with rfl | hk
          · exact (hmarks.marked hown).mono hgains
          · exact hmarked k hk hown
        · rw [List.forall_mem_cons, ← hmarks.nodes_eq_iff]
          constructor
          · -- what has only gained and is the same again was the same all along
            intro h
            have hfirst : s₁.nodes = s.nodes := hmarks.nodes.antisymm (h ▸ hgains)
            exact ⟨hfirst, hfirst ▸ hsame.1 (h.trans hfirst.symm)⟩
          · rintro ⟨hfirst, h⟩
            rw [← hfirst] at h ⊢
            exact hsame.2 h

/-! ## Edges that are written -/

theorem writeEdge_step {places : List (Int × Int)} {d : Edge} (hsrc : (places.lookup d.src).getD d.src ∈ s.nodeIds)
    (hdst : (places.lookup d.dst).getD d.dst ∈ s.nodeIds) :
    ∃ s', Writes (writeEdge places d) s () s' ∧ s'.nodeIds = s.nodeIds := by
  unfold writeEdge
  dsimp only
  by_cases hstored : isStored s d ((places.lookup d.src).getD d.src) ((places.lookup d.dst).getD d.dst)
  · have hfound := hstored
    rw [isStored, Bool.and_eq_true, List.any_eq_true] at hfound
    obtain ⟨-, x, hx, hends⟩ := hfound
    have hid : x.item.id = d.id := by simp at hends; exact hends.1.1
    obtain ⟨s', hwrites, hs'⟩ := Writes.exists_tag (t := Tag.eventEdge)
      (Store.tagsOf_edge_eq_ok_iff.2 ⟨x, hx, hid, rfl⟩)
    refine ⟨s', .after_get fun j => ?_, ?_⟩
    · dsimp only
      rwa [if_pos hstored]
    · rcases hs' with rfl | rfl <;> rfl
  · obtain ⟨s', hcreated⟩ := Store.exists_createEdge hsrc hdst { d.draft with tags := d.tags.insert Tag.eventEdge }
    refine ⟨s', .after_get fun j => ?_, ?_⟩
    · dsimp only
      rw [if_neg hstored]
      exact (Writes.createEdge hcreated).bind (.pure _ _)
    · rw [Store.nodeIds, (Store.createEdge_eq_ok hcreated).2.1, Store.nodeIds]

theorem writeEdges_run {places : List (Int × Int)} (edges : List Edge) (s : Store)
    (hends : ∀ d ∈ edges, (places.lookup d.src).getD d.src ∈ s.nodeIds ∧ (places.lookup d.dst).getD d.dst ∈ s.nodeIds) :
    ∃ s', Writes (edges.forM (writeEdge places)) s () s' := by
  induction edges generalizing s with
  | nil => exact ⟨s, .pure _ _⟩
  | cons d edges ih =>
    obtain ⟨hsrc, hdst⟩ := hends d (by simp)
    obtain ⟨s₁, hwrites, hids⟩ := writeEdge_step hsrc hdst
    obtain ⟨s', hrest⟩ := ih s₁ (fun c hc => hids ▸ hends c (by simp [hc]))
    exact ⟨s', hwrites.bind hrest⟩

theorem lookup_mem_of_places {places : List (Int × Int)} {ids : List Int} (hplaces : ∀ p ∈ places, p.2 ∈ ids) {i : Int}
    (hi : i ∈ places.map Prod.fst) : (places.lookup i).getD i ∈ ids := by
  induction places with
  | nil => cases hi
  | cons p places ih =>
    rw [List.lookup_cons]
    split
    · exact hplaces p (by simp)
    · rename_i hne
      refine ih (fun q hq => hplaces q (by simp [hq])) ?_
      simpa [show i ≠ p.1 by simpa using hne] using hi

/-! ## Graphs that are written -/

/-- Where the store lacks a node of a reduced graph, writing stops there and the nodes before it stay written. Edges are not
touched, and the store is as before exactly if all these nodes were in it with the tag of reduced graphs. -/
theorem interrupted_writing_stays {e : EventGraph} {s s' : Store} {fault : Fault}
    (h : e.materialize s = (.error fault, s')) :
    ∃ before n after, e.graph.nodes = before ++ n :: after ∧ fault = .unknownNode .store (.node n) ∧ n.id ∉ s.nodeIds ∧
      s'.edges = s.edges ∧ OnlyGains Tag.eventNode s.nodes s'.nodes ∧ (∀ m ∈ before, m.isOwn → Marked s'.nodes m) ∧
      (s'.nodes = s.nodes ↔ ∀ m ∈ before, m.isOwn ∧ Marked s.nodes m) := by
  rcases writeNodes_run e.graph.nodes s with ⟨places, s₁, hwrites, hkeys, -, hplaces⟩ |
    ⟨before, n, after, s₁, hsplit, hn, hstops, hedges, hgains, hmarked, hsame⟩
  · -- the edges are written then, so nothing stops
    have hends : ∀ i ∈ e.graph.nodeIds, (places.lookup i).getD i ∈ s₁.nodeIds :=
      fun i hi => lookup_mem_of_places hplaces (hkeys ▸ hi)
    obtain ⟨s₂, hrest⟩ := writeEdges_run e.graph.edges s₁ fun d hd =>
      ⟨hends _ (e.graph.wired.closed d hd).1, hends _ (e.graph.wired.closed d hd).2⟩
    obtain ⟨j, hrun⟩ := hwrites.bind (k := fun places => e.graph.edges.forM (writeEdge places)) hrest {}
    rw [materialize, show e.write.run.run ({}, s) = _ from hrun] at h
    cases h
  · obtain ⟨j, hrun⟩ := hstops.bind (k := fun places => e.graph.edges.forM (writeEdge places)) {}
    rw [materialize, show e.write.run.run ({}, s) = _ from hrun] at h
    cases h
    exact ⟨before, n, after, hsplit, rfl, fun hi => hn (hgains.mem_nodeIds hi), hedges, hgains, hmarked, hsame⟩

/-- The branch reduced to the node that it goes around. -/
def branchReduction : Reduction := ⟨branch, none, [{ id := 1 }]⟩

/-- A store with the branch, from which the node that it goes around has been deleted. -/
def lackingStore : Store := (Store.ofGraph branch.base).dropNode 1

/-- The reduced branch, of which the first node is marked before the missing one is found. -/
theorem exists_interrupted : ∃ e fault s', (branchReduction.construct.run #[]).1 = .ok e ∧
    e.materialize lackingStore = (.error fault, s') ∧ s'.nodes ≠ lackingStore.nodes := by
  obtain ⟨e, he, -, hretained, -, hnodes, -⟩ := branchReduction.reduce_eq_ok (Dominance.analyse branch .backward)
  have hkept : branchReduction.kept = [{ id := 1 }] := by cbv
  have hpicked : branch.graph.pick (branchReduction.retainedIds (Dominance.analyse branch .backward)) =
      branch.graph.nodes.eraseIdx 2 := by
    rw [Reduction.retainedIds, hkept]
    decide +kernel
  replace hnodes : e.graph.nodes = branch.graph.nodes.eraseIdx 2 := hnodes.trans (hretained.trans hpicked)
  have hresult : (e.materialize lackingStore).1 = .error (.unknownNode .store (.node { id := 1 })) := by
    rw [materialize, write, hnodes]
    rfl
  have hchanged : (e.materialize lackingStore).2.nodes ≠ lackingStore.nodes := by
    rw [materialize, write, hnodes]
    exact of_decide_eq_false rfl
  exact ⟨e, _, _, (branchReduction.gives_construct #[]).trans he, Prod.ext hresult rfl, hchanged⟩

/-- A reduced graph is written into a store that lacks one of its nodes: that is refused, and yet the store is another one. -/
theorem interrupted_writing_is_kept : (Store.ofGraph branch.base).delete (.node (.id 1)) = .ok lackingStore ∧
    ∃ e fault s', (branchReduction.construct.run #[]).1 = .ok e ∧
      e.materialize lackingStore = (.error fault, s') ∧ s'.nodes ≠ lackingStore.nodes :=
  ⟨rfl, exists_interrupted⟩

theorem interrupted_writing_stays_lackingStore :
    ∃ e fault s', (branchReduction.construct.run #[]).1 = .ok e ∧ e.materialize lackingStore = (.error fault, s') ∧
    ∃ before n after, e.graph.nodes = before ++ n :: after ∧ fault = .unknownNode .store (.node n) ∧
      s'.edges = lackingStore.edges ∧ (∀ m ∈ before, m.isOwn → Marked s'.nodes m) ∧
      ¬∀ m ∈ before, m.isOwn ∧ Marked lackingStore.nodes m := by
  obtain ⟨e, fault, s', he, hwritten, hchanged⟩ := exists_interrupted
  obtain ⟨before, n, after, hsplit, hfault, -, hedges, -, hmarked, hsame⟩ := interrupted_writing_stays hwritten
  exact ⟨e, fault, s', he, hwritten, before, n, after, hsplit, hfault, hedges, hmarked, fun h => hchanged (hsame.2 h)⟩

end EventGraph

end Flowgraph
