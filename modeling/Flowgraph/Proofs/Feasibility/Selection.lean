import Flowgraph.Proofs.Feasibility.Enumeration
/-!
# Which queries select a path

The paths of an explorer are all the maximal walks from the roots, so a query selects some path exactly if there is a walk for
it in the loop-free graph (`Explorer.selection_is_avoiding_reachability`). What a query asks of such walks is said by
`Graph.HasWay`, without positions on paths.

* On a path that passes no node twice, the first position of a node is the only one, so that what comes before and after it is
  fixed (`Explorer.selects_second_iff`, `Explorer.selects_first_iff`, `Explorer.selects_both_iff`).
* A walk to a node and a walk from it make one walk and the other way round (`Graph.walk_append_iff`), and every node leads to
  one without successors (`Graph.exists_walk_to_end`); so a part of a walk can be completed.
-/

namespace Flowgraph

namespace Graph

variable {g : Graph} {dir : Direction} {u v w : Int} {before after : List Int}

/-! ## Parts of walks -/

/-- A walk through a node is a walk to it and a walk from it. -/
theorem walk_append_iff :
    g.Walk dir u (before ++ v :: after) w ↔ g.Walk dir u (before ++ [v]) v ∧ g.Walk dir v (v :: after) w := by
  constructor
  · intro h
    induction before generalizing u with
    | nil =>
      obtain rfl : v = u := by simpa using h.head_eq
      exact ⟨.stay h.start_mem, h⟩
    | cons b before ih =>
      obtain rfl : b = u := by simpa using h.head_eq
      rw [List.cons_append, walk_cons_iff] at h
      obtain ⟨hnil, -, -⟩ | ⟨x, hx, h⟩ := h
      · simp at hnil
      · obtain ⟨hto, hfrom⟩ := ih h
        exact ⟨.step hx hto, hfrom⟩
  · rintro ⟨hto, hfrom⟩
    simpa using hto.append hfrom

/-- In a graph without endless walks, every node leads to one that leads nowhere. -/
theorem exists_walk_to_end (hwf : WellFounded fun v u => v ∈ g.succs u) (hu : u ∈ g.nodeIds) :
    ∃ after t, g.Walk .forward u (u :: after) t ∧ g.succs t = [] := by
  induction u using hwf.induction with
  | _ u ih =>
    by_cases hend : g.succs u = []
    · exact ⟨[], u, .stay hu, hend⟩
    · obtain ⟨v, hv⟩ := List.exists_mem_of_ne_nil _ hend
      obtain ⟨after, t, hwalk, ht⟩ := ih v hv (mem_nodeIds_of_mem_ahead (show v ∈ g.ahead .forward u from hv)).2
      exact ⟨v :: after, t, .step hv hwalk, ht⟩

theorem Reaches.exists_before (h : g.Reaches dir u v) : ∃ before, g.Walk dir u (before ++ [v]) v := by
  obtain ⟨nodes, hwalk⟩ := h
  obtain ⟨before, rfl⟩ := List.getLast?_eq_some_iff.1 hwalk.last_eq
  exact ⟨before, hwalk⟩

/-! ## Ways -/

/-- Whether a node can be reached from one of some nodes. -/
def FromRoots (g : Graph) (roots : List Node) (n : Int) : Prop := ∃ r ∈ roots, g.Reaches .forward r.id n

/-- Whether a graph has a way for a query: from a root to the second node with nothing to be avoided before it, or, by way of
the first node, from there to the second with nothing to be avoided in between, or from there to where nothing follows with
nothing to be avoided on the way. -/
def HasWay (g : Graph) (roots : List Node) (avoid : List Int) : Option Int → Option Int → Prop
  | none, none => True
  | none, some b => ∃ r ∈ roots, ∃ before, g.Walk .forward r.id (before ++ [b]) b ∧ ∀ m ∈ before, m ∉ avoid
  | some a, none =>
    g.FromRoots roots a ∧ ∃ after t, g.Walk .forward a (a :: after) t ∧ g.succs t = [] ∧ ∀ m ∈ after, m ∉ avoid
  | some a, some b =>
    g.FromRoots roots a ∧
      (a ≠ b → ∃ between, g.Walk .forward a (a :: between ++ [b]) b ∧ ∀ m ∈ between, m ∉ avoid)

end Graph

namespace Explorer

variable {a b : Int} {avoid ids : List Int}

/-! ## Selection without positions -/

theorem idxOf_split {before after : List Int} (hids : (before ++ b :: after).Nodup) :
    (before ++ b :: after).idxOf b = before.length := by
  have hb : b ∉ before := fun hb => List.disjoint_of_nodup_append hids hb List.mem_cons_self
  rw [List.idxOf_append_of_notMem hb, List.idxOf_cons_self, Nat.add_zero]

theorem take_split {before after : List Int} (hids : (before ++ b :: after).Nodup) :
    (before ++ b :: after).take ((before ++ b :: after).idxOf b) = before := by
  rw [idxOf_split hids, List.take_left]

theorem drop_split {before after : List Int} (hids : (before ++ b :: after).Nodup) :
    (before ++ b :: after).drop ((before ++ b :: after).idxOf b + 1) = after := by
  rw [idxOf_split hids, ← List.drop_drop, List.drop_left, List.drop_one, List.tail_cons]

theorem all_not_mem_iff {part : List Int} : (part.all fun n => !avoid.contains n) = true ↔ ∀ m ∈ part, m ∉ avoid := by
  simp

theorem selects_second_iff (hids : ids.Nodup) :
    selects none (some b) avoid ids ↔ ∃ before after, ids = before ++ b :: after ∧ ∀ m ∈ before, m ∉ avoid := by
  simp only [selects, Bool.and_eq_true, List.contains_iff_mem, all_not_mem_iff]
  constructor
  · rintro ⟨hb, hclean⟩
    obtain ⟨before, after, rfl⟩ := List.append_of_mem hb
    rw [take_split hids] at hclean
    exact ⟨before, after, rfl, hclean⟩
  · rintro ⟨before, after, rfl, hclean⟩
    rw [take_split hids]
    exact ⟨by simp, hclean⟩

theorem selects_first_iff (hids : ids.Nodup) :
    selects (some a) none avoid ids ↔ ∃ before after, ids = before ++ a :: after ∧ ∀ m ∈ after, m ∉ avoid := by
  simp only [selects, Bool.and_eq_true, List.contains_iff_mem, all_not_mem_iff]
  constructor
  · rintro ⟨ha, hclean⟩
    obtain ⟨before, after, rfl⟩ := List.append_of_mem ha
    rw [drop_split hids] at hclean
    exact ⟨before, after, rfl, hclean⟩
  · rintro ⟨before, after, rfl, hclean⟩
    rw [drop_split hids]
    exact ⟨by simp, hclean⟩

theorem selects_same_iff : selects (some a) (some a) avoid ids ↔ a ∈ ids := by
  simp [selects]

theorem selects_both_iff (hids : ids.Nodup) (hab : a ≠ b) :
    selects (some a) (some b) avoid ids ↔
      ∃ before between after, ids = before ++ a :: (between ++ b :: after) ∧ ∀ m ∈ between, m ∉ avoid := by
  -- with both nodes in this order on the path, what is tested is what lies between them
  have hsplit : ∀ before between after : List Int, (before ++ a :: (between ++ b :: after)).Nodup →
      let path := before ++ a :: (between ++ b :: after)
      path.idxOf a ≤ path.idxOf b ∧ (path.take (path.idxOf b)).drop (path.idxOf a + 1) = between := by
    intro before between after hpath path
    have hassoc : path = (before ++ a :: between) ++ b :: after := by simp [path]
    have hpath' : ((before ++ a :: between) ++ b :: after).Nodup := hassoc ▸ hpath
    have ha : path.idxOf a = before.length := idxOf_split hpath
    have hb : path.idxOf b = (before ++ a :: between).length := by rw [hassoc, idxOf_split hpath']
    have htake : path.take (path.idxOf b) = before ++ a :: between := by rw [hassoc, take_split hpath']
    refine ⟨by rw [ha, hb, List.length_append]; omega, ?_⟩
    rw [htake, ha, ← List.drop_drop, List.drop_left, List.drop_one, List.tail_cons]
  simp only [selects, Bool.and_eq_true, Bool.or_eq_true, List.contains_iff_mem, decide_eq_true_eq, beq_iff_eq,
    all_not_mem_iff]
  constructor
  · rintro ⟨⟨⟨ha, hb⟩, hle⟩, hclean⟩
    obtain ⟨before, rest, rfl⟩ := List.append_of_mem ha
    have hafter : b ∈ rest := by
      rw [List.mem_append, List.mem_cons] at hb
      rcases hb with hb | hb | hb
      · have hlt := List.idxOf_lt_length_iff.2 hb
        rw [idxOf_split hids, List.idxOf_append, if_pos hb] at hle
        omega
      · exact absurd hb.symm hab
      · exact hb
    obtain ⟨between, after, rfl⟩ := List.append_of_mem hafter
    rw [(hsplit before between after hids).2] at hclean
    exact ⟨before, between, after, rfl, hclean.resolve_left hab⟩
  · rintro ⟨before, between, after, rfl, hclean⟩
    obtain ⟨hle, hbetween⟩ := hsplit before between after hids
    rw [hbetween]
    exact ⟨⟨⟨by simp, by simp⟩, hle⟩, Or.inr hclean⟩

/-! ## Selected paths -/

variable {x : Explorer} {g : Graph} {settings : Settings} {solver : Option Solver} {external : Option External} {name : Option String}

theorem wellFounded_of_made (hx : made g settings solver external name = .ok x) :
    WellFounded fun v u => v ∈ x.graph.succs u := by
  obtain ⟨limits, -, hfree, -⟩ := made_eq_ok hx
  exact Graph.wellFounded_of_loopFree hfree

theorem roots_ne_nil_of_made (hx : made g settings solver external name = .ok x) : g.roots ≠ [] := by
  obtain ⟨limits, -, hx⟩ := bind_eq_ok_iff.1 hx
  obtain ⟨augmented, ha, -⟩ := bind_eq_ok_iff.1 hx
  rw [← Augmented.base_ofGraph ha]
  exact augmented.rooted

/-- Some path has a property exactly if some maximal walk has it; such a walk passes no node twice. -/
theorem exists_path_iff (hx : made g settings solver external name = .ok x) {P : List Int → Bool} {Q : List Int → Prop}
    (hPQ : ∀ ids, ids.Nodup → (P ids ↔ Q ids)) :
    (∃ p ∈ x.paths, P (p.map Node.id)) ↔
      ∃ r ∈ g.roots, ∃ ids t, x.graph.Walk .forward r.id ids t ∧ x.graph.succs t = [] ∧ Q ids := by
  have hwf := wellFounded_of_made hx
  constructor
  · rintro ⟨p, hp, hP⟩
    obtain ⟨-, r, hr, t, hwalk, hend⟩ := (mem_paths_iff hx p).1 hp
    exact ⟨r, hr, _, t, hwalk, hend, (hPQ _ (hwalk.nodup hwf)).1 hP⟩
  · rintro ⟨r, hr, ids, t, hwalk, hend, hQ⟩
    have hids : (x.graph.lookUp ids).map Node.id = ids := Graph.map_id_lookUp hwalk.nodes_mem
    have hnodes : ∀ n ∈ x.graph.lookUp ids, n ∈ x.graph.nodes := fun n hn => (Graph.mem_lookUp_iff.1 hn).1
    have hP : P ids := (hPQ ids (hwalk.nodup hwf)).2 hQ
    rw [← hids] at hwalk hP
    exact ⟨_, (mem_paths_iff hx _).2 ⟨hnodes, r, hr, t, hwalk, hend⟩, hP⟩

theorem exists_selected_iff (hx : made g settings solver external name = .ok x) (first second : Option Int) :
    (∃ p ∈ x.paths, selects first second avoid (p.map Node.id)) ↔ x.graph.HasWay g.roots avoid first second := by
  have hwf := wellFounded_of_made hx
  -- any walk from a root can be completed, so each query is about the part of a path that it speaks of
  match first, second with
  | none, none =>
    rw [exists_path_iff hx (Q := fun _ => True) fun _ _ => by simp [selects]]
    obtain ⟨r, hr⟩ := List.exists_mem_of_ne_nil _ (roots_ne_nil_of_made hx)
    have hnode : r.id ∈ x.graph.nodeIds := by
      rw [Graph.nodeIds, (mem_nodes_of_made hx).1]
      exact List.mem_map_of_mem (List.mem_filter.1 hr).1
    obtain ⟨after, t, hwalk, hend⟩ := Graph.exists_walk_to_end hwf hnode
    exact ⟨fun _ => trivial, fun _ => ⟨r, hr, _, t, hwalk, hend, trivial⟩⟩
  | none, some b =>
    rw [exists_path_iff hx fun ids => selects_second_iff]
    constructor
    · rintro ⟨r, hr, _, t, hwalk, -, before, after, rfl, hclean⟩
      exact ⟨r, hr, before, (Graph.walk_append_iff.1 hwalk).1, hclean⟩
    · rintro ⟨r, hr, before, hto, hclean⟩
      obtain ⟨after, t, hfrom, hend⟩ := Graph.exists_walk_to_end hwf hto.end_mem
      exact ⟨r, hr, _, t, Graph.walk_append_iff.2 ⟨hto, hfrom⟩, hend, before, after, rfl, hclean⟩
  | some a, none =>
    rw [exists_path_iff hx fun ids => selects_first_iff]
    constructor
    · rintro ⟨r, hr, _, t, hwalk, hend, before, after, rfl, hclean⟩
      obtain ⟨hto, hfrom⟩ := Graph.walk_append_iff.1 hwalk
      exact ⟨⟨r, hr, _, hto⟩, after, t, hfrom, hend, hclean⟩
    · rintro ⟨⟨r, hr, hreach⟩, after, t, hfrom, hend, hclean⟩
      obtain ⟨before, hto⟩ := hreach.exists_before
      exact ⟨r, hr, _, t, Graph.walk_append_iff.2 ⟨hto, hfrom⟩, hend, before, after, rfl, hclean⟩
  | some a, some b =>
    by_cases hab : a = b
    · subst hab
      rw [exists_path_iff hx (Q := fun ids => a ∈ ids) fun ids _ => selects_same_iff]
      constructor
      · rintro ⟨r, hr, ids, t, hwalk, -, ha⟩
        obtain ⟨part, -, hpart⟩ := hwalk.take ha
        exact ⟨⟨r, hr, part, hpart⟩, fun hne => absurd rfl hne⟩
      · rintro ⟨⟨r, hr, hreach⟩, -⟩
        obtain ⟨before, hto⟩ := hreach.exists_before
        obtain ⟨after, t, hfrom, hend⟩ := Graph.exists_walk_to_end hwf hto.end_mem
        exact ⟨r, hr, _, t, Graph.walk_append_iff.2 ⟨hto, hfrom⟩, hend, by simp⟩
    · rw [exists_path_iff hx fun ids hids => selects_both_iff hids hab]
      constructor
      · rintro ⟨r, hr, _, t, hwalk, -, before, between, after, rfl, hclean⟩
        obtain ⟨hto, hfrom⟩ := Graph.walk_append_iff.1 hwalk
        rw [← List.cons_append] at hfrom
        exact ⟨⟨r, hr, _, hto⟩, fun _ => ⟨between, (Graph.walk_append_iff.1 hfrom).1, hclean⟩⟩
      · rintro ⟨⟨r, hr, hreach⟩, hway⟩
        obtain ⟨before, hto⟩ := hreach.exists_before
        obtain ⟨between, hfrom, hclean⟩ := hway hab
        obtain ⟨after, t, hrest, hend⟩ := Graph.exists_walk_to_end hwf hfrom.end_mem
        have hwalk := Graph.walk_append_iff.2 ⟨hfrom, hrest⟩
        exact ⟨r, hr, _, t, Graph.walk_append_iff.2 ⟨hto, hwalk⟩, hend, before, between, after, rfl, hclean⟩

/-- A query about nodes of the function selects some of the paths, in order. It selects one exactly if the loop-free graph has
a way for it. -/
theorem selection_is_avoiding_reachability {log : Array Report}
    (hx : ((create g settings solver external name).run log).1 = .ok x) (q : Query)
    (hfirst : ∀ ref ∈ q.first, ref.key ∈ x.graph.nodeIds) (hsecond : ∀ ref ∈ q.second, ref.key ∈ x.graph.nodeIds)
    (hexcluded : ∀ ref ∈ q.excluded, ref.key ∈ x.graph.nodeIds) :
    ∃ paths, x.between q = .ok paths ∧ paths.Sublist x.paths ∧
      (paths ≠ [] ↔ x.graph.HasWay g.roots (q.excluded.map NodeRef.key)
        (q.first.map NodeRef.key) (q.second.map NodeRef.key)) := by
  have hmade := (gives_create log).symm.trans hx
  refine ⟨_, between_eq_ok hfirst hsecond hexcluded, List.filter_sublist, ?_⟩
  rw [← exists_selected_iff hmade, ne_eq, List.filter_eq_nil_iff]
  simp only [not_forall, not_not, exists_prop]

theorem selection_is_avoiding_reachability_loopedBranch :
    ((create loopedBranch {} none none none).run #[]).1 = .ok loopedBranchExplorer ∧
    ∃ paths, loopedBranchExplorer.between ⟨some (.id 0), some (.id 3), [.id 1]⟩ = .ok paths ∧
      paths.Sublist loopedBranchExplorer.paths ∧
      (paths ≠ [] ↔ loopedBranchExplorer.graph.HasWay loopedBranch.roots [1] (some 0) (some 3)) := by
  have hx : ((create loopedBranch {} none none none).run #[]).1 = .ok loopedBranchExplorer := by
    rw [gives_create]
    cbv
  exact ⟨hx, selection_is_avoiding_reachability hx ⟨some (.id 0), some (.id 3), [.id 1]⟩ (by decide) (by decide) (by decide)⟩

end Explorer

end Flowgraph
