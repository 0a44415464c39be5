import Flowgraph.Graph.Reach
import Flowgraph.Graph.Walk
/-!
# The search finds what walks reach

The search by unvisited nodes visits exactly the nodes at the ends of walks (`Graph.mem_reachable_iff`). It also decides whether a
walk reaches one node, and stops there (`Graph.leadsTo_iff`).

Each direction is one induction along the search. A node that is found ends a walk from a waiting node. The nodes
found are closed under neighbours once nothing waits, because a neighbour of a node found is itself found or still waits.
-/

namespace Flowgraph

namespace Graph

variable {g : Graph} {dir : Direction}

theorem nodup_nodeIds : g.nodeIds.Nodup := g.wired.nodes_distinct

theorem Reaches.head {u v w : Int} (hv : v ∈ g.ahead dir u) (h : g.Reaches dir v w) : g.Reaches dir u w :=
  ⟨_, .step hv h.choose_spec⟩

/-- What holds of the start and passes on to neighbours holds of all nodes that walks reach. -/
theorem Reaches.closed {P : Int → Prop} {u v : Int} (h : g.Reaches dir u v) (hu : P u)
    (hstep : ∀ x, P x → ∀ y ∈ g.ahead dir x, P y) : P v := by
  obtain ⟨nodes, h⟩ := h
  induction h with
  | stay _ => exact hu
  | step hv _ ih => exact ih (hstep _ hu _ hv)

theorem Reaches.start_mem {u v : Int} (h : g.Reaches dir u v) : u ∈ g.nodeIds := h.choose_spec.start_mem

theorem Reaches.end_mem {u v : Int} (h : g.Reaches dir u v) : v ∈ g.nodeIds := h.choose_spec.end_mem

/-- One node reaches another exactly if, the other way, that one reaches it. -/
theorem reaches_flip_iff {u v : Int} : g.Reaches dir.flip v u ↔ g.Reaches dir u v := by
  cases dir with
  | forward => exact ⟨fun h => h.flip, fun h => h.flip⟩
  | backward => exact ⟨fun h => h.flip, fun h => h.flip⟩

/-! ## The search by unvisited nodes -/

theorem explore_subset (unvisited pending : List Int) :
    ∀ n ∈ g.explore dir unvisited pending, n ∈ unvisited := by
  fun_induction explore g dir unvisited pending with
  | case1 => exact fun _ h => h
  | case2 unvisited n pending hn ih => exact fun m hm => List.mem_of_mem_erase (ih m hm)
  | case3 unvisited n pending hn ih => exact ih

theorem reaches_of_explored (unvisited pending : List Int) (hsub : ∀ n ∈ unvisited, n ∈ g.nodeIds) :
    ∀ n ∈ unvisited, n ∉ g.explore dir unvisited pending → ∃ p ∈ pending, g.Reaches dir p n := by
  fun_induction explore g dir unvisited pending with
  | case1 => exact fun n hn h => absurd hn h
  | case2 unvisited m pending hm ih =>
    intro n hn hfound
    by_cases hnm : n = m
    · exact ⟨m, by simp, hnm ▸ Reaches.refl (hsub n hn)⟩
    · obtain ⟨p, hp, hreach⟩ := ih (fun k hk => hsub k (List.mem_of_mem_erase hk)) n
        ((List.mem_erase_of_ne hnm).2 hn) hfound
      rcases List.mem_append.1 hp with hp | hp
      · exact ⟨m, by simp, hreach.head hp⟩
      · exact ⟨p, by simp [hp], hreach⟩
  | case3 unvisited m pending hm ih =>
    intro n hn hfound
    obtain ⟨p, hp, hreach⟩ := ih hsub n hn hfound
    exact ⟨p, by simp [hp], hreach⟩

/-- The search leaves no neighbour of a visited node unvisited, if before it each such neighbour was pending. -/
theorem explored_closed (unvisited pending : List Int) (hnodup : unvisited.Nodup)
    (hinv : ∀ u, u ∉ unvisited → ∀ v ∈ g.ahead dir u, v ∈ unvisited → v ∈ pending) :
    (∀ p ∈ pending, p ∉ g.explore dir unvisited pending) ∧
      ∀ u, u ∉ g.explore dir unvisited pending →
        ∀ v ∈ g.ahead dir u, v ∉ g.explore dir unvisited pending := by
  fun_induction explore g dir unvisited pending with
  | case1 unvisited =>
    refine ⟨by simp, fun u hu v hv hmem => ?_⟩
    exact absurd (hinv u hu v hv hmem) (by simp)
  | case2 unvisited m pending hm ih =>
    -- `m` is visited now, and its neighbours become pending
    have hinv' : ∀ u, u ∉ unvisited.erase m → ∀ v ∈ g.ahead dir u, v ∈ unvisited.erase m →
        v ∈ g.ahead dir m ++ pending := by
      intro u hu v hv hmem
      rw [hnodup.mem_erase_iff] at hu hmem
      by_cases hum : u = m
      · exact List.mem_append_left _ (hum ▸ hv)
      · have hvisited : u ∉ unvisited := fun h => hu ⟨hum, h⟩
        rcases List.mem_cons.1 (hinv u hvisited v hv hmem.2) with hvm | hvp
        · exact absurd hvm hmem.1
        · exact List.mem_append_right _ hvp
    obtain ⟨hpending, hclosed⟩ := ih (hnodup.erase m) hinv'
    refine ⟨fun p hp => ?_, hclosed⟩
    rcases List.mem_cons.1 hp with rfl | hp
    · exact fun h => (hnodup.mem_erase_iff.1 (explore_subset _ _ _ h)).1 rfl
    · exact hpending p (List.mem_append_right _ hp)
  | case3 unvisited m pending hm ih =>
    have hinv' : ∀ u, u ∉ unvisited → ∀ v ∈ g.ahead dir u, v ∈ unvisited → v ∈ pending := by
      intro u hu v hv hmem
      rcases List.mem_cons.1 (hinv u hu v hv hmem) with rfl | hvp
      · exact absurd hmem hm
      · exact hvp
    obtain ⟨hpending, hclosed⟩ := ih hnodup hinv'
    refine ⟨fun p hp => ?_, hclosed⟩
    rcases List.mem_cons.1 hp with rfl | hp
    · exact fun h => hm (explore_subset _ _ _ h)
    · exact hpending p hp

theorem mem_reachable_iff {start n : Int} :
    n ∈ g.reachable dir start ↔ g.Reaches dir start n := by
  simp only [reachable, List.mem_filter, Bool.not_eq_true', List.contains_eq_mem, decide_eq_false_iff_not]
  constructor
  · rintro ⟨hn, hfound⟩
    obtain ⟨p, hp, hreach⟩ := reaches_of_explored _ _ (fun _ h => h) n hn hfound
    rw [List.mem_singleton] at hp
    exact hp ▸ hreach
  · intro hreach
    have hstart : ∀ u, u ∉ g.nodeIds → ∀ v ∈ g.ahead dir u, v ∈ g.nodeIds → v ∈ [start] :=
      fun u hu v hv _ => absurd (mem_nodeIds_of_mem_ahead hv).1 hu
    obtain ⟨hpending, hclosed⟩ := explored_closed g.nodeIds [start] nodup_nodeIds hstart
    refine ⟨hreach.end_mem, ?_⟩
    exact hreach.closed (hpending start (by simp)) hclosed

/-- The search for one node comes upon it if the search for all nodes does. -/
theorem finds_iff (goal : Int) (unvisited pending : List Int) (hnodup : unvisited.Nodup) (hgoal : goal ∈ unvisited) :
    g.finds dir goal unvisited pending ↔ goal ∉ g.explore dir unvisited pending := by
  fun_induction finds g dir goal unvisited pending with
  | case1 unvisited => simp [explore, hgoal]
  | case2 unvisited pending =>
    rw [explore, if_pos hgoal]
    exact iff_of_true rfl fun h => hnodup.not_mem_erase (explore_subset _ _ _ h)
  | case3 unvisited n pending hne hn ih =>
    rw [explore, if_pos hn]
    exact ih (hnodup.erase n) ((List.mem_erase_of_ne (Ne.symm hne)).2 hgoal)
  | case4 unvisited n pending hne hn ih =>
    rw [explore, if_neg hn]
    exact ih hnodup hgoal

theorem leadsTo_iff {start goal : Int} (hgoal : goal ∈ g.nodeIds) : g.leadsTo dir start goal ↔ g.Reaches dir start goal := by
  rw [leadsTo, finds_iff goal _ _ nodup_nodeIds hgoal, ← mem_reachable_iff]
  simp [reachable, hgoal]

end Graph

end Flowgraph
