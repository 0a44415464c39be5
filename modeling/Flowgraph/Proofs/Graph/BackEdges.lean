import Flowgraph.Graph.Loop
import Flowgraph.Proofs.Graph.Search
import Mathlib.Data.List.Chain
import Mathlib.Data.List.Nodup
/-!
# What the search for back edges reports

The search stands on a path of visited nodes, each of which leads to the next (`Graph.Standing`). An edge waits until the
search has visited its source and followed it (`Graph.Waits`); this happens once.

* Only waiting edges are reported, and none twice. An edge that is reported leads to a node of the path, and so closes a cycle
  (`Graph.reports_searchBack`).
* The edges by which the search enters nodes are not reported. So whatever the first starts lead to is found along edges
  that are not reported (`Graph.found_along_unreported`).
-/

namespace Flowgraph.Graph

variable {g : Graph} {unvisited starts : List Int} {path : Path} {n s : Int} {e f : Edge} {edges : List Edge}

/-! ## The path -/

theorem any_path_iff {m : Int} : path.any (·.1 == m) ↔ m ∈ path.map Prod.fst := by
  simp [List.any_eq_true]

/-- The nodes on the path are visited, and each of them leads to the one that comes after it. What they have still to follow
is the rest of the edges that leave them. -/
structure Standing (g : Graph) (unvisited : List Int) (path : Path) : Prop where
  known : ∀ m ∈ unvisited, m ∈ g.nodeIds
  distinct : unvisited.Nodup
  nodes_distinct : (path.map Prod.fst).Nodup
  visited : ∀ p ∈ path, p.1 ∈ g.nodeIds ∧ p.1 ∉ unvisited
  leads : (path.map Prod.fst).IsChain fun next m => next ∈ g.succs m
  rest : ∀ p ∈ path, p.2 <:+ g.outEdges p.1

theorem Standing.visited_of_any {m : Int} (h : g.Standing unvisited path) (hon : path.any (·.1 == m)) : m ∉ unvisited := by
  obtain ⟨p, hp, rfl⟩ := List.mem_map.1 (any_path_iff.1 hon)
  exact (h.visited p hp).2

theorem standing_start (g : Graph) : g.Standing g.nodeIds [] :=
  ⟨fun _ h => h, nodup_nodeIds, by simp, by simp, by simp, by simp⟩

theorem Standing.enter (h : g.Standing unvisited path) (hs : s ∈ unvisited)
    (hlast : ∀ m ∈ (path.map Prod.fst).head?, s ∈ g.succs m) :
    g.Standing (unvisited.erase s) ((s, g.outEdges s) :: path) where
  known m hm := h.known m (List.mem_of_mem_erase hm)
  distinct := h.distinct.erase s
  nodes_distinct := by
    rw [List.map_cons, List.nodup_cons]
    refine ⟨fun hmem => ?_, h.nodes_distinct⟩
    obtain ⟨p, hp, hps⟩ := List.mem_map.1 hmem
    exact (h.visited p hp).2 (hps ▸ hs)
  visited := by
    rw [List.forall_mem_cons]
    refine ⟨⟨h.known s hs, h.distinct.not_mem_erase⟩, fun p hp => ?_⟩
    exact ⟨(h.visited p hp).1, fun hmem => (h.visited p hp).2 (List.mem_of_mem_erase hmem)⟩
  leads := by
    rw [List.map_cons, List.isChain_cons]
    exact ⟨hlast, h.leads⟩
  rest := List.forall_mem_cons.2 ⟨List.suffix_refl _, h.rest⟩

theorem Standing.leave (h : g.Standing unvisited ((n, edges) :: path)) : g.Standing unvisited path where
  known := h.known
  distinct := h.distinct
  nodes_distinct := (List.nodup_cons.1 h.nodes_distinct).2
  visited := (List.forall_mem_cons.1 h.visited).2
  leads := (List.isChain_cons.1 h.leads).2
  rest := (List.forall_mem_cons.1 h.rest).2

theorem Standing.follow (h : g.Standing unvisited ((n, e :: edges) :: path)) :
    g.Standing unvisited ((n, edges) :: path) where
  known := h.known
  distinct := h.distinct
  nodes_distinct := h.nodes_distinct
  visited := List.forall_mem_cons.2 (List.forall_mem_cons.1 h.visited)
  leads := h.leads
  rest := by
    obtain ⟨hfirst, hrest⟩ := List.forall_mem_cons.1 h.rest
    exact List.forall_mem_cons.2 ⟨(List.suffix_cons e edges).trans hfirst, hrest⟩

theorem Standing.edge_mem (h : g.Standing unvisited ((n, e :: edges) :: path)) : e ∈ g.edges ∧ e.src = n := by
  have hmem : e ∈ g.outEdges n := (h.rest (n, e :: edges) (by simp)).subset (by simp)
  simpa [outEdges] using hmem

theorem Standing.leads_to (h : g.Standing unvisited ((n, e :: edges) :: path)) :
    ∀ m ∈ (((n, edges) :: path).map Prod.fst).head?, e.dst ∈ g.succs m := by
  obtain ⟨hmem, hsrc⟩ := h.edge_mem
  intro m hm
  obtain rfl : n = m := by simpa using hm
  exact mem_succs_iff.2 ⟨e, hmem, hsrc, rfl⟩

/-- Every node of the path leads to the last one. -/
theorem Standing.reaches_last {m : Int} (h : g.Standing unvisited ((n, edges) :: path))
    (hm : m ∈ ((n, edges) :: path).map Prod.fst) : g.Reaches .forward m n := by
  induction path generalizing n edges with
  | nil =>
    obtain rfl : m = n := by simpa using hm
    exact .refl (h.visited (m, edges) (by simp)).1
  | cons p path ih =>
    rcases List.mem_cons.1 hm with rfl | hm
    · exact .refl (h.visited (_, edges) (by simp)).1
    · have hstep : n ∈ g.succs p.1 := (List.isChain_cons.1 h.leads).1 p.1 (by simp)
      exact (ih h.leave hm).tail hstep

/-! ## Edges that wait -/

/-- An edge waits if its source is not visited, or on the path with the edge still to be followed. -/
def Waits (g : Graph) (unvisited : List Int) (path : Path) (e : Edge) : Prop :=
  e ∈ g.edges ∧ (e.src ∈ unvisited ∨ ∃ p ∈ path, e ∈ p.2)

theorem Waits.of_enter (hs : s ∈ unvisited)
    (h : g.Waits (unvisited.erase s) ((s, g.outEdges s) :: path) e) : g.Waits unvisited path e := by
  refine ⟨h.1, ?_⟩
  rcases h.2 with hsrc | ⟨p, hp, he⟩
  · exact Or.inl (List.mem_of_mem_erase hsrc)
  · rcases List.mem_cons.1 hp with rfl | hp
    · have hsrc : e.src = s := by simpa using (List.mem_filter.1 he).2
      exact Or.inl (hsrc ▸ hs)
    · exact Or.inr ⟨p, hp, he⟩

theorem Waits.of_leave (h : g.Waits unvisited path e) : g.Waits unvisited ((n, edges) :: path) e := by
  refine ⟨h.1, h.2.imp_right ?_⟩
  rintro ⟨p, hp, he⟩
  exact ⟨p, List.mem_cons_of_mem _ hp, he⟩

theorem Waits.of_follow (h : g.Waits unvisited ((n, edges) :: path) e) :
    g.Waits unvisited ((n, f :: edges) :: path) e := by
  refine ⟨h.1, h.2.imp_right ?_⟩
  rintro ⟨p, hp, he⟩
  rcases List.mem_cons.1 hp with rfl | hp
  · exact ⟨_, List.mem_cons_self, List.mem_cons_of_mem f he⟩
  · exact ⟨p, List.mem_cons_of_mem _ hp, he⟩

/-- An edge that has been followed waits no more. -/
theorem Standing.not_waits (h : g.Standing unvisited ((n, e :: edges) :: path)) :
    ¬g.Waits unvisited ((n, edges) :: path) e := by
  obtain ⟨-, hsrc⟩ := h.edge_mem
  rintro ⟨-, hmem | ⟨p, hp, he⟩⟩
  · exact (h.visited _ List.mem_cons_self).2 (hsrc ▸ hmem)
  · rcases List.mem_cons.1 hp with rfl | hp
    · have hedges : g.edges.Nodup := .of_map _ g.wired.edges_distinct
      have hnodup : (e :: edges).Nodup :=
        (hedges.filter _).sublist (h.rest _ List.mem_cons_self).sublist
      exact (List.nodup_cons.1 hnodup).1 he
    · -- the node of another entry is another one
      have hmem : e ∈ g.outEdges p.1 := (h.leave.rest p hp).subset he
      have hpsrc : e.src = p.1 := by simpa using (List.mem_filter.1 hmem).2
      have hnode : n ∈ path.map Prod.fst := List.mem_map.2 ⟨p, hp, hpsrc.symm.trans hsrc⟩
      exact (List.nodup_cons.1 h.nodes_distinct).1 hnode

/-! ## Reports -/

/-- What is reported from some point on: edges that wait there, each of them once, which lead to where they can be reached
from. -/
structure Reports (g : Graph) (unvisited : List Int) (path : Path) (reported : List Edge) : Prop where
  waits : ∀ e ∈ reported, g.Waits unvisited path e
  closes : ∀ e ∈ reported, g.Reaches .forward e.dst e.src
  distinct : reported.Nodup

theorem Reports.of_waits {unvisited' : List Int} {path' : Path} {reported : List Edge}
    (h : g.Reports unvisited path reported) (hwaits : ∀ e, g.Waits unvisited path e → g.Waits unvisited' path' e) :
    g.Reports unvisited' path' reported :=
  ⟨fun e he => hwaits e (h.waits e he), h.closes, h.distinct⟩

theorem Reports.cons {reported : List Edge} (h : g.Reports unvisited ((n, edges) :: path) reported)
    (hpath : g.Standing unvisited ((n, e :: edges) :: path)) (hon : e.dst ∈ ((n, edges) :: path).map Prod.fst) :
    g.Reports unvisited ((n, e :: edges) :: path) (e :: reported) where
  waits := by
    rw [List.forall_mem_cons]
    exact ⟨⟨hpath.edge_mem.1, Or.inr ⟨_, List.mem_cons_self, List.mem_cons_self⟩⟩, fun f hf => (h.waits f hf).of_follow⟩
  closes := by
    rw [List.forall_mem_cons, hpath.edge_mem.2]
    exact ⟨hpath.follow.reaches_last hon, h.closes⟩
  distinct := List.nodup_cons.2 ⟨fun he => hpath.not_waits (h.waits e he), h.distinct⟩

theorem reports_searchBack (unvisited : List Int) (path : Path) (starts : List Int) (h : g.Standing unvisited path) :
    g.Reports unvisited path (g.searchBack unvisited path starts) := by
  fun_induction searchBack g unvisited path starts with
  | case1 => exact ⟨by simp, by simp, List.nodup_nil⟩
  | case2 unvisited s starts hs ih => exact (ih (h.enter hs (by simp))).of_waits fun e he => he.of_enter hs
  | case3 unvisited s starts hs ih => exact ih h
  | case4 unvisited starts n path ih => exact (ih h.leave).of_waits fun e he => he.of_leave
  | case5 unvisited starts n f edges path rest hon ih =>
    exact (ih h.follow).cons h (any_path_iff.1 hon)
  | case6 unvisited starts n f edges path rest hon hf ih =>
    exact (ih (h.follow.enter hf h.leads_to)).of_waits fun e he => (he.of_enter hf).of_follow
  | case7 unvisited starts n f edges path rest hon hf ih => exact (ih h.follow).of_waits fun e he => he.of_follow

/-! ## What is found along other edges -/

variable {P : Int → Prop} {kept : Edge → Prop}

/-- What the search has visited has a property, and the edges from there to other nodes are still to be followed. -/
structure Discovers (g : Graph) (P : Int → Prop) (unvisited : List Int) (path : Path) : Prop where
  found : ∀ m ∈ g.nodeIds, m ∉ unvisited → P m
  waits : ∀ e ∈ g.edges, e.src ∉ unvisited → e.dst ∈ unvisited → ∃ p ∈ path, e ∈ p.2

/-- Following an edge leaves those to other nodes. -/
theorem Discovers.follow (h : g.Discovers P unvisited ((n, f :: edges) :: path)) :
    ∀ e ∈ g.edges, e.src ∉ unvisited → e.dst ∈ unvisited → e.dst ≠ f.dst → ∃ p ∈ (n, edges) :: path, e ∈ p.2 := by
  intro e he hsrc hdst hne
  obtain ⟨p, hp, hmem⟩ := h.waits e he hsrc hdst
  rcases List.mem_cons.1 hp with rfl | hp
  · have hef : e ≠ f := fun heq => hne (heq ▸ rfl)
    exact ⟨_, List.mem_cons_self, (List.mem_cons.1 hmem).resolve_left hef⟩
  · exact ⟨p, List.mem_cons_of_mem _ hp, hmem⟩

theorem Discovers.followed (h : g.Discovers P unvisited ((n, f :: edges) :: path)) (hf : f.dst ∉ unvisited) :
    g.Discovers P unvisited ((n, edges) :: path) :=
  ⟨h.found, fun e he hsrc hdst => h.follow e he hsrc hdst fun heq => hf (heq ▸ hdst)⟩

theorem Discovers.enter (hfound : ∀ m ∈ g.nodeIds, m ∉ unvisited → P m) (hs : P s) (hdistinct : unvisited.Nodup)
    (hwaits : ∀ e ∈ g.edges, e.src ∉ unvisited → e.dst ∈ unvisited → e.dst ≠ s → ∃ p ∈ path, e ∈ p.2) :
    g.Discovers P (unvisited.erase s) ((s, g.outEdges s) :: path) where
  found m hm hvisited := by
    by_cases hms : m = s
    · exact hms ▸ hs
    · exact hfound m hm fun h => hvisited ((List.mem_erase_of_ne hms).2 h)
  waits e he hsrc hdst := by
    obtain ⟨hne, hdst⟩ := hdistinct.mem_erase_iff.1 hdst
    by_cases hes : e.src = s
    · exact ⟨_, List.mem_cons_self, List.mem_filter.2 ⟨he, by simpa using hes⟩⟩
    · have hvisited : e.src ∉ unvisited := fun h => hsrc ((List.mem_erase_of_ne hes).2 h)
      obtain ⟨p, hp, hmem⟩ := hwaits e he hvisited hdst hne
      exact ⟨p, List.mem_cons_of_mem _ hp, hmem⟩

/-- Once the path is empty, all that the visited nodes lead to is visited. -/
theorem Discovers.of_reaches (h : g.Discovers P unvisited []) {m : Int} (hm : m ∉ unvisited)
    (hreach : g.Reaches .forward m n) : P n := by
  have hn : n ∉ unvisited := by
    refine hreach.closed (P := (· ∉ unvisited)) hm fun x hx y hy hmem => ?_
    obtain ⟨e, he, rfl, rfl⟩ := mem_succs_iff.1 hy
    obtain ⟨p, hp, -⟩ := h.waits e he hx hmem
    cases hp
  exact h.found n hreach.end_mem hn

/-- What the first starts lead to is found along edges that are not reported. -/
theorem found_along_unreported (unvisited : List Int) (path : Path) (first others : List Int)
    (hstep : ∀ e ∈ g.edges, kept e → P e.src → P e.dst) (hfirst : ∀ s ∈ first, P s)
    (hpath : g.Standing unvisited path) (h : g.Discovers P unvisited path)
    (hkept : ∀ e, g.Waits unvisited path e → e ∉ g.searchBack unvisited path (first ++ others) → kept e) :
    ∀ m, m ∉ unvisited ∨ m ∈ first → ∀ n, g.Reaches .forward m n → P n := by
  generalize hstarts : first ++ others = starts at hkept
  fun_induction searchBack g unvisited path starts generalizing first with
  | case1 unvisited =>
    obtain rfl : first = [] := (List.append_eq_nil_iff.1 hstarts).1
    exact fun m hm n hreach => h.of_reaches (by simpa using hm) hreach
  | case2 unvisited s starts hs ih =>
    cases first with
    | nil => exact fun m hm n hreach => h.of_reaches (by simpa using hm) hreach
    | cons s' first =>
      obtain ⟨rfl, hrest⟩ := List.cons.inj hstarts
      obtain ⟨hs', hfirst⟩ := List.forall_mem_cons.1 hfirst
      have hnext := ih first hfirst (hpath.enter hs (by simp))
        (.enter h.found hs' hpath.distinct fun e he hsrc hdst _ => h.waits e he hsrc hdst) hrest
        fun e he => hkept e (he.of_enter hs)
      intro m hm n hreach
      refine hnext m ?_ n hreach
      rcases hm with hm | hm
      · exact Or.inl fun hmem => hm (List.mem_of_mem_erase hmem)
      · rcases List.mem_cons.1 hm with rfl | hm
        · exact Or.inl hpath.distinct.not_mem_erase
        · exact Or.inr hm
  | case3 unvisited s starts hs ih =>
    cases first with
    | nil => exact fun m hm n hreach => h.of_reaches (by simpa using hm) hreach
    | cons s' first =>
      obtain ⟨rfl, hrest⟩ := List.cons.inj hstarts
      have hnext := ih first (List.forall_mem_cons.1 hfirst).2 hpath h hrest hkept
      intro m hm n hreach
      refine hnext m ?_ n hreach
      rcases hm with hm | hm
      · exact Or.inl hm
      · rcases List.mem_cons.1 hm with rfl | hm
        · exact Or.inl hs
        · exact Or.inr hm
  | case4 unvisited starts n path ih =>
    refine ih first hfirst hpath.leave ⟨h.found, fun e he hsrc hdst => ?_⟩ hstarts fun e he => hkept e he.of_leave
    obtain ⟨p, hp, hmem⟩ := h.waits e he hsrc hdst
    rcases List.mem_cons.1 hp with rfl | hp
    · cases hmem
    · exact ⟨p, hp, hmem⟩
  | case5 unvisited starts n f edges path rest hon ih =>
    refine ih first hfirst hpath.follow (h.followed (hpath.follow.visited_of_any hon)) hstarts fun e he hnot => hkept e he.of_follow ?_
    have hef : e ≠ f := fun heq => hpath.not_waits (heq ▸ he)
    exact List.not_mem_cons_of_ne_of_not_mem hef hnot
  | case6 unvisited starts n f edges path rest hon hf ih =>
    -- the search enters the edge's end, and from then on the edge does not wait
    have hnot : f ∉ g.searchBack (unvisited.erase f.dst) ((f.dst, g.outEdges f.dst) :: rest) starts := by
      intro hmem
      have hwaits := (reports_searchBack _ _ starts (hpath.follow.enter hf hpath.leads_to)).waits f hmem
      exact hpath.not_waits (hwaits.of_enter hf)
    obtain ⟨hmem, hsrc⟩ := hpath.edge_mem
    have hn : P n := h.found n (hpath.visited _ List.mem_cons_self).1 (hpath.visited _ List.mem_cons_self).2
    have hfkept : kept f := hkept f ⟨hmem, Or.inr ⟨_, List.mem_cons_self, List.mem_cons_self⟩⟩ hnot
    have hnext := ih first hfirst (hpath.follow.enter hf hpath.leads_to)
      (.enter h.found (hstep f hmem hfkept (hsrc ▸ hn)) hpath.distinct h.follow) hstarts
      fun e he => hkept e (he.of_enter hf).of_follow
    exact fun m hm => hnext m (hm.imp_left fun hm hmem => hm (List.mem_of_mem_erase hmem))
  | case7 unvisited starts n f edges path rest hon hf ih =>
    exact ih first hfirst hpath.follow (h.followed hf) hstarts fun e he => hkept e he.of_follow

end Flowgraph.Graph
