import Flowgraph.Proofs.Graph.Acyclic
import Flowgraph.Proofs.Graph.BackEdges
import Flowgraph.Proofs.Graph.Lookup
import Flowgraph.Proofs.Run
/-!
# Loop removal

A search from any nodes reports edges that close cycles, and without them there is no cycle (`Graph.cutsCycles_backEdgesFrom`);
it reports none exactly if the graph has no cycle (`Graph.backEdgesFrom_eq_nil_iff`).

Loop removal gives the graph without its flagged edges and without the back edges that a search from the roots then reports
(`Graph.unlooped`). This has no cycle, but loses nothing that the roots lead to (`Graph.reaches_unlooped_iff`), because the
search finds all of it along edges that it does not report.
-/

namespace Flowgraph.Graph

variable {g h : Graph} {n u v : Int}

/-! ## Parts with the same nodes -/

theorem Reaches.mono {dir : Direction} (hnodes : g.nodes = h.nodes) (hedges : g.edges ⊆ h.edges)
    (hreach : g.Reaches dir u v) : h.Reaches dir u v := by
  have hahead : ∀ {x y : Int}, y ∈ g.ahead dir x → y ∈ h.ahead dir x := by
    intro x y hy
    cases dir with
    | forward =>
      obtain ⟨e, he, hends⟩ := mem_succs_iff.1 hy
      exact mem_succs_iff.2 ⟨e, hedges he, hends⟩
    | backward =>
      obtain ⟨e, he, hends⟩ := mem_preds_iff.1 hy
      exact mem_preds_iff.2 ⟨e, hedges he, hends⟩
  have hstart : u ∈ h.nodeIds := by
    rw [nodeIds, ← hnodes]
    exact hreach.start_mem
  exact hreach.closed (.refl hstart) fun x hx y hy => hx.tail (hahead hy)

theorem edges_unflagged (g : Graph) : g.unflagged.edges = g.edges.filter (!·.back) := by
  refine List.filter_congr fun e he => ?_
  have hback : e.id ∈ (g.edges.filter (·.back)).map Edge.id ↔ e.back = true := by
    constructor
    · intro hid
      obtain ⟨f, hf, hfe⟩ := List.mem_map.1 hid
      obtain ⟨hf, hflag⟩ := List.mem_filter.1 hf
      rw [← List.inj_on_of_nodup_map g.wired.edges_distinct hf he hfe]
      exact hflag
    · exact fun hflag => List.mem_map_of_mem (List.mem_filter.2 ⟨he, hflag⟩)
  rw [Bool.eq_iff_iff]
  simp [hback]

theorem unflagged_eq_self (hback : ∀ e ∈ g.edges, e.back = false) : g.unflagged = g := by
  refine ext rfl ?_
  rw [edges_unflagged, List.filter_eq_self]
  exact fun e he => by simp [hback e he]

/-! ## Back edges and cycles -/

theorem reports_backEdgesFrom (g : Graph) (starts : List Int) :
    g.Reports g.nodeIds [] (g.backEdgesFrom starts) := reports_searchBack _ _ _ g.standing_start

theorem onCycle_of_mem_backEdgesFrom {starts : List Int} {e : Edge} (he : e ∈ g.backEdgesFrom starts) :
    g.OnCycle e.src := by
  have hreports := g.reports_backEdgesFrom starts
  exact ⟨e.dst, mem_succs_iff.2 ⟨e, (hreports.waits e he).1, rfl, rfl⟩, hreports.closes e he⟩

/-- A search reports nothing exactly if there is no cycle. -/
theorem backEdgesFrom_eq_nil_iff (starts : List Int) : g.backEdgesFrom starts = [] ↔ ∀ u, ¬g.OnCycle u := by
  constructor
  · intro hnone
    refine not_onCycle ?_
    rw [← g.withoutEdges_nil]
    exact wellFounded_withoutEdges starts (by simp [hnone])
  · intro hacyclic
    rw [List.eq_nil_iff_forall_not_mem]
    exact fun e he => hacyclic e.src (onCycle_of_mem_backEdgesFrom he)

/-- Edges that close cycles, each of them once, and without which there is no cycle. -/
structure CutsCycles (g : Graph) (found : List Edge) : Prop where
  distinct : (found.map Edge.id).Nodup
  closes : ∀ e ∈ found, e ∈ g.edges ∧ g.Reaches .forward e.dst e.src
  acyclic : ∀ u, ¬(g.withoutEdges (found.map Edge.id)).OnCycle u

theorem cutsCycles_backEdgesFrom (g : Graph) (starts : List Int) : g.CutsCycles (g.backEdgesFrom starts) := by
  have hreports := g.reports_backEdgesFrom starts
  have hmem : ∀ e ∈ g.backEdgesFrom starts, e ∈ g.edges := fun e he => (hreports.waits e he).1
  refine ⟨?_, fun e he => ⟨hmem e he, hreports.closes e he⟩, ?_⟩
  · -- edges of the graph differ in their identities
    apply hreports.distinct.map_on
    intro e he f hf hid
    exact List.inj_on_of_nodup_map g.wired.edges_distinct (hmem e he) (hmem f hf) hid
  · apply not_onCycle
    exact wellFounded_withoutEdges starts fun e he => List.mem_map_of_mem he

/-- A search that starts at the roots or at any nodes of the graph finds, each of them once, edges that close cycles, and
without them there is no cycle. So it finds none exactly if there is none. A search that is to start elsewhere is refused. -/
theorem back_edges_cut_all_cycles (g : Graph) :
    g.CutsCycles g.backEdges ∧
    (∀ refs : List NodeRef, (∀ ref ∈ refs, ref.key ∈ g.nodeIds) →
      ∃ found, g.backEdgesOf refs = .ok found ∧ g.CutsCycles found) ∧
    (∀ (refs : List NodeRef) (ref : NodeRef), refs.find? (·.key ∉ g.nodeIds) = some ref →
      g.backEdgesOf refs = .error (.unknownNode .graph ref)) ∧
    (g.isAcyclic = true ↔ ∀ u, ¬g.OnCycle u) := by
  refine ⟨g.cutsCycles_backEdgesFrom _, fun refs hrefs => ?_, fun refs ref href => ?_, ?_⟩
  · obtain ⟨nodes, hnodes⟩ := exists_mapM_resolve hrefs
    refine ⟨g.backEdgesFrom (nodes.map Node.id), ?_, g.cutsCycles_backEdgesFrom _⟩
    rw [backEdgesOf, hnodes]
    rfl
  · rw [backEdgesOf, mapM_resolve_eq_error href]
    rfl
  · rw [isAcyclic, List.isEmpty_iff]
    exact backEdgesFrom_eq_nil_iff _

/-- A cycle that two parallel edges close, and a node that leads to itself. -/
def parallelLoops : Graph where
  nodes := [{ id := 0, name := "head", isRoot := true }, { id := 1, name := "body" }, { id := 2, name := "spin" }]
  edges := [⟨0, 0, 1, .structural, none, false, ∅, []⟩, ⟨1, 1, 0, .structural, none, false, ∅, []⟩,
    ⟨2, 1, 0, .structural, none, false, ∅, []⟩, ⟨3, 2, 2, .structural, none, false, ∅, []⟩]
  wired := ⟨by decide, by decide, by decide⟩

theorem back_edges_cut_all_cycles_parallelLoops :
    ((∀ ref ∈ [NodeRef.id 1, .id 1], ref.key ∈ parallelLoops.nodeIds) ∧
      ∃ found, parallelLoops.backEdgesOf [.id 1, .id 1] = .ok found ∧ parallelLoops.CutsCycles found) ∧
    [NodeRef.id 2, .id 7].find? (·.key ∉ parallelLoops.nodeIds) = some (.id 7) ∧
      parallelLoops.backEdgesOf [.id 2, .id 7] = .error (.unknownNode .graph (.id 7)) := by
  obtain ⟨-, hfound, hrefused, -⟩ := back_edges_cut_all_cycles parallelLoops
  exact ⟨⟨by decide, hfound _ (by decide)⟩, by decide, hrefused _ _ (by decide)⟩

/-- A graph without its back edges. -/
def unlooped (g : Graph) : Graph := g.withoutEdges (g.backEdges.map Edge.id)

theorem nodes_unlooped (g : Graph) : g.unlooped.nodes = g.nodes := rfl

theorem unlooped_sublist (g : Graph) : g.unlooped.edges.Sublist g.edges := List.filter_sublist

theorem not_onCycle_unlooped (g : Graph) (u : Int) : ¬g.unlooped.OnCycle u :=
  not_onCycle (wellFounded_withoutEdges _ fun _ he => List.mem_map_of_mem he) u

theorem unlooped_eq_self (hacyclic : ∀ u, ¬g.OnCycle u) : g.unlooped = g := by
  have hnone : g.backEdges = [] := (backEdgesFrom_eq_nil_iff _).2 hacyclic
  rw [unlooped, hnone]
  exact g.withoutEdges_nil

/-- What the roots lead to, they still lead to without the back edges. -/
theorem reaches_unlooped_iff (g : Graph) (n : Int) :
    (∃ r ∈ g.roots, g.unlooped.Reaches .forward r.id n) ↔ ∃ r ∈ g.roots, g.Reaches .forward r.id n := by
  constructor
  · rintro ⟨r, hr, hreach⟩
    exact ⟨r, hr, hreach.mono g.nodes_unlooped g.unlooped_sublist.subset⟩
  · rintro ⟨r, hr, hreach⟩
    have hroot : ∀ s ∈ g.roots.map Node.id, ∃ r ∈ g.roots, g.unlooped.Reaches .forward r.id s := by
      intro s hs
      obtain ⟨r, hr, rfl⟩ := List.mem_map.1 hs
      exact ⟨r, hr, .refl (List.mem_map_of_mem (List.mem_filter.1 hr).1)⟩
    have hstep : ∀ e ∈ g.edges, e.id ∉ g.backEdges.map Edge.id →
        (∃ r ∈ g.roots, g.unlooped.Reaches .forward r.id e.src) →
        ∃ r ∈ g.roots, g.unlooped.Reaches .forward r.id e.dst := by
      rintro e he hkept ⟨r, hr, hreach⟩
      have hmem : e ∈ g.unlooped.edges := List.mem_filter.2 ⟨he, by simpa using hkept⟩
      exact ⟨r, hr, hreach.tail (mem_succs_iff.2 ⟨e, hmem, rfl, rfl⟩)⟩
    have hkept : ∀ e, g.Waits g.nodeIds [] e → e ∉ g.backEdges → e.id ∉ g.backEdges.map Edge.id := by
      rintro e ⟨he, -⟩ hnot hid
      obtain ⟨f, hf, hfe⟩ := List.mem_map.1 hid
      have hfg := ((g.reports_backEdgesFrom _).waits f hf).1
      exact hnot (List.inj_on_of_nodup_map g.wired.edges_distinct hfg he hfe ▸ hf)
    -- the roots are the first starts of the search
    exact found_along_unreported g.nodeIds [] (g.roots.map Node.id) _ hstep hroot g.standing_start
      ⟨fun m hm hnot => absurd hm hnot, fun e he hsrc _ => absurd (g.wired.closed e he).1 hsrc⟩ hkept
      r.id (Or.inr (List.mem_map_of_mem hr)) n hreach

/-! ## Loop removal -/

theorem loopFree_of_acyclic (repair : Bool) (hacyclic : ∀ u, ¬g.unflagged.OnCycle u) :
    g.loopFree repair = .ok g.unflagged := by
  have hnone : g.unflagged.backEdges = [] := (backEdgesFrom_eq_nil_iff _).2 hacyclic
  simp [loopFree, hnone]

theorem loopFree_of_onCycle (repair : Bool) (hcycle : g.unflagged.OnCycle u) :
    g.loopFree repair =
      if repair then .ok g.unflagged.unlooped else .error (.unflaggedCycles g.unflagged.backEdges.length) := by
  have hsome : g.unflagged.backEdges ≠ [] := fun hnone => (backEdgesFrom_eq_nil_iff _).1 hnone u hcycle
  simp [loopFree, hsome, unlooped]

theorem loopFree_true (g : Graph) : g.loopFree true = .ok g.unflagged.unlooped := by
  by_cases hacyclic : ∀ u, ¬g.unflagged.OnCycle u
  · rw [loopFree_of_acyclic true hacyclic, unlooped_eq_self hacyclic]
  · obtain ⟨u, hcycle⟩ : ∃ u, g.unflagged.OnCycle u := by simpa using hacyclic
    rw [loopFree_of_onCycle true hcycle, if_pos rfl]

/-- Loop removal leaves the edges that are not flagged, in order, less some that close cycles. What it gives has no cycle and
would not be changed by it again; it is all that is left without the flagged edges exactly if that has no cycle; and the
roots lead to the same nodes in both. If cycles may not be broken, it is at fault exactly if there is one. -/
theorem loops_are_removed_without_loss (g : Graph) :
    g.unflagged.nodes = g.nodes ∧ g.unflagged.edges = g.edges.filter (!·.back) ∧
    ∃ d, (∀ log, ((g.removeLoops true).run log).1 = .ok d) ∧
      d.nodes = g.nodes ∧ d.edges.Sublist g.unflagged.edges ∧ (∀ u, ¬d.OnCycle u) ∧
      (d = g.unflagged ↔ ∀ u, ¬g.unflagged.OnCycle u) ∧
      (∀ repair log, ((d.removeLoops repair).run log).1 = .ok d) ∧
      (∀ n, (∃ r ∈ g.roots, d.Reaches .forward r.id n) ↔ ∃ r ∈ g.roots, g.unflagged.Reaches .forward r.id n) ∧
      ∀ log,
        ((∃ count, ((g.removeLoops false).run log).1 = .error (.unflaggedCycles count)) ↔
          ∃ u, g.unflagged.OnCycle u) ∧
        (((g.removeLoops false).run log).1 = .ok g.unflagged ↔ ∀ u, ¬g.unflagged.OnCycle u) := by
  refine ⟨rfl, g.edges_unflagged, g.unflagged.unlooped, fun log => ?_, rfl, g.unflagged.unlooped_sublist,
    g.unflagged.not_onCycle_unlooped, ⟨fun heq => ?_, unlooped_eq_self⟩, fun repair log => ?_,
    g.unflagged.reaches_unlooped_iff, fun log => ?_⟩
  · rw [g.gives_removeLoops true log, loopFree_true]
  · rw [← heq]
    exact g.unflagged.not_onCycle_unlooped
  · have hback : g.unflagged.unlooped.unflagged = g.unflagged.unlooped := by
      refine unflagged_eq_self fun e he => ?_
      have hmem := g.unflagged.unlooped_sublist.subset he
      rw [edges_unflagged, List.mem_filter] at hmem
      simpa using hmem.2
    rw [gives_removeLoops _ repair log, loopFree_of_acyclic repair, hback]
    rw [hback]
    exact g.unflagged.not_onCycle_unlooped
  · rw [g.gives_removeLoops false log]
    by_cases hacyclic : ∀ u, ¬g.unflagged.OnCycle u
    · rw [loopFree_of_acyclic false hacyclic]
      simpa using hacyclic
    · obtain ⟨u, hcycle⟩ : ∃ u, g.unflagged.OnCycle u := by simpa using hacyclic
      rw [loopFree_of_onCycle false hcycle]
      simpa using ⟨u, hcycle⟩

end Flowgraph.Graph
