import Flowgraph.Proofs.Dominance.Frontier
import Flowgraph.Proofs.Reduction.Indices
import Flowgraph.Proofs.Run
import Flowgraph.Reduction.Basic
/-!
# Walks of a reduced graph

The walks of a reduced graph are the walks of the graph between kept nodes, with the consumed nodes left out
(`Reduction.walk_reduced_iff_projection`); so the events come in the same sequences in both. A step of the reduced graph
is a way around consumed nodes (`Graph.ReducesTo`), so a walk of the one unfolds into a walk of the other, step by step,
and a walk between kept nodes folds into steps at the kept nodes it passes.

The reduction never fails on events that are nodes (`Reduction.construct_eq_ok`).
-/

namespace Flowgraph

/-! ## Graphs that are reductions -/

/-- The second graph has the kept nodes of the first, joined where the first has a way around all others. -/
structure Graph.ReducesTo (g h : Graph) (keep : List Int) : Prop where
  nodes : ∀ n, n ∈ h.nodeIds ↔ n ∈ g.nodeIds ∧ n ∈ keep
  succs : ∀ u v, v ∈ h.succs u ↔ u ∈ keep ∧ v ∈ keep ∧ Detour (fun x y => y ∈ g.succs x) (· ∉ keep) u v

/-- A way on which a walk follows is a walk. -/
theorem Detour.walk {g : Graph} {S : Int → Prop} {u v w : Int} {rest : List Int}
    (h : Detour (fun x y => y ∈ g.succs x) S u v) (hrest : g.Walk .forward v rest w) :
    ∃ between, (∀ m ∈ between, S m) ∧ g.Walk .forward u (u :: (between ++ rest)) w := by
  induction h with
  | direct harc => exact ⟨[], by simp, .step harc hrest⟩
  | @via u m v harc hS _ ih =>
    obtain ⟨between, hbetween, hwalk⟩ := ih hrest
    exact ⟨m :: between, by simpa using ⟨hS, hbetween⟩, .step harc hwalk⟩

theorem Graph.mem_nodeIds_of_mem_succs {g : Graph} {u v : Int} (h : v ∈ g.succs u) :
    u ∈ g.nodeIds ∧ v ∈ g.nodeIds := g.mem_nodeIds_of_mem_ahead (show v ∈ g.ahead .forward u from h)

theorem Detour.ends_mem {g : Graph} {S : Int → Prop} {u v : Int}
    (h : Detour (fun x y => y ∈ g.succs x) S u v) : u ∈ g.nodeIds ∧ v ∈ g.nodeIds := by
  induction h with
  | direct harc => exact Graph.mem_nodeIds_of_mem_succs harc
  | via harc _ _ ih => exact ⟨(Graph.mem_nodeIds_of_mem_succs harc).1, ih.2⟩

theorem Detour.mono {g : Graph} {S T : Int → Prop} {u v : Int} (hST : ∀ m ∈ g.nodeIds, S m → T m)
    (h : Detour (fun x y => y ∈ g.succs x) S u v) : Detour (fun x y => y ∈ g.succs x) T u v := by
  induction h with
  | direct harc => exact .direct harc
  | via harc hm _ ih => exact .via harc (hST _ (Graph.mem_nodeIds_of_mem_succs harc).2 hm) ih

namespace Graph.ReducesTo

variable {g h : Graph} {keep : List Int} {u v : Int} {nodes : List Int}

theorem exists_walk (hr : g.ReducesTo h keep) (hwalk : h.Walk .forward u nodes v) :
    ∃ all, g.Walk .forward u all v ∧ nodes = all.filter (· ∈ keep) := by
  induction hwalk with
  | stay hu =>
    obtain ⟨hnode, hkeep⟩ := (hr.nodes _).1 hu
    exact ⟨_, .stay hnode, by simp [hkeep]⟩
  | step hv _ ih =>
    obtain ⟨all, hall, rfl⟩ := ih
    obtain ⟨hu, -, hdetour⟩ := (hr.succs _ _).1 hv
    obtain ⟨between, hbetween, hwalk⟩ := hdetour.walk hall
    have hnone : between.filter (· ∈ keep) = [] := by simpa using hbetween
    refine ⟨_, hwalk, ?_⟩
    rw [List.filter_cons, List.filter_append, hnone, List.nil_append, if_pos (by simpa using hu)]

/-- A walk that ends at a kept node, from its first kept node on. -/
theorem walk_filter (hr : g.ReducesTo h keep) (hwalk : g.Walk .forward u nodes v) (hv : v ∈ keep) :
    (u ∈ keep → h.Walk .forward u (nodes.filter (· ∈ keep)) v) ∧
      (u ∉ keep → ∃ w ∈ keep, Detour (fun x y => y ∈ g.succs x) (· ∉ keep) u w ∧
        h.Walk .forward w (nodes.filter (· ∈ keep)) v) := by
  induction hwalk with
  | @stay u hu =>
    have hfilter : [u].filter (· ∈ keep) = [u] := by simpa using hv
    rw [hfilter]
    exact ⟨fun _ => .stay ((hr.nodes u).2 ⟨hu, hv⟩), fun hnot => absurd hv hnot⟩
  | @step u m v nodes harc hwalk ih =>
    obtain ⟨hkept, hconsumed⟩ := ih hv
    -- the next kept node, with the walk from it
    obtain ⟨w, hw, hdetour, hrest⟩ : ∃ w ∈ keep, Detour (fun x y => y ∈ g.succs x) (· ∉ keep) u w ∧
        h.Walk .forward w (nodes.filter (· ∈ keep)) v := by
      by_cases hm : m ∈ keep
      · exact ⟨m, hm, .direct harc, hkept hm⟩
      · obtain ⟨w, hw, hdetour, hrest⟩ := hconsumed hm
        exact ⟨w, hw, .via harc hm hdetour, hrest⟩
    constructor
    · intro hu
      rw [List.filter_cons, if_pos (by simpa using hu)]
      exact .step ((hr.succs u w).2 ⟨hu, hw, hdetour⟩) hrest
    · intro hu
      rw [List.filter_cons, if_neg (by simpa using hu)]
      exact ⟨w, hw, hdetour, hrest⟩

/-- The walks of a reduction are the walks between kept nodes, less the nodes that are not kept. -/
theorem walk_iff (hr : g.ReducesTo h keep) :
    h.Walk .forward u nodes v ↔
      u ∈ keep ∧ v ∈ keep ∧ ∃ all, g.Walk .forward u all v ∧ nodes = all.filter (· ∈ keep) := by
  constructor
  · intro hwalk
    exact ⟨((hr.nodes u).1 hwalk.start_mem).2, ((hr.nodes v).1 hwalk.end_mem).2, hr.exists_walk hwalk⟩
  · rintro ⟨hu, hv, all, hall, rfl⟩
    exact (hr.walk_filter hall hv).1 hu

theorem reaches_iff (hr : g.ReducesTo h keep) (hu : u ∈ keep) (hv : v ∈ keep) :
    h.Reaches .forward u v ↔ g.Reaches .forward u v := by
  constructor
  · rintro ⟨nodes, hwalk⟩
    obtain ⟨-, -, all, hall, -⟩ := hr.walk_iff.1 hwalk
    exact ⟨all, hall⟩
  · rintro ⟨all, hall⟩
    exact ⟨_, hr.walk_iff.2 ⟨hu, hv, all, hall, rfl⟩⟩

end Graph.ReducesTo

/-! ## The reduction to events -/

/-- What a reduced graph is to the graph it is made from: the entry, the exit and the events that the entry reaches are kept
with all that the frontiers lead to from the events. -/
structure EventGraph.ReductionOf (e : EventGraph) (a : Augmented) (refs : List NodeRef) : Prop where
  reduces : a.graph.ReducesTo e.graph (e.retained.map Node.id)
  consumed : ∀ i, i ∈ e.consumed.map Node.id ↔ i ∈ a.graph.nodeIds ∧ i ∉ e.retained.map Node.id
  retained : ∃ seeds,
    (∀ i, i ∈ seeds ↔ i ∈ refs.map NodeRef.key ∧ a.graph.Reaches .forward a.entry.id i) ∧
    ∀ i, i ∈ e.retained.map Node.id ↔ i ∈ a.graph.nodeIds ∧
      (i = a.entry.id ∨ i = a.exit.id ∨ i ∈ (Dominance.analyse a .backward).closure seeds)

/-- What a reduced graph is made of, given the nodes to keep: these, joined by the edges that are left when the others are
consumed. -/
structure EventGraph.MadeOf (e : EventGraph) (g : Graph) (ids : List Int) : Prop where
  retained : e.retained = g.pick ids
  consumed : e.consumed = g.others ids
  nodes : e.graph.nodes = e.retained
  edges : e.graph.edges = g.edgesWithout (e.consumed.map Node.id)

namespace EventGraph.ReductionOf

variable {e : EventGraph} {a : Augmented} {refs : List NodeRef}

theorem entry_mem (h : e.ReductionOf a refs) : a.entry.id ∈ e.retained.map Node.id := by
  obtain ⟨seeds, -, hretained⟩ := h.retained
  exact (hretained _).2 ⟨a.root_mem .forward, Or.inl rfl⟩

theorem exit_mem (h : e.ReductionOf a refs) : a.exit.id ∈ e.retained.map Node.id := by
  obtain ⟨seeds, -, hretained⟩ := h.retained
  exact (hretained _).2 ⟨a.root_mem .backward, Or.inr (Or.inl rfl)⟩

theorem event_mem (h : e.ReductionOf a refs) {i : Int} (hi : i ∈ refs.map NodeRef.key)
    (hreach : a.graph.Reaches .forward a.entry.id i) : i ∈ e.retained.map Node.id := by
  obtain ⟨seeds, hseeds, hretained⟩ := h.retained
  have hseed : i ∈ seeds := (hseeds i).2 ⟨hi, hreach⟩
  exact (hretained i).2 ⟨hreach.end_mem, Or.inr (Or.inr (Dominance.mem_closure_of_seed _ hseed))⟩

/-- No event is lost on a walk from the entry. -/
theorem filter_events (h : e.ReductionOf a refs) {nodes : List Int} {v : Int}
    (hwalk : a.graph.Walk .forward a.entry.id nodes v) :
    (nodes.filter (· ∈ e.retained.map Node.id)).filter (· ∈ refs.map NodeRef.key) =
      nodes.filter (· ∈ refs.map NodeRef.key) := by
  rw [List.filter_filter]
  refine List.filter_congr fun m hm => ?_
  by_cases hevent : m ∈ refs.map NodeRef.key
  · obtain ⟨part, -, hpart⟩ := hwalk.take hm
    have hkept := h.event_mem hevent ⟨part, hpart⟩
    simp only [hevent, hkept, decide_true, Bool.and_self]
  · simp only [hevent, decide_false, Bool.false_and]

end EventGraph.ReductionOf

namespace Reduction

variable {r : Reduction} {a : Augmented} {refs : List NodeRef} {name : Option String}

theorem ofEvents_eq_ok (h : ofEvents a refs name = .ok r) :
    r.augmented = a ∧ ∀ i, i ∈ r.events.map Node.id ↔ i ∈ refs.map NodeRef.key := by
  rw [ofEvents] at h
  cases hnodes : refs.mapM a.graph.resolve with
  | error fault => rw [hnodes] at h; cases h
  | ok nodes =>
    rw [hnodes] at h
    cases h
    refine ⟨rfl, fun i => ?_⟩
    rw [mem_keys_firstPer_iff, (Graph.mapM_resolve_eq_ok hnodes).1]
    simp

theorem exists_ofEvents (name : Option String) (h : ∀ ref ∈ refs, ref.key ∈ a.graph.nodeIds) :
    ∃ r, ofEvents a refs name = .ok r := by
  obtain ⟨nodes, hnodes⟩ := Graph.exists_mapM_resolve h
  rw [ofEvents, hnodes]
  exact ⟨_, rfl⟩

theorem mem_kept_iff (r : Reduction) (i : Int) :
    i ∈ r.kept.map Node.id ↔
      i ∈ r.events.map Node.id ∧ r.augmented.graph.Reaches .forward r.augmented.entry.id i := by
  simp only [kept, List.mem_map, List.mem_filter, List.contains_iff_mem, Graph.mem_reachable_iff]
  constructor
  · rintro ⟨n, ⟨hn, hreach⟩, rfl⟩
    exact ⟨⟨n, hn, rfl⟩, hreach⟩
  · rintro ⟨⟨n, hn, rfl⟩, hreach⟩
    exact ⟨n, ⟨hn, hreach⟩, rfl⟩

theorem wired_reduced (g : Graph) (ids : List Int) :
    Wired (g.pick ids) (g.edgesWithout ((g.others ids).map Node.id)) where
  nodes_distinct := g.wired.nodes_distinct.sublist (List.filter_sublist.map _)
  edges_distinct := g.ids_edgesWithout _
  closed e he := by
    obtain ⟨hsrc, hdst, hdetour⟩ := (g.joined_edgesWithout_iff _).1 ⟨e, he, rfl, rfl⟩
    obtain ⟨hu, hv⟩ := hdetour.ends_mem
    exact ⟨g.mem_pick_of_not_mem_others hu hsrc, g.mem_pick_of_not_mem_others hv hdst⟩

theorem checkEnds_eq_ok {ids : List Int} {d : Edge} (hsrc : d.src ∈ (r.augmented.graph.pick ids).map Node.id)
    (hdst : d.dst ∈ (r.augmented.graph.pick ids).map Node.id) : r.checkEnds ids d = .ok () := by
  refine forM_eq_ok fun i hi => ?_
  have hkept : i ∈ (r.augmented.graph.pick ids).map Node.id := by
    rcases List.mem_pair.1 hi with rfl | rfl
    · exact hsrc
    · exact hdst
  obtain ⟨hnode, hid⟩ := Graph.mem_pick_iff.1 hkept
  obtain ⟨n, hn⟩ := Graph.exists_resolve_iff.2 (show NodeRef.key (.id i) ∈ r.augmented.graph.nodeIds from hnode)
  obtain rfl : n.id = i := (Graph.resolve_eq_ok_iff.1 hn).2
  rw [hn]
  simp [bind, Except.bind, hid, pure, Except.pure]

/-- The reduced graph is what the elimination leaves. -/
def reduced (r : Reduction) (pdom : Dominance) : EventGraph :=
  let g := r.augmented.graph
  let ids := r.retainedIds pdom
  let h : Graph := ⟨g.pick ids, g.edgesWithout ((g.others ids).map Node.id), wired_reduced g ids⟩
  { graph := h
    entry := r.augmented.entry
    exit := r.augmented.exit
    events := r.kept
    retained := g.pick ids
    consumed := g.others ids
    disconnected := !h.leadsTo .forward r.augmented.entry.id r.augmented.exit.id }

theorem eliminate_consumed (r : Reduction) (pdom : Dominance) :
    r.augmented.graph.eliminate ((r.reduced pdom).consumed.map Node.id) = .ok (r.reduced pdom).graph.edges :=
  r.augmented.graph.eliminate_eq_ok fun _ hi => (Graph.mem_others_iff.1 hi).1

theorem checkEnds_reduced (r : Reduction) (pdom : Dominance) :
    ∀ d ∈ (r.reduced pdom).graph.edges, r.checkEnds (r.retainedIds pdom) d = .ok () := by
  intro d hd
  obtain ⟨hsrc, hdst⟩ := (r.reduced pdom).graph.wired.closed d hd
  exact checkEnds_eq_ok hsrc hdst

/-- The reduction does not fail: what is left passes every check and is a graph. -/
theorem reduce_eq (r : Reduction) (pdom : Dominance) : r.reduce pdom = .ok (r.reduced pdom) := by
  have helimination := r.eliminate_consumed pdom
  have hchecks := forM_eq_ok (r.checkEnds_reduced pdom)
  have hgraph := Graph.ofLists_eq_ok (r.reduced pdom).graph.wired
  simp only [reduced] at helimination hchecks hgraph
  simp only [reduce, bind, Except.bind, helimination, hchecks, hgraph]
  rfl

theorem reduce_eq_ok (r : Reduction) (pdom : Dominance) :
    ∃ e, r.reduce pdom = .ok e ∧ e.events = r.kept ∧
      e.retained = r.augmented.graph.pick (r.retainedIds pdom) ∧
      e.consumed = r.augmented.graph.others (r.retainedIds pdom) ∧
      e.graph.nodes = e.retained ∧
      e.graph.edges = r.augmented.graph.edgesWithout (e.consumed.map Node.id) :=
  ⟨_, r.reduce_eq pdom, rfl, rfl, rfl, rfl, rfl⟩

theorem gives_construct (r : Reduction) :
    Gives r.construct (r.reduce (Dominance.analyse r.augmented .backward)) := by
  have hdominance : Gives (r.augmented.dominance .backward) (.ok (Dominance.analyse r.augmented .backward)) :=
    (Task.gives_reportAll _).then_ok (.pure _)
  refine (Task.gives_reportAll _).then_ok (hdominance.then_ok ?_)
  refine (Task.gives_reportAll _).then_ok ?_
  exact (Task.gives_ofExcept _).recorded fun e => (Task.gives_reportAll (r.finalReports e)).then_ok (.pure e)

/-- The reduction is done, whatever was recorded before, and has its properties. -/
theorem construct_eq_ok (h : ofEvents a refs name = .ok r) :
    ∃ e, (∀ log, (r.construct.run log).1 = .ok e) ∧ e.ReductionOf a refs := by
  obtain ⟨rfl, hevents⟩ := ofEvents_eq_ok h
  obtain ⟨e, he, -, hretained, hconsumed, hnodes, hedges⟩ :=
    r.reduce_eq_ok (Dominance.analyse r.augmented .backward)
  refine ⟨e, fun log => (r.gives_construct log).trans he, ?_⟩
  have hkeep : ∀ i, i ∈ e.retained.map Node.id ↔ i ∈ r.augmented.graph.nodeIds ∧
      i ∈ r.retainedIds (Dominance.analyse r.augmented .backward) := by
    intro i
    rw [hretained, Graph.mem_pick_iff]
  have hlose : ∀ i, i ∈ e.consumed.map Node.id ↔
      i ∈ r.augmented.graph.nodeIds ∧ i ∉ e.retained.map Node.id := by
    intro i
    rw [hconsumed, Graph.mem_others_iff, hkeep]
    exact and_congr_right fun hi => by simp [hi]
  have hkept : ∀ i, i ∈ r.augmented.graph.nodeIds → (i ∉ e.consumed.map Node.id ↔ i ∈ e.retained.map Node.id) := by
    intro i hi
    simp [hlose, hi]
  refine ⟨⟨fun n => ?_, fun u v => ?_⟩, hlose, r.kept.map Node.id, fun i => ?_, fun i => ?_⟩
  · rw [Graph.nodeIds, hnodes, hkeep]
    exact ⟨fun h => ⟨h.1, h⟩, fun h => h.2⟩
  · rw [Graph.mem_succs_iff, hedges, Graph.joined_edgesWithout_iff]
    constructor
    · rintro ⟨hu, hv, hdetour⟩
      obtain ⟨hun, hvn⟩ := hdetour.ends_mem
      exact ⟨(hkept u hun).1 hu, (hkept v hvn).1 hv, hdetour.mono fun m _ hm => ((hlose m).1 hm).2⟩
    · rintro ⟨hu, hv, hdetour⟩
      obtain ⟨hun, hvn⟩ := hdetour.ends_mem
      exact ⟨(hkept u hun).2 hu, (hkept v hvn).2 hv, hdetour.mono fun m hm hnot => (hlose m).2 ⟨hm, hnot⟩⟩
  · rw [mem_kept_iff, hevents]
  · rw [hkeep, retainedIds, List.mem_cons, List.mem_cons]

theorem madeOf_of_construct {e : EventGraph} {log : Array Report} (h : (r.construct.run log).1 = .ok e) :
    e.MadeOf r.augmented.graph (r.retainedIds (Dominance.analyse r.augmented .backward)) := by
  obtain ⟨e', he', -, hretained, hconsumed, hnodes, hedges⟩ :=
    r.reduce_eq_ok (Dominance.analyse r.augmented .backward)
  obtain rfl : e' = e := Except.ok.inj (he'.symm.trans ((r.gives_construct log).symm.trans h))
  exact ⟨hretained, hconsumed, hnodes, hedges⟩

theorem exists_construct (name : Option String) (h : ∀ ref ∈ refs, ref.key ∈ a.graph.nodeIds) :
    ∃ r e, ofEvents a refs name = .ok r ∧ (∀ log, (r.construct.run log).1 = .ok e) ∧ e.ReductionOf a refs ∧
      ∃ ids, e.MadeOf a.graph ids := by
  obtain ⟨r, hr⟩ := exists_ofEvents name h
  obtain ⟨e, he, hred⟩ := construct_eq_ok hr
  have hmade := madeOf_of_construct (he #[])
  rw [(ofEvents_eq_ok hr).1] at hmade
  exact ⟨r, e, hr, he, hred, _, hmade⟩

/-- A sequence of kept nodes is a walk of the reduced graph exactly if it is what is left of a walk between its ends when
the consumed nodes are erased. So the walks from the entry to the exit pass the same events in the same order. -/
theorem walk_reduced_iff_projection (a : Augmented) (refs : List NodeRef) (name : Option String)
    (h : ∀ ref ∈ refs, ref.key ∈ a.graph.nodeIds) :
    ∃ r e, ofEvents a refs name = .ok r ∧ (∀ log, (r.construct.run log).1 = .ok e) ∧
      (∀ u nodes v, e.graph.Walk .forward u nodes v ↔
        u ∈ e.retained.map Node.id ∧ v ∈ e.retained.map Node.id ∧
          ∃ all, a.graph.Walk .forward u all v ∧ nodes = all.filter (· ∈ e.retained.map Node.id)) ∧
      ∀ events,
        (∃ nodes, e.graph.Walk .forward a.entry.id nodes a.exit.id ∧
          events = nodes.filter (· ∈ refs.map NodeRef.key)) ↔
        ∃ nodes, a.graph.Walk .forward a.entry.id nodes a.exit.id ∧
          events = nodes.filter (· ∈ refs.map NodeRef.key) := by
  obtain ⟨r, hr⟩ := exists_ofEvents name h
  obtain ⟨e, he, hred⟩ := construct_eq_ok hr
  refine ⟨r, e, hr, he, fun u nodes v => hred.reduces.walk_iff, fun events => ?_⟩
  constructor
  · rintro ⟨nodes, hwalk, rfl⟩
    obtain ⟨-, -, all, hall, rfl⟩ := hred.reduces.walk_iff.1 hwalk
    exact ⟨all, hall, hred.filter_events hall⟩
  · rintro ⟨all, hall, rfl⟩
    exact ⟨_, hred.reduces.walk_iff.2 ⟨hred.entry_mem, hred.exit_mem, all, hall, rfl⟩, (hred.filter_events hall).symm⟩

theorem walk_reduced_iff_projection_twoEntryLoop :
    (∀ ref ∈ [NodeRef.id 3], ref.key ∈ twoEntryLoop.graph.nodeIds) ∧
    ∃ r e, ofEvents twoEntryLoop [.id 3] none = .ok r ∧ (∀ log, (r.construct.run log).1 = .ok e) ∧
      ∀ u nodes v, e.graph.Walk .forward u nodes v ↔
        u ∈ e.retained.map Node.id ∧ v ∈ e.retained.map Node.id ∧
          ∃ all, twoEntryLoop.graph.Walk .forward u all v ∧
            nodes = all.filter (· ∈ e.retained.map Node.id) := by
  have hrefs : ∀ ref ∈ [NodeRef.id 3], ref.key ∈ twoEntryLoop.graph.nodeIds := by decide
  obtain ⟨r, e, hr, he, hwalk, -⟩ := walk_reduced_iff_projection twoEntryLoop [.id 3] none hrefs
  exact ⟨hrefs, r, e, hr, he, hwalk⟩

end Reduction

end Flowgraph
