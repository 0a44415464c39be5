import Flowgraph.Proofs.Reduction.Walk
/-!
# How a reduction ends

A reduction to nodes of the graph always ends with a reduced graph. At every moment of the elimination the tables are consistent,
and so what is left passes every check (`Reduction.elimination_stays_consistent`).

Whether the reduced graph is disconnected does not depend on the events. Walks between kept nodes have a counterpart in the
reduced graph, and the entry and the exit are kept; so its entry fails to reach its exit exactly if this is so in the graph, and
in this case, and in no other, the reduction issues a caution (`Reduction.disconnected_iff_exit_unreachable`).
-/

namespace Flowgraph

/-- The caution that a report is, if it is one. -/
def Report.caution? : Report → Option Caution
  | .caution c => some c
  | .record _ => none

namespace Reduction

variable {r : Reduction} {a : Augmented} {refs : List NodeRef} {name : Option String}

/-! ## Consistent tables -/

/-- While nodes are consumed, the tables stay consistent, and no check fails afterwards. The nodes kept and the nodes consumed are
the nodes of the graph, in order. -/
theorem elimination_stays_consistent (a : Augmented) (refs : List NodeRef) (name : Option String)
    (h : ∀ ref ∈ refs, ref.key ∈ a.graph.nodeIds) :
    ∃ r e, ofEvents a refs name = .ok r ∧ (∀ log, (r.construct.run log).1 = .ok e) ∧
      (∀ before, before <+: e.consumed.map Node.id →
        ∃ w, (IndexedEdges.ofGraph a.graph >>= (·.consumeAll before)) = .ok w ∧ w.Consistent a.graph.nodeIds before) ∧
      (∃ edges, a.graph.eliminate (e.consumed.map Node.id) = .ok edges ∧
        (∀ d ∈ edges, r.checkEnds (r.retainedIds (Dominance.analyse a .backward)) d = .ok ()) ∧
        Graph.ofLists e.retained edges = .ok e.graph) ∧
      e.retained = a.graph.nodes.filter ((r.retainedIds (Dominance.analyse a .backward)).contains ·.id) ∧
      e.consumed = a.graph.nodes.filter (!(r.retainedIds (Dominance.analyse a .backward)).contains ·.id) := by
  obtain ⟨r, hr⟩ := exists_ofEvents name h
  obtain ⟨rfl, -⟩ := ofEvents_eq_ok hr
  let pdom := Dominance.analyse r.augmented .backward
  refine ⟨r, r.reduced pdom, hr, fun log => (r.gives_construct log).trans (r.reduce_eq pdom), fun before hbefore => ?_, ?_,
    rfl, rfl⟩
  · have hnodes : ∀ n ∈ before, n ∈ r.augmented.graph.nodeIds :=
      fun n hn => (Graph.mem_others_iff.1 (hbefore.subset hn)).1
    exact IndexedEdges.exists_consistent _ hnodes
  · exact ⟨_, r.eliminate_consumed pdom, r.checkEnds_reduced pdom, Graph.ofLists_eq_ok (r.reduced pdom).graph.wired⟩

theorem elimination_stays_consistent_twoEntryLoop :
    (∀ ref ∈ [NodeRef.id 3], ref.key ∈ twoEntryLoop.graph.nodeIds) ∧
    ∃ r e, ofEvents twoEntryLoop [.id 3] none = .ok r ∧ (∀ log, (r.construct.run log).1 = .ok e) ∧
      ∀ before, before <+: e.consumed.map Node.id →
        ∃ w, (IndexedEdges.ofGraph twoEntryLoop.graph >>= (·.consumeAll before)) = .ok w ∧
          w.Consistent twoEntryLoop.graph.nodeIds before := by
  have hrefs : ∀ ref ∈ [NodeRef.id 3], ref.key ∈ twoEntryLoop.graph.nodeIds := by decide
  obtain ⟨r, e, hr, he, hconsistent, -⟩ := elimination_stays_consistent twoEntryLoop [.id 3] none hrefs
  exact ⟨hrefs, r, e, hr, he, hconsistent⟩

/-! ## Disconnected reduced graphs -/

theorem name_ofEvents (h : ofEvents a refs name = .ok r) : r.name = name.or a.name := by
  obtain ⟨nodes, -, hr⟩ := bind_eq_ok_iff.1 h
  rw [← Except.ok.inj hr]

def reports (r : Reduction) (pdom : Dominance) : List Report :=
  r.dropReports ++ (pdom.reports ++ (r.stuckReports pdom ++ r.finalReports (r.reduced pdom)))

theorem leaves_construct (r : Reduction) :
    r.construct.Leaves (.ok (r.reduced (Dominance.analyse r.augmented .backward)))
      (r.reports (Dominance.analyse r.augmented .backward)) := by
  let pdom := Dominance.analyse r.augmented .backward
  have hdominance : (r.augmented.dominance .backward).Leaves (.ok pdom) (pdom.reports ++ []) :=
    (Task.Leaves.reportAll _).then_ok (.pure pdom)
  have hreduce : (Task.ofExcept (r.reduce pdom)).Leaves (.ok (r.reduced pdom)) [] := by
    rw [r.reduce_eq pdom]
    exact .pure _
  have hreports : r.reports pdom = r.dropReports ++ ((pdom.reports ++ []) ++
      (r.stuckReports pdom ++ ([] ++ (r.finalReports (r.reduced pdom) ++ [])))) := by simp [reports]
  rw [hreports]
  refine (Task.Leaves.reportAll _).then_ok (hdominance.then_ok ?_)
  exact (Task.Leaves.reportAll _).then_ok (hreduce.then_ok ((Task.Leaves.reportAll _).then_ok (.pure _)))

/-- A reduction warns of nothing but a disconnected graph, and of this once. -/
theorem cautions_reports (r : Reduction) (pdom : Dominance) :
    (r.reports pdom).filterMap Report.caution? = if (r.reduced pdom).disconnected then [.disconnected r.name] else [] := by
  have hdrop : r.dropReports.filterMap Report.caution? = [] := by
    simp only [dropReports]
    split <;> rfl
  have hdominance : pdom.reports.filterMap Report.caution? = [] := by
    simp only [Dominance.reports]
    split <;> rfl
  have hstuck : (r.stuckReports pdom).filterMap Report.caution? = [] := by
    simp only [stuckReports]
    split <;> rfl
  have hfinal : (r.finalReports (r.reduced pdom)).filterMap Report.caution? =
      if (r.reduced pdom).disconnected then [.disconnected r.name] else [] := by
    simp only [finalReports]
    split <;> rfl
  simp only [reports, List.filterMap_append, hdrop, hdominance, hstuck, hfinal, List.nil_append]

/-- The reduced graph is disconnected, and the reduction warns of it once, exactly if the exit cannot be reached from the entry. -/
theorem disconnected_iff_exit_unreachable (a : Augmented) (refs : List NodeRef) (name : Option String)
    (h : ∀ ref ∈ refs, ref.key ∈ a.graph.nodeIds) :
    ∃ r e, ∃ written : List Report,
      ofEvents a refs name = .ok r ∧ (∀ log, r.construct.run log = (.ok e, log ++ written)) ∧
      (e.disconnected = true ↔ ¬a.graph.Reaches .forward a.entry.id a.exit.id) ∧
      written.filterMap Report.caution? = if e.disconnected then [.disconnected (name.or a.name)] else [] := by
  obtain ⟨r, hr⟩ := exists_ofEvents name h
  obtain ⟨e, he, hred⟩ := construct_eq_ok hr
  have ha := (ofEvents_eq_ok hr).1
  have hleaves := r.leaves_construct
  rw [ha] at hleaves
  -- both descriptions are of the one result
  obtain rfl : e = r.reduced (Dominance.analyse a .backward) := by
    have hresult := he #[]
    rw [hleaves #[]] at hresult
    exact (Except.ok.inj hresult).symm
  refine ⟨r, _, _, hr, hleaves, ?_, name_ofEvents hr ▸ r.cautions_reports _⟩
  have hexit : a.exit.id ∈ (r.reduced (Dominance.analyse a .backward)).graph.nodeIds :=
    (hred.reduces.nodes _).2 ⟨a.root_mem .backward, hred.exit_mem⟩
  rw [← hred.reduces.reaches_iff hred.entry_mem hred.exit_mem, ← Graph.leadsTo_iff hexit]
  simp [reduced, ha]

/-- A function that never leaves a loop, with an end that control does not reach. -/
def endlessLoop : Augmented where
  base :=
    { nodes := [{ id := 0, name := "start", isRoot := true }, { id := 1, name := "spin" },
        { id := 2, name := "end", isExitPoint := true }]
      edges := [{ id := 0, src := 0, dst := 1 }, { id := 1, src := 1, dst := 1 }]
      wired := ⟨by decide, by decide, by decide⟩ }
  name := some "spin"
  unaugmented := by decide
  rooted := by decide

theorem disconnected_iff_exit_unreachable_endlessLoop :
    (∀ ref ∈ [NodeRef.id 1, .id 2], ref.key ∈ endlessLoop.graph.nodeIds) ∧
    ∃ r e, ∃ written : List Report,
      ofEvents endlessLoop [.id 1, .id 2] none = .ok r ∧ (∀ log, r.construct.run log = (.ok e, log ++ written)) ∧
      (e.disconnected = true ↔ ¬endlessLoop.graph.Reaches .forward endlessLoop.entry.id endlessLoop.exit.id) ∧
      written.filterMap Report.caution? = if e.disconnected then [.disconnected (some "spin")] else [] := by
  have hrefs : ∀ ref ∈ [NodeRef.id 1, .id 2], ref.key ∈ endlessLoop.graph.nodeIds := by decide
  exact ⟨hrefs, disconnected_iff_exit_unreachable endlessLoop [.id 1, .id 2] none hrefs⟩

end Reduction

end Flowgraph
