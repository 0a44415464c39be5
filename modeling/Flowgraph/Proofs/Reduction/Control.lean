import Flowgraph.Proofs.Reduction.Branching
import Mathlib.Order.Bounds.Basic
/-!
# What a reduction keeps

A node decides whether another is passed if one of its successors leads to the exit by way of the other only, while the
node itself is the other or leads to the exit without it (`Augmented.Decides`). The nodes that decide whether a node is passed
are those in its frontier (`Augmented.mem_frontiers_iff_decides`); nothing decides about the entry, and nothing but the exit
about the exit, so it does no harm that the reduction adds these two without their frontiers.

A reduction keeps the least set that has the entry, the exit, the events that the entry reaches and all nodes that decide
about its members (`Reduction.retained_is_least_control_closed`). The least set depends on which nodes are events and not on
how they are listed, and so does the reduced graph (`EventGraph.MadeOf.unique`).
-/

namespace Flowgraph

namespace Augmented

variable {a : Augmented} {n r s : Int} {refs refs' : List NodeRef} {S : Set Int}

/-- Whether it is decided at a node if another one is passed on the way to the exit. -/
def Decides (a : Augmented) (n r : Int) : Prop :=
  ∃ s ∈ a.graph.succs n, a.graph.Reaches .forward s a.exit.id ∧
    (∀ nodes, a.graph.Walk .forward s nodes a.exit.id → r ∈ nodes) ∧
    (r = n ∨ ∃ nodes, a.graph.Walk .forward n nodes a.exit.id ∧ r ∉ nodes)

/-- A set that has the entry, the exit and the events that the entry reaches, and with a node all those that decide if it is
passed. -/
structure ControlClosed (a : Augmented) (refs : List NodeRef) (S : Set Int) : Prop where
  entry : a.entry.id ∈ S
  exit : a.exit.id ∈ S
  events : ∀ ref ∈ refs, a.graph.Reaches .forward a.entry.id ref.key → ref.key ∈ S
  deciders : ∀ r ∈ S, ∀ n, a.Decides n r → n ∈ S

theorem ControlClosed.mono (h : a.ControlClosed refs' S) (hsub : refs.map NodeRef.key ⊆ refs'.map NodeRef.key) :
    a.ControlClosed refs S where
  entry := h.entry
  exit := h.exit
  events ref href hreach := by
    obtain ⟨ref', href', hkey⟩ := List.mem_map.1 (hsub (List.mem_map_of_mem href))
    rw [← hkey] at hreach ⊢
    exact h.events ref' href' hreach
  deciders := h.deciders

/-! ## Deciding is being in a frontier -/

theorem reaches_backward_iff :
    (Dominance.flowOf a .backward).Reaches s ↔ a.graph.Reaches .forward s a.exit.id :=
  ⟨fun h => h.flip, fun h => h.flip⟩

theorem dominates_backward_iff :
    (Dominance.flowOf a .backward).Dominates r s ↔
      ∀ nodes, a.graph.Walk .forward s nodes a.exit.id → r ∈ nodes := by
  constructor
  · intro h nodes hwalk
    exact List.mem_reverse.1 (h nodes.reverse hwalk.reverse)
  · intro h nodes hwalk
    exact List.mem_reverse.1 (h nodes.reverse hwalk.reverse)

theorem mem_frontiers_iff_decides :
    n ∈ (Dominance.analyse a .backward).frontiers.sets r ↔ a.Decides n r := by
  constructor
  · intro h
    have hr : (Dominance.flowOf a .backward).Reaches r := by
      by_contra hr
      rw [Dominance.frontiers_of_not_reaches hr] at h
      exact List.not_mem_nil h
    obtain ⟨-, ⟨s, hs, hahead, hdom⟩, hnot⟩ := (Dominance.mem_frontiers_iff hr).1 h
    refine ⟨s, Graph.mem_preds_iff_mem_succs.1 hahead, reaches_backward_iff.1 hs, dominates_backward_iff.1 hdom, ?_⟩
    by_cases hrn : r = n
    · exact Or.inl hrn
    · right
      have hmiss : ¬(Dominance.flowOf a .backward).Dominates r n := fun hd => hnot ⟨hd, hrn⟩
      rw [dominates_backward_iff] at hmiss
      simpa only [not_forall, exists_prop] using hmiss
  · rintro ⟨s, hs, hexit, hpass, hmiss⟩
    have hreach := reaches_backward_iff.2 hexit
    have hdom := dominates_backward_iff.2 hpass
    have hahead : n ∈ a.graph.ahead .backward s := Graph.mem_preds_iff_mem_succs.2 hs
    rw [Dominance.mem_frontiers_iff (hdom.reaches hreach)]
    refine ⟨hreach.tail hahead, ⟨s, hreach, hahead, hdom⟩, ?_⟩
    rintro ⟨hd, hne⟩
    rcases hmiss with heq | ⟨nodes, hwalk, hnot⟩
    · exact hne heq
    · exact hnot (dominates_backward_iff.1 hd nodes hwalk)

/-- A node from which all walks to the exit pass the entry is the entry, and that is no successor. -/
theorem not_decides_entry (a : Augmented) (n : Int) : ¬a.Decides n a.entry.id := by
  rintro ⟨s, hs, ⟨nodes, hwalk⟩, hpass, -⟩
  obtain ⟨part, -, hpart⟩ := hwalk.take (hpass nodes hwalk)
  rw [eq_entry_of_walk hpart] at hs
  exact a.root_not_mem_ahead .forward n hs

theorem Decides.eq_exit (h : a.Decides n a.exit.id) : n = a.exit.id := by
  obtain ⟨-, -, -, -, heq | ⟨nodes, hwalk, hnot⟩⟩ := h
  · exact heq.symm
  · exact absurd hwalk.end_mem_nodes hnot

end Augmented

/-! ## The least set -/

namespace EventGraph

variable {a : Augmented} {e e' : EventGraph} {refs : List NodeRef} {S : Set Int}

theorem ReductionOf.controlClosed (h : e.ReductionOf a refs) :
    a.ControlClosed refs {i | i ∈ e.retained.map Node.id} where
  entry := h.entry_mem
  exit := h.exit_mem
  events ref href hreach := h.event_mem (List.mem_map_of_mem href) hreach
  deciders r hr n hn := by
    by_cases hentry : r = a.entry.id
    · exact absurd (hentry ▸ hn) (a.not_decides_entry n)
    by_cases hexit : r = a.exit.id
    · have hn' : n = a.exit.id := Augmented.Decides.eq_exit (hexit ▸ hn)
      rw [hn']
      exact h.exit_mem
    · exact h.frontier_mem hr hentry hexit (Augmented.mem_frontiers_iff_decides.2 hn)

theorem ReductionOf.retained_subset (h : e.ReductionOf a refs) (hS : a.ControlClosed refs S) :
    {i | i ∈ e.retained.map Node.id} ⊆ S := by
  intro i hi
  obtain ⟨seeds, hseeds, hretained⟩ := h.retained
  rcases ((hretained i).1 hi).2 with rfl | rfl | hi
  · exact hS.entry
  · exact hS.exit
  · refine Dominance.closure_induction _ (fun x hx => ?_) (fun x hx y hy => ?_) i hi
    · obtain ⟨hkey, hreach⟩ := (hseeds x).1 hx
      obtain ⟨ref, href, rfl⟩ := List.mem_map.1 hkey
      exact hS.events ref href hreach
    · exact hS.deciders x hx y (Augmented.mem_frontiers_iff_decides.1 hy)

theorem ReductionOf.isLeast (h : e.ReductionOf a refs) :
    IsLeast {S : Set Int | a.ControlClosed refs S} {i | i ∈ e.retained.map Node.id} :=
  ⟨h.controlClosed, fun _ hS => h.retained_subset hS⟩

/-- Reduced graphs that keep the same nodes are the same. -/
theorem MadeOf.unique {g : Graph} {ids ids' : List Int} (h : e.MadeOf g ids) (h' : e'.MadeOf g ids')
    (hsame : ∀ i, i ∈ e'.retained.map Node.id ↔ i ∈ e.retained.map Node.id) :
    e'.retained = e.retained ∧ e'.consumed = e.consumed ∧ e'.graph = e.graph := by
  have hids : ∀ n ∈ g.nodes, ids'.contains n.id = ids.contains n.id := by
    intro n hn
    have hmem := hsame n.id
    rw [h.retained, h'.retained, Graph.mem_pick_iff, Graph.mem_pick_iff] at hmem
    have hnode : n.id ∈ g.nodeIds := List.mem_map_of_mem hn
    rw [Bool.eq_iff_iff, List.contains_iff_mem, List.contains_iff_mem]
    exact ⟨fun hi => (hmem.1 ⟨hnode, hi⟩).2, fun hi => (hmem.2 ⟨hnode, hi⟩).2⟩
  have hretained : e'.retained = e.retained := by
    rw [h.retained, h'.retained]
    exact List.filter_congr hids
  have hconsumed : e'.consumed = e.consumed := by
    rw [h.consumed, h'.consumed]
    refine List.filter_congr fun n hn => ?_
    rw [hids n hn]
  refine ⟨hretained, hconsumed, ?_⟩
  have hnodes : e'.graph.nodes = e.graph.nodes := by rw [h.nodes, h'.nodes, hretained]
  have hedges : e'.graph.edges = e.graph.edges := by rw [h.edges, h'.edges, hconsumed]
  exact Graph.ext hnodes hedges

theorem MadeOf.retained_sublist {g : Graph} {ids ids' : List Int} (h : e.MadeOf g ids) (h' : e'.MadeOf g ids')
    (hsub : ∀ i ∈ e.retained.map Node.id, i ∈ e'.retained.map Node.id) : e.retained.Sublist e'.retained := by
  have hkeep : e.retained = e.retained.filter (ids'.contains ·.id) := by
    rw [eq_comm, List.filter_eq_self]
    intro n hn
    have hmem := hsub n.id (List.mem_map_of_mem hn)
    rw [h'.retained, Graph.mem_pick_iff] at hmem
    exact List.contains_iff_mem.2 hmem.2
  rw [hkeep, h'.retained, h.retained]
  exact List.filter_sublist.filter _

end EventGraph

namespace Reduction

/-- A reduction keeps the least set of nodes that has the entry, the exit and the events that the entry reaches, and with a
node all those that decide if it is passed. References to the same events give the same reduced graph, and more events keep
more nodes. -/
theorem retained_is_least_control_closed (a : Augmented) (refs : List NodeRef) (name : Option String)
    (h : ∀ ref ∈ refs, ref.key ∈ a.graph.nodeIds) :
    ∃ r e, ofEvents a refs name = .ok r ∧ (∀ log, (r.construct.run log).1 = .ok e) ∧
      IsLeast {S : Set Int | a.ControlClosed refs S} {i | i ∈ e.retained.map Node.id} ∧
      (∀ refs' name', (∀ i, i ∈ refs'.map NodeRef.key ↔ i ∈ refs.map NodeRef.key) →
        ∃ r' e', ofEvents a refs' name' = .ok r' ∧ (∀ log, (r'.construct.run log).1 = .ok e') ∧
          e'.retained = e.retained ∧ e'.consumed = e.consumed ∧ e'.graph = e.graph) ∧
      ∀ refs' name', (∀ ref ∈ refs', ref.key ∈ a.graph.nodeIds) →
        refs.map NodeRef.key ⊆ refs'.map NodeRef.key →
        ∃ r' e', ofEvents a refs' name' = .ok r' ∧ (∀ log, (r'.construct.run log).1 = .ok e') ∧
          e.retained.Sublist e'.retained := by
  obtain ⟨r, e, hr, he, hred, ids, hmade⟩ := exists_construct name h
  refine ⟨r, e, hr, he, hred.isLeast, fun refs' name' hsame => ?_, fun refs' name' h' hsub => ?_⟩
  · have h' : ∀ ref ∈ refs', ref.key ∈ a.graph.nodeIds := by
      intro ref href
      obtain ⟨ref₀, href₀, hkey⟩ := List.mem_map.1 ((hsame ref.key).1 (List.mem_map_of_mem href))
      rw [← hkey]
      exact h ref₀ href₀
    obtain ⟨r', e', hr', he', hred', ids', hmade'⟩ := exists_construct name' h'
    refine ⟨r', e', hr', he', hmade.unique hmade' fun i => ⟨fun hi => ?_, fun hi => ?_⟩⟩
    · exact hred'.retained_subset (hred.controlClosed.mono fun j hj => (hsame j).1 hj) hi
    · exact hred.retained_subset (hred'.controlClosed.mono fun j hj => (hsame j).2 hj) hi
  · obtain ⟨r', e', hr', he', hred', ids', hmade'⟩ := exists_construct name' h'
    refine ⟨r', e', hr', he', hmade.retained_sublist hmade' fun i hi => ?_⟩
    exact hred.retained_subset (hred'.controlClosed.mono hsub) hi

theorem retained_is_least_control_closed_twoEntryLoop :
    (∀ ref ∈ [NodeRef.id 1, .id 3], ref.key ∈ twoEntryLoop.graph.nodeIds) ∧
    (∀ i, i ∈ [NodeRef.id 3, .id 1, .id 3].map NodeRef.key ↔ i ∈ [NodeRef.id 1, .id 3].map NodeRef.key) ∧
    (∀ ref ∈ [NodeRef.id 4, .id 3, .id 1], ref.key ∈ twoEntryLoop.graph.nodeIds) ∧
    [NodeRef.id 1, .id 3].map NodeRef.key ⊆ [NodeRef.id 4, .id 3, .id 1].map NodeRef.key ∧
    ∃ r e, ofEvents twoEntryLoop [.id 1, .id 3] none = .ok r ∧ (∀ log, (r.construct.run log).1 = .ok e) ∧
      IsLeast {S : Set Int | twoEntryLoop.ControlClosed [.id 1, .id 3] S} {i | i ∈ e.retained.map Node.id} ∧
      (∃ r' e', ofEvents twoEntryLoop [.id 3, .id 1, .id 3] none = .ok r' ∧
        (∀ log, (r'.construct.run log).1 = .ok e') ∧
        e'.retained = e.retained ∧ e'.consumed = e.consumed ∧ e'.graph = e.graph) ∧
      ∃ r' e', ofEvents twoEntryLoop [.id 4, .id 3, .id 1] none = .ok r' ∧
        (∀ log, (r'.construct.run log).1 = .ok e') ∧ e.retained.Sublist e'.retained := by
  have hrefs : ∀ ref ∈ [NodeRef.id 1, .id 3], ref.key ∈ twoEntryLoop.graph.nodeIds := by decide
  have hsame : ∀ i, i ∈ [NodeRef.id 3, .id 1, .id 3].map NodeRef.key ↔ i ∈ [NodeRef.id 1, .id 3].map NodeRef.key := by
    have hone : [NodeRef.id 3, .id 1, .id 3].map NodeRef.key ⊆ [NodeRef.id 1, .id 3].map NodeRef.key := by decide
    have hother : [NodeRef.id 1, .id 3].map NodeRef.key ⊆ [NodeRef.id 3, .id 1, .id 3].map NodeRef.key := by decide
    exact fun i => ⟨fun hi => hone hi, fun hi => hother hi⟩
  have hmore : ∀ ref ∈ [NodeRef.id 4, .id 3, .id 1], ref.key ∈ twoEntryLoop.graph.nodeIds := by decide
  have hsub : [NodeRef.id 1, .id 3].map NodeRef.key ⊆ [NodeRef.id 4, .id 3, .id 1].map NodeRef.key := by decide
  obtain ⟨r, e, hr, he, hleast, hrepeat, hgrow⟩ :=
    retained_is_least_control_closed twoEntryLoop [.id 1, .id 3] none hrefs
  exact ⟨hrefs, hsame, hmore, hsub, r, e, hr, he, hleast, hrepeat _ none hsame, hgrow _ none hmore hsub⟩

end Reduction

end Flowgraph
