import Flowgraph.Dominance.Basic
import Flowgraph.Proofs.Dominance.Fixpoint
import Flowgraph.Proofs.Graph.Lookup
/-!
# What a dominance analysis answers

The analysis of an augmented graph in either direction answers for the nodes that walks reach from its root, and for no
others (`Dominance.mem_analysed_order_iff`); these are also the nodes that the graph's own search finds
(`Dominance.reachableFrom_eq_ok`). The dominators that it gives for such a node are the nodes on every walk to it
(`Dominance.dominators_are_on_every_walk`).
-/

namespace Flowgraph

theorem Augmented.root_mem (a : Augmented) (dir : Direction) : (a.root dir).id ∈ a.graph.nodeIds := by
  cases dir
  · simp [Augmented.root, Augmented.graph, Graph.nodeIds]
  · simp [Augmented.root, Augmented.graph, Graph.nodeIds]

namespace Dominance

variable {a : Augmented} {dir : Direction} {ref : NodeRef}

def flowOf (a : Augmented) (dir : Direction) : Flow := ⟨a.graph, dir, (a.root dir).id⟩

theorem flowOf_root_mem (a : Augmented) (dir : Direction) :
    (flowOf a dir).root ∈ (flowOf a dir).graph.nodeIds := a.root_mem dir

theorem mem_analysed_order_iff (a : Augmented) (dir : Direction) (n : Int) :
    n ∈ (analyse a dir).order ↔ a.graph.Reaches dir (a.root dir).id n :=
  Flow.mem_order_iff (flowOf_root_mem a dir)

theorem dominators_of_resolve {d : Dominance} {n : Node} (h : d.flow.graph.resolve ref = .ok n) :
    d.dominators ref = if n.id ∈ d.order then .ok (d.table.sets n.id)
      else .error (.unreachable n.name d.rootName d.flow.direction) := by
  simp only [dominators, check, h, bind, Except.bind, List.contains_iff_mem]
  split
  · rename_i hcheck
    split at hcheck
    · cases hcheck
    · rename_i hn
      rw [if_neg hn]
      exact congrArg Except.error (Except.error.inj hcheck).symm
  · rename_i hcheck
    split at hcheck
    · rename_i hn
      cases hcheck
      rw [if_pos hn]
      rfl
    · cases hcheck

theorem dominators_of_not_resolve {d : Dominance} (h : ref.key ∉ d.flow.graph.nodeIds) :
    d.dominators ref = .error (.unknownNode .graph ref) := by
  have hnone : d.flow.graph.resolve ref = .error (.unknownNode .graph ref) := Graph.resolve_of_not_mem h
  simp only [dominators, check, hnone, bind, Except.bind]

/-- An analysis gives for each node that walks from its root reach the nodes on every such walk, and refuses exactly the
nodes of the graph that no walk reaches. -/
theorem dominators_are_on_every_walk (a : Augmented) (dir : Direction) (ref : NodeRef) :
    (a.graph.Reaches dir (a.root dir).id ref.key →
      ∃ above, (analyse a dir).dominators ref = .ok above ∧
        ∀ x, x ∈ above ↔ ∀ nodes, a.graph.Walk dir (a.root dir).id nodes ref.key → x ∈ nodes) ∧
    ((∃ node root way, (analyse a dir).dominators ref = .error (.unreachable node root way)) ↔
      ref.key ∈ a.graph.nodeIds ∧ ¬a.graph.Reaches dir (a.root dir).id ref.key) := by
  by_cases hmem : ref.key ∈ a.graph.nodeIds
  · obtain ⟨n, hn⟩ := Graph.exists_resolve_iff.2 hmem
    have hid : n.id = ref.key := (Graph.resolve_eq_ok_iff.1 hn).2
    have horder := mem_analysed_order_iff a dir ref.key
    rw [dominators_of_resolve (d := analyse a dir) hn, hid]
    by_cases hreach : a.graph.Reaches dir (a.root dir).id ref.key
    · rw [if_pos (horder.2 hreach)]
      refine ⟨fun _ => ⟨_, rfl, fun x => Flow.mem_dominators_iff (flowOf_root_mem a dir) hreach⟩, ?_⟩
      simp [hreach]
    · rw [if_neg (mt horder.1 hreach)]
      exact ⟨fun h => absurd h hreach, fun _ => ⟨hmem, hreach⟩, fun _ => ⟨_, _, _, rfl⟩⟩
  · have hnot : ¬a.graph.Reaches dir (a.root dir).id ref.key := fun h => hmem h.end_mem
    refine ⟨fun h => absurd h hnot, ?_⟩
    rw [dominators_of_not_resolve (d := analyse a dir) hmem]
    simp [hmem]

theorem dominators_are_on_every_walk_twoEntryLoop :
    twoEntryLoop.graph.Reaches .forward (twoEntryLoop.root .forward).id 3 ∧
    ∃ above, (analyse twoEntryLoop .forward).dominators (.id 3) = .ok above ∧
      ∀ x, x ∈ above ↔ ∀ nodes, twoEntryLoop.graph.Walk .forward (twoEntryLoop.root .forward).id nodes 3 → x ∈ nodes := by
  have hreach : twoEntryLoop.graph.Reaches .forward (twoEntryLoop.root .forward).id 3 :=
    ⟨[5, 0, 2, 3], .step (by decide) (.step (by decide) (.step (by decide) (.stay (by decide))))⟩
  exact ⟨hreach, (dominators_are_on_every_walk twoEntryLoop .forward (.id 3)).1 hreach⟩

/-! ## What is reachable -/

theorem reachableFrom_eq_ok (a : Augmented) (dir : Direction) (ref : NodeRef) (hmem : ref.key ∈ a.graph.nodeIds) :
    ∃ found, a.reachableFrom ref dir = .ok found ∧ ∀ n, n ∈ found ↔ a.graph.Reaches dir ref.key n := by
  obtain ⟨m, hm⟩ := Graph.exists_resolve_iff.2 hmem
  have hid : m.id = ref.key := (Graph.resolve_eq_ok_iff.1 hm).2
  refine ⟨a.graph.reachable dir m.id, ?_, fun n => ?_⟩
  · rw [Augmented.reachableFrom, hm]
    rfl
  · rw [Graph.mem_reachable_iff, hid]

/-- The searches agree. What is reachable from a node is what walks from it reach, and what is reachable from a node the other
way is where walks to it come from. The order of an analysis has what is reachable from its root, each node once and the root
first; the nodes of the graph that are left are its unreachable ones. -/
theorem searches_agree (a : Augmented) (dir : Direction) :
    (∀ u v : NodeRef, u.key ∈ a.graph.nodeIds → v.key ∈ a.graph.nodeIds →
      ∃ ahead behind, a.reachableFrom u dir = .ok ahead ∧ a.reachableFrom v dir.flip = .ok behind ∧
        (v.key ∈ ahead ↔ ∃ nodes, a.graph.Walk dir u.key nodes v.key) ∧
        (u.key ∈ behind ↔ ∃ nodes, a.graph.Walk dir u.key nodes v.key)) ∧
    ∃ found, a.reachableFrom (a.root dir) dir = .ok found ∧
      (analyse a dir).order.Nodup ∧ (analyse a dir).order.head? = some (a.root dir).id ∧
      (∀ n, n ∈ (analyse a dir).order ↔ n ∈ found) ∧
      (analyse a dir).unreachable = a.graph.nodes.filter fun n => n.id ∉ found := by
  constructor
  · intro u v hu hv
    obtain ⟨ahead, hahead, hmem⟩ := reachableFrom_eq_ok a dir u hu
    obtain ⟨behind, hbehind, hmem'⟩ := reachableFrom_eq_ok a dir.flip v hv
    exact ⟨ahead, behind, hahead, hbehind, hmem v.key, (hmem' u.key).trans Graph.reaches_flip_iff⟩
  · obtain ⟨found, hfound, hmem⟩ := reachableFrom_eq_ok a dir (a.root dir) (a.root_mem dir)
    have horder : ∀ n, n ∈ (analyse a dir).order ↔ n ∈ found := by
      intro n
      rw [mem_analysed_order_iff, hmem]
      rfl
    refine ⟨found, hfound, Graph.nodup_preorder _, Graph.head?_preorder _, horder, ?_⟩
    apply List.filter_congr
    intro n _
    rw [List.contains_eq_mem]
    simp only [horder, decide_not]

theorem searches_agree_twoEntryLoop :
    ((1 : Int) ∈ twoEntryLoop.graph.nodeIds ∧ (3 : Int) ∈ twoEntryLoop.graph.nodeIds) ∧
    ∃ ahead behind, twoEntryLoop.reachableFrom (.id 1) .forward = .ok ahead ∧
      twoEntryLoop.reachableFrom (.id 3) .backward = .ok behind ∧
      (3 ∈ ahead ↔ ∃ nodes, twoEntryLoop.graph.Walk .forward 1 nodes 3) ∧
      (1 ∈ behind ↔ ∃ nodes, twoEntryLoop.graph.Walk .forward 1 nodes 3) :=
  ⟨by decide, (searches_agree twoEntryLoop .forward).1 (.id 1) (.id 3) (by decide) (by decide)⟩

end Dominance

end Flowgraph
