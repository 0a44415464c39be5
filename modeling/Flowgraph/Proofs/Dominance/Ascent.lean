import Flowgraph.Proofs.Augmented.Ends
import Flowgraph.Proofs.Dominance.Frontier
import Mathlib.Data.List.Nodup
/-!
# Ascents in the dominator tree

An ascent goes from node to node by immediate dominators (`Dominance.Ascends`). Whatever an analysis looks for on its way
up, it finds: a climb that is told to stop at a dominator arrives there (`Dominance.ascends_climb`).

* With nowhere to stop the ascent ends at the root and has passed the dominators of the node it came from; so the
  immediate dominators make a tree of all reachable nodes (`Dominance.immediate_dominators_form_tree`).
* The ascents that find the frontiers stop at the immediate dominator of the node whose predecessors they come from, and the
  frontiers are what they are defined to be (`Dominance.frontiers_meet_their_definition`).
-/

namespace Flowgraph.Dominance

variable {a : Augmented} {dir : Direction} {n p : Int} {stop : Option Int}

/-- Going up by immediate dominators through the nodes of a list, each the immediate dominator of the one before, to the
immediate dominator of the last. There is none above the root. -/
inductive Ascends (d : Dominance) : Option Int → List Int → Option Int → Prop
  /-- To be where one is going to. -/
  | arrive {stop : Option Int} : Ascends d stop [] stop
  /-- To go up from a node. -/
  | up {n : Int} {next stop : Option Int} {way : List Int} :
      d.immediate (.id n) = .ok next → Ascends d next way stop → Ascends d (some n) (n :: way) stop

theorem table_analyse (a : Augmented) (dir : Direction) : (analyse a dir).table = (flowOf a dir).dominators.1 := rfl

theorem idoms_analyse (a : Augmented) (dir : Direction) : (analyse a dir).idoms = (flowOf a dir).idoms := rfl

/-! ## Immediate dominators -/

theorem check_of_reaches {ref : NodeRef} (h : (flowOf a dir).Reaches ref.key) :
    ∃ node, (analyse a dir).check ref = .ok node ∧ node.id = ref.key := by
  obtain ⟨node, hnode⟩ := Graph.exists_resolve_iff.2 h.end_mem
  have hid : node.id = ref.key := (Graph.resolve_eq_ok_iff.1 hnode).2
  have horder : (analyse a dir).order.contains node.id = true := by
    rw [List.contains_iff_mem, hid]
    exact (mem_analysed_order_iff a dir ref.key).2 h
  refine ⟨node, ?_, hid⟩
  have hresolve : (analyse a dir).flow.graph.resolve ref = .ok node := hnode
  simp only [check, hresolve, bind, Except.bind, horder, if_true]
  rfl

theorem immediate_of_reaches (ref : NodeRef) (h : (flowOf a dir).Reaches ref.key) :
    (analyse a dir).immediate ref = .ok (parent (flowOf a dir).idoms ref.key) := by
  obtain ⟨node, hnode, hid⟩ := check_of_reaches h
  rw [← hid]
  simp only [immediate, hnode, bind, Except.bind]
  rfl

theorem immediate_root (a : Augmented) (dir : Direction) :
    (analyse a dir).immediate (.id (a.root dir).id) = .ok none := by
  have hroot := flowOf_root_mem a dir
  have hreach : (flowOf a dir).Reaches (a.root dir).id := Graph.Reaches.refl hroot
  rw [immediate_of_reaches (.id (a.root dir).id) hreach]
  exact congrArg Except.ok (Flow.parent_root hroot)

theorem immediate_eq_some (ref : NodeRef) (h : (flowOf a dir).Reaches ref.key) (hne : ref.key ≠ (a.root dir).id) :
    ∃ i, (analyse a dir).immediate ref = .ok (some i) ∧ (flowOf a dir).Closest i ref.key := by
  obtain ⟨i, hparent, hi⟩ := Flow.parent_eq_some (flowOf_root_mem a dir) h hne
  rw [immediate_of_reaches ref h, hparent]
  exact ⟨i, rfl, hi⟩

theorem dominators_of_reaches (ref : NodeRef) (h : (flowOf a dir).Reaches ref.key) :
    (analyse a dir).dominators ref = .ok ((analyse a dir).table.sets ref.key) := by
  obtain ⟨node, hnode, hid⟩ := check_of_reaches h
  rw [← hid]
  simp only [dominators, hnode, bind, Except.bind]
  rfl

/-! ## Climbs are ascents -/

/-- A climb arrives where it is to stop, if that is a dominator, and beyond the root if it is not to stop. -/
theorem ascends_climb (hn : (flowOf a dir).Reaches n) (hstop : ∀ s, stop = some s → (flowOf a dir).Dominates s n) :
    (analyse a dir).Ascends (some n) (climb (analyse a dir).table (analyse a dir).idoms stop n) stop := by
  have hroot := flowOf_root_mem a dir
  revert hstop
  rw [table_analyse, idoms_analyse]
  refine Flow.tree_induction hroot (P := fun n => (∀ s, stop = some s → (flowOf a dir).Dominates s n) →
    (analyse a dir).Ascends (some n) (climb (flowOf a dir).dominators.1 (flowOf a dir).idoms stop n) stop) ?_ ?_ hn
  · intro hstop
    cases stop with
    | none =>
      rw [Flow.climb_root hroot (by simp)]
      exact .up (immediate_root a dir) .arrive
    | some s =>
      obtain rfl := (Flow.dominates_root_iff hroot).1 (hstop s rfl)
      rw [Flow.climb_stop]
      exact .arrive
  · intro n i hn hne hparent hi ih hstop
    by_cases hat : some n = stop
    · rw [← hat, Flow.climb_stop]
      exact .arrive
    · have hnext : (analyse a dir).immediate (.id n) = .ok (some i) := by
        rw [immediate_of_reaches (.id n) hn]
        exact congrArg Except.ok hparent
      rw [Flow.climb_up hroot hn hparent hi hat]
      refine .up hnext (ih fun s hs => ?_)
      -- a dominator other than `n` dominates what is right above it
      rcases hi.dominates_iff.1 (hstop s hs) with rfl | hsi
      · exact absurd hs.symm hat
      · exact hsi

/-! ## The tree -/

theorem parent_eq_some_iff {c : Int} (hc : (flowOf a dir).Reaches c) :
    parent (analyse a dir).idoms c = some n ↔ (analyse a dir).immediate (.id c) = .ok (some n) := by
  rw [immediate_of_reaches (.id c) hc, idoms_analyse, Except.ok.injEq]
  exact Iff.rfl

theorem children_eq (d : Dominance) :
    d.tree.flatMap Prod.snd = d.order.flatMap fun n => d.order.filter fun c => parent d.idoms c == some n := by
  rw [tree, List.flatMap_map]

/-- No node is a child twice, since it has one parent. -/
theorem nodup_children (d : Dominance) (h : d.order.Nodup) : (d.tree.flatMap Prod.snd).Nodup := by
  rw [children_eq, List.nodup_flatMap]
  refine ⟨fun n _ => h.filter _, h.imp fun {m n} hne c hm hn => hne ?_⟩
  have hparent := (List.mem_filter.1 hm).2
  have hother := (List.mem_filter.1 hn).2
  rw [beq_iff_eq] at hparent hother
  exact Option.some.inj (hparent.symm.trans hother)

theorem mem_children_iff {c : Int} :
    c ∈ (analyse a dir).tree.flatMap Prod.snd ↔ (flowOf a dir).Reaches c ∧ c ≠ (a.root dir).id := by
  have hroot := flowOf_root_mem a dir
  have horder : ∀ m, m ∈ (analyse a dir).order ↔ (flowOf a dir).Reaches m := fun m => mem_analysed_order_iff a dir m
  simp only [children_eq, List.mem_flatMap, List.mem_filter, beq_iff_eq, horder]
  constructor
  · rintro ⟨n, -, hc, hparent⟩
    refine ⟨hc, ?_⟩
    rintro rfl
    have hnone : parent (analyse a dir).idoms (a.root dir).id = none := Flow.parent_root hroot
    rw [hnone] at hparent
    cases hparent
  · rintro ⟨hc, hne⟩
    obtain ⟨i, hparent, hi⟩ := Flow.parent_eq_some hroot hc hne
    exact ⟨i, hi.dominates.reaches hc, hc, hparent⟩

/-- The immediate dominator of a reachable node other than the root is its one closest strict dominator, and an ascent from
the node passes its dominators, each once, up to the root. The tree has every such node once, under its immediate
dominator. -/
theorem immediate_dominators_form_tree (a : Augmented) (dir : Direction) :
    (∀ ref : NodeRef, a.graph.Reaches dir (a.root dir).id ref.key → ref.key ≠ (a.root dir).id →
      ∃ i above chain, (analyse a dir).immediate ref = .ok (some i) ∧ (analyse a dir).dominators ref = .ok above ∧
        (∀ j, (flowOf a dir).Closest j ref.key ↔ j = i) ∧
        (analyse a dir).Ascends (some ref.key) chain none ∧ chain.getLast? = some (a.root dir).id ∧
        chain.Nodup ∧ ∀ x, x ∈ chain ↔ x ∈ above) ∧
    (analyse a dir).tree.map Prod.fst = (analyse a dir).order ∧
    ((analyse a dir).tree.flatMap Prod.snd).Nodup ∧
    (∀ c, c ∈ (analyse a dir).tree.flatMap Prod.snd ↔
      a.graph.Reaches dir (a.root dir).id c ∧ c ≠ (a.root dir).id) ∧
    ∀ row ∈ (analyse a dir).tree, ∀ c ∈ row.2, (analyse a dir).immediate (.id c) = .ok (some row.1) := by
  have hroot := flowOf_root_mem a dir
  refine ⟨fun ref href hne => ?_, ?_, nodup_children _ (Flow.nodup_order (flowOf a dir)), fun c => mem_children_iff, ?_⟩
  · obtain ⟨i, hi, hclosest⟩ := immediate_eq_some ref href hne
    refine ⟨i, _, climb (analyse a dir).table (analyse a dir).idoms none ref.key, hi, dominators_of_reaches ref href,
      fun j => ⟨fun hj => hj.unique hclosest href, fun hj => hj ▸ hclosest⟩,
      ascends_climb href (by simp), Flow.getLast?_climb hroot href, Flow.nodup_climb hroot none href, fun x => ?_⟩
    rw [table_analyse, idoms_analyse, Flow.mem_climb_iff hroot none href, Flow.mem_dominators_iff hroot href]
    simp
  · rw [tree, List.map_map]
    exact List.map_id' _
  · rintro row hrow c hc
    obtain ⟨n, hn, rfl⟩ := List.mem_map.1 hrow
    obtain ⟨horder, hparent⟩ := List.mem_filter.1 hc
    rw [← parent_eq_some_iff ((mem_analysed_order_iff a dir c).1 horder)]
    exact beq_iff_eq.1 hparent

theorem immediate_dominators_form_tree_twoEntryLoop :
    twoEntryLoop.graph.Reaches .backward (twoEntryLoop.root .backward).id 0 ∧ 0 ≠ (twoEntryLoop.root .backward).id ∧
    ∃ i above chain, (analyse twoEntryLoop .backward).immediate (.id 0) = .ok (some i) ∧
      (analyse twoEntryLoop .backward).dominators (.id 0) = .ok above ∧
      (∀ j, (flowOf twoEntryLoop .backward).Closest j 0 ↔ j = i) ∧
      (analyse twoEntryLoop .backward).Ascends (some 0) chain none ∧
      chain.getLast? = some (twoEntryLoop.root .backward).id ∧ chain.Nodup ∧ ∀ x, x ∈ chain ↔ x ∈ above := by
  have hreach : twoEntryLoop.graph.Reaches .backward (twoEntryLoop.root .backward).id 0 :=
    ⟨[6, 3, 2, 0], .step (by decide) (.step (by decide) (.step (by decide) (.stay (by decide))))⟩
  have hne : 0 ≠ (twoEntryLoop.root .backward).id := by decide
  exact ⟨hreach, hne, (immediate_dominators_form_tree twoEntryLoop .backward).1 (.id 0) hreach hne⟩

/-! ## The ascents that find frontiers -/

theorem frontier_of_mem (ref : NodeRef) (h : ref.key ∈ a.graph.nodeIds) :
    (analyse a dir).frontier ref = .ok ((analyse a dir).frontiers.sets ref.key) := by
  obtain ⟨node, hnode⟩ := Graph.exists_resolve_iff.2 h
  have hid : node.id = ref.key := (Graph.resolve_eq_ok_iff.1 hnode).2
  have hresolve : (analyse a dir).flow.graph.resolve ref = .ok node := hnode
  rw [← hid]
  simp only [frontier, hresolve, bind, Except.bind]
  rfl

/-- What the climb from a node right before `n` passes has `n` in its frontier. -/
theorem mem_frontiers_of_climb {x : Int} (hp : (flowOf a dir).Reaches p) (hn : n ∈ a.graph.ahead dir p)
    (hx : x ∈ climb (analyse a dir).table (analyse a dir).idoms (parent (analyse a dir).idoms n) p) :
    n ∈ (analyse a dir).frontiers.sets x := by
  have hreach : (flowOf a dir).Reaches n := Graph.Reaches.tail hp hn
  obtain ⟨hxp, hnot⟩ := (Flow.mem_climb_parent_iff (flowOf_root_mem a dir) hreach hp hn).1 hx
  rw [mem_frontiers_iff (hxp.reaches hp)]
  exact ⟨hreach, ⟨p, hp, hn, hxp⟩, hnot⟩

/-- The frontier of a reachable node holds the reachable nodes that it does not strictly dominate though it dominates a
reachable node right before them; other nodes have an empty frontier. The ascent from a node right before `n` stops at the
immediate dominator of `n`, and every node that it passes before has `n` in its frontier. -/
theorem frontiers_meet_their_definition (a : Augmented) (dir : Direction) :
    (∀ ref : NodeRef, ref.key ∈ a.graph.nodeIds → ∃ front, (analyse a dir).frontier ref = .ok front ∧
      (a.graph.Reaches dir (a.root dir).id ref.key → ∀ n, n ∈ front ↔ a.graph.Reaches dir (a.root dir).id n ∧
        (∃ p, a.graph.Reaches dir (a.root dir).id p ∧ n ∈ a.graph.ahead dir p ∧
          (flowOf a dir).Dominates ref.key p) ∧
        ¬((flowOf a dir).Dominates ref.key n ∧ ref.key ≠ n)) ∧
      (¬a.graph.Reaches dir (a.root dir).id ref.key → front = [])) ∧
    ∀ n p, a.graph.Reaches dir (a.root dir).id p → n ∈ a.graph.ahead dir p →
      ∃ i way, (analyse a dir).immediate (.id n) = .ok (some i) ∧
        way = climb (analyse a dir).table (analyse a dir).idoms (some i) p ∧
        (analyse a dir).Ascends (some p) way (some i) ∧ i ∉ way ∧
        ∀ x ∈ way, n ∈ (analyse a dir).frontiers.sets x := by
  refine ⟨fun ref href => ⟨_, frontier_of_mem ref href, fun hreach n => mem_frontiers_iff hreach,
    frontiers_of_not_reaches⟩, fun n p hp hn => ?_⟩
  have hne : n ≠ (a.root dir).id := by
    rintro rfl
    exact a.root_not_mem_ahead dir p hn
  have hreach : (flowOf a dir).Reaches n := Graph.Reaches.tail hp hn
  obtain ⟨i, himmediate, hi⟩ := immediate_eq_some (.id n) hreach hne
  refine ⟨i, _, himmediate, rfl, ascends_climb hp fun s hs => ?_, ?_⟩
  · rw [← Option.some.inj hs]
    exact hi.dominates.of_ahead hi.ne hn
  · rw [← (parent_eq_some_iff hreach).2 himmediate]
    refine ⟨fun hmem => ?_, fun x hx => mem_frontiers_of_climb hp hn hx⟩
    have hnot := ((Flow.mem_climb_parent_iff (flowOf_root_mem a dir) hreach hp hn).1 hmem).2
    exact hnot ⟨hi.dominates, hi.ne⟩

theorem frontiers_meet_their_definition_twoEntryLoop :
    1 ∈ twoEntryLoop.graph.nodeIds ∧
    twoEntryLoop.graph.Reaches .forward (twoEntryLoop.root .forward).id 1 ∧ 2 ∈ twoEntryLoop.graph.ahead .forward 1 ∧
    (∃ front, (analyse twoEntryLoop .forward).frontier (.id 1) = .ok front ∧
      ∀ n, n ∈ front ↔ twoEntryLoop.graph.Reaches .forward (twoEntryLoop.root .forward).id n ∧
        (∃ p, twoEntryLoop.graph.Reaches .forward (twoEntryLoop.root .forward).id p ∧
          n ∈ twoEntryLoop.graph.ahead .forward p ∧ (flowOf twoEntryLoop .forward).Dominates 1 p) ∧
        ¬((flowOf twoEntryLoop .forward).Dominates 1 n ∧ 1 ≠ n)) ∧
    ∃ i way, (analyse twoEntryLoop .forward).immediate (.id 2) = .ok (some i) ∧
      way = climb (analyse twoEntryLoop .forward).table (analyse twoEntryLoop .forward).idoms (some i) 1 ∧
      (analyse twoEntryLoop .forward).Ascends (some 1) way (some i) ∧ i ∉ way ∧
      ∀ x ∈ way, 2 ∈ (analyse twoEntryLoop .forward).frontiers.sets x := by
  have hmem : 1 ∈ twoEntryLoop.graph.nodeIds := by decide
  have hreach : twoEntryLoop.graph.Reaches .forward (twoEntryLoop.root .forward).id 1 :=
    ⟨[5, 0, 1], .step (by decide) (.step (by decide) (.stay (by decide)))⟩
  have hahead : 2 ∈ twoEntryLoop.graph.ahead .forward 1 := by decide
  obtain ⟨hfrontier, hascent⟩ := frontiers_meet_their_definition twoEntryLoop .forward
  obtain ⟨front, hfront, hiff, -⟩ := hfrontier (.id 1) hmem
  exact ⟨hmem, hreach, hahead, ⟨front, hfront, hiff hreach⟩, hascent 2 1 hreach hahead⟩

end Flowgraph.Dominance
