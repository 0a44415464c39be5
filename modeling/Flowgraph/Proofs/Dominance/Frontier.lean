import Flowgraph.Proofs.Dominance.Analysis
import Flowgraph.Proofs.Dominance.Tree
/-!
# Frontiers and their closure

The frontier of a node holds the reachable nodes that it does not strictly dominate though it dominates a node right before
them (`Dominance.mem_frontiers_iff`). The climb from such a node before `n` goes up to the immediate dominator of `n`, which
dominates all nodes right before `n`; what it passes is therefore what dominates the node before and not strictly `n`
(`Flow.mem_climb_parent_iff`).

Closing some nodes under frontiers gives a set that has the nodes (`Dominance.mem_closure_of_seed`) and is closed
(`Dominance.closure_closed`), and nothing that these two do not force (`Dominance.closure_induction`).
-/

namespace Flowgraph

namespace NodeTable

theorem sets_map_of_not_mem {order : List Int} (row : Int → List Int) {n : Int} (h : n ∉ order) :
    sets (order.map fun m => (m, row m)) n = [] := by
  induction order with
  | nil => rfl
  | cons m order ih =>
    rw [List.mem_cons, not_or] at h
    rw [List.map_cons, sets_cons, if_neg h.1]
    exact ih h.2

end NodeTable

namespace Flow

variable {f : Flow} {n p x : Int}

/-- The climb from a node right before `n` stops at the closest strict dominator of `n`, which dominates that node as well; so
it passes what dominates the node and not strictly `n`. -/
theorem mem_climb_parent_iff (hroot : f.root ∈ f.graph.nodeIds) (hn : f.Reaches n) (hp : f.Reaches p)
    (hahead : n ∈ f.graph.ahead f.direction p) :
    x ∈ Dominance.climb f.dominators.1 f.idoms (Dominance.parent f.idoms n) p ↔
      f.Dominates x p ∧ ¬(f.Dominates x n ∧ x ≠ n) := by
  rw [mem_climb_iff hroot _ hp]
  refine and_congr_right fun hxp => ?_
  by_cases hne : n = f.root
  · rw [hne, parent_root hroot, dominates_root_iff hroot]
    simp
  · obtain ⟨d, hparent, hd⟩ := parent_eq_some hroot hn hne
    rw [hparent]
    constructor
    · rintro hclear ⟨hxn, hxne⟩
      exact hclear d rfl (hd.dominates.of_ahead hd.ne hahead) (hd.above x hxn hxne)
    · rintro hnot s hs - hxs
      obtain rfl := Option.some.inj hs
      refine hnot ⟨hxs.trans hd.dominates, ?_⟩
      rintro rfl
      exact hd.not_dominates hn hxs

/-- The nodes that face a node: they dominate a node right before it, and do not strictly dominate it. -/
theorem mem_facing_iff (hroot : f.root ∈ f.graph.nodeIds) (hn : f.Reaches n) :
    x ∈ Dominance.facing f f.order f.dominators.1 f.idoms n ↔
      (∃ p, f.Reaches p ∧ n ∈ f.graph.ahead f.direction p ∧ f.Dominates x p) ∧
        ¬(f.Dominates x n ∧ x ≠ n) := by
  rw [Dominance.facing, List.mem_flatMap]
  constructor
  · rintro ⟨p, hp, hx⟩
    obtain ⟨hahead, horder⟩ := mem_predsIn_iff.1 hp
    have hreach := (mem_order_iff hroot).1 horder
    obtain ⟨hxp, hnot⟩ := (mem_climb_parent_iff hroot hn hreach hahead).1 hx
    exact ⟨⟨p, hreach, hahead, hxp⟩, hnot⟩
  · rintro ⟨⟨p, hreach, hahead, hxp⟩, hnot⟩
    exact ⟨p, mem_predsIn_iff.2 ⟨hahead, (mem_order_iff hroot).2 hreach⟩,
      (mem_climb_parent_iff hroot hn hreach hahead).2 ⟨hxp, hnot⟩⟩

end Flow

namespace Dominance

variable {a : Augmented} {dir : Direction} {n x : Int}

theorem mem_frontiers_iff (hx : (flowOf a dir).Reaches x) :
    n ∈ (analyse a dir).frontiers.sets x ↔ (flowOf a dir).Reaches n ∧
      (∃ p, (flowOf a dir).Reaches p ∧ n ∈ a.graph.ahead dir p ∧ (flowOf a dir).Dominates x p) ∧
        ¬((flowOf a dir).Dominates x n ∧ x ≠ n) := by
  have hroot := flowOf_root_mem a dir
  have hfrontiers : (analyse a dir).frontiers =
      frontiersIn (flowOf a dir) (flowOf a dir).order (flowOf a dir).dominators.1 (flowOf a dir).idoms := rfl
  rw [hfrontiers, frontiersIn, NodeTable.sets_map _ ((Flow.mem_order_iff hroot).2 hx)]
  simp only [List.filter_map, List.map_map, List.mem_map, List.mem_filter, Function.comp_apply,
    List.contains_iff_mem, exists_eq_right]
  rw [Flow.mem_order_iff hroot]
  exact and_congr_right fun hn => Flow.mem_facing_iff hroot hn

theorem frontiers_of_not_reaches (hx : ¬(flowOf a dir).Reaches x) : (analyse a dir).frontiers.sets x = [] :=
  NodeTable.sets_map_of_not_mem _ (mt (Flow.mem_order_iff (flowOf_root_mem a dir)).1 hx)

theorem reaches_of_mem_frontiers (h : n ∈ (analyse a dir).frontiers.sets x) : (flowOf a dir).Reaches n := by
  by_cases hx : (flowOf a dir).Reaches x
  · exact ((mem_frontiers_iff hx).1 h).1
  · rw [frontiers_of_not_reaches hx] at h
    exact absurd h List.not_mem_nil

/-! ## The closure -/

variable {d : Dominance} {seeds : List Int}

/-- Absorbing nodes moves those that are outside to the inside. -/
theorem mem_absorbed_iff (ns : List Int) (state : List Int × List Int) :
    x ∈ (ns.foldl absorb state).1 ↔ x ∈ state.1 ∨ x ∈ ns ∧ x ∈ state.2 := by
  induction ns generalizing state with
  | nil => simp
  | cons m ns ih =>
    rw [List.foldl_cons, ih, absorb]
    split
    · rename_i hm
      by_cases hxm : x = m
      · simp [hxm, hm]
      · simp [hxm, List.mem_erase_of_ne hxm]
    · rename_i hm
      rw [List.mem_cons]
      refine or_congr_right ⟨fun h => ⟨Or.inr h.1, h.2⟩, ?_⟩
      rintro ⟨rfl | hx, hout⟩
      · exact absurd hout hm
      · exact ⟨hx, hout⟩

theorem covered_absorbed (ns : List Int) (state : List Int × List Int) (h : x ∈ state.1 ∨ x ∈ state.2) :
    x ∈ (ns.foldl absorb state).1 ∨ x ∈ (ns.foldl absorb state).2 := by
  induction ns generalizing state with
  | nil => exact h
  | cons m ns ih =>
    refine ih _ ?_
    rw [absorb]
    split
    · by_cases hxm : x = m
      · simp [hxm]
      · simpa [hxm, List.mem_erase_of_ne hxm] using h
    · exact h

/-- Absorbing nodes makes the outside smaller, unless none of them is there. -/
theorem absorbed_cases (ns : List Int) (state : List Int × List Int) :
    (ns.foldl absorb state).2.length < state.2.length ∨
      ns.foldl absorb state = state ∧ ∀ n ∈ ns, n ∉ state.2 := by
  induction ns generalizing state with
  | nil => exact Or.inr ⟨rfl, by simp⟩
  | cons m ns ih =>
    rw [List.foldl_cons]
    by_cases hm : m ∈ state.2
    · left
      have hless : (absorb state m).2.length < state.2.length := by
        have hpos := List.length_pos_of_mem hm
        simp only [absorb, if_pos hm, List.length_erase_of_mem hm]
        omega
      rcases ih (absorb state m) with h | ⟨h, -⟩
      · omega
      · rw [h]
        exact hless
    · have hsame : absorb state m = state := if_neg hm
      rw [hsame]
      refine (ih state).imp_right fun h => ⟨h.1, ?_⟩
      rintro n hn
      rcases List.mem_cons.1 hn with rfl | hn
      · exact hm
      · exact h.2 n hn

theorem spread_eq_foldl (d : Dominance) (state : List Int × List Int) :
    d.spread state = (state.1.flatMap fun n => (d.frontiers.sets n).mergeSort (· ≤ ·)).foldl absorb state := by
  rw [List.foldl_flatMap]
  rfl

theorem subset_close (d : Dominance) (state : List Int × List Int) (hx : x ∈ state.1) : x ∈ d.close state := by
  have hspread : ∀ state : List Int × List Int, x ∈ state.1 → x ∈ (d.spread state).1 := by
    intro state hx
    rw [spread_eq_foldl, mem_absorbed_iff]
    exact Or.inl hx
  fun_induction close d state with
  | case1 state state' hless ih => exact ih (hspread state hx)
  | case2 state state' hnotless => exact hspread state hx

theorem close_induction {P : Int → Prop} (d : Dominance) (state : List Int × List Int)
    (hinside : ∀ x ∈ state.1, P x) (hstep : ∀ x, P x → ∀ y ∈ d.frontiers.sets x, P y) :
    ∀ x ∈ d.close state, P x := by
  have hspread : ∀ state : List Int × List Int, (∀ x ∈ state.1, P x) → ∀ x ∈ (d.spread state).1, P x := by
    intro state hinside x hx
    rw [spread_eq_foldl, mem_absorbed_iff, List.mem_flatMap] at hx
    rcases hx with hx | ⟨⟨n, hn, hx⟩, -⟩
    · exact hinside x hx
    · exact hstep n (hinside n hn) x (List.mem_mergeSort.1 hx)
  fun_induction close d state with
  | case1 state state' hless ih => exact ih (hspread state hinside)
  | case2 state state' hnotless => exact hspread state hinside

/-- When a round moves nothing, no frontier of a node inside has a node outside. -/
theorem close_closed (d : Dominance) (state : List Int × List Int)
    (hcover : ∀ x, ∀ y ∈ d.frontiers.sets x, y ∈ state.1 ∨ y ∈ state.2) :
    ∀ x ∈ d.close state, ∀ y ∈ d.frontiers.sets x, y ∈ d.close state := by
  fun_induction close d state with
  | case1 state state' hless ih =>
    refine ih fun x y hy => ?_
    show y ∈ (d.spread state).1 ∨ y ∈ (d.spread state).2
    rw [spread_eq_foldl]
    exact covered_absorbed _ _ (hcover x y hy)
  | case2 state state' hnotless =>
    have hround : d.spread state = _ := spread_eq_foldl d state
    rcases absorbed_cases (state.1.flatMap fun n => (d.frontiers.sets n).mergeSort (· ≤ ·)) state with h | ⟨h, hnone⟩
    · rw [← hround] at h
      exact absurd h hnotless
    · rw [← hround] at h
      show ∀ x ∈ (d.spread state).1, ∀ y ∈ d.frontiers.sets x, y ∈ (d.spread state).1
      rw [h]
      intro x hx y hy
      refine (hcover x y hy).resolve_right (hnone y ?_)
      exact List.mem_flatMap.2 ⟨x, hx, List.mem_mergeSort.2 hy⟩

theorem mem_closure_of_seed (d : Dominance) (hx : x ∈ seeds) : x ∈ d.closure seeds :=
  subset_close d _ (List.mem_eraseDups.2 hx)

/-- What holds of the seeds and passes on to frontiers holds of the whole closure. -/
theorem closure_induction {P : Int → Prop} (d : Dominance) (hseed : ∀ x ∈ seeds, P x)
    (hstep : ∀ x, P x → ∀ y ∈ d.frontiers.sets x, P y) : ∀ x ∈ d.closure seeds, P x :=
  close_induction d _ (fun x hx => hseed x (List.mem_eraseDups.1 hx)) hstep

/-- What frontiers have is a node of the graph, so it is a seed or outside at first. -/
theorem frontiers_known (a : Augmented) (dir : Direction) (seeds : List Int) :
    ∀ x, ∀ y ∈ (analyse a dir).frontiers.sets x,
      y ∈ seeds.eraseDups ∨ y ∈ a.graph.nodeIds.filter fun n => !seeds.eraseDups.contains n := by
  intro x y hy
  have hnode : y ∈ a.graph.nodeIds := (reaches_of_mem_frontiers hy).end_mem
  by_cases hseed : y ∈ seeds.eraseDups
  · exact Or.inl hseed
  · right
    refine List.mem_filter.2 ⟨hnode, ?_⟩
    simpa using hseed

theorem closure_closed (a : Augmented) (dir : Direction) (seeds : List Int) :
    ∀ x ∈ (analyse a dir).closure seeds, ∀ y ∈ (analyse a dir).frontiers.sets x,
      y ∈ (analyse a dir).closure seeds :=
  close_closed _ _ (frontiers_known a dir seeds)

end Dominance

end Flowgraph
