import Flowgraph.Proofs.Augmented.Ends
import Flowgraph.Proofs.Reduction.Walk
import Mathlib.Data.List.Perm.Subperm
/-!
# A reduced graph keeps its branches

If every event that the entry reaches leads to the exit, then control that is at a consumed node has one kept node to go to
next, whatever it does on the way (`Reduction.consumed_nodes_do_not_branch`). This is what the frontiers are for.

* On a walk to `x` the nodes that `x` does not dominate come first, and the last of them is in the frontier of `x`
  (`Dominance.exists_frontier_on_walk`).
* A dominator that a walk has not passed yet dominates where the walk ends (`Flow.Dominates.along`).
* So a kept node that a consumed node leads to dominates it: otherwise a node on the way would be in the frontier, and kept.
  Two such nodes dominate each other.
-/

namespace Flowgraph

variable {a : Augmented} {c m n r u v x : Int} {nodes before : List Int}

/-! ## Nothing leads to the entry -/

theorem Augmented.eq_entry_of_walk (h : a.graph.Walk .forward u nodes a.entry.id) : u = a.entry.id := by
  rcases h.last_step with ⟨heq, -⟩ | ⟨p, -, -, hp, -⟩
  · exact heq.symm
  · exact absurd hp (a.root_not_mem_ahead .forward p)

/-! ## Dominance along a walk -/

namespace Dominance

/-- A walk to a node starts below it, or passes its frontier. -/
theorem exists_frontier_on_walk (hwalk : a.graph.Walk .forward c nodes x) (hx : (flowOf a .backward).Reaches x)
    (hc : ¬(flowOf a .backward).Dominates x c) :
    ∃ m ∈ nodes, m ≠ x ∧ m ∈ (analyse a .backward).frontiers.sets x := by
  induction hwalk with
  | stay _ => exact absurd (Flow.Dominates.refl _ _) hc
  | @step c d x nodes hd hrest ih =>
    by_cases hdom : (flowOf a .backward).Dominates x d
    · -- here the walk comes under its end
      have hdreach : (flowOf a .backward).Reaches d := hx.trans ⟨_, hrest.reverse⟩
      have hback : c ∈ a.graph.ahead .backward d := Graph.mem_ahead_flip.2 hd
      refine ⟨c, by simp, fun heq => hc (heq ▸ Flow.Dominates.refl _ _), ?_⟩
      rw [mem_frontiers_iff hx]
      exact ⟨hdreach.tail hback, ⟨d, hdreach, hback, hdom⟩, fun h => hc h.1⟩
    · obtain ⟨m, hm, hmx, hfront⟩ := ih hx hdom
      exact ⟨m, List.mem_cons_of_mem _ hm, hmx, hfront⟩

end Dominance

/-- A dominator that is not passed on the way dominates the end of the walk too. -/
theorem Flow.Dominates.along (hdom : (Dominance.flowOf a .backward).Dominates x c)
    (hwalk : a.graph.Walk .forward c nodes v) (hx : x ∈ nodes → x = v) :
    (Dominance.flowOf a .backward).Dominates x v := by
  induction hwalk with
  | stay _ => exact hdom
  | @step c d v nodes hd hrest ih =>
    by_cases hcx : x = c
    · have hv := hx (by simp [hcx])
      rw [hv]
      exact Flow.Dominates.refl _ _
    · have hback : c ∈ a.graph.ahead .backward d := Graph.mem_ahead_flip.2 hd
      exact ih (hdom.of_ahead hcx hback) fun hmem => hx (List.mem_cons_of_mem _ hmem)

/-! ## What comes next after a consumed node -/

/-- Whether a walk from a node passes consumed nodes only until it comes to a kept one. -/
def EventGraph.Meets (e : EventGraph) (g : Graph) (c r : Int) : Prop :=
  r ∈ e.retained.map Node.id ∧
    ∃ before, g.Walk .forward c (before ++ [r]) r ∧ ∀ m ∈ before, m ∈ e.consumed.map Node.id

namespace EventGraph.ReductionOf

variable {e : EventGraph} {refs : List NodeRef} {r₁ r₂ : Int}

/-- What is kept besides the entry and the exit is kept with its frontier. -/
theorem frontier_mem (h : e.ReductionOf a refs) (hr : r ∈ e.retained.map Node.id) (hentry : r ≠ a.entry.id)
    (hexit : r ≠ a.exit.id) (hm : m ∈ (Dominance.analyse a .backward).frontiers.sets r) :
    m ∈ e.retained.map Node.id := by
  obtain ⟨seeds, -, hretained⟩ := h.retained
  have hclosure : r ∈ (Dominance.analyse a .backward).closure seeds :=
    (((hretained r).1 hr).2.resolve_left hentry).resolve_left hexit
  have hnode : m ∈ a.graph.nodeIds := (Dominance.reaches_of_mem_frontiers hm).end_mem
  exact (hretained m).2 ⟨hnode, Or.inr (Or.inr (Dominance.closure_closed a .backward seeds r hclosure m hm))⟩

theorem not_consumed (h : e.ReductionOf a refs) (hr : r ∈ e.retained.map Node.id) :
    r ∉ e.consumed.map Node.id := fun hc => ((h.consumed r).1 hc).2 hr

theorem ne_entry_of_meets (h : e.ReductionOf a refs) (hc : c ∈ e.consumed.map Node.id)
    (hmeets : e.Meets a.graph c r) : r ≠ a.entry.id := by
  rintro rfl
  obtain ⟨-, before, hwalk, -⟩ := hmeets
  exact h.not_consumed h.entry_mem (Augmented.eq_entry_of_walk hwalk ▸ hc)

/-- A step of the reduced graph starts with a step of the graph, to a kept node or to a consumed one. -/
theorem first_step (h : e.ReductionOf a refs) (hv : v ∈ e.graph.succs u) :
    ∃ w ∈ a.graph.succs u, w = v ∧ v ∈ e.retained.map Node.id ∨ w ∈ e.consumed.map Node.id ∧ e.Meets a.graph w v := by
  obtain ⟨-, hkept, hdetour⟩ := (h.reduces.succs u v).1 hv
  have hlose : ∀ m ∈ a.graph.nodeIds, m ∉ e.retained.map Node.id → m ∈ e.consumed.map Node.id :=
    fun m hm hnot => (h.consumed m).2 ⟨hm, hnot⟩
  cases hdetour with
  | direct harc => exact ⟨v, harc, Or.inl ⟨rfl, hkept⟩⟩
  | @via _ m _ harc hm hrest =>
    have hmc := hlose m (Graph.mem_nodeIds_of_mem_succs harc).2 hm
    obtain ⟨between, hbetween, hwalk⟩ := hrest.walk (.stay hrest.ends_mem.2)
    refine ⟨m, harc, Or.inr ⟨hmc, hkept, m :: between, hwalk, ?_⟩⟩
    intro k hk
    have hnode : k ∈ a.graph.nodeIds := hwalk.nodes_mem k (List.mem_append_left [v] hk)
    rcases List.mem_cons.1 hk with rfl | hk
    · exact hmc
    · exact hlose k hnode (hbetween k hk)

variable (hevents : ∀ ref ∈ refs,
  a.graph.Reaches .forward a.entry.id ref.key → a.graph.Reaches .forward ref.key a.exit.id)
include hevents

/-- The kept nodes other than the entry lead to the exit, if the events do. -/
theorem reaches_exit (h : e.ReductionOf a refs) (hr : r ∈ e.retained.map Node.id) (hentry : r ≠ a.entry.id) :
    (Dominance.flowOf a .backward).Reaches r := by
  obtain ⟨seeds, hseeds, hretained⟩ := h.retained
  rcases ((hretained r).1 hr).2 with hr | rfl | hr
  · exact absurd hr hentry
  · exact Graph.Reaches.refl (a.root_mem .backward)
  · refine Dominance.closure_induction _ (fun x hx => ?_) (fun x _ y hy => Dominance.reaches_of_mem_frontiers hy) r hr
    obtain ⟨hkey, hreach⟩ := (hseeds x).1 hx
    obtain ⟨ref, href, rfl⟩ := List.mem_map.1 hkey
    exact (hevents ref href hreach).flip

/-- A kept node that a consumed node leads to dominates it: else a consumed node on the way would be in its frontier. -/
theorem dominates_of_meets (h : e.ReductionOf a refs) (hc : c ∈ e.consumed.map Node.id)
    (hmeets : e.Meets a.graph c r) : (Dominance.flowOf a .backward).Dominates r c := by
  have hentry := h.ne_entry_of_meets hc hmeets
  obtain ⟨hr, before, hwalk, hbefore⟩ := hmeets
  by_cases hdom : (Dominance.flowOf a .backward).Dominates r c
  · exact hdom
  exfalso
  have hexit : r ≠ a.exit.id := by
    rintro rfl
    exact hdom (Flow.root_dominates (Dominance.flowOf a .backward) c)
  obtain ⟨m, hm, hne, hfront⟩ :=
    Dominance.exists_frontier_on_walk hwalk (h.reaches_exit hevents hr hentry) hdom
  have hmem : m ∈ before := (List.mem_append.1 hm).resolve_right (by simpa using hne)
  exact h.not_consumed (h.frontier_mem hr hentry hexit hfront) (hbefore m hmem)

theorem meets_unique (h : e.ReductionOf a refs) (hc : c ∈ e.consumed.map Node.id)
    (h₁ : e.Meets a.graph c r₁) (h₂ : e.Meets a.graph c r₂) : r₁ = r₂ := by
  -- a kept node is not among the consumed ones before another
  have halong : ∀ {x y : Int}, e.Meets a.graph c x → e.Meets a.graph c y →
      (Dominance.flowOf a .backward).Dominates x y := by
    intro x y hx hy
    have hdom := h.dominates_of_meets hevents hc hx
    obtain ⟨-, before, hwalk, hbefore⟩ := hy
    refine hdom.along hwalk fun hmem => ?_
    rcases List.mem_append.1 hmem with hmem | hmem
    · exact absurd (hbefore x hmem) (h.not_consumed hx.1)
    · exact List.mem_singleton.1 hmem
  exact (halong h₁ h₂).antisymm (halong h₂ h₁) (h.reaches_exit hevents h₂.1 (h.ne_entry_of_meets hc h₂))

/-- The successors in the reduced graph have different first steps to them. -/
theorem length_succs_le (h : e.ReductionOf a refs) (u : Int) :
    (e.graph.succs u).length ≤ (a.graph.succs u).length := by
  have hfirst : ∀ v : {v // v ∈ e.graph.succs u}, ∃ w ∈ a.graph.succs u,
      w = v ∧ v.1 ∈ e.retained.map Node.id ∨ w ∈ e.consumed.map Node.id ∧ e.Meets a.graph w v :=
    fun v => h.first_step v.2
  choose step hstep hreached using hfirst
  have hinj : Function.Injective step := by
    intro v₁ v₂ heq
    apply Subtype.ext
    rcases hreached v₁ with ⟨h₁, hk₁⟩ | ⟨hc₁, hm₁⟩
    · rcases hreached v₂ with ⟨h₂, -⟩ | ⟨hc₂, -⟩
      · rw [← h₁, ← h₂, heq]
      · rw [← heq, h₁] at hc₂
        exact absurd hc₂ (h.not_consumed hk₁)
    · rcases hreached v₂ with ⟨h₂, hk₂⟩ | ⟨-, hm₂⟩
      · rw [heq, h₂] at hc₁
        exact absurd hc₁ (h.not_consumed hk₂)
      · exact h.meets_unique hevents hc₁ hm₁ (heq ▸ hm₂)
  have hnodup : ((e.graph.succs u).attach.map step).Nodup :=
    (List.nodup_attach.2 (nodup_eraseDups _)).map hinj
  have hsub : (e.graph.succs u).attach.map step ⊆ a.graph.succs u := by
    intro w hw
    obtain ⟨v, -, rfl⟩ := List.mem_map.1 hw
    exact hstep v
  simpa using (List.subperm_of_subset hnodup hsub).length_le

end EventGraph.ReductionOf

namespace Reduction

/-- Where every event that the entry reaches leads to the exit, two walks from a consumed node, with consumed nodes only before
they end at kept nodes, end at the same one; so no kept node has more successors than before. -/
theorem consumed_nodes_do_not_branch (a : Augmented) (refs : List NodeRef) (name : Option String)
    (h : ∀ ref ∈ refs, ref.key ∈ a.graph.nodeIds)
    (hevents : ∀ ref ∈ refs,
      a.graph.Reaches .forward a.entry.id ref.key → a.graph.Reaches .forward ref.key a.exit.id) :
    ∃ r e, ofEvents a refs name = .ok r ∧ (∀ log, (r.construct.run log).1 = .ok e) ∧
      (∀ c ∈ e.consumed.map Node.id, ∀ r₁ r₂, e.Meets a.graph c r₁ → e.Meets a.graph c r₂ → r₁ = r₂) ∧
      ∀ u ∈ e.retained.map Node.id, (e.graph.succs u).length ≤ (a.graph.succs u).length := by
  obtain ⟨r, hr⟩ := exists_ofEvents name h
  obtain ⟨e, he, hred⟩ := construct_eq_ok hr
  exact ⟨r, e, hr, he, fun c hc r₁ r₂ h₁ h₂ => hred.meets_unique hevents hc h₁ h₂,
    fun u _ => hred.length_succs_le hevents u⟩

theorem consumed_nodes_do_not_branch_twoEntryLoop :
    (∀ ref ∈ [NodeRef.id 3], ref.key ∈ twoEntryLoop.graph.nodeIds) ∧
    twoEntryLoop.graph.Reaches .forward 3 twoEntryLoop.exit.id ∧
    ∃ r e, ofEvents twoEntryLoop [.id 3] none = .ok r ∧ (∀ log, (r.construct.run log).1 = .ok e) ∧
      (∀ c ∈ e.consumed.map Node.id, ∀ r₁ r₂,
        e.Meets twoEntryLoop.graph c r₁ → e.Meets twoEntryLoop.graph c r₂ → r₁ = r₂) ∧
      ∀ u ∈ e.retained.map Node.id, (e.graph.succs u).length ≤ (twoEntryLoop.graph.succs u).length := by
  have hrefs : ∀ ref ∈ [NodeRef.id 3], ref.key ∈ twoEntryLoop.graph.nodeIds := by decide
  have hexit : twoEntryLoop.graph.Reaches .forward 3 twoEntryLoop.exit.id :=
    ⟨[3, 6], .step (by decide) (.stay (by decide))⟩
  have hevents : ∀ ref ∈ [NodeRef.id 3], twoEntryLoop.graph.Reaches .forward twoEntryLoop.entry.id ref.key →
      twoEntryLoop.graph.Reaches .forward ref.key twoEntryLoop.exit.id := by
    intro ref href _
    obtain rfl := List.mem_singleton.1 href
    exact hexit
  obtain ⟨r, e, hr, he, hunique, hcount⟩ :=
    consumed_nodes_do_not_branch twoEntryLoop [.id 3] none hrefs hevents
  exact ⟨hrefs, hexit, r, e, hr, he, hunique, hcount⟩

end Reduction

end Flowgraph
