import Flowgraph.Proofs.Reduction.Control
import Mathlib.Logic.Relation
/-!
# Dead code in a reduction

Events that the entry does not reach are dropped, but a reduction may keep other nodes that the entry does not reach. Which node
decides about another is told by the walks to the exit, whether control ever comes there or not: a dead branch in front of a live
event decides about it like any other. A node is kept if a chain of deciders leads from it to a live event
(`EventGraph.ReductionOf.mem_retained_iff`). So dead code enters a reduction only where it leads into live code: if it leads to no
live node but the exit, all that is kept besides the exit is live (`EventGraph.ReductionOf.live_of_mem_retained`).
-/

namespace Flowgraph

namespace Augmented

variable {a : Augmented} {n r u v : Int} {nodes : List Int}

/-- Whether control can come to a node. -/
def Live (a : Augmented) (n : Int) : Prop := a.graph.Reaches .forward a.entry.id n

theorem live_entry (a : Augmented) : a.Live a.entry.id := ⟨[a.entry.id], .stay (a.root_mem .forward)⟩

theorem eq_exit_of_walk (h : a.graph.Walk .forward a.exit.id nodes v) : v = a.exit.id := by
  cases h with
  | stay _ => rfl
  | step hv _ => exact absurd (Graph.mem_preds_iff_mem_succs.2 hv) (a.root_not_mem_ahead .backward _)

/-- Whether dead code leads to no live node but the exit. -/
def DeadCodeApart (a : Augmented) : Prop := ∀ n, ∀ s ∈ a.graph.succs n, a.Live s → s ≠ a.exit.id → a.Live n

theorem DeadCodeApart.live_of_walk (ha : a.DeadCodeApart) (h : a.graph.Walk .forward u nodes v) (hv : a.Live v)
    (hexit : v ≠ a.exit.id) : a.Live u := by
  induction h with
  | stay _ => exact hv
  | step hs hwalk ih =>
    refine ha _ _ hs (ih hv hexit) ?_
    -- at the exit the walk would end
    rintro rfl
    exact hexit (eq_exit_of_walk hwalk)

/-- Then only live nodes decide about live ones. -/
theorem DeadCodeApart.live_of_decides (ha : a.DeadCodeApart) (h : a.Decides n r) (hr : a.Live r) (hexit : r ≠ a.exit.id) :
    a.Live n := by
  obtain ⟨s, hs, ⟨nodes, hwalk⟩, hpass, -⟩ := h
  obtain ⟨part, -, hpart⟩ := hwalk.take (hpass nodes hwalk)
  exact ha.live_of_walk (.step hs hpart) hr hexit

end Augmented

namespace EventGraph.ReductionOf

variable {a : Augmented} {e : EventGraph} {refs : List NodeRef} {i : Int}

/-- Besides the entry and the exit, those nodes are kept from which a chain of deciders leads to a live event. -/
theorem mem_retained_iff (h : e.ReductionOf a refs) :
    i ∈ e.retained.map Node.id ↔ i = a.entry.id ∨ i = a.exit.id ∨
      ∃ ref ∈ refs, a.Live ref.key ∧ Relation.ReflTransGen a.Decides i ref.key := by
  constructor
  · intro hi
    have hclosed : a.ControlClosed refs {i | i = a.entry.id ∨ i = a.exit.id ∨
        ∃ ref ∈ refs, a.Live ref.key ∧ Relation.ReflTransGen a.Decides i ref.key} := by
      refine ⟨.inl rfl, .inr (.inl rfl), fun ref href hlive => .inr (.inr ⟨ref, href, hlive, .refl⟩), ?_⟩
      rintro r (rfl | rfl | ⟨ref, href, hlive, hchain⟩) n hn
      · exact absurd hn (a.not_decides_entry n)
      · exact .inr (.inl hn.eq_exit)
      · exact .inr (.inr ⟨ref, href, hlive, hchain.head hn⟩)
    exact h.retained_subset hclosed hi
  · rintro (rfl | rfl | ⟨ref, href, hlive, hchain⟩)
    · exact h.entry_mem
    · exact h.exit_mem
    · induction hchain using Relation.ReflTransGen.head_induction_on with
      | refl => exact h.event_mem (List.mem_map_of_mem href) hlive
      | head hn _ ih => exact h.controlClosed.deciders _ ih _ hn

/-- Where dead code leads to no live node but the exit, it is not kept. -/
theorem live_of_mem_retained (h : e.ReductionOf a refs) (ha : a.DeadCodeApart) (hi : i ∈ e.retained.map Node.id)
    (hexit : i ≠ a.exit.id) : a.Live i := by
  have hclosed : a.ControlClosed refs {i | i = a.exit.id ∨ a.Live i} := by
    refine ⟨.inr a.live_entry, .inl rfl, fun ref _ hlive => .inr hlive, fun r hr n hn => ?_⟩
    by_cases hrexit : r = a.exit.id
    · exact .inl (Augmented.Decides.eq_exit (hrexit ▸ hn))
    · exact .inr (ha.live_of_decides hn (hr.resolve_left hrexit) hrexit)
  exact (h.retained_subset hclosed hi).resolve_left hexit

end EventGraph.ReductionOf

namespace Reduction

theorem events_of_construct {r : Reduction} {e : EventGraph} {log : Array Report} (h : (r.construct.run log).1 = .ok e) :
    e.events = r.kept := by
  obtain ⟨e', he', hevents, -⟩ := r.reduce_eq_ok (Dominance.analyse r.augmented .backward)
  obtain rfl : e' = e := Except.ok.inj (he'.symm.trans ((r.gives_construct log).symm.trans h))
  exact hevents

/-- The events of a reduction are live. Of the dead nodes it keeps those from which a chain of deciders leads to a live event,
which are none if dead code leads to no live node but the exit. -/
theorem retained_is_live_or_decides (a : Augmented) (refs : List NodeRef) (name : Option String)
    (h : ∀ ref ∈ refs, ref.key ∈ a.graph.nodeIds) :
    ∃ r e, ofEvents a refs name = .ok r ∧ (∀ log, (r.construct.run log).1 = .ok e) ∧
      (∀ i, i ∈ e.events.map Node.id ↔ i ∈ refs.map NodeRef.key ∧ a.Live i) ∧
      (∀ i, i ≠ a.exit.id → ¬ a.Live i → (i ∈ e.retained.map Node.id ↔
        ∃ ref ∈ refs, a.Live ref.key ∧ Relation.TransGen a.Decides i ref.key)) ∧
      (a.DeadCodeApart → ∀ i ∈ e.retained.map Node.id, i ≠ a.exit.id → a.Live i) := by
  obtain ⟨r, e, hr, he, hred, -⟩ := exists_construct name h
  refine ⟨r, e, hr, he, ?_, ?_, fun ha i hi hexit => hred.live_of_mem_retained ha hi hexit⟩
  · intro i
    obtain ⟨haug, hevents⟩ := ofEvents_eq_ok hr
    rw [events_of_construct (he #[]), mem_kept_iff, hevents, haug]
    rfl
  · intro i hexit hdead
    have hentry : i ≠ a.entry.id := fun heq => hdead (heq ▸ a.live_entry)
    rw [hred.mem_retained_iff]
    simp only [hentry, hexit, false_or]
    refine exists_congr fun ref => and_congr_right fun _ => and_congr_right fun hlive => ?_
    -- a dead node is not the live event at the end of its chain
    have hne : ref.key ≠ i := fun heq => hdead (heq ▸ hlive)
    rw [Relation.reflTransGen_iff_eq_or_transGen, or_iff_right hne]

/-- A live event behind a branch to which control does not come. -/
def deadBranch : Augmented where
  base :=
    { nodes := [{ id := 0, name := "start", isRoot := true }, { id := 1, name := "event" },
        { id := 2, name := "end", isExitPoint := true }, { id := 3, kind := .condition, name := "dead" }]
      edges := [⟨0, 0, 1, .structural, none, false, ∅, []⟩, ⟨1, 1, 2, .structural, none, false, ∅, []⟩,
        ⟨2, 3, 1, .structural, some "true", false, ∅, []⟩, ⟨3, 3, 2, .structural, some "false", false, ∅, []⟩]
      wired := ⟨by decide, by decide, by decide⟩ }
  name := none
  unaugmented := by decide
  rooted := by decide

theorem not_live_deadBranch : ¬ deadBranch.Live 3 := by
  intro h
  refine h.closed (P := (· ≠ 3)) (by decide) (fun x _ y hy => ?_) rfl
  obtain ⟨e, he, -, rfl⟩ := Graph.mem_succs_iff.1 hy
  have hdst : ∀ e ∈ deadBranch.graph.edges, e.dst ≠ 3 := by decide
  exact hdst e he

theorem live_deadBranch_event : deadBranch.Live 1 :=
  ⟨[4, 0, 1], .step (by decide) (.step (by decide) (.stay (by decide)))⟩

/-- The dead branch leads to the event, or past it. -/
theorem decides_deadBranch : deadBranch.Decides 3 1 := by
  refine ⟨1, by decide, ⟨[1, 2, 5], ?_⟩, fun nodes hwalk => ?_, .inr ⟨[3, 2, 5], ?_, by decide⟩⟩
  · exact .step (by decide) (.step (by decide) (.stay (by decide)))
  · exact List.mem_of_mem_head? hwalk.head_eq
  · exact .step (by decide) (.step (by decide) (.stay (by decide)))

theorem retained_is_live_or_decides_deadBranch :
    (∀ ref ∈ [NodeRef.id 1], ref.key ∈ deadBranch.graph.nodeIds) ∧
    ∃ r e, ofEvents deadBranch [.id 1] none = .ok r ∧ (∀ log, (r.construct.run log).1 = .ok e) ∧
      1 ∈ e.events.map Node.id ∧ 3 ∈ e.retained.map Node.id ∧ ¬ deadBranch.DeadCodeApart := by
  have hrefs : ∀ ref ∈ [NodeRef.id 1], ref.key ∈ deadBranch.graph.nodeIds := by decide
  obtain ⟨r, e, hr, he, hevents, hdead, hapart⟩ := retained_is_live_or_decides deadBranch [.id 1] none hrefs
  have hretained : 3 ∈ e.retained.map Node.id :=
    (hdead 3 (by decide) not_live_deadBranch).2 ⟨.id 1, by decide, live_deadBranch_event, .single decides_deadBranch⟩
  refine ⟨hrefs, r, e, hr, he, (hevents 1).2 ⟨by decide, live_deadBranch_event⟩, hretained, fun ha => ?_⟩
  exact not_live_deadBranch (hapart ha 3 hretained (by decide))

/-- A node that is not the exit is kept although control does not come to it. -/
theorem dead_branch_is_kept :
    ∃ r e, ofEvents deadBranch [.id 1] none = .ok r ∧ (∀ log, (r.construct.run log).1 = .ok e) ∧
      3 ∈ e.retained.map Node.id ∧ 3 ≠ deadBranch.exit.id ∧
      ¬ deadBranch.graph.Reaches .forward deadBranch.entry.id 3 := by
  have hrefs : ∀ ref ∈ [NodeRef.id 1], ref.key ∈ deadBranch.graph.nodeIds := by decide
  obtain ⟨r, e, hr, he, hred, -⟩ := exists_construct none hrefs
  have hretained : 3 ∈ e.retained.map Node.id :=
    hred.mem_retained_iff.2 (.inr (.inr ⟨.id 1, by decide, live_deadBranch_event, .single decides_deadBranch⟩))
  exact ⟨r, e, hr, he, hretained, by decide, not_live_deadBranch⟩

end Reduction

end Flowgraph
