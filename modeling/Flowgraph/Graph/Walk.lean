import Flowgraph.Graph.Basic
/-!
# Walks

A walk goes from node to node along the edges of a graph or, backward, against them. `Graph.Walk` gives the nodes on
the way, first and last included; `Graph.Route` gives the edges, which tells parallel edges apart.

* A node leads to another exactly if an edge does (`Graph.mem_succs_iff`, `Graph.mem_preds_iff`).
* Walks can be joined (`Walk.append`) and taken the other way (`Walk.reverse`).
* The routes between two nodes and the walks between them go through the same nodes (`Walk.exists_route`,
  `Route.walk`).
-/

namespace Flowgraph.Graph

variable {g : Graph} {dir : Direction} {u v w : Int}

/-! ## Neighbours -/

theorem mem_succs_iff : v ∈ g.succs u ↔ ∃ e ∈ g.edges, e.src = u ∧ e.dst = v := by
  simp [succs, outEdges, and_assoc]

theorem mem_preds_iff : u ∈ g.preds v ↔ ∃ e ∈ g.edges, e.src = u ∧ e.dst = v := by
  simp [preds, inEdges, and_assoc, and_comm]

theorem mem_preds_iff_mem_succs : u ∈ g.preds v ↔ v ∈ g.succs u := by
  rw [mem_preds_iff, mem_succs_iff]

theorem mem_between_iff {e : Edge} : e ∈ g.between u v ↔ e ∈ g.edges ∧ e.src = u ∧ e.dst = v := by
  simp only [between, outEdges, List.mem_filter, beq_iff_eq, and_assoc]

theorem behind_eq_ahead_flip : g.behind dir = g.ahead dir.flip := by cases dir <;> rfl

theorem mem_ahead_flip : u ∈ g.ahead dir.flip v ↔ v ∈ g.ahead dir u := by
  cases dir
  · exact mem_preds_iff_mem_succs
  · exact mem_preds_iff_mem_succs.symm

theorem mem_nodeIds_of_mem_ahead (h : v ∈ g.ahead dir u) : u ∈ g.nodeIds ∧ v ∈ g.nodeIds := by
  cases dir
  · obtain ⟨e, he, rfl, rfl⟩ := mem_succs_iff.1 h
    exact g.wired.closed e he
  · obtain ⟨e, he, rfl, rfl⟩ := mem_preds_iff.1 h
    exact (g.wired.closed e he).symm

/-! ## Walks by their nodes -/

/-- A walk in a direction from a node to another, with the nodes on the way. -/
inductive Walk (g : Graph) (dir : Direction) : Int → List Int → Int → Prop
  /-- To stay at a node. -/
  | stay {u : Int} : u ∈ g.nodeIds → Walk g dir u [u] u
  /-- To go on to a neighbour first. -/
  | step {u v w : Int} {nodes : List Int} :
      v ∈ g.ahead dir u → Walk g dir v nodes w → Walk g dir u (u :: nodes) w

/-- Whether there is a walk from a node to another. -/
def Reaches (g : Graph) (dir : Direction) (u v : Int) : Prop := ∃ nodes, g.Walk dir u nodes v

/-- Whether a walk of at least one step leads from a node back to it. -/
def OnCycle (g : Graph) (u : Int) : Prop := ∃ v ∈ g.succs u, g.Reaches .forward v u

namespace Walk

variable {nodes more : List Int}

theorem start_mem (h : g.Walk dir u nodes v) : u ∈ g.nodeIds := by
  cases h with
  | stay hu => exact hu
  | step hv _ => exact (mem_nodeIds_of_mem_ahead hv).1

theorem nodes_mem (h : g.Walk dir u nodes v) : ∀ n ∈ nodes, n ∈ g.nodeIds := by
  induction h with
  | stay hu => simpa using hu
  | step hv _ ih => simpa using ⟨(mem_nodeIds_of_mem_ahead hv).1, ih⟩

theorem head_eq (h : g.Walk dir u nodes v) : nodes.head? = some u := by cases h <;> rfl

theorem last_eq (h : g.Walk dir u nodes v) : nodes.getLast? = some v := by
  induction h with
  | stay => rfl
  | step _ h ih =>
    cases h with
    | stay => rfl
    | step _ _ => simpa [List.getLast?_cons_cons] using ih

theorem end_mem (h : g.Walk dir u nodes v) : v ∈ g.nodeIds :=
  h.nodes_mem v (List.mem_of_getLast? h.last_eq)

theorem snoc (h : g.Walk dir u nodes v) (hw : w ∈ g.ahead dir v) : g.Walk dir u (nodes ++ [w]) w := by
  induction h with
  | stay => exact .step hw (.stay (mem_nodeIds_of_mem_ahead hw).2)
  | step hv _ ih => exact .step hv (ih hw)

theorem append (h : g.Walk dir u nodes v) (k : g.Walk dir v more w) : g.Walk dir u (nodes ++ more.tail) w := by
  induction h with
  | stay hu =>
    cases k with
    | stay _ => exact .stay hu
    | step hv k => exact .step hv k
  | step hv _ ih => exact .step hv (ih k)

theorem reverse (h : g.Walk dir u nodes v) : g.Walk dir.flip v nodes.reverse u := by
  induction h with
  | stay hu => exact .stay hu
  | step hv _ ih =>
    rw [List.reverse_cons]
    exact ih.snoc (mem_ahead_flip.2 hv)

theorem drop (h : g.Walk dir u nodes v) (hw : w ∈ nodes) : ∃ rest, rest <:+ nodes ∧ g.Walk dir w rest v := by
  induction h with
  | stay hu =>
    obtain rfl := List.mem_singleton.1 hw
    exact ⟨_, List.suffix_refl _, .stay hu⟩
  | step hv h ih =>
    rcases List.mem_cons.1 hw with rfl | hw
    · exact ⟨_, List.suffix_refl _, .step hv h⟩
    · obtain ⟨rest, hr, k⟩ := ih hw
      exact ⟨rest, hr.trans (List.suffix_cons _ _), k⟩

theorem take (h : g.Walk dir u nodes v) (hw : w ∈ nodes) : ∃ part, part <+: nodes ∧ g.Walk dir u part w := by
  induction h with
  | stay hu =>
    obtain rfl := List.mem_singleton.1 hw
    exact ⟨_, List.prefix_refl _, .stay hu⟩
  | @step u v _ nodes hv h ih =>
    rcases List.mem_cons.1 hw with rfl | hw
    · exact ⟨[w], by simp, .stay (mem_nodeIds_of_mem_ahead hv).1⟩
    · obtain ⟨part, hp, k⟩ := ih hw
      exact ⟨u :: part, by simpa using hp, .step hv k⟩

end Walk

namespace Reaches

theorem refl (h : u ∈ g.nodeIds) : g.Reaches dir u u := ⟨_, .stay h⟩

theorem trans (h : g.Reaches dir u v) (k : g.Reaches dir v w) : g.Reaches dir u w :=
  ⟨_, h.choose_spec.append k.choose_spec⟩

theorem tail (h : g.Reaches dir u v) (hw : w ∈ g.ahead dir v) : g.Reaches dir u w :=
  ⟨_, h.choose_spec.snoc hw⟩

theorem flip (h : g.Reaches dir u v) : g.Reaches dir.flip v u := ⟨_, h.choose_spec.reverse⟩

end Reaches

/-! ## Walks by their edges -/

/-- A walk along edges, with the edges it takes. -/
inductive Route (g : Graph) : Int → List Edge → Int → Prop
  /-- To stay at a node. -/
  | stay {u : Int} : u ∈ g.nodeIds → Route g u [] u
  /-- To take an edge first. -/
  | step {e : Edge} {edges : List Edge} {v : Int} :
      e ∈ g.edges → Route g e.dst edges v → Route g e.src (e :: edges) v

namespace Route

variable {edges : List Edge}

theorem edges_mem (h : g.Route u edges v) : ∀ e ∈ edges, e ∈ g.edges := by
  induction h with
  | stay => simp
  | step he _ ih => simpa using ⟨he, ih⟩

/-- The nodes that a route passes. -/
theorem walk (h : g.Route u edges v) : g.Walk .forward u (u :: edges.map Edge.dst) v := by
  induction h with
  | stay hu => exact .stay hu
  | step he _ ih => exact .step (mem_succs_iff.2 ⟨_, he, rfl, rfl⟩) ih

end Route

theorem Walk.exists_route {nodes : List Int} (h : g.Walk .forward u nodes v) :
    ∃ edges, g.Route u edges v ∧ nodes = u :: edges.map Edge.dst := by
  induction h with
  | stay hu => exact ⟨[], .stay hu, rfl⟩
  | step hv _ ih =>
    obtain ⟨e, he, rfl, rfl⟩ := mem_succs_iff.1 hv
    obtain ⟨edges, hr, rfl⟩ := ih
    exact ⟨e :: edges, .step he hr, rfl⟩

end Flowgraph.Graph
