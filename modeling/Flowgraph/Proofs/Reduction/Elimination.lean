import Flowgraph.Graph.Walk
import Flowgraph.Reduction.Elimination
/-!
# What elimination keeps

After some nodes are consumed, two other nodes are joined by an edge exactly if the graph has a way from one to the other
that passes consumed nodes only (`Graph.joined_edgesWithout_iff`). One node at a time this is plain: consuming `n` joins `u`
with `v` if an edge did or if edges lead from `u` to `n` and from `n` to `v` (`Remnant.joins_consume_iff`). The run follows
because the ways around the remaining nodes, made of the new edges, are the ways around all of them
(`Detour.consume_iff`): every stay at `n`, loops included, lies between a step to it and a step from it.

Identities stay distinct on the way (`Remnant.Numbered`), so what is left is wired again.

What is consumed here is a list of edges and no more (`Remnant`). That the tables of the elimination hold the edges of this list
is proved elsewhere (`Graph.eliminate_eq_ok`).
-/

namespace Flowgraph

/-- A way from a node to another, of at least one step, on which all nodes in between are of a kind. -/
inductive Detour (arc : Int → Int → Prop) (S : Int → Prop) : Int → Int → Prop
  | direct {u v : Int} : arc u v → Detour arc S u v
  | via {u m v : Int} : arc u m → S m → Detour arc S m v → Detour arc S u v

/-- The edges of a graph whose nodes are being consumed, and the next identity to hand out. -/
structure Remnant where
  edges : List Edge
  nextEdge : Int

namespace Remnant

/-- All the edges of a graph. -/
def ofGraph (g : Graph) : Remnant := ⟨g.edges, g.maxEdgeId + 1⟩

/-- The edges into a node that come from another node. -/
def incoming (r : Remnant) (n : Int) : List Edge := r.edges.filter fun e => e.dst == n && !e.isLoop

/-- The edges out of a node that lead to another node. -/
def outgoing (r : Remnant) (n : Int) : List Edge := r.edges.filter fun e => e.src == n && !e.isLoop

/-- The edges into a node with the edges out of it, in the order of their bypasses. -/
def pairs (r : Remnant) (n : Int) : List (Edge × Edge) :=
  (r.incoming n).flatMap fun i => (r.outgoing n).map fun o => (i, o)

/-- The bypasses of a node: for each edge into it, one for each edge out of it. -/
def bypasses (r : Remnant) (n : Int) : List Edge :=
  (r.pairs n).zipIdx.map fun ((i, o), k) => .bypass (r.nextEdge + k) i o

def consume (r : Remnant) (n : Int) : Remnant where
  edges := (r.edges.filter fun e => e.src != n && e.dst != n) ++ r.bypasses n
  nextEdge := r.nextEdge + (r.bypasses n).length

def consumeAll (r : Remnant) (ns : List Int) : Remnant := ns.foldl consume r

variable {r : Remnant} {n u v : Int}

/-- Whether an edge leads from a node to another. -/
def Joins (r : Remnant) (u v : Int) : Prop := ∃ e ∈ r.edges, e.src = u ∧ e.dst = v

theorem joins_ofGraph_iff {g : Graph} : (ofGraph g).Joins u v ↔ v ∈ g.succs u := Graph.mem_succs_iff.symm

/-! ## Consuming one node -/

theorem ends_bypasses (r : Remnant) (n : Int) :
    (r.bypasses n).map Edge.ends = (r.pairs n).map fun p => (p.1.src, p.2.dst) := by
  have h : (r.bypasses n).map Edge.ends = ((r.pairs n).zipIdx.map Prod.fst).map fun p => (p.1.src, p.2.dst) := by
    simp only [bypasses, pairs, List.map_map]
    rfl
  rw [h, List.zipIdx_map_fst]

theorem ids_bypasses (r : Remnant) (n : Int) :
    (r.bypasses n).map Edge.id = (List.range (r.bypasses n).length).map fun (k : Nat) => r.nextEdge + k := by
  have h : (r.bypasses n).map Edge.id = ((r.pairs n).zipIdx.map Prod.snd).map fun (k : Nat) => r.nextEdge + k := by
    simp only [bypasses, pairs, List.map_map]
    rfl
  have hlength : (r.bypasses n).length = (r.pairs n).length := by simp [bypasses, pairs]
  rw [h, List.zipIdx_map_snd, ← List.range_eq_range', hlength]

theorem mem_pairs_iff {i o : Edge} :
    (i, o) ∈ r.pairs n ↔ (i ∈ r.edges ∧ i.dst = n ∧ i.src ≠ n) ∧ o ∈ r.edges ∧ o.src = n ∧ o.dst ≠ n := by
  have hin : i ∈ r.incoming n ↔ i ∈ r.edges ∧ i.dst = n ∧ i.src ≠ n := by
    simp only [incoming, Edge.isLoop, List.mem_filter, Bool.and_eq_true, beq_iff_eq, Bool.not_eq_true',
      beq_eq_false_iff_ne, ne_eq]
    refine and_congr_right fun _ => and_congr_right fun hd => ?_
    rw [hd]
  have hout : o ∈ r.outgoing n ↔ o ∈ r.edges ∧ o.src = n ∧ o.dst ≠ n := by
    simp only [outgoing, Edge.isLoop, List.mem_filter, Bool.and_eq_true, beq_iff_eq, Bool.not_eq_true',
      beq_eq_false_iff_ne, ne_eq]
    refine and_congr_right fun _ => and_congr_right fun hs => ?_
    rw [hs, eq_comm]
  rw [← hin, ← hout]
  simp [pairs]

theorem exists_bypass_iff :
    (∃ e ∈ r.bypasses n, e.src = u ∧ e.dst = v) ↔ u ≠ n ∧ v ≠ n ∧ r.Joins u n ∧ r.Joins n v := by
  have hends : (∃ e ∈ r.bypasses n, e.src = u ∧ e.dst = v) ↔ (u, v) ∈ (r.bypasses n).map Edge.ends := by
    simp [Edge.ends]
  rw [hends, ends_bypasses, List.mem_map]
  constructor
  · rintro ⟨⟨i, o⟩, hp, heq⟩
    obtain ⟨⟨hi, hid, his⟩, ho, hos, hod⟩ := mem_pairs_iff.1 hp
    obtain ⟨rfl, rfl⟩ := Prod.mk.inj heq
    exact ⟨his, hod, ⟨i, hi, rfl, hid⟩, ⟨o, ho, hos, rfl⟩⟩
  · rintro ⟨hu, hv, ⟨i, hi, rfl, hid⟩, ⟨o, ho, hos, rfl⟩⟩
    exact ⟨(i, o), mem_pairs_iff.2 ⟨⟨hi, hid, hu⟩, ho, hos, hv⟩, rfl⟩

theorem joins_consume_iff :
    (r.consume n).Joins u v ↔ u ≠ n ∧ v ≠ n ∧ (r.Joins u v ∨ r.Joins u n ∧ r.Joins n v) := by
  have hsplit : (r.consume n).Joins u v ↔
      (u ≠ n ∧ v ≠ n ∧ r.Joins u v) ∨ ∃ e ∈ r.bypasses n, e.src = u ∧ e.dst = v := by
    simp only [Joins, consume, List.mem_append, List.mem_filter, Bool.and_eq_true, bne_iff_ne]
    constructor
    · rintro ⟨e, ⟨he, hs, hd⟩ | he, rfl, rfl⟩
      · exact Or.inl ⟨hs, hd, e, he, rfl, rfl⟩
      · exact Or.inr ⟨e, he, rfl, rfl⟩
    · rintro (⟨hs, hd, e, he, rfl, rfl⟩ | ⟨e, he, rfl, rfl⟩)
      · exact ⟨e, Or.inl ⟨he, hs, hd⟩, rfl, rfl⟩
      · exact ⟨e, Or.inr he, rfl, rfl⟩
  rw [hsplit, exists_bypass_iff]
  constructor
  · rintro (⟨hu, hv, h⟩ | ⟨hu, hv, h⟩)
    · exact ⟨hu, hv, Or.inl h⟩
    · exact ⟨hu, hv, Or.inr h⟩
  · rintro ⟨hu, hv, h | h⟩
    · exact Or.inl ⟨hu, hv, h⟩
    · exact Or.inr ⟨hu, hv, h⟩

/-! ## Identities -/

/-- Identities are distinct and below the next one. -/
structure Numbered (r : Remnant) : Prop where
  distinct : (r.edges.map Edge.id).Nodup
  below : ∀ e ∈ r.edges, e.id < r.nextEdge

theorem numbered_ofGraph (g : Graph) : (ofGraph g).Numbered where
  distinct := g.wired.edges_distinct
  below _ he := Int.lt_add_one_of_le (Graph.le_largest (List.mem_map_of_mem he))

theorem Numbered.consume (h : r.Numbered) (n : Int) : (r.consume n).Numbered := by
  have hbypass : ∀ i ∈ (r.bypasses n).map Edge.id, r.nextEdge ≤ i ∧ i < r.nextEdge + (r.bypasses n).length := by
    intro i hi
    rw [ids_bypasses] at hi
    obtain ⟨k, hk, rfl⟩ := List.mem_map.1 hi
    rw [List.mem_range] at hk
    omega
  refine ⟨?_, fun e he => ?_⟩
  · simp only [Remnant.consume, List.map_append]
    rw [List.nodup_append]
    refine ⟨h.distinct.sublist (List.filter_sublist.map _), ?_, fun i hi j hj => ?_⟩
    · rw [ids_bypasses, List.Nodup, List.pairwise_map]
      exact List.nodup_range.imp fun {i j} hij heq => hij (by omega)
    · obtain ⟨e, he, rfl⟩ := List.mem_map.1 hi
      have := h.below e (List.mem_filter.1 he).1
      have := hbypass j hj
      omega
  · simp only [Remnant.consume] at he ⊢
    rcases List.mem_append.1 he with he | he
    · have := h.below e (List.mem_filter.1 he).1
      omega
    · exact (hbypass e.id (List.mem_map_of_mem he)).2

theorem Numbered.consumeAll (ns : List Int) (h : r.Numbered) : (r.consumeAll ns).Numbered := by
  induction ns generalizing r with
  | nil => exact h
  | cons n ns ih => exact ih (h.consume n)

end Remnant

/-! ## Consuming several nodes -/

/-- The ways around a node and others are the ways around the others, made of the edges after the node is consumed. -/
theorem Detour.consume_iff {r : Remnant} {n u v : Int} {S : Int → Prop} :
    Detour (r.consume n).Joins S u v ↔ u ≠ n ∧ v ≠ n ∧ Detour r.Joins (fun m => m = n ∨ S m) u v := by
  constructor
  · intro h
    induction h with
    | direct h =>
      obtain ⟨hu, hv, h | ⟨hin, hout⟩⟩ := Remnant.joins_consume_iff.1 h
      · exact ⟨hu, hv, .direct h⟩
      · exact ⟨hu, hv, .via hin (Or.inl rfl) (.direct hout)⟩
    | via h hS _ ih =>
      obtain ⟨hu, -, h | ⟨hin, hout⟩⟩ := Remnant.joins_consume_iff.1 h
      · exact ⟨hu, ih.2.1, .via h (Or.inr hS) ih.2.2⟩
      · exact ⟨hu, ih.2.1, .via hin (Or.inl rfl) (.via hout (Or.inr hS) ih.2.2)⟩
  · rintro ⟨hu, hv, h⟩
    -- while the way is at `n`, what counts is the node from which it came there
    have key : (u ≠ n → Detour (r.consume n).Joins S u v) ∧
        (u = n → ∀ w, w ≠ n → r.Joins w n → Detour (r.consume n).Joins S w v) := by
      clear hu
      induction h with
      | direct h =>
        refine ⟨fun hu => .direct (Remnant.joins_consume_iff.2 ⟨hu, hv, Or.inl h⟩), fun hu w hw hin => ?_⟩
        exact .direct (Remnant.joins_consume_iff.2 ⟨hw, hv, Or.inr ⟨hin, hu ▸ h⟩⟩)
      | @via u m v h hS _ ih =>
        obtain ⟨hother, hat⟩ := ih hv
        by_cases hm : m = n
        · refine ⟨fun hu => hat hm u hu (hm ▸ h), fun _ w hw hin => hat hm w hw hin⟩
        · have hSm : S m := hS.resolve_left hm
          refine ⟨fun hu => ?_, fun hu w hw hin => ?_⟩
          · exact .via (Remnant.joins_consume_iff.2 ⟨hu, hm, Or.inl h⟩) hSm (hother hm)
          · exact .via (Remnant.joins_consume_iff.2 ⟨hw, hm, Or.inr ⟨hin, hu ▸ h⟩⟩) hSm (hother hm)
    exact key.1 hu

theorem Remnant.joins_consumeAll_iff (ns : List Int) {r : Remnant} {u v : Int} :
    (r.consumeAll ns).Joins u v ↔ u ∉ ns ∧ v ∉ ns ∧ Detour r.Joins (· ∈ ns) u v := by
  induction ns generalizing r with
  | nil =>
    refine ⟨fun h => ⟨by simp, by simp, .direct h⟩, fun ⟨_, _, h⟩ => ?_⟩
    cases h with
    | direct h => exact h
    | via _ hm _ => cases hm
  | cons n ns ih =>
    have hrest : r.consumeAll (n :: ns) = (r.consume n).consumeAll ns := rfl
    rw [hrest, ih, Detour.consume_iff]
    simp only [List.mem_cons, not_or]
    exact ⟨fun ⟨hu, hv, hun, hvn, h⟩ => ⟨⟨hun, hu⟩, ⟨hvn, hv⟩, h⟩,
      fun ⟨⟨hun, hu⟩, ⟨hvn, hv⟩, h⟩ => ⟨hu, hv, hun, hvn, h⟩⟩

/-- An edge that is left when nodes are consumed was there before, or is a bypass. -/
theorem Remnant.mem_consumeAll (ns : List Int) {r : Remnant} {e : Edge} (h : e ∈ (r.consumeAll ns).edges) :
    e ∈ r.edges ∨ e.kind = .bypass := by
  induction ns generalizing r with
  | nil => exact .inl h
  | cons n ns ih =>
    rcases ih (show e ∈ ((r.consume n).consumeAll ns).edges from h) with h | h
    · rcases List.mem_append.1 h with h | h
      · exact .inl (List.mem_filter.1 h).1
      · obtain ⟨p, -, rfl⟩ := List.mem_map.1 h
        exact .inr rfl
    · exact .inr h

/-! ## The edges that are left -/

@[simp] theorem Edge.id_asReduced (e : Edge) : e.asReduced.id = e.id := by
  unfold Edge.asReduced
  split <;> rfl

@[simp] theorem Edge.ends_asReduced (e : Edge) : e.asReduced.ends = e.ends := by
  unfold Edge.asReduced
  split <;> rfl

namespace Graph

variable {g : Graph} {u v : Int}

/-- The edges of a graph after some nodes are consumed. -/
def edgesWithout (g : Graph) (consumed : List Int) : List Edge :=
  (firstPer Edge.ends [] ((Remnant.ofGraph g).consumeAll consumed).edges).map Edge.asReduced

theorem ids_edgesWithout (g : Graph) (ns : List Int) : ((g.edgesWithout ns).map Edge.id).Nodup := by
  have hids : (g.edgesWithout ns).map Edge.id =
      (firstPer Edge.ends [] ((Remnant.ofGraph g).consumeAll ns).edges).map Edge.id := by
    simp [edgesWithout]
  rw [hids]
  exact ((Remnant.numbered_ofGraph g).consumeAll ns).distinct.sublist ((firstPer_sublist _ _ _).map _)

theorem exists_of_mem_edgesWithout {ns : List Int} {d : Edge} (h : d ∈ g.edgesWithout ns) :
    ∃ e, d = e.asReduced ∧ (e ∈ g.edges ∨ e.kind = .bypass) := by
  rw [edgesWithout] at h
  obtain ⟨e, he, rfl⟩ := List.mem_map.1 h
  exact ⟨e, rfl, Remnant.mem_consumeAll ns ((firstPer_sublist _ _ _).subset he)⟩

/-- Two nodes are joined after an elimination if there is a way between them around the consumed nodes. -/
theorem joined_edgesWithout_iff (ns : List Int) :
    (∃ e ∈ g.edgesWithout ns, e.src = u ∧ e.dst = v) ↔
      u ∉ ns ∧ v ∉ ns ∧ Detour (fun x y => y ∈ g.succs x) (· ∈ ns) u v := by
  have hends : ∀ edges : List Edge,
      (∃ e ∈ edges, e.src = u ∧ e.dst = v) ↔ (u, v) ∈ edges.map Edge.ends := fun edges => by simp [Edge.ends]
  have hmap : (g.edgesWithout ns).map Edge.ends =
      (firstPer Edge.ends [] ((Remnant.ofGraph g).consumeAll ns).edges).map Edge.ends := by
    simp [edgesWithout]
  have harcs : (Remnant.ofGraph g).Joins = fun x y => y ∈ g.succs x := by
    funext x y
    exact propext Remnant.joins_ofGraph_iff
  rw [hends, hmap, mem_keys_firstPer_iff, ← hends, ← harcs, ← Remnant.joins_consumeAll_iff]
  simp [Remnant.Joins]

end Graph

end Flowgraph
