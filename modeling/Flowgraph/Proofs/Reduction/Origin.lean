import Flowgraph.Proofs.Reduction.Walk
import Mathlib.Data.List.Induction
/-!
# Where the edges of a reduced graph come from

Between two kept nodes a reduced graph has at most one edge. Either the graph has edges between them, and it is the first of
these (`Edge.KeptFrom`), or it has none, and it is a bypass of a way through consumed nodes, with the label, the flag, the
attributes and the tags of the first edge on this way (`Edge.Bypasses`). This is `Reduction.edges_have_origins`.

* A bypass takes what it carries from the edge into the consumed node. If that edge is itself a bypass, then its way starts
  the new way (`Edge.StandsFor.join`), so that what is carried always comes from the first edge.
* While nodes are consumed, the edges that were there before stay in front and in order, and all bypasses come after them
  (`Remnant.Traces`). One elimination keeps this (`Remnant.Traces.consume`), so a run does (`Remnant.traces_consumeAll`), and
  the first edge between two nodes is a bypass only if there was none before.
-/

namespace Flowgraph

namespace Graph

variable {g : Graph} {u v w : Int} {edges more : List Edge}

/-! ## Routes -/

theorem Route.append (h : g.Route u edges v) (k : g.Route v more w) : g.Route u (edges ++ more) w := by
  induction h with
  | stay _ => exact k
  | step he _ ih => exact .step he (ih k)

/-- A route comes to the nodes in between and then to its end. -/
theorem Route.map_dst_eq (h : g.Route u edges v) (hne : edges ≠ []) :
    edges.map Edge.dst = edges.dropLast.map Edge.dst ++ [v] := by
  obtain ⟨before, e, rfl⟩ : ∃ before e, edges = before ++ [e] := ⟨_, _, (List.dropLast_concat_getLast hne).symm⟩
  have hlast := h.walk.last_eq
  rw [List.map_append, ← List.cons_append, List.map_singleton, List.getLast?_append_of_ne_nil _ (by simp),
    List.getLast?_singleton, Option.some.injEq] at hlast
  rw [List.dropLast_concat, List.map_append, List.map_singleton, hlast]

end Graph

/-! ## What an edge stands for -/

namespace Edge

variable {g : Graph} {S : Int → Prop} {d i o first second : Edge} {rest more : List Edge}

/-- An edge stands for a way with nodes of a kind in between if it leads from the start of the way to its end and has the
label, the flag and the attributes of the first edge on it. -/
structure StandsFor (d : Edge) (g : Graph) (S : Int → Prop) (first : Edge) (rest : List Edge) : Prop where
  route : g.Route d.src (first :: rest) d.dst
  inner : ∀ m ∈ (first :: rest).dropLast.map Edge.dst, S m
  label : d.label = first.label
  back : d.back = first.back
  attrs : d.attrs = first.attrs

/-- A bypass stands for a way of more than one edge. It is new, and has the tags of the first edge on the way and
the two that mark it as made by the reduction. -/
structure Bypasses (d : Edge) (g : Graph) (S : Int → Prop) (first : Edge) (rest : List Edge) : Prop
    extends d.StandsFor g S first rest where
  long : rest ≠ []
  kind : d.kind = .bypass
  fresh : ∀ f ∈ g.edges, f.id < d.id
  tags : ∀ t, t ∈ d.tags ↔ t ∈ first.tags ∨ t = Tag.newEventEdge ∨ t = Tag.eventEdge

/-- An edge was kept if it is the first of its graph between its ends, marked as reduced with its old kind as a tag. A
bypass that was in the graph already is kept as it was. -/
structure KeptFrom (d : Edge) (g : Graph) (f : Edge) : Prop where
  first : (g.between d.src d.dst).head? = some f
  id : d.id = f.id
  src : d.src = f.src
  dst : d.dst = f.dst
  label : d.label = f.label
  back : d.back = f.back
  attrs : d.attrs = f.attrs
  reduced : f.kind ≠ .bypass →
    d.kind = .reduced ∧ ∀ t, t ∈ d.tags ↔ t ∈ f.tags ∨ t = f.kind.name ∨ t = Tag.eventEdge
  unchanged : f.kind = .bypass → d = f

theorem standsFor_self (hd : d ∈ g.edges) : d.StandsFor g S d [] where
  route := .step hd (.stay (g.wired.closed d hd).2)
  inner := by simp
  label := rfl
  back := rfl
  attrs := rfl

/-- The bypass of two edges stands for the ways of both, one after the other. -/
theorem StandsFor.join (hi : i.StandsFor g S first rest) (ho : o.StandsFor g S second more) (hmeet : i.dst = o.src)
    (hS : S i.dst) (id : Int) : (Edge.bypass id i o).StandsFor g S first (rest ++ second :: more) where
  route := hi.route.append (hmeet ▸ ho.route)
  inner := by
    rw [← List.cons_append, List.dropLast_append_cons, List.map_append, hi.route.map_dst_eq (List.cons_ne_nil _ _)]
    intro m hm
    rcases List.mem_append.1 hm with hm | hm
    · rcases List.mem_append.1 hm with hm | hm
      · exact hi.inner m hm
      · rw [List.mem_singleton.1 hm]
        exact hS
    · exact ho.inner m hm
  label := hi.label
  back := hi.back
  attrs := hi.attrs

theorem keptFrom_asReduced (h : (g.between d.src d.dst).head? = some d) : d.asReduced.KeptFrom g d := by
  by_cases hkind : d.kind = .bypass
  · have hsame : d.asReduced = d := if_pos hkind
    rw [hsame]
    exact ⟨h, rfl, rfl, rfl, rfl, rfl, rfl, fun hnot => absurd hkind hnot, fun _ => rfl⟩
  · have hchanged : d.asReduced =
        { d with kind := .reduced, tags := d.tags.insertAll [d.kind.name, Tag.eventEdge] } := if_neg hkind
    rw [hchanged]
    refine ⟨h, rfl, rfl, rfl, rfl, rfl, rfl, fun _ => ⟨rfl, fun t => ?_⟩, fun hnot => absurd hnot hkind⟩
    rw [TagSet.mem_insertAll, List.mem_pair, or_comm]

end Edge

/-! ## Consuming nodes -/

namespace Remnant

variable {r : Remnant} {g : Graph} {S : Int → Prop} {n : Int} {ns : List Int} {made : List Edge} {d : Edge}

/-- The edges that were there before and still have both ends come first, in order; all others are bypasses. -/
structure Traces (r : Remnant) (g : Graph) (S : Int → Prop) (ns : List Int) (made : List Edge) : Prop where
  edges : r.edges = g.edges.filter (fun e => e.src ∉ ns ∧ e.dst ∉ ns) ++ made
  bypasses : ∀ d ∈ made, ∃ first rest, d.Bypasses g S first rest
  next : ∀ f ∈ g.edges, f.id < r.nextEdge

/-- Every edge on the way stands for something, and the two tags of bypasses are all that it may have gained. -/
theorem Traces.exists_standsFor (h : r.Traces g S ns made) (hd : d ∈ r.edges) :
    ∃ first rest, d.StandsFor g S first rest ∧ ∀ t,
      (t ∈ d.tags ∨ t = Tag.newEventEdge ∨ t = Tag.eventEdge) ↔
        t ∈ first.tags ∨ t = Tag.newEventEdge ∨ t = Tag.eventEdge := by
  rw [h.edges] at hd
  rcases List.mem_append.1 hd with hd | hd
  · exact ⟨d, [], Edge.standsFor_self (List.mem_filter.1 hd).1, fun t => Iff.rfl⟩
  · obtain ⟨first, rest, hbypass⟩ := h.bypasses d hd
    refine ⟨first, rest, hbypass.toStandsFor, fun t => ?_⟩
    rw [hbypass.tags, or_assoc, or_self_iff]

theorem exists_of_mem_bypasses (h : d ∈ r.bypasses n) :
    ∃ i o, ∃ k : Nat, (i, o) ∈ r.pairs n ∧ d = .bypass (r.nextEdge + k) i o := by
  obtain ⟨⟨⟨i, o⟩, k⟩, hmem, rfl⟩ := List.mem_map.1 h
  exact ⟨i, o, k, List.fst_mem_of_mem_zipIdx hmem, rfl⟩

theorem Traces.bypasses_of_mem (h : r.Traces g S ns made) (hn : S n) (hd : d ∈ r.bypasses n) :
    ∃ first rest, d.Bypasses g S first rest := by
  obtain ⟨i, o, k, hpair, rfl⟩ := exists_of_mem_bypasses hd
  obtain ⟨⟨hi, hidst, -⟩, ho, hosrc, -⟩ := mem_pairs_iff.1 hpair
  obtain ⟨first, rest, hfirst, htags⟩ := h.exists_standsFor hi
  obtain ⟨second, more, hsecond, -⟩ := h.exists_standsFor ho
  refine ⟨first, rest ++ second :: more, hfirst.join hsecond (hidst.trans hosrc.symm) (hidst ▸ hn) _, by simp, rfl,
    fun f hf => ?_, fun t => ?_⟩
  · have hnext := h.next f hf
    show f.id < r.nextEdge + k
    omega
  · show t ∈ i.tags.insertAll [Tag.newEventEdge, Tag.eventEdge] ↔ _
    rw [TagSet.mem_insertAll, List.mem_pair, or_comm, htags]

theorem Traces.consume (h : r.Traces g S ns made) (hn : S n) :
    ∃ made', (r.consume n).Traces g S (ns ++ [n]) made' := by
  refine ⟨made.filter (fun e => e.src != n && e.dst != n) ++ r.bypasses n, ?_, fun d hd => ?_, fun f hf => ?_⟩
  · simp only [Remnant.consume]
    rw [h.edges, List.filter_append, List.filter_filter, List.append_assoc]
    congr 1
    refine List.filter_congr fun e _ => ?_
    rw [Bool.eq_iff_iff]
    simp only [Bool.and_eq_true, bne_iff_ne, decide_eq_true_eq, List.mem_append, List.mem_singleton, not_or]
    constructor
    · rintro ⟨⟨hs, hd⟩, hs', hd'⟩
      exact ⟨⟨hs', hs⟩, hd', hd⟩
    · rintro ⟨⟨hs', hs⟩, hd', hd⟩
      exact ⟨⟨hs, hd⟩, hs', hd'⟩
  · rcases List.mem_append.1 hd with hd | hd
    · exact h.bypasses d (List.mem_filter.1 hd).1
    · exact h.bypasses_of_mem hn hd
  · have hnext := h.next f hf
    simp only [Remnant.consume]
    omega

theorem traces_consumeAll (g : Graph) (ns : List Int) (hS : ∀ n ∈ ns, S n) :
    ∃ made, ((ofGraph g).consumeAll ns).Traces g S ns made := by
  induction ns using List.reverseRecOn with
  | nil =>
    refine ⟨[], ?_, by simp, (numbered_ofGraph g).below⟩
    simp [consumeAll, ofGraph]
  | append_singleton ns n ih =>
    obtain ⟨made, hmade⟩ := ih fun m hm => hS m (List.mem_append_left [n] hm)
    have hlast : (ofGraph g).consumeAll (ns ++ [n]) = ((ofGraph g).consumeAll ns).consume n := by
      rw [consumeAll, List.foldl_append]
      rfl
    rw [hlast]
    exact hmade.consume (hS n (by simp))

end Remnant

/-! ## The edges that are left -/

namespace Graph

variable {g : Graph} {ns : List Int} {d e : Edge}

/-- Of the edges that still have both ends, the first between two nodes that are kept is the first of all between them. -/
theorem find?_kept (hsrc : e.src ∉ ns) (hdst : e.dst ∉ ns) :
    (g.edges.filter (fun f => f.src ∉ ns ∧ f.dst ∉ ns)).find? (fun f => f.ends = e.ends) =
      (g.between e.src e.dst).head? := by
  rw [← List.head?_filter, between, outEdges, List.filter_filter, List.filter_filter]
  congr 1
  refine List.filter_congr fun f _ => ?_
  rw [Bool.eq_iff_iff]
  simp only [Bool.and_eq_true, beq_iff_eq, decide_eq_true_eq, Edge.ends, Prod.mk.injEq]
  constructor
  · rintro ⟨⟨hs, hd⟩, -⟩
    exact ⟨hd, hs⟩
  · rintro ⟨hd, hs⟩
    rw [hs, hd]
    exact ⟨⟨rfl, rfl⟩, hsrc, hdst⟩

theorem ends_edgesWithout (g : Graph) (ns : List Int) : ((g.edgesWithout ns).map Edge.ends).Nodup := by
  have hends : (g.edgesWithout ns).map Edge.ends =
      (firstPer Edge.ends [] ((Remnant.ofGraph g).consumeAll ns).edges).map Edge.ends := by
    simp [edgesWithout]
  rw [hends]
  exact nodup_keys_firstPer _ _ _

theorem origin_of_mem_edgesWithout (hd : d ∈ g.edgesWithout ns) :
    (∃ f, d.KeptFrom g f) ∨
      (g.between d.src d.dst = [] ∧ ∃ first rest, d.Bypasses g (· ∈ ns) first rest) := by
  obtain ⟨hsrc, hdst, -⟩ := (g.joined_edgesWithout_iff ns).1 ⟨d, hd, rfl, rfl⟩
  rw [edgesWithout] at hd
  obtain ⟨e, he, rfl⟩ := List.mem_map.1 hd
  obtain ⟨hsrc', hdst'⟩ : e.asReduced.src = e.src ∧ e.asReduced.dst = e.dst := Prod.mk.inj e.ends_asReduced
  rw [hsrc'] at hsrc
  rw [hdst'] at hdst
  obtain ⟨made, htraces⟩ := Remnant.traces_consumeAll g ns fun n hn => hn
  have hfind := find?_of_mem_firstPer Edge.ends he
  rw [htraces.edges, List.find?_append, find?_kept hsrc hdst] at hfind
  cases hfirst : (g.between e.src e.dst).head? with
  | some f =>
    rw [hfirst, Option.some_or] at hfind
    rw [Option.some.inj hfind] at hfirst
    exact Or.inl ⟨e, Edge.keptFrom_asReduced hfirst⟩
  | none =>
    rw [hfirst, Option.none_or] at hfind
    obtain ⟨first, rest, hbypass⟩ := htraces.bypasses e (List.mem_of_find?_eq_some hfind)
    have hsame : e.asReduced = e := if_pos hbypass.kind
    rw [hsame]
    exact Or.inr ⟨List.head?_eq_none_iff.1 hfirst, first, rest, hbypass⟩

end Graph

namespace Reduction

/-- A reduced graph has at most one edge between two nodes. It is the first that the graph has between them, or, where the
graph has none, a bypass of a way between them through consumed nodes. -/
theorem edges_have_origins (a : Augmented) (refs : List NodeRef) (name : Option String)
    (h : ∀ ref ∈ refs, ref.key ∈ a.graph.nodeIds) :
    ∃ r e, ofEvents a refs name = .ok r ∧ (∀ log, (r.construct.run log).1 = .ok e) ∧
      (e.graph.edges.map Edge.ends).Nodup ∧
      ∀ d ∈ e.graph.edges, (∃ f, d.KeptFrom a.graph f) ∨
        (a.graph.between d.src d.dst = [] ∧
          ∃ first rest, d.Bypasses a.graph (· ∈ e.consumed.map Node.id) first rest) := by
  obtain ⟨r, e, hr, he, -, ids, hmade⟩ := exists_construct name h
  refine ⟨r, e, hr, he, ?_, fun d hd => ?_⟩
  · rw [hmade.edges]
    exact Graph.ends_edgesWithout _ _
  · rw [hmade.edges] at hd
    exact Graph.origin_of_mem_edgesWithout hd

theorem edges_have_origins_twoEntryLoop :
    (∀ ref ∈ [NodeRef.id 1], ref.key ∈ twoEntryLoop.graph.nodeIds) ∧
    ∃ r e, ofEvents twoEntryLoop [.id 1] none = .ok r ∧ (∀ log, (r.construct.run log).1 = .ok e) ∧
      (e.graph.edges.map Edge.ends).Nodup ∧
      ∀ d ∈ e.graph.edges, (∃ f, d.KeptFrom twoEntryLoop.graph f) ∨
        (twoEntryLoop.graph.between d.src d.dst = [] ∧
          ∃ first rest, d.Bypasses twoEntryLoop.graph (· ∈ e.consumed.map Node.id) first rest) := by
  have hrefs : ∀ ref ∈ [NodeRef.id 1], ref.key ∈ twoEntryLoop.graph.nodeIds := by decide
  exact ⟨hrefs, edges_have_origins twoEntryLoop [.id 1] none hrefs⟩

end Reduction

end Flowgraph
