import Flowgraph.Proofs.Reduction.Elimination
import Flowgraph.Proofs.Table
import Mathlib.Data.List.Nodup
/-!
# The tables of the elimination

While nodes are consumed, the edges are kept in a table by identity, and for each node the identities of the edges out of it and
into it in two more. The tables of a list of edges (`Remnant.indexed`) list exactly these edges, and every operation on them is
an operation on the list:

* adding an edge with a new identity appends it (`IndexedEdges.add_indexed`), and removing one leaves it out
  (`IndexedEdges.remove_indexed`);
* consuming a node of the graph consumes it in the list (`IndexedEdges.consume_indexed`). A loop at the node is listed both out of
  it and into it, and is gone when it is come upon for the second time.

So no table is ever asked for a key that it lacks, and the elimination gives the edges that the list is left with
(`Graph.eliminate_eq_ok`). After any part of it, the tables are consistent (`IndexedEdges.Consistent`).
-/

namespace Flowgraph

/-! ## Tables of edges -/

namespace Table

variable {edges : List Edge} {e : Edge}

def ofEdges (edges : List Edge) : Table Edge := edges.map fun e => (e.id, e)

@[simp] theorem keys_ofEdges : keys (ofEdges edges) = edges.map Edge.id := keys_ofList _ _ edges

@[simp] theorem values_ofEdges : values (ofEdges edges) = edges := (values_ofList _ _ edges).trans (List.map_id' edges)

theorem entry_ofEdges (hdistinct : (edges.map Edge.id).Nodup) (he : e ∈ edges) : entry (ofEdges edges) e.id = .ok e := by
  have hlookup : (ofEdges edges).lookup e.id = some e := by
    induction edges with
    | nil => cases he
    | cons d edges ih =>
      rw [List.map_cons, List.nodup_cons] at hdistinct
      rw [ofEdges, List.map_cons, List.lookup_cons]
      by_cases hed : e.id = d.id
      · rcases List.mem_cons.1 he with rfl | he
        · simp
        · exact absurd (hed ▸ List.mem_map_of_mem he) hdistinct.1
      · rw [beq_eq_false_iff_ne.2 hed]
        exact ih hdistinct.2 ((List.mem_cons.1 he).resolve_left fun h => hed (h ▸ rfl))
  rw [entry, hlookup]

theorem mapM_entry_ofEdges {some : List Edge} (hdistinct : (edges.map Edge.id).Nodup) (hsome : ∀ e ∈ some, e ∈ edges) :
    (some.map Edge.id).mapM (ofEdges edges).entry = .ok some := by
  induction some with
  | nil => rfl
  | cons e some ih =>
    obtain ⟨he, hrest⟩ := List.forall_mem_cons.1 hsome
    rw [List.map_cons, List.mapM_cons, entry_ofEdges hdistinct he, ih hrest]
    rfl

theorem put_ofEdges (hnew : e.id ∉ edges.map Edge.id) : put (ofEdges edges) e.id e = ofEdges (edges ++ [e]) :=
  put_ofList Edge.id (fun e => e) hnew

theorem without_ofEdges (he : e.id ∈ edges.map Edge.id) :
    without (ofEdges edges) e.id = .ok (ofEdges (edges.filter (·.id != e.id))) := by
  rw [without, keys_ofEdges, if_pos he]
  simp [ofEdges, List.filter_map, Function.comp_def]

end Table

namespace IndexedEdges

open Table (tabulate ofEdges)

variable {nodes : List Int} {edges : List Edge} {e : Edge} {n : Int}

/-! ## One index -/

/-- For each node, the identities of the edges that have it on one side. -/
def index (side : Edge → Int) (nodes : List Int) (edges : List Edge) : Table (List Int) :=
  tabulate nodes fun n => (edges.filter (side · == n)).map Edge.id

variable {side : Edge → Int}

theorem enlist_index (hnode : side e ∈ nodes) (hnew : e.id ∉ edges.map Edge.id) :
    (index side nodes edges).change (side e) (enlist e.id) = .ok (index side nodes (edges ++ [e])) := by
  have hunlisted : e.id ∉ (edges.filter (side · == side e)).map Edge.id :=
    fun h => hnew ((List.filter_sublist.map _).subset h)
  refine Table.change_tabulate hnode ?_ fun m hm => ?_
  · rw [enlist, if_neg hunlisted]
    simp
  · simp [List.filter_append, Ne.symm hm]

theorem delist_index (hnode : side e ∈ nodes) (hdistinct : (edges.map Edge.id).Nodup) (he : e ∈ edges) :
    (index side nodes edges).change (side e) (delist e.id) = .ok (index side nodes (edges.filter (·.id != e.id))) := by
  refine Table.change_tabulate hnode ?_ fun m hm => ?_
  · simp [delist, List.filter_map, List.filter_filter, Function.comp_def, Bool.and_comm]
  · -- the edge is the only one of its identity, and it is not at another node
    rw [List.filter_filter]
    refine congrArg _ (List.filter_congr fun f hf => ?_)
    by_cases hid : f.id = e.id
    · obtain rfl : f = e := List.inj_on_of_nodup_map hdistinct hf he hid
      simp [Ne.symm hm]
    · simp [hid]

theorem entries_index (hnode : n ∈ nodes) (hdistinct : (edges.map Edge.id).Nodup) :
    ((index side nodes edges).entry n >>= fun ids => ids.mapM (ofEdges edges).entry) = .ok (edges.filter (side · == n)) := by
  rw [index, Table.entry_tabulate hnode]
  exact Table.mapM_entry_ofEdges hdistinct fun e he => (List.mem_filter.1 he).1

end IndexedEdges

/-! ## The tables of a remnant -/

/-- The tables of a list of edges. -/
def Remnant.indexed (r : Remnant) (nodes : List Int) : IndexedEdges where
  edges := .ofEdges r.edges
  out := IndexedEdges.index Edge.src nodes r.edges
  into := IndexedEdges.index Edge.dst nodes r.edges
  nextEdge := r.nextEdge

/-- Whether both ends of all edges are among some nodes. -/
def Remnant.Within (r : Remnant) (nodes : List Int) : Prop := ∀ e ∈ r.edges, e.src ∈ nodes ∧ e.dst ∈ nodes

namespace IndexedEdges

variable {r : Remnant} {nodes : List Int} {e : Edge} {n : Int}

theorem add_indexed (hnew : e.id ∉ r.edges.map Edge.id) (hsrc : e.src ∈ nodes) (hdst : e.dst ∈ nodes) :
    (r.indexed nodes).add e = .ok ((⟨r.edges ++ [e], r.nextEdge⟩ : Remnant).indexed nodes) := by
  simp only [add, Remnant.indexed]
  rw [enlist_index hsrc hnew, enlist_index hdst hnew, Table.put_ofEdges hnew]
  rfl

theorem remove_indexed (hdistinct : (r.edges.map Edge.id).Nodup) (hwithin : r.Within nodes) (he : e ∈ r.edges) :
    (r.indexed nodes).remove e = .ok ((⟨r.edges.filter (·.id != e.id), r.nextEdge⟩ : Remnant).indexed nodes) := by
  obtain ⟨hsrc, hdst⟩ := hwithin e he
  simp only [remove, Remnant.indexed]
  rw [Table.without_ofEdges (List.mem_map_of_mem he), delist_index hsrc hdistinct he, delist_index hdst hdistinct he]
  rfl

theorem inEdges_indexed (hdistinct : (r.edges.map Edge.id).Nodup) (hn : n ∈ nodes) :
    (r.indexed nodes).inEdges n = .ok (r.edges.filter (·.dst == n)) := entries_index hn hdistinct

theorem outEdges_indexed (hdistinct : (r.edges.map Edge.id).Nodup) (hn : n ∈ nodes) :
    (r.indexed nodes).outEdges n = .ok (r.edges.filter (·.src == n)) := entries_index hn hdistinct

/-- Adding edges with new identities one by one appends them. -/
theorem foldlM_add_indexed (edges : List Edge) (hnew : ((r.edges ++ edges).map Edge.id).Nodup)
    (hedges : ∀ e ∈ edges, e.src ∈ nodes ∧ e.dst ∈ nodes) :
    edges.foldlM add (r.indexed nodes) = .ok ((⟨r.edges ++ edges, r.nextEdge⟩ : Remnant).indexed nodes) := by
  induction edges generalizing r with
  | nil => rw [List.append_nil]; rfl
  | cons e edges ih =>
    have hid : e.id ∉ r.edges.map Edge.id := by
      rw [List.map_append, List.map_cons, List.nodup_append] at hnew
      exact fun hmem => hnew.2.2 _ hmem _ List.mem_cons_self rfl
    obtain ⟨⟨hsrc, hdst⟩, hrest⟩ := List.forall_mem_cons.1 hedges
    have hassoc : r.edges ++ e :: edges = (r.edges ++ [e]) ++ edges := by simp
    rw [List.foldlM_cons, add_indexed hid hsrc hdst, hassoc]
    rw [hassoc] at hnew
    exact ih hnew hrest

theorem ofGraph_eq_ok (g : Graph) : ofGraph g = .ok ((Remnant.ofGraph g).indexed g.nodeIds) :=
  foldlM_add_indexed (r := ⟨[], g.maxEdgeId + 1⟩) g.edges g.wired.edges_distinct g.wired.closed

/-- Steps that are steps on the list, as long as something holds of it, make a run that is a run on the list. -/
theorem foldlM_indexed {α : Type} {P : Remnant → Prop} {k : IndexedEdges → α → Except Fault IndexedEdges}
    {f : Remnant → α → Remnant} (l : List α)
    (hstep : ∀ r, P r → ∀ a ∈ l, k (r.indexed nodes) a = .ok ((f r a).indexed nodes) ∧ P (f r a)) (hr : P r) :
    l.foldlM k (r.indexed nodes) = .ok ((l.foldl f r).indexed nodes) ∧ P (l.foldl f r) := by
  induction l generalizing r with
  | nil => exact ⟨rfl, hr⟩
  | cons a l ih =>
    obtain ⟨hk, hnext⟩ := hstep r hr a List.mem_cons_self
    rw [List.foldlM_cons, hk]
    exact ih (fun r hr b hb => hstep r hr b (List.mem_cons_of_mem a hb)) hnext

end IndexedEdges

/-! ## Consuming a node -/

namespace Remnant

variable {r : Remnant} {nodes : List Int} {n : Int}

/-- Adds the bypass of two edges under the next identity. -/
def join (r : Remnant) (p : Edge × Edge) : Remnant := ⟨r.edges ++ [.bypass r.nextEdge p.1 p.2], r.nextEdge + 1⟩

theorem Numbered.not_mem_nextEdge (h : r.Numbered) : r.nextEdge ∉ r.edges.map Edge.id := by
  intro hmem
  obtain ⟨e, he, hid⟩ := List.mem_map.1 hmem
  have := h.below e he
  omega

theorem Numbered.join (h : r.Numbered) (p : Edge × Edge) : (r.join p).Numbered where
  distinct := by
    rw [Remnant.join, List.map_append, List.nodup_append]
    refine ⟨h.distinct, List.nodup_singleton _, fun i hi j hj hij => ?_⟩
    obtain rfl : j = r.nextEdge := List.mem_singleton.1 hj
    exact h.not_mem_nextEdge (hij ▸ hi)
  below e he := by
    rcases List.mem_append.1 he with he | he
    · exact Int.lt_add_one_of_le (Int.le_of_lt (h.below e he))
    · rw [List.mem_singleton.1 he]
      exact Int.lt_succ r.nextEdge

theorem Within.join (h : r.Within nodes) {p : Edge × Edge} (hp : p.1.src ∈ nodes ∧ p.2.dst ∈ nodes) :
    (r.join p).Within nodes := by
  intro e he
  rcases List.mem_append.1 he with he | he
  · exact h e he
  · rw [List.mem_singleton.1 he]
    exact hp

theorem Within.consume (h : r.Within nodes) (n : Int) : (r.consume n).Within nodes := by
  intro e he
  obtain ⟨-, -, ⟨d, hd, hsrc, hdst⟩ | ⟨⟨i, hi, hsrc, -⟩, o, ho, -, hdst⟩⟩ := joins_consume_iff.1 ⟨e, he, rfl, rfl⟩
  · exact ⟨hsrc ▸ (h d hd).1, hdst ▸ (h d hd).2⟩
  · exact ⟨hsrc ▸ (h i hi).1, hdst ▸ (h o ho).2⟩

theorem foldl_join (ps : List (Edge × Edge)) (r : Remnant) :
    ps.foldl join r = ⟨r.edges ++ ps.zipIdx.map fun ((i, o), k) => .bypass (r.nextEdge + k) i o, r.nextEdge + ps.length⟩ := by
  induction ps generalizing r with
  | nil => simp
  | cons p ps ih =>
    rw [List.foldl_cons, ih, List.zipIdx_cons, List.zipIdx_succ]
    have hshift : ∀ k : Int, r.nextEdge + 1 + k = r.nextEdge + (k + 1) := fun k => by omega
    simp [join, hshift]

/-- The bypasses of a node are added to the edges. -/
def joinAll (r : Remnant) (n : Int) : Remnant := ⟨r.edges ++ r.bypasses n, r.nextEdge + (r.bypasses n).length⟩

theorem foldl_join_pairs (r : Remnant) (n : Int) : (r.pairs n).foldl join r = r.joinAll n := by
  have hlength : (r.bypasses n).length = (r.pairs n).length := by simp [bypasses]
  rw [foldl_join, joinAll, hlength, bypasses]

/-- A node is consumed when its edges are left out after its bypasses are added, none of which is at it. -/
theorem consume_eq (r : Remnant) (n : Int) :
    r.consume n = ⟨(r.joinAll n).edges.filter fun e => e.src != n && e.dst != n, (r.joinAll n).nextEdge⟩ := by
  have hbypasses : (r.bypasses n).filter (fun e => e.src != n && e.dst != n) = r.bypasses n := by
    refine List.filter_eq_self.2 fun e he => ?_
    obtain ⟨hsrc, hdst, -⟩ := exists_bypass_iff.1 ⟨e, he, rfl, rfl⟩
    simp [hsrc, hdst]
  rw [consume, joinAll, List.filter_append, hbypasses]

theorem foldl_filter (es : List Edge) (r : Remnant) :
    es.foldl (fun r e => ⟨r.edges.filter (·.id != e.id), r.nextEdge⟩) r =
      ⟨r.edges.filter fun f => f.id ∉ es.map Edge.id, r.nextEdge⟩ := by
  induction es generalizing r with
  | nil => simp
  | cons e es ih =>
    rw [List.foldl_cons, ih, List.filter_filter]
    refine congrArg (Remnant.mk · _) (List.filter_congr fun f _ => ?_)
    rw [Bool.eq_iff_iff]
    simp [and_comm]

end Remnant

namespace IndexedEdges

variable {r : Remnant} {nodes : List Int} {e : Edge} {n : Int}

theorem join_indexed (hnum : r.Numbered) {p : Edge × Edge} (hsrc : p.1.src ∈ nodes) (hdst : p.2.dst ∈ nodes) :
    (r.indexed nodes).join p = .ok ((r.join p).indexed nodes) := by
  have hadd := add_indexed (e := .bypass r.nextEdge p.1 p.2) hnum.not_mem_nextEdge hsrc hdst
  rw [join, show (r.indexed nodes).nextEdge = r.nextEdge from rfl, hadd]
  rfl

/-- An edge that is not there by its identity is left out already. -/
theorem discard_indexed (hdistinct : (r.edges.map Edge.id).Nodup) (hwithin : r.Within nodes)
    (he : e.id ∈ r.edges.map Edge.id → e ∈ r.edges) :
    (r.indexed nodes).discard e = .ok ((⟨r.edges.filter (·.id != e.id), r.nextEdge⟩ : Remnant).indexed nodes) := by
  rw [discard, show (r.indexed nodes).edges.keys = r.edges.map Edge.id from Table.keys_ofEdges]
  split
  · rename_i hmem
    exact remove_indexed hdistinct hwithin (he hmem)
  · rename_i hmem
    have hall : r.edges.filter (·.id != e.id) = r.edges :=
      List.filter_eq_self.2 fun f hf => bne_iff_ne.2 fun h => hmem (h ▸ List.mem_map_of_mem hf)
    rw [hall]

theorem join_pairs_indexed (hnum : r.Numbered) (hwithin : r.Within nodes) (n : Int) :
    (r.pairs n).foldlM join (r.indexed nodes) = .ok ((r.joinAll n).indexed nodes) ∧
      (r.joinAll n).Numbered ∧ (r.joinAll n).Within nodes := by
  have hstep : ∀ s : Remnant, s.Numbered ∧ s.Within nodes → ∀ p ∈ r.pairs n,
      (s.indexed nodes).join p = .ok ((s.join p).indexed nodes) ∧ (s.join p).Numbered ∧ (s.join p).Within nodes := by
    rintro s ⟨hs, hsw⟩ ⟨i, o⟩ hp
    obtain ⟨⟨hi, -, -⟩, ho, -, -⟩ := Remnant.mem_pairs_iff.1 hp
    have hsrc := (hwithin i hi).1
    have hdst := (hwithin o ho).2
    exact ⟨join_indexed hs hsrc hdst, hs.join _, hsw.join ⟨hsrc, hdst⟩⟩
  rw [← Remnant.foldl_join_pairs]
  exact foldlM_indexed _ hstep ⟨hnum, hwithin⟩

theorem discardAll_indexed (hdistinct : (r.edges.map Edge.id).Nodup) (hwithin : r.Within nodes) {es : List Edge}
    (hes : ∀ e ∈ es, e ∈ r.edges) :
    es.foldlM discard (r.indexed nodes) = .ok ((⟨r.edges.filter (· ∉ es), r.nextEdge⟩ : Remnant).indexed nodes) := by
  -- an edge that is listed twice is gone after the first time, with everything of its identity
  have hstep : ∀ s : Remnant, s.edges.Sublist r.edges ∧ (∀ e ∈ es, e.id ∈ s.edges.map Edge.id → e ∈ s.edges) → ∀ e ∈ es,
      (s.indexed nodes).discard e = .ok ((⟨s.edges.filter (·.id != e.id), s.nextEdge⟩ : Remnant).indexed nodes) ∧
        (s.edges.filter (·.id != e.id)).Sublist r.edges ∧
        ∀ d ∈ es, d.id ∈ (s.edges.filter (·.id != e.id)).map Edge.id → d ∈ s.edges.filter (·.id != e.id) := by
    rintro s ⟨hs, hthere⟩ e he
    have hdiscard := discard_indexed (hdistinct.sublist (hs.map _)) (fun d hd => hwithin d (hs.subset hd)) (hthere e he)
    refine ⟨hdiscard, List.filter_sublist.trans hs, fun d hd hid => ?_⟩
    obtain ⟨c, hc, hcd⟩ := List.mem_map.1 hid
    obtain ⟨hc, hce⟩ := List.mem_filter.1 hc
    exact List.mem_filter.2 ⟨hthere d hd (hcd ▸ List.mem_map_of_mem hc), hcd ▸ hce⟩
  have hsame : (r.edges.filter fun f => f.id ∉ es.map Edge.id) = r.edges.filter (· ∉ es) := by
    refine List.filter_congr fun f hf => ?_
    have hiff : f.id ∈ es.map Edge.id ↔ f ∈ es := by
      refine ⟨fun hid => ?_, List.mem_map_of_mem⟩
      obtain ⟨e, he, heq⟩ := List.mem_map.1 hid
      exact List.inj_on_of_nodup_map hdistinct hf (hes e he) heq.symm ▸ he
    simp only [hiff]
  rw [← hsame, ← Remnant.foldl_filter]
  exact (foldlM_indexed (r := r) es hstep ⟨.refl _, fun e he _ => hes e he⟩).1

/-- Consuming a node in the tables is consuming it in the list. -/
theorem consume_indexed (hnum : r.Numbered) (hwithin : r.Within nodes) (hn : n ∈ nodes) :
    (r.indexed nodes).consume n = .ok ((r.consume n).indexed nodes) := by
  have hin : (r.edges.filter (·.dst == n)).filter (!·.isLoop) = r.incoming n := by
    simp [Remnant.incoming, List.filter_filter, Bool.and_comm]
  have hout : (r.edges.filter (·.src == n)).filter (!·.isLoop) = r.outgoing n := by
    simp [Remnant.outgoing, List.filter_filter, Bool.and_comm]
  obtain ⟨hjoin, hnum', hwithin'⟩ := join_pairs_indexed hnum hwithin n
  let touching := (r.joinAll n).edges.filter (·.dst == n) ++ (r.joinAll n).edges.filter (·.src == n)
  have htouching : ∀ e, e ∈ touching ↔ e ∈ (r.joinAll n).edges ∧ (e.dst = n ∨ e.src = n) := by
    intro e
    simp [touching, and_or_left]
  have hdiscard := discardAll_indexed hnum'.distinct hwithin' fun e he => ((htouching e).1 he).1
  have hrest : (r.joinAll n).edges.filter (· ∉ touching) =
      (r.joinAll n).edges.filter fun e => e.src != n && e.dst != n := by
    refine List.filter_congr fun e he => ?_
    rw [Bool.eq_iff_iff]
    simp [htouching, he, and_comm]
  have hpairs : ((r.incoming n).flatMap fun i => (r.outgoing n).map fun o => (i, o)) = r.pairs n := rfl
  rw [Remnant.consume_eq, ← hrest, ← hdiscard]
  simp only [consume, inEdges_indexed hnum.distinct hn, outEdges_indexed hnum.distinct hn, bind, Except.bind, hin, hout, hpairs,
    hjoin, inEdges_indexed hnum'.distinct hn, outEdges_indexed hnum'.distinct hn, touching]

/-! ## Consuming several nodes -/

theorem consumeAll_indexed (hnum : r.Numbered) (hwithin : r.Within nodes) {ns : List Int} (hns : ∀ n ∈ ns, n ∈ nodes) :
    (r.indexed nodes).consumeAll ns = .ok ((r.consumeAll ns).indexed nodes) ∧
      (r.consumeAll ns).Numbered ∧ (r.consumeAll ns).Within nodes := by
  have hstep : ∀ s : Remnant, s.Numbered ∧ s.Within nodes → ∀ n ∈ ns,
      (s.indexed nodes).consume n = .ok ((s.consume n).indexed nodes) ∧
        (s.consume n).Numbered ∧ (s.consume n).Within nodes :=
    fun s hs n hn => ⟨consume_indexed hs.1 hs.2 (hns n hn), hs.1.consume n, hs.2.consume n⟩
  exact foldlM_indexed ns hstep ⟨hnum, hwithin⟩

theorem consumeAll_ofGraph (g : Graph) {ns : List Int} (hns : ∀ n ∈ ns, n ∈ g.nodeIds) :
    (ofGraph g >>= (·.consumeAll ns)) = .ok (((Remnant.ofGraph g).consumeAll ns).indexed g.nodeIds) ∧
      ((Remnant.ofGraph g).consumeAll ns).Numbered ∧ ((Remnant.ofGraph g).consumeAll ns).Within g.nodeIds := by
  rw [ofGraph_eq_ok]
  exact consumeAll_indexed (Remnant.numbered_ofGraph g) g.wired.closed hns

/-- The edges have distinct identities, under which they are found, below the next one. The other tables list them at their
sources and at their targets, which are nodes of the graph that are not consumed. -/
structure Consistent (w : IndexedEdges) (nodes gone : List Int) : Prop where
  keyed : ∀ p ∈ w.edges, p.1 = p.2.id
  distinct : w.edges.keys.Nodup
  below : ∀ e ∈ w.edges.values, e.id < w.nextEdge
  keys_out : w.out.keys = nodes
  keys_into : w.into.keys = nodes
  out : ∀ n ∈ nodes, w.out.entry n = .ok ((w.edges.values.filter (·.src == n)).map Edge.id)
  into : ∀ n ∈ nodes, w.into.entry n = .ok ((w.edges.values.filter (·.dst == n)).map Edge.id)
  ends : ∀ e ∈ w.edges.values, e.src ∈ nodes ∧ e.dst ∈ nodes
  ends_left : ∀ e ∈ w.edges.values, e.src ∉ gone ∧ e.dst ∉ gone

theorem consistent_indexed {gone : List Int} (hnum : r.Numbered) (hwithin : r.Within nodes)
    (hgone : ∀ e ∈ r.edges, e.src ∉ gone ∧ e.dst ∉ gone) : (r.indexed nodes).Consistent nodes gone := by
  have hkeys : (r.indexed nodes).edges.keys = r.edges.map Edge.id := Table.keys_ofEdges
  have hvalues : (r.indexed nodes).edges.values = r.edges := Table.values_ofEdges
  refine ⟨fun p hp => ?_, hkeys ▸ hnum.distinct, hvalues ▸ hnum.below, ?_, ?_, fun n hn => ?_, fun n hn => ?_,
    hvalues ▸ hwithin, hvalues ▸ hgone⟩
  · obtain ⟨e, -, rfl⟩ := List.mem_map.1 hp
    rfl
  · exact Table.keys_tabulate
  · exact Table.keys_tabulate
  · rw [hvalues]
    exact Table.entry_tabulate hn
  · rw [hvalues]
    exact Table.entry_tabulate hn

/-- Whatever nodes of a graph are consumed, the tables are consistent afterwards. -/
theorem exists_consistent (g : Graph) {ns : List Int} (hns : ∀ n ∈ ns, n ∈ g.nodeIds) :
    ∃ w, (ofGraph g >>= (·.consumeAll ns)) = .ok w ∧ w.Consistent g.nodeIds ns := by
  obtain ⟨hrun, hnum, hwithin⟩ := consumeAll_ofGraph g hns
  refine ⟨_, hrun, consistent_indexed hnum hwithin fun e he => ?_⟩
  obtain ⟨hsrc, hdst, -⟩ := (Remnant.joins_consumeAll_iff ns).1 ⟨e, he, rfl, rfl⟩
  exact ⟨hsrc, hdst⟩

end IndexedEdges

theorem Graph.eliminate_eq_ok (g : Graph) {ns : List Int} (hns : ∀ n ∈ ns, n ∈ g.nodeIds) :
    g.eliminate ns = .ok (g.edgesWithout ns) := by
  have hrun := (IndexedEdges.consumeAll_ofGraph g hns).1
  rw [IndexedEdges.ofGraph_eq_ok] at hrun
  have hall : ((Remnant.ofGraph g).indexed g.nodeIds).consumeAll ns = _ := hrun
  rw [eliminate, IndexedEdges.ofGraph_eq_ok]
  simp only [bind, Except.bind, hall, pure, Except.pure]
  rw [edgesWithout, show (Remnant.indexed _ _).edges.values = _ from Table.values_ofEdges]

end Flowgraph
