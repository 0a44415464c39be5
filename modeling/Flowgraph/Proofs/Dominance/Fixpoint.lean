import Flowgraph.Proofs.Augmented.DepthFirst
import Flowgraph.Proofs.Dominance.Walk
import Flowgraph.Proofs.Graph.Lookup
import Mathlib.Data.List.Forall2
import Mathlib.Logic.Function.Iterate
import Mathlib.Order.Bounds.Basic
/-!
# The dominator iteration

The passes over a dominator table only take entries out of its sets (`Flow.pass_below`), so the iteration ends, with the
first pass that changes nothing (`Flow.settle_eq_iterate`). The table then holds dominance by walks
(`Flow.mem_dominators_iff`).

* Nothing is lost on the way: each set holds the dominators of its node in every table that a pass meets. This and that
  each set can only shrink is the invariant `Flow.Settling`, which one update keeps (`Flow.Settling.update`).
* Nothing is left over at the end: in an unchanged table an entry passes from a node to the nodes right before it, back
  along any walk to the root, unless the walk meets the entry itself (`Flow.mem_sets_of_walk`).
-/

namespace Flowgraph

namespace NodeTable

/-- The first table has the nodes of the second, and of each set some entries in their order. -/
def Below (s t : NodeTable) : Prop := List.Forall₂ (fun a b => a.1 = b.1 ∧ a.2.Sublist b.2) s t

variable {s t u : NodeTable} {n m : Int} {l : List Int}

theorem sets_cons (row : Int × List Int) :
    sets (row :: t) n = if n = row.1 then row.2 else t.sets n := by
  obtain ⟨m, l⟩ := row
  by_cases h : n = m
  · simp [sets, h]
  · have hbeq : (n == m) = false := beq_eq_false_iff_ne.2 h
    simp [sets, List.lookup_cons, hbeq, h]

theorem sets_map {order : List Int} (row : Int → List Int) (h : n ∈ order) :
    sets (order.map fun m => (m, row m)) n = row n := by
  rw [sets, lookup_map_pair row order h, Option.getD_some]

@[simp] theorem keys_set (t : NodeTable) (n : Int) (l : List Int) :
    (t.set n l).map Prod.fst = t.map Prod.fst := by
  rw [set, List.map_map]
  refine List.map_congr_left fun row _ => ?_
  by_cases h : row.1 = n
  · simp [h]
  · simp [h]

theorem sets_set_self (h : n ∈ t.map Prod.fst) : (t.set n l).sets n = l := by
  induction t with
  | nil => cases h
  | cons row t ih =>
    rw [set, List.map_cons, sets_cons]
    by_cases hrow : row.1 = n
    · simp [hrow]
    · rw [if_neg hrow, if_neg (Ne.symm hrow)]
      exact ih ((List.mem_cons.1 h).resolve_left (Ne.symm hrow))

theorem sets_set_of_ne (h : m ≠ n) : (t.set n l).sets m = t.sets m := by
  induction t with
  | nil => rfl
  | cons row t ih =>
    rw [set, List.map_cons, sets_cons, sets_cons]
    by_cases hrow : row.1 = n
    · rw [if_pos hrow, if_neg h, hrow, if_neg h]
      exact ih
    · rw [if_neg hrow]
      split
      · rfl
      · exact ih

theorem set_of_not_mem (h : n ∉ t.map Prod.fst) : t.set n l = t := by
  rw [set]
  refine (List.map_congr_left fun row hrow => ?_).trans (List.map_id' t)
  rw [if_neg]
  rintro rfl
  exact h (List.mem_map_of_mem hrow)

namespace Below

theorem refl (t : NodeTable) : Below t t := List.forall₂_same.2 fun _ _ => ⟨rfl, List.Sublist.refl _⟩

theorem trans (h : Below s t) (k : Below t u) : Below s u := by
  induction h generalizing u with
  | nil => exact k
  | cons hab _ ih =>
    cases k with
    | cons hbc k => exact .cons ⟨hab.1.trans hbc.1, hab.2.trans hbc.2⟩ (ih k)

theorem antisymm (h : Below s t) (k : Below t s) : s = t := by
  induction h with
  | nil => rfl
  | cons hab _ ih =>
    cases k with
    | cons hba k => rw [Prod.ext hab.1 (hab.2.antisymm hba.2), ih k]

theorem sets (h : Below s t) (n : Int) : (s.sets n).Sublist (t.sets n) := by
  induction h with
  | nil => exact List.Sublist.refl _
  | cons hab _ ih =>
    rw [sets_cons, sets_cons, hab.1]
    split
    · exact hab.2
    · exact ih

theorem weight_le (h : Below s t) : s.weight ≤ t.weight := by
  induction h with
  | nil => exact Nat.le_refl _
  | cons hab _ ih =>
    have := hab.2.length_le
    simp only [weight]
    omega

theorem weight_lt (h : Below s t) (hne : s ≠ t) : s.weight < t.weight := by
  induction h with
  | nil => exact absurd rfl hne
  | @cons a b s t hab h ih =>
    have hset := hab.2.length_le
    have hrest : weight s ≤ weight t := weight_le h
    simp only [weight]
    by_cases hst : s = t
    · have hlen : a.2.length ≠ b.2.length := by
        intro hlen
        exact hne (by rw [hst, Prod.ext hab.1 (hab.2.eq_of_length hlen)])
      omega
    · have := ih hst
      omega

end Below

theorem below_set (hnodup : (t.map Prod.fst).Nodup) (h : l.Sublist (t.sets n)) : Below (t.set n l) t := by
  induction t with
  | nil => exact .nil
  | cons row t ih =>
    rw [List.map_cons, List.nodup_cons] at hnodup
    rw [sets_cons] at h
    by_cases hrow : row.1 = n
    · rw [if_pos hrow.symm] at h
      refine .cons ⟨by simp [hrow], by simpa [hrow] using h⟩ ?_
      have hrest : NodeTable.set t n l = t := set_of_not_mem (hrow ▸ hnodup.1)
      exact (congrArg (Below · t) hrest).mpr (Below.refl t)
    · rw [if_neg (Ne.symm hrow)] at h
      exact .cons (by simp [hrow]) (ih hnodup.2 h)

end NodeTable

namespace Flow

open NodeTable (Below)

variable {f : Flow} {s t : NodeTable} {n p x : Int}

/-! ## Recomputing one set -/

theorem mem_order_iff (hroot : f.root ∈ f.graph.nodeIds) : n ∈ f.order ↔ f.Reaches n :=
  Graph.mem_preorder_iff hroot

theorem nodup_order (f : Flow) : f.order.Nodup := Graph.nodup_preorder _

theorem root_mem_order (hroot : f.root ∈ f.graph.nodeIds) : f.root ∈ f.order :=
  (mem_order_iff hroot).2 (Graph.Reaches.refl hroot)

theorem mem_predsIn_iff {order : List Int} :
    p ∈ f.predsIn order n ↔ n ∈ f.graph.ahead f.direction p ∧ p ∈ order := by
  rw [predsIn, List.mem_filter, Graph.behind_eq_ahead_flip, Graph.mem_ahead_flip, List.contains_iff_mem]

theorem predsIn_ne_nil (hroot : f.root ∈ f.graph.nodeIds) (hn : n ∈ f.order) (hne : n ≠ f.root) :
    f.predsIn f.order n ≠ [] := by
  obtain ⟨nodes, hwalk⟩ := (mem_order_iff hroot).1 hn
  rcases hwalk.last_step with ⟨hstay, -⟩ | ⟨p, before, hbefore, hp, -⟩
  · exact absurd hstay hne
  · exact List.ne_nil_of_mem (mem_predsIn_iff.2 ⟨hp, (mem_order_iff hroot).2 ⟨before, hbefore⟩⟩)

theorem mem_recompute_iff (hroot : f.root ∈ f.graph.nodeIds) (hn : n ∈ f.order) (hne : n ≠ f.root) :
    x ∈ f.recompute f.order t n ↔ x ∈ f.order ∧ (x = n ∨ ∀ p ∈ f.predsIn f.order n, x ∈ t.sets p) := by
  unfold recompute
  split
  · rename_i hnil
    exact absurd hnil (predsIn_ne_nil hroot hn hne)
  · simp

theorem recompute_mono (h : Below s t) (order : List Int) (n : Int) :
    (f.recompute order s n).Sublist (f.recompute order t n) := by
  unfold recompute
  split
  · exact List.Sublist.refl _
  · refine List.monotone_filter_right _ fun y hy => ?_
    simp only [Bool.or_eq_true, List.all_map, List.all_eq_true, Function.comp_apply,
      List.contains_iff_mem] at hy ⊢
    exact hy.imp_right fun hall p hp => (h.sets p).subset (hall p hp)

/-! ## One update and one pass -/

/-- What every table on the way has: its sets hold the dominators of their nodes, and can only shrink. -/
structure Settling (f : Flow) (t : NodeTable) : Prop where
  keys : t.map Prod.fst = f.order
  root : t.sets f.root = [f.root]
  ordered : ∀ n ∈ f.order, (t.sets n).Sublist f.order
  shrinks : ∀ n ∈ f.order, n ≠ f.root → (f.recompute f.order t n).Sublist (t.sets n)
  holds : ∀ n ∈ f.order, ∀ x, f.Dominates x n → x ∈ t.sets n

/-- The table after one node is recomputed. -/
def update (f : Flow) (t : NodeTable) (n : Int) : NodeTable :=
  if n = f.root then t else t.set n (f.recompute f.order t n)

theorem Settling.update_below (h : Settling f t) (hn : n ∈ f.order) : Below (f.update t n) t := by
  unfold Flow.update
  split
  · exact Below.refl t
  · rename_i hne
    refine NodeTable.below_set ?_ (h.shrinks n hn hne)
    rw [h.keys]
    exact nodup_order f

/-- A dominator of a node is found again when the node is recomputed. -/
theorem Settling.mem_recompute (hroot : f.root ∈ f.graph.nodeIds) (h : Settling f t) (hn : n ∈ f.order)
    (hne : n ≠ f.root) (hx : f.Dominates x n) : x ∈ f.recompute f.order t n := by
  rw [mem_recompute_iff hroot hn hne]
  refine ⟨(mem_order_iff hroot).2 (hx.reaches ((mem_order_iff hroot).1 hn)), ?_⟩
  by_cases hxn : x = n
  · exact Or.inl hxn
  · right
    intro p hp
    obtain ⟨hahead, hporder⟩ := mem_predsIn_iff.1 hp
    exact h.holds p hporder x (hx.of_ahead hxn hahead)

theorem Settling.update (hroot : f.root ∈ f.graph.nodeIds) (h : Settling f t) (hn : n ∈ f.order) :
    Settling f (f.update t n) := by
  have hbelow := h.update_below hn
  by_cases hne : n = f.root
  · rw [Flow.update, if_pos hne]
    exact h
  · rw [Flow.update, if_neg hne] at hbelow ⊢
    have hkey : n ∈ t.map Prod.fst := h.keys ▸ hn
    refine ⟨?_, ?_, fun m hm => (hbelow.sets m).trans (h.ordered m hm),
      fun m hm hmne => ?_, fun m hm x hx => ?_⟩
    · rw [NodeTable.keys_set, h.keys]
    · rw [NodeTable.sets_set_of_ne (Ne.symm hne), h.root]
    · -- what is recomputed from a smaller table is smaller, and for `n` itself it was just put there
      have hmono := recompute_mono (f := f) hbelow f.order m
      by_cases hmn : m = n
      · rw [hmn] at hmono ⊢
        rw [NodeTable.sets_set_self hkey]
        exact hmono
      · rw [NodeTable.sets_set_of_ne hmn]
        exact hmono.trans (h.shrinks m hm hmne)
    · by_cases hmn : m = n
      · rw [hmn] at hx ⊢
        rw [NodeTable.sets_set_self hkey]
        exact h.mem_recompute hroot hn hne hx
      · rw [NodeTable.sets_set_of_ne hmn]
        exact h.holds m hm x hx

theorem Settling.foldl (hroot : f.root ∈ f.graph.nodeIds) (ns : List Int) (hns : ∀ n ∈ ns, n ∈ f.order)
    (h : Settling f t) : Settling f (ns.foldl f.update t) ∧ Below (ns.foldl f.update t) t := by
  induction ns generalizing t with
  | nil => exact ⟨h, Below.refl t⟩
  | cons n ns ih =>
    have hn : n ∈ f.order := hns n (by simp)
    obtain ⟨hsettling, hbelow⟩ := ih (fun m hm => hns m (by simp [hm])) (h.update hroot hn)
    exact ⟨hsettling, hbelow.trans (h.update_below hn)⟩

/-- If some updates change nothing together, each of them changes nothing. -/
theorem Settling.recompute_eq (hroot : f.root ∈ f.graph.nodeIds) (ns : List Int) (hns : ∀ n ∈ ns, n ∈ f.order)
    (h : Settling f t) (hfixed : ns.foldl f.update t = t) :
    ∀ n ∈ ns, n ≠ f.root → f.recompute f.order t n = t.sets n := by
  induction ns with
  | nil => simp
  | cons m ns ih =>
    have hm : m ∈ f.order := hns m (by simp)
    have hrest : ∀ k ∈ ns, k ∈ f.order := fun k hk => hns k (by simp [hk])
    have hback := ((h.update hroot hm).foldl hroot ns hrest).2
    rw [List.foldl_cons] at hfixed
    rw [hfixed] at hback
    -- tables only shrink, so the later updates cannot have put back what the first one took out
    have hsame : f.update t m = t := (h.update_below hm).antisymm hback
    intro n hn hne
    rcases List.mem_cons.1 hn with rfl | hn
    · rw [Flow.update, if_neg hne] at hsame
      have hset := NodeTable.sets_set_self (l := f.recompute f.order t n) (h.keys ▸ hm : n ∈ t.map Prod.fst)
      rw [hsame] at hset
      exact hset.symm
    · rw [hsame] at hfixed
      exact ih hrest hfixed n hn hne

/-- A pass takes entries out of sets, and does nothing else. -/
theorem pass_below (hroot : f.root ∈ f.graph.nodeIds) (h : Settling f t) : Below (f.pass f.order t) t :=
  (h.foldl hroot f.order fun _ hn => hn).2

theorem Settling.pass (hroot : f.root ∈ f.graph.nodeIds) (h : Settling f t) : Settling f (f.pass f.order t) :=
  (h.foldl hroot f.order fun _ hn => hn).1

/-! ## The iteration -/

theorem settling_initial (hroot : f.root ∈ f.graph.nodeIds) : Settling f (f.initial f.order) where
  keys := by
    rw [initial, List.map_map]
    exact List.map_id' _
  root := by
    rw [initial, NodeTable.sets_map _ (root_mem_order hroot), if_pos rfl]
  ordered n hn := by
    rw [initial, NodeTable.sets_map _ hn]
    split
    · exact List.singleton_sublist.2 hn
    · exact List.Sublist.refl _
  shrinks n hn hne := by
    rw [initial, NodeTable.sets_map _ hn, if_neg hne]
    unfold recompute
    split
    · exact List.singleton_sublist.2 hn
    · exact List.filter_sublist
  holds n hn x hx := by
    rw [initial, NodeTable.sets_map _ hn]
    split
    · rename_i heq
      rw [heq, dominates_root_iff hroot] at hx
      rw [hx, heq]
      exact List.mem_singleton_self _
    · exact (mem_order_iff hroot).2 (hx.reaches ((mem_order_iff hroot).1 hn))

theorem Settling.iterate (hroot : f.root ∈ f.graph.nodeIds) (h : Settling f t) (k : Nat) :
    Settling f ((f.pass f.order)^[k] t) := by
  induction k with
  | zero => exact h
  | succ k ih =>
    rw [Function.iterate_succ_apply']
    exact ih.pass hroot

/-- The iteration ends with the first pass that leaves its table as it was. Each pass before it has taken something out. -/
theorem settle_eq_iterate (hroot : f.root ∈ f.graph.nodeIds) (h : Settling f t) (passes : Nat) :
    ∃ k, f.settle f.order t passes = ((f.pass f.order)^[k] t, passes + k + 1) ∧
      IsLeast {k | f.pass f.order ((f.pass f.order)^[k] t) = (f.pass f.order)^[k] t} k ∧
      ((f.pass f.order)^[k] t).weight + k ≤ t.weight := by
  fun_induction settle f f.order t passes with
  | case1 t passes t' hsame =>
    have hfixed : f.pass f.order t = t := hsame
    exact ⟨0, congrArg (·, passes + 1) hfixed, ⟨hfixed, fun _ _ => Nat.zero_le _⟩, Nat.le_refl _⟩
  | case2 t passes t' hchanged hless ih =>
    obtain ⟨k, hrun, hleast, hweight⟩ := ih (h.pass hroot)
    refine ⟨k + 1, ?_, ⟨hleast.1, fun j hj => ?_⟩, ?_⟩
    · rw [hrun, Function.iterate_succ_apply]
      congr 1
      omega
    · cases j with
      | zero => exact absurd hj hchanged
      | succ j => exact Nat.succ_le_succ (hleast.2 hj)
    · have hlighter : (f.pass f.order t).weight < t.weight := hless
      rw [Function.iterate_succ_apply]
      have : ((f.pass f.order)^[k] (f.pass f.order t)).weight + k ≤ (f.pass f.order t).weight := hweight
      omega
  | case3 t passes t' hchanged hnotless =>
    -- a pass that changes a table makes it lighter
    exact absurd ((pass_below hroot h).weight_lt hchanged) hnotless

/-- So it ends with a table that a pass does not change. -/
theorem settle_fixed (hroot : f.root ∈ f.graph.nodeIds) (h : Settling f t) (passes : Nat) :
    Settling f (f.settle f.order t passes).1 ∧
      f.pass f.order (f.settle f.order t passes).1 = (f.settle f.order t passes).1 := by
  obtain ⟨k, hrun, hleast, -⟩ := settle_eq_iterate hroot h passes
  rw [hrun]
  exact ⟨h.iterate hroot k, hleast.1⟩

theorem settling_dominators (hroot : f.root ∈ f.graph.nodeIds) : Settling f f.dominators.1 :=
  (settle_fixed hroot (settling_initial hroot) 0).1

/-- In the final table, the set of a node is the node and what the sets of all nodes right before it share. -/
theorem mem_dominators_iff_forall_preds (hroot : f.root ∈ f.graph.nodeIds) (hn : n ∈ f.order)
    (hne : n ≠ f.root) :
    x ∈ f.dominators.1.sets n ↔
      x ∈ f.order ∧ (x = n ∨ ∀ p ∈ f.predsIn f.order n, x ∈ f.dominators.1.sets p) := by
  have hfixed := (settle_fixed hroot (settling_initial hroot) 0).2
  rw [← mem_recompute_iff hroot hn hne,
    (settling_dominators hroot).recompute_eq hroot f.order (fun _ h => h) hfixed n hn hne]

/-- An entry passes back along a walk, up to where the walk meets it. -/
theorem mem_sets_of_walk (hroot : f.root ∈ f.graph.nodeIds) {u : Int} {nodes : List Int}
    (hwalk : f.graph.Walk f.direction u nodes n) (hu : f.Reaches u) (hx : x ∈ f.dominators.1.sets n) :
    x ∈ nodes ∨ x ∈ f.dominators.1.sets u := by
  induction hwalk with
  | stay _ => exact Or.inr hx
  | @step u v n nodes hv hwalk ih =>
    have hreach : f.Reaches v := Graph.Reaches.tail hu hv
    rcases ih hreach hx with hmem | hmem
    · exact Or.inl (List.mem_cons_of_mem _ hmem)
    · -- here the entry is in the set of `v`: it is `v`, or all nodes right before `v` have it, `u` among them
      by_cases hvroot : v = f.root
      · rw [hvroot, (settling_dominators hroot).root, List.mem_singleton, ← hvroot] at hmem
        exact Or.inl (hmem ▸ List.mem_cons_of_mem _ hwalk.start_mem_nodes)
      · rw [mem_dominators_iff_forall_preds hroot ((mem_order_iff hroot).2 hreach) hvroot] at hmem
        rcases hmem.2 with rfl | hall
        · exact Or.inl (List.mem_cons_of_mem _ hwalk.start_mem_nodes)
        · exact Or.inr (hall u (mem_predsIn_iff.2 ⟨hv, (mem_order_iff hroot).2 hu⟩))

/-- The computed dominators are the dominators by walks. -/
theorem mem_dominators_iff (hroot : f.root ∈ f.graph.nodeIds) (hn : f.Reaches n) :
    x ∈ f.dominators.1.sets n ↔ f.Dominates x n := by
  constructor
  · intro hx nodes hwalk
    rcases mem_sets_of_walk hroot hwalk (Graph.Reaches.refl hroot) hx with hmem | hmem
    · exact hmem
    · rw [(settling_dominators hroot).root, List.mem_singleton] at hmem
      exact hmem ▸ hwalk.start_mem_nodes
  · exact (settling_dominators hroot).holds n ((mem_order_iff hroot).2 hn) x

end Flow

end Flowgraph
