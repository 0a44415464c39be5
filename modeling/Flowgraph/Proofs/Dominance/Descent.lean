import Flowgraph.Proofs.Dominance.Analysis
import Mathlib.Data.List.Induction
import Mathlib.Data.List.Perm.Subperm
/-!
# The descent of the dominator iteration

A pass puts each new set in the place of the old one at once, so a node is recomputed from sets of which some are of this pass
and the others of the pass before. Whichever mixture it finds, a visit takes entries out of the set of its node and leaves the
node and the root in it (`Flow.Settling.descends`): a set of the mixture is no larger than it was when the node was visited last,
and recomputing is monotone.

A pass in which no visit changes anything is one after which the table is as before (`Flow.quiet_iff`), since what one visit takes
out no later one puts back. Every other pass makes the table lighter, and what stays in it bounds how often that can be
(`Flow.Settling.le_weight`). So the first quiet pass comes and is the last one (`Flow.dominators_eq_tableAt`), and the sets that it
leaves satisfy their equations (`Dominance.iteration_descends_to_equations`).
-/

namespace Flowgraph

namespace NodeTable

variable {t : NodeTable} {c : Nat}

theorem sets_of_mem (hnodup : (t.map Prod.fst).Nodup) {row : Int × List Int} (hrow : row ∈ t) :
    t.sets row.1 = row.2 := by
  induction t with
  | nil => cases hrow
  | cons first t ih =>
    rw [List.map_cons, List.nodup_cons] at hnodup
    rw [sets_cons]
    rcases List.mem_cons.1 hrow with rfl | hrow
    · rw [if_pos rfl]
    · have hne : row.1 ≠ first.1 := fun heq => hnodup.1 (heq ▸ List.mem_map_of_mem hrow)
      rw [if_neg hne]
      exact ih hnodup.2 hrow

theorem set_sets_self (hnodup : (t.map Prod.fst).Nodup) (n : Int) : t.set n (t.sets n) = t := by
  rw [set]
  refine (List.map_congr_left fun row hrow => ?_).trans (List.map_id' t)
  split
  · rename_i hn
    rw [← hn, sets_of_mem hnodup hrow]
  · rfl

theorem weight_le_of_forall (h : ∀ row ∈ t, row.2.length ≤ c) : t.weight ≤ t.length * c := by
  induction t with
  | nil => exact Nat.zero_le _
  | cons row t ih =>
    obtain ⟨hrow, hrest⟩ := List.forall_mem_cons.1 h
    have := ih hrest
    rw [weight, List.length_cons, Nat.succ_mul]
    omega

theorem le_weight_of_forall (h : ∀ row ∈ t, c ≤ row.2.length) : t.length * c ≤ t.weight := by
  induction t with
  | nil => exact Nat.le_of_eq (Nat.zero_mul c)
  | cons row t ih =>
    obtain ⟨hrow, hrest⟩ := List.forall_mem_cons.1 h
    have := ih hrest
    rw [weight, List.length_cons, Nat.succ_mul]
    omega

end NodeTable

namespace Flow

open NodeTable (Below)

variable {f : Flow} {t : NodeTable} {n : Int} {k : Nat} {visited : List Int}

/-! ## Visits -/

/-- A pass visits a node after some others. The root is passed over. -/
structure Visits (f : Flow) (visited : List Int) (n : Int) : Prop where
  next : visited ++ [n] <+: f.order
  not_root : n ≠ f.root

/-- The table that a visit finds: after some whole passes, and after the nodes already visited in the pass under way. -/
def tableAt (f : Flow) (passes : Nat) (visited : List Int) : NodeTable :=
  visited.foldl f.update ((f.pass f.order)^[passes] (f.initial f.order))

/-- What a visit does to the set of its node: the new set is computed from at least one row of the table, has no entry that the
old one lacks, and has the node and the root. -/
structure Descends (f : Flow) (t : NodeTable) (n : Int) : Prop where
  rows : t.map Prod.fst = f.order
  preds : f.predsIn f.order n ≠ []
  subset : f.recompute f.order t n ⊆ t.sets n
  self : n ∈ f.recompute f.order t n
  root : f.root ∈ f.recompute f.order t n

/-- A pass in which every visit finds the set that it computes. -/
def Quiet (f : Flow) (passes : Nat) : Prop :=
  ∀ visited n, f.Visits visited n →
    f.recompute f.order (f.tableAt passes visited) n = (f.tableAt passes visited).sets n

theorem Visits.mem_order (h : f.Visits visited n) : n ∈ f.order :=
  h.next.subset (by simp)

theorem Visits.visited_subset (h : f.Visits visited n) : ∀ m ∈ visited, m ∈ f.order :=
  fun _ hm => h.next.subset (List.mem_append_left _ hm)

theorem Settling.nodup_keys (h : Settling f t) : (t.map Prod.fst).Nodup := h.keys ▸ nodup_order f

theorem Settling.descends (hroot : f.root ∈ f.graph.nodeIds) (h : Settling f t) (hn : n ∈ f.order) (hne : n ≠ f.root) :
    f.Descends t n where
  rows := h.keys
  preds := predsIn_ne_nil hroot hn hne
  subset := (h.shrinks n hn hne).subset
  self := h.mem_recompute hroot hn hne (Dominates.refl f n)
  root := h.mem_recompute hroot hn hne (root_dominates f n)

theorem settling_tableAt (hroot : f.root ∈ f.graph.nodeIds) (passes : Nat) (visited : List Int)
    (hvisited : ∀ m ∈ visited, m ∈ f.order) : Settling f (f.tableAt passes visited) :=
  (((settling_initial hroot).iterate hroot passes).foldl hroot visited hvisited).1

/-! ## Quiet passes -/

theorem Settling.update_eq_self (h : Settling f t) (hsame : n ≠ f.root → f.recompute f.order t n = t.sets n) :
    f.update t n = t := by
  unfold Flow.update
  split
  · rfl
  · rename_i hne
    rw [hsame hne, NodeTable.set_sets_self h.nodup_keys]

/-- Visits that all find what they compute leave the table as it was. -/
theorem Settling.foldl_eq_self (h : Settling f t) (ns : List Int)
    (hsame : ∀ visited n, visited ++ [n] <+: ns → n ≠ f.root →
      f.recompute f.order (visited.foldl f.update t) n = (visited.foldl f.update t).sets n) :
    ns.foldl f.update t = t := by
  induction ns using List.reverseRecOn with
  | nil => rfl
  | append_singleton ns n ih =>
    have hbefore := ih fun visited m hm => hsame visited m (hm.trans (List.prefix_append ns [n]))
    have hlast := hsame ns n (List.prefix_refl _)
    rw [hbefore] at hlast
    rw [List.foldl_concat, hbefore]
    exact h.update_eq_self hlast

/-- In a pass that leaves the table as it was, so does every part of it. -/
theorem Settling.foldl_part_eq_self (hroot : f.root ∈ f.graph.nodeIds) (h : Settling f t) (rest : List Int)
    (horder : f.order = visited ++ rest) (hfixed : f.pass f.order t = t) : visited.foldl f.update t = t := by
  have hvisited : ∀ m ∈ visited, m ∈ f.order := fun m hm => horder ▸ List.mem_append_left _ hm
  have hrest : ∀ m ∈ rest, m ∈ f.order := fun m hm => horder ▸ List.mem_append_right _ hm
  obtain ⟨hpart, hbelow⟩ := h.foldl hroot visited hvisited
  have hback := (hpart.foldl hroot rest hrest).2
  have hwhole : rest.foldl f.update (visited.foldl f.update t) = t := by
    rw [← List.foldl_append, ← horder]
    exact hfixed
  rw [hwhole] at hback
  exact hbelow.antisymm hback

theorem quiet_iff (hroot : f.root ∈ f.graph.nodeIds) :
    f.Quiet k ↔ f.pass f.order (f.tableAt k []) = f.tableAt k [] := by
  have hsettling := settling_tableAt hroot k [] (by simp)
  constructor
  · intro hquiet
    exact hsettling.foldl_eq_self f.order fun visited n hnext hne => hquiet visited n ⟨hnext, hne⟩
  · intro hfixed visited n hvisit
    obtain ⟨rest, hrest⟩ := hvisit.next
    have hpart : f.tableAt k visited = f.tableAt k [] :=
      hsettling.foldl_part_eq_self hroot (n :: rest) (by simpa using hrest.symm) hfixed
    rw [hpart]
    exact hsettling.recompute_eq hroot f.order (fun _ hm => hm) hfixed n hvisit.mem_order hvisit.not_root

/-! ## The number of passes -/

/-- The first row of a table is that of the root, which has one entry. -/
theorem Settling.exists_rows (h : Settling f t) :
    ∃ rows, t = (f.root, [f.root]) :: rows ∧ rows.length = f.order.length - 1 ∧
      ∀ row ∈ rows, row.1 ∈ f.order ∧ row.1 ≠ f.root ∧ t.sets row.1 = row.2 := by
  have hfirst : f.order.head? = some f.root := Graph.head?_preorder f.root
  have hkeys := h.keys
  have hnodup := h.nodup_keys
  cases t with
  | nil =>
    rw [← hkeys] at hfirst
    cases hfirst
  | cons first rows =>
    rw [← hkeys, List.map_cons, List.head?_cons, Option.some.injEq] at hfirst
    have hset : first.2 = [f.root] := by
      rw [← h.root, ← hfirst, NodeTable.sets_of_mem hnodup (by simp)]
    refine ⟨rows, by rw [← hset, ← hfirst], by simp [← hkeys], fun row hrow => ⟨?_, ?_, ?_⟩⟩
    · rw [← hkeys]
      exact List.mem_map_of_mem (List.mem_cons_of_mem _ hrow)
    · rw [List.map_cons, List.nodup_cons] at hnodup
      exact fun heq => hnodup.1 (hfirst ▸ heq ▸ List.mem_map_of_mem hrow)
    · exact NodeTable.sets_of_mem hnodup (List.mem_cons_of_mem _ hrow)

theorem Settling.weight_le (h : Settling f t) : t.weight ≤ 1 + (f.order.length - 1) * f.order.length := by
  obtain ⟨rows, heq, hlength, hrows⟩ := h.exists_rows
  have hall : NodeTable.weight rows ≤ rows.length * f.order.length := by
    apply NodeTable.weight_le_of_forall
    intro row hrow
    obtain ⟨hmem, -, hset⟩ := hrows row hrow
    exact hset ▸ (h.ordered row.1 hmem).length_le
  rw [heq, NodeTable.weight, ← hlength]
  exact Nat.add_le_add_left hall 1

/-- The node itself and the root stay in the set of a node. -/
theorem Settling.le_weight (h : Settling f t) : 1 + (f.order.length - 1) * 2 ≤ t.weight := by
  obtain ⟨rows, heq, hlength, hrows⟩ := h.exists_rows
  have hall : rows.length * 2 ≤ NodeTable.weight rows := by
    apply NodeTable.le_weight_of_forall
    intro row hrow
    obtain ⟨hmem, hne, hset⟩ := hrows row hrow
    have hself : row.1 ∈ row.2 := hset ▸ h.holds row.1 hmem _ (Dominates.refl f row.1)
    have hfirst : f.root ∈ row.2 := hset ▸ h.holds row.1 hmem _ (root_dominates f row.1)
    have hboth : [f.root, row.1].Nodup := by simpa using hne.symm
    exact (hboth.subperm (by simp [hself, hfirst])).length_le
  rw [heq, NodeTable.weight, ← hlength]
  exact Nat.add_le_add_left hall 1

/-- The iteration stops at its first quiet pass. -/
theorem dominators_eq_tableAt (hroot : f.root ∈ f.graph.nodeIds) :
    ∃ k, f.dominators = (f.tableAt k [], k + 1) ∧ IsLeast {k | f.Quiet k} k ∧
      k ≤ (f.order.length - 1) * (f.order.length - 2) := by
  obtain ⟨k, hrun, hleast, hweight⟩ := settle_eq_iterate hroot (settling_initial hroot) 0
  have hquiet : {k | f.Quiet k} = {k | f.pass f.order (f.tableAt k []) = f.tableAt k []} := Set.ext fun _ => quiet_iff hroot
  refine ⟨k, ?_, hquiet ▸ hleast, ?_⟩
  · rw [dominators, hrun, Nat.zero_add]
    rfl
  · -- each pass before the quiet one has made the table lighter by at least one entry
    have hfirst := (settling_initial hroot).weight_le
    have hlast := (settling_tableAt hroot k [] (by simp)).le_weight
    have hend : (f.tableAt k []).weight + k ≤ (f.initial f.order).weight := hweight
    rw [Nat.mul_sub]
    omega

/-- The set of a node in the final table is the node and what the sets of the nodes right before it share. -/
theorem mem_dominators_iff_eq_or_forall (hroot : f.root ∈ f.graph.nodeIds) (hn : n ∈ f.order) (hne : n ≠ f.root) (x : Int) :
    x ∈ f.dominators.1.sets n ↔
      x = n ∨ ∀ p ∈ f.graph.behind f.direction n, p ∈ f.order → x ∈ f.dominators.1.sets p := by
  have hshared : (∀ p ∈ f.graph.behind f.direction n, p ∈ f.order → x ∈ f.dominators.1.sets p) ↔
      ∀ p ∈ f.predsIn f.order n, x ∈ f.dominators.1.sets p := by
    simp only [predsIn, List.mem_filter, List.contains_iff_mem, and_imp]
  rw [mem_dominators_iff_forall_preds hroot hn hne, hshared]
  refine ⟨fun h => h.2, fun h => ⟨?_, h⟩⟩
  rcases h with rfl | hall
  · exact hn
  · obtain ⟨p, hp⟩ := List.exists_mem_of_ne_nil _ (predsIn_ne_nil hroot hn hne)
    exact ((settling_dominators hroot).ordered p (mem_predsIn_iff.1 hp).2).subset (hall p hp)

end Flow

namespace Dominance

/-- The iteration of an analysis only takes entries out of sets. Every visit, in whatever pass, computes the new set from at least one
row of the table as it then is; the new set is within the old one and has the node itself and the root. The iteration ends with
its first quiet pass, and then the set of every node but the root is the node and what the sets of the nodes right before it
share. -/
theorem iteration_descends_to_equations (a : Augmented) (dir : Direction) :
    (∀ passes visited n, (flowOf a dir).Visits visited n →
      (flowOf a dir).Descends ((flowOf a dir).tableAt passes visited) n) ∧
    ∃ k, IsLeast {k | (flowOf a dir).Quiet k} k ∧
      k ≤ ((analyse a dir).order.length - 1) * ((analyse a dir).order.length - 2) ∧
      (analyse a dir).passes = k + 1 ∧ (analyse a dir).table = (flowOf a dir).tableAt k [] ∧
      ∀ n ∈ (analyse a dir).order, n ≠ (a.root dir).id → ∀ x,
        x ∈ (analyse a dir).table.sets n ↔
          x = n ∨ ∀ p ∈ a.graph.behind dir n, p ∈ (analyse a dir).order → x ∈ (analyse a dir).table.sets p := by
  have hroot := flowOf_root_mem a dir
  constructor
  · intro passes visited n hvisit
    exact (Flow.settling_tableAt hroot passes visited hvisit.visited_subset).descends hroot hvisit.mem_order hvisit.not_root
  · obtain ⟨k, hrun, hquiet, hbound⟩ := Flow.dominators_eq_tableAt hroot
    refine ⟨k, hquiet, hbound, congrArg Prod.snd hrun, congrArg Prod.fst hrun, fun n hn hne x => ?_⟩
    exact Flow.mem_dominators_iff_eq_or_forall hroot hn hne x

/-- In the first pass, when the node on the left has its new set and the rest of the loop has not. -/
theorem iteration_descends_to_equations_twoEntryLoop :
    (flowOf twoEntryLoop .forward).Visits [5, 0, 1] 2 ∧
    (flowOf twoEntryLoop .forward).Descends ((flowOf twoEntryLoop .forward).tableAt 0 [5, 0, 1]) 2 ∧
    2 ∈ (analyse twoEntryLoop .forward).order ∧ 2 ≠ (twoEntryLoop.root .forward).id ∧
    ∀ x, x ∈ (analyse twoEntryLoop .forward).table.sets 2 ↔
      x = 2 ∨ ∀ p ∈ twoEntryLoop.graph.behind .forward 2, p ∈ (analyse twoEntryLoop .forward).order →
        x ∈ (analyse twoEntryLoop .forward).table.sets p := by
  have hvisit : (flowOf twoEntryLoop .forward).Visits [5, 0, 1] 2 := ⟨by decide +kernel, by decide⟩
  obtain ⟨hvisits, k, -, -, -, -, hsets⟩ := iteration_descends_to_equations twoEntryLoop .forward
  exact ⟨hvisit, hvisits 0 [5, 0, 1] 2 hvisit, hvisit.mem_order, hvisit.not_root,
    hsets 2 hvisit.mem_order hvisit.not_root⟩

end Dominance

end Flowgraph
