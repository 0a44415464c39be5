import Flowgraph.Dominance.Basic
import Flowgraph.Proofs.Dominance.Fixpoint
import Mathlib.Data.List.Perm.Basic
/-!
# The dominator tree

Every reachable node but the root has a closest strict dominator (`Flow.exists_closest`): the last strict dominator on any
walk to it, since what lies on every walk to the node and not after that one lies on every walk to that one. The
analysis finds it as the strict dominator whose dominators are the strict dominators of the node
(`Flow.idomIn_eq_some`). A strict dominator has fewer dominators, so that facts about the tree follow from the root down
(`Flow.tree_induction`); climbing from a node passes its dominators up to the stop (`Flow.mem_climb_iff`).
-/

namespace Flowgraph.Flow

variable {f : Flow} {d n x : Int}

/-- The strict dominator of a node that all its strict dominators dominate. -/
structure Closest (f : Flow) (d n : Int) : Prop where
  dominates : f.Dominates d n
  ne : d ≠ n
  above : ∀ x, f.Dominates x n → x ≠ n → f.Dominates x d

theorem exists_closest (hn : f.Reaches n) (hne : n ≠ f.root) : ∃ d, f.Closest d n := by
  obtain ⟨nodes, hwalk⟩ := hn
  -- the last strict dominator on any walk will do: after it the walk meets no other
  obtain ⟨d, rest, ⟨hdom, hdn⟩, hrest, -, hclear⟩ :=
    hwalk.last_visit (fun m => f.Dominates m n ∧ m ≠ n)
      ⟨f.root, hwalk.start_mem_nodes, root_dominates f n, Ne.symm hne⟩
  refine ⟨d, hdom, hdn, fun x hx hxn before hbefore => ?_⟩
  have hmem := hx _ (hbefore.append hrest)
  rw [List.tail_cons, List.mem_append] at hmem
  rcases hmem with hmem | hmem
  · exact hmem
  · exact absurd ⟨hx, hxn⟩ (hclear x hmem)

theorem Closest.dominates_iff (h : f.Closest d n) : f.Dominates x n ↔ x = n ∨ f.Dominates x d := by
  constructor
  · intro hx
    by_cases hxn : x = n
    · exact Or.inl hxn
    · exact Or.inr (h.above x hx hxn)
  · rintro (rfl | hx)
    · exact Dominates.refl f x
    · exact hx.trans h.dominates

/-- A node does not dominate its strict dominators. -/
theorem Closest.not_dominates (h : f.Closest d n) (hn : f.Reaches n) : ¬f.Dominates n d :=
  fun hback => h.ne (h.dominates.antisymm hback hn)

theorem Closest.unique {c : Int} (h : f.Closest c n) (k : f.Closest d n) (hn : f.Reaches n) : c = d :=
  (k.above c h.dominates h.ne).antisymm (h.above d k.dominates k.ne) (k.dominates.reaches hn)

/-! ## Immediate dominators in the table -/

/-- The immediate dominators of the reachable nodes, from the final table. -/
def idoms (f : Flow) : List (Int × Option Int) :=
  f.order.map fun n => (n, Dominance.idomIn f.root f.dominators.1 n)

theorem parent_idoms (hn : n ∈ f.order) :
    Dominance.parent f.idoms n = Dominance.idomIn f.root f.dominators.1 n := by
  rw [Dominance.parent, idoms, lookup_map_pair _ _ hn, Option.getD_some]

section Table

variable (hroot : f.root ∈ f.graph.nodeIds)
include hroot

theorem mem_strict_iff (hn : f.Reaches n) :
    x ∈ (f.dominators.1.sets n).filter (· != n) ↔ f.Dominates x n ∧ x ≠ n := by
  rw [List.mem_filter, mem_dominators_iff hroot hn, bne_iff_ne]

/-- The dominators of a closest strict dominator, as the table lists them, are the strict dominators of the node. -/
theorem Closest.sets_eq (h : f.Closest d n) (hn : f.Reaches n) :
    f.dominators.1.sets d = (f.dominators.1.sets n).filter (· != n) := by
  have hd : f.Reaches d := h.dominates.reaches hn
  have hsettled := settling_dominators hroot
  have hsubD := hsettled.ordered d ((mem_order_iff hroot).2 hd)
  have hsubN : ((f.dominators.1.sets n).filter (· != n)).Sublist f.order :=
    List.filter_sublist.trans (hsettled.ordered n ((mem_order_iff hroot).2 hn))
  -- both list the same nodes in the order of the walk
  refine (f.nodup_order.perm_iff_eq_of_sublist hsubD hsubN).1 ?_
  rw [List.perm_ext_iff_of_nodup (f.nodup_order.sublist hsubD) (f.nodup_order.sublist hsubN)]
  intro x
  rw [mem_dominators_iff hroot hd, mem_strict_iff hroot hn, h.dominates_iff]
  constructor
  · intro hx
    refine ⟨Or.inr hx, ?_⟩
    rintro rfl
    exact h.not_dominates hn hx
  · rintro ⟨hx | hx, hxn⟩
    · exact absurd hx hxn
    · exact hx

theorem Closest.length_lt (h : f.Closest d n) (hn : f.Reaches n) :
    (f.dominators.1.sets d).length < (f.dominators.1.sets n).length := by
  rw [h.sets_eq hroot hn, List.length_filter_lt_length_iff_exists]
  exact ⟨n, (mem_dominators_iff hroot hn).2 (Dominates.refl f n), by simp⟩

theorem idomIn_eq_some (hn : f.Reaches n) (hne : n ≠ f.root) :
    ∃ d, Dominance.idomIn f.root f.dominators.1 n = some d ∧ f.Closest d n := by
  obtain ⟨c, hc⟩ := exists_closest hn hne
  simp only [Dominance.idomIn, if_neg hne]
  cases hfind : ((f.dominators.1.sets n).filter (· != n)).find?
      fun d => f.dominators.1.sets d == (f.dominators.1.sets n).filter (· != n) with
  | none =>
    have hmem := (mem_strict_iff hroot hn).2 ⟨hc.dominates, hc.ne⟩
    have hnot := List.find?_eq_none.1 hfind c hmem
    rw [hc.sets_eq hroot hn, beq_self_eq_true] at hnot
    exact absurd rfl hnot
  | some d =>
    refine ⟨d, rfl, ?_⟩
    obtain ⟨hdom, hdn⟩ := (mem_strict_iff hroot hn).1 (List.mem_of_find?_eq_some hfind)
    have hsets : f.dominators.1.sets d = (f.dominators.1.sets n).filter (· != n) := by
      simpa using List.find?_some hfind
    refine ⟨hdom, hdn, fun x hx hxn => ?_⟩
    rw [← mem_dominators_iff hroot (hdom.reaches hn), hsets, mem_strict_iff hroot hn]
    exact ⟨hx, hxn⟩

theorem parent_root : Dominance.parent f.idoms f.root = none := by
  rw [parent_idoms (root_mem_order hroot), Dominance.idomIn, if_pos rfl]

theorem parent_eq_some (hn : f.Reaches n) (hne : n ≠ f.root) :
    ∃ d, Dominance.parent f.idoms n = some d ∧ f.Closest d n := by
  rw [parent_idoms ((mem_order_iff hroot).2 hn)]
  exact idomIn_eq_some hroot hn hne

/-- What holds of the root, and of a node whenever it holds of its closest strict dominator, holds of all reachable nodes. -/
theorem tree_induction {P : Int → Prop} (top : P f.root)
    (up : ∀ n d, f.Reaches n → n ≠ f.root → Dominance.parent f.idoms n = some d → f.Closest d n → P d → P n)
    (hn : f.Reaches n) : P n := by
  -- by the number of dominators, which falls with every step up
  induction hlen : (f.dominators.1.sets n).length using Nat.strongRecOn generalizing n with
  | _ k ih =>
    by_cases hne : n = f.root
    · rw [hne]
      exact top
    · obtain ⟨d, hparent, hd⟩ := parent_eq_some hroot hn hne
      have hless := hd.length_lt hroot hn
      exact up n d hn hne hparent hd (ih _ (hlen ▸ hless) (hd.dominates.reaches hn) rfl)

/-! ## Climbing -/

omit hroot in
theorem climb_stop (n : Int) : Dominance.climb f.dominators.1 f.idoms (some n) n = [] := by
  rw [Dominance.climb, if_pos rfl]

theorem climb_root {stop : Option Int} (hstop : some f.root ≠ stop) :
    Dominance.climb f.dominators.1 f.idoms stop f.root = [f.root] := by
  rw [Dominance.climb, if_neg hstop, parent_root hroot]

theorem climb_up {stop : Option Int} (hn : f.Reaches n) (hparent : Dominance.parent f.idoms n = some d)
    (hd : f.Closest d n) (hstop : some n ≠ stop) :
    Dominance.climb f.dominators.1 f.idoms stop n = n :: Dominance.climb f.dominators.1 f.idoms stop d := by
  rw [Dominance.climb, if_neg hstop, hparent]
  simp only [if_pos (hd.length_lt hroot hn)]

/-- Climbing from a node passes its dominators, without the stop and what dominates the stop. -/
theorem mem_climb_iff (stop : Option Int) (hn : f.Reaches n) :
    x ∈ Dominance.climb f.dominators.1 f.idoms stop n ↔
      f.Dominates x n ∧ ∀ s, stop = some s → f.Dominates s n → ¬f.Dominates x s := by
  have hnone : ∀ n, x ∈ Dominance.climb f.dominators.1 f.idoms (some n) n ↔
      f.Dominates x n ∧ ∀ s, some n = some s → f.Dominates s n → ¬f.Dominates x s := by
    intro n
    rw [climb_stop]
    refine ⟨fun h => absurd h List.not_mem_nil, fun h => ?_⟩
    exact absurd h.1 (h.2 n rfl (Dominates.refl f n))
  refine tree_induction hroot (P := fun n => x ∈ Dominance.climb f.dominators.1 f.idoms stop n ↔
    f.Dominates x n ∧ ∀ s, stop = some s → f.Dominates s n → ¬f.Dominates x s) ?_ ?_ hn
  · by_cases hstop : some f.root = stop
    · rw [← hstop]
      exact hnone f.root
    · rw [climb_root hroot hstop, List.mem_singleton, dominates_root_iff hroot]
      refine ⟨fun hx => ⟨hx, fun s hs hsroot => ?_⟩, fun h => h.1⟩
      rw [dominates_root_iff hroot] at hsroot
      exact absurd (by rw [hs, hsroot]) hstop
  · intro n d hn hne hparent hd ih
    by_cases hstop : some n = stop
    · rw [← hstop]
      exact hnone n
    · rw [climb_up hroot hn hparent hd hstop, List.mem_cons, ih, hd.dominates_iff]
      constructor
      · rintro (rfl | ⟨hx, hclear⟩)
        · refine ⟨Or.inl rfl, fun s hs hsx hxs => hstop ?_⟩
          rw [hs, hsx.antisymm hxs hn]
        · refine ⟨Or.inr hx, fun s hs hsn => hclear s hs ?_⟩
          rcases hd.dominates_iff.1 hsn with rfl | hsd
          · exact absurd hs.symm hstop
          · exact hsd
      · rintro ⟨hx | hx, hclear⟩
        · exact Or.inl hx
        · exact Or.inr ⟨hx, fun s hs hsd => hclear s hs (hsd.trans hd.dominates)⟩

theorem nodup_climb (stop : Option Int) (hn : f.Reaches n) :
    (Dominance.climb f.dominators.1 f.idoms stop n).Nodup := by
  refine tree_induction hroot (P := fun n => (Dominance.climb f.dominators.1 f.idoms stop n).Nodup) ?_ ?_ hn
  · by_cases hstop : some f.root = stop
    · rw [← hstop, climb_stop]
      exact List.nodup_nil
    · rw [climb_root hroot hstop]
      exact List.nodup_singleton _
  · intro n d hn _ hparent hd ih
    by_cases hstop : some n = stop
    · rw [← hstop, climb_stop]
      exact List.nodup_nil
    · rw [climb_up hroot hn hparent hd hstop, List.nodup_cons]
      refine ⟨fun hmem => ?_, ih⟩
      have hback := (mem_climb_iff hroot stop (hd.dominates.reaches hn)).1 hmem
      exact hd.not_dominates hn hback.1

/-- Climbing that does not stop ends at the root. -/
theorem getLast?_climb (hn : f.Reaches n) :
    (Dominance.climb f.dominators.1 f.idoms none n).getLast? = some f.root := by
  refine tree_induction hroot
    (P := fun n => (Dominance.climb f.dominators.1 f.idoms none n).getLast? = some f.root) ?_ ?_ hn
  · rw [climb_root hroot (by simp)]
    rfl
  · intro n d hn _ hparent hd ih
    rw [climb_up hroot hn hparent hd (by simp), List.getLast?_cons, ih, Option.getD_some]

end Table

end Flowgraph.Flow
