import Flowgraph.Dominance.Table
import Flowgraph.Proofs.Graph.Search
/-!
# Dominance by walks

A node dominates another if it lies on every walk from the root to it (`Flow.Dominates`). This module knows nothing
of the tables that the analysis computes; it has the order that dominance is.

* Dominance is a partial order on the reachable nodes (`Dominates.trans`, `Dominates.antisymm`), with the root below all.
* A strict dominator of a node dominates every node right before it (`Dominates.of_ahead`).
-/

namespace Flowgraph

namespace Graph

variable {g : Graph} {dir : Direction} {u v w : Int} {nodes : List Int}

/-- A walk that passes a node of some kind, from the last such node on. -/
theorem Walk.last_visit (S : Int → Prop) (h : g.Walk dir u nodes v) (hS : ∃ m ∈ nodes, S m) :
    ∃ z rest, S z ∧ g.Walk dir z (z :: rest) v ∧ (z :: rest) <:+ nodes ∧ ∀ m ∈ rest, ¬S m := by
  induction h with
  | @stay u hu =>
    obtain ⟨m, hm, hSm⟩ := hS
    rw [List.mem_singleton] at hm
    exact ⟨u, [], hm ▸ hSm, .stay hu, List.suffix_refl _, by simp⟩
  | @step u x v nodes hx h ih =>
    by_cases hlater : ∃ m ∈ nodes, S m
    · obtain ⟨z, rest, hz, hwalk, hsuffix, hrest⟩ := ih hlater
      exact ⟨z, rest, hz, hwalk, hsuffix.trans (List.suffix_cons _ _), hrest⟩
    · obtain ⟨m, hm, hSm⟩ := hS
      rcases List.mem_cons.1 hm with rfl | hm
      · exact ⟨m, nodes, hSm, .step hx h, List.suffix_refl _, fun k hk hSk => hlater ⟨k, hk, hSk⟩⟩
      · exact absurd ⟨m, hm, hSm⟩ hlater

theorem Walk.last_step (h : g.Walk dir u nodes v) :
    (v = u ∧ nodes = [u]) ∨
      ∃ p before, g.Walk dir u before p ∧ v ∈ g.ahead dir p ∧ nodes = before ++ [v] := by
  induction h with
  | stay _ => exact Or.inl ⟨rfl, rfl⟩
  | @step u x v nodes hx h ih =>
    right
    rcases ih with ⟨rfl, rfl⟩ | ⟨p, before, hbefore, hp, rfl⟩
    · exact ⟨u, [u], .stay (mem_nodeIds_of_mem_ahead hx).1, hx, rfl⟩
    · exact ⟨p, u :: before, .step hx hbefore, hp, rfl⟩

theorem Walk.start_mem_nodes (h : g.Walk dir u nodes v) : u ∈ nodes := List.mem_of_head? h.head_eq

theorem Walk.end_mem_nodes (h : g.Walk dir u nodes v) : v ∈ nodes := List.mem_of_getLast? h.last_eq

end Graph

namespace Flow

variable {f : Flow} {n p x y z : Int}

/-- Whether a walk from the root reaches a node. -/
def Reaches (f : Flow) (n : Int) : Prop := f.graph.Reaches f.direction f.root n

/-- Whether every walk from the root to the second node passes through the first. -/
def Dominates (f : Flow) (x n : Int) : Prop :=
  ∀ nodes, f.graph.Walk f.direction f.root nodes n → x ∈ nodes

theorem Dominates.refl (f : Flow) (n : Int) : f.Dominates n n := fun _ h => h.end_mem_nodes

theorem root_dominates (f : Flow) (n : Int) : f.Dominates f.root n := fun _ h => h.start_mem_nodes

theorem Dominates.trans (hxy : f.Dominates x y) (hyn : f.Dominates y n) : f.Dominates x n := by
  intro nodes h
  obtain ⟨part, hprefix, k⟩ := h.take (hyn nodes h)
  exact hprefix.subset (hxy part k)

theorem Dominates.reaches (h : f.Dominates x n) (hn : f.Reaches n) : f.Reaches x := by
  obtain ⟨nodes, hwalk⟩ := hn
  obtain ⟨part, -, k⟩ := hwalk.take (h nodes hwalk)
  exact ⟨part, k⟩

theorem dominates_root_iff (hroot : f.root ∈ f.graph.nodeIds) : f.Dominates x f.root ↔ x = f.root := by
  constructor
  · intro h
    exact List.mem_singleton.1 (h [f.root] (.stay hroot))
  · rintro rfl
    exact Dominates.refl f _

/-- Two nodes that dominate each other are one: otherwise a walk to one of them would pass the other and, before that,
itself, so that no walk to it could be shortest. -/
theorem Dominates.antisymm (hxy : f.Dominates x y) (hyx : f.Dominates y x) (hy : f.Reaches y) : x = y := by
  by_cases hne : x = y
  · exact hne
  obtain ⟨nodes, hwalk⟩ := hy
  exfalso
  induction hk : nodes.length using Nat.strongRecOn generalizing nodes with
  | _ k ih =>
    obtain ⟨toX, hprefixX, walkX⟩ := hwalk.take (hxy nodes hwalk)
    obtain ⟨toY, hprefixY, walkY⟩ := walkX.take (hyx toX walkX)
    have hshorter : toX.length < nodes.length := by
      refine Nat.lt_of_le_of_ne hprefixX.length_le fun hlen => hne ?_
      have hlast := walkX.last_eq
      rw [hprefixX.eq_of_length hlen, hwalk.last_eq, Option.some.injEq] at hlast
      exact hlast.symm
    have hle := hprefixY.length_le
    exact ih toY.length (by omega) toY walkY rfl

theorem Dominates.of_ahead (h : f.Dominates x n) (hne : x ≠ n) (hp : n ∈ f.graph.ahead f.direction p) :
    f.Dominates x p := by
  intro nodes hwalk
  have hmem := h _ (hwalk.snoc hp)
  rw [List.mem_append, List.mem_singleton] at hmem
  exact hmem.resolve_right hne

end Flow

end Flowgraph
