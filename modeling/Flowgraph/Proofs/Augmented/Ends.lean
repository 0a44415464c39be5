import Flowgraph.Augmented.Basic
import Flowgraph.Graph.Walk
/-!
# The two ends of an augmented graph

An edge of an augmented graph is one of the function's own, a link from the entry to a root or a link from an exit
point to the exit (`Augmented.edge_cases`). The function's own nodes have smaller identities than the entry and the exit,
so nothing leads to the entry and nothing leaves the exit: an analysis in either direction never comes back to its root
(`Augmented.root_not_mem_ahead`).
-/

namespace Flowgraph

/-- A branch into a loop that can be entered at both of its nodes, and a node that control does not reach. -/
def twoEntryLoop : Augmented where
  base :=
    { nodes := [{ id := 0, kind := .condition, name := "p", isRoot := true }, { id := 1, name := "left" },
        { id := 2, kind := .condition, name := "q" }, { id := 3, name := "end", isExitPoint := true },
        { id := 4, name := "dead" }]
      edges := [⟨0, 0, 1, .structural, some "true", false, ∅, []⟩, ⟨1, 0, 2, .structural, some "false", false, ∅, []⟩,
        ⟨2, 1, 2, .structural, none, false, ∅, []⟩, ⟨3, 2, 1, .structural, some "true", false, ∅, []⟩,
        ⟨4, 2, 3, .structural, some "false", false, ∅, []⟩, ⟨5, 4, 3, .structural, none, false, ∅, []⟩]
      wired := ⟨by decide, by decide, by decide⟩ }
  name := none
  unaugmented := by decide
  rooted := by decide

namespace Augmented

variable {a : Augmented} {e : Edge}

theorem edge_cases (he : e ∈ a.graph.edges) :
    e ∈ a.base.edges ∨ (e.src = a.entry.id ∧ ∃ n ∈ a.base.roots, n.id = e.dst) ∨
      (e.dst = a.exit.id ∧ ∃ n ∈ a.base.exitPoints, n.id = e.src) := by
  rcases List.mem_append.1 he with he | he
  · exact Or.inl he
  · right
    obtain ⟨⟨⟨draft, src, dst⟩, i⟩, hlink, rfl⟩ := List.mem_map.1 he
    rcases List.mem_append.1 (List.fst_mem_of_mem_zipIdx hlink) with hlink | hlink
    · obtain ⟨n, hn, heq⟩ := List.mem_map.1 hlink
      obtain ⟨-, hsrc, hdst⟩ := Prod.mk.inj heq |>.imp_right Prod.mk.inj
      exact Or.inl ⟨hsrc.symm, n, hn, hdst⟩
    · obtain ⟨n, hn, heq⟩ := List.mem_map.1 hlink
      obtain ⟨-, hsrc, hdst⟩ := Prod.mk.inj heq |>.imp_right Prod.mk.inj
      exact Or.inr ⟨hdst.symm, n, hn, hsrc⟩

theorem own_lt_entry {i : Int} (h : i ∈ a.base.nodeIds) : i < a.entry.id :=
  Int.lt_add_one_of_le (Graph.le_largest h)

theorem entry_lt_exit (a : Augmented) : a.entry.id < a.exit.id := by
  have hentry : a.entry.id = a.base.maxNodeId + 1 := rfl
  have hexit : a.exit.id = a.base.maxNodeId + 2 := rfl
  omega

theorem edge_ends (he : e ∈ a.graph.edges) : e.dst ≠ a.entry.id ∧ e.src ≠ a.exit.id := by
  have hlt := a.entry_lt_exit
  have own : ∀ {p : Node → Bool} {n : Node}, n ∈ a.base.nodes.filter p → n.id < a.entry.id :=
    fun hn => own_lt_entry (List.mem_map_of_mem (List.mem_filter.1 hn).1)
  rcases edge_cases he with he | ⟨hsrc, n, hn, hdst⟩ | ⟨hdst, n, hn, hsrc⟩
  · have hs := own_lt_entry (a.base.wired.closed e he).1
    have hd := own_lt_entry (a.base.wired.closed e he).2
    omega
  · have := own hn
    omega
  · have := own hn
    omega

theorem root_not_mem_ahead (a : Augmented) (dir : Direction) (u : Int) : (a.root dir).id ∉ a.graph.ahead dir u := by
  intro h
  cases dir with
  | forward =>
    obtain ⟨e, he, -, hdst⟩ := Graph.mem_succs_iff.1 h
    exact (edge_ends he).1 hdst
  | backward =>
    obtain ⟨e, he, hsrc, -⟩ := Graph.mem_preds_iff.1 h
    exact (edge_ends he).2 hsrc

end Augmented

end Flowgraph
