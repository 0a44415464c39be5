import Flowgraph.Graph.Loop
import Flowgraph.Graph.Walk
import Mathlib.Data.List.Nodup
import Mathlib.Data.List.Perm.Subperm
/-!
# Graphs without cycles

The search for back edges leaves a node for good once it has followed all edges from it. Those that are no back edges lead to
nodes that it left before, so no endless walk can start at a node that the search has left (`Graph.acc_of_searchBack`). As the
search leaves every node, a graph has no endless walk without its back edges, and this is what loop removal gives
(`Graph.wellFounded_of_loopFree`). In such a graph no walk comes to a node twice (`Graph.Walk.nodup`).
-/

namespace Flowgraph.Graph

variable {g h : Graph} {dropped : Edge → Prop}

/-! ## Nodes that the search has left -/

/-- Whether an edge that is not dropped leads from the second node to the first. -/
def Follows (g : Graph) (dropped : Edge → Prop) (v u : Int) : Prop :=
  ∃ e ∈ g.edges, ¬dropped e ∧ e.src = u ∧ e.dst = v

/-- What is known of the nodes on the search's path, `next` being the node to which it went on from the last of them: an edge
that it has followed is dropped, leads on along the path, or leads to a node without endless walks. -/
def Followed (g : Graph) (dropped : Edge → Prop) : Option Int → Path → Prop
  | _, [] => True
  | next, (n, edges) :: path =>
    (∀ e ∈ edges, e ∈ g.edges) ∧
      (∀ e ∈ g.outEdges n, e ∈ edges ∨ dropped e ∨ Acc (g.Follows dropped) e.dst ∨ next = some e.dst) ∧
      Followed g dropped (some n) path

theorem Followed.left {n : Int} {path : Path} (hpath : Followed g dropped (some n) path)
    (hn : Acc (g.Follows dropped) n) : Followed g dropped none path := by
  cases path with
  | nil => trivial
  | cons top path =>
    obtain ⟨hedges, hfollowed, hrest⟩ := hpath
    refine ⟨hedges, fun e he => ?_, hrest⟩
    rcases hfollowed e he with h | h | h | h
    · exact Or.inl h
    · exact Or.inr (Or.inl h)
    · exact Or.inr (Or.inr (Or.inl h))
    · cases h
      exact Or.inr (Or.inr (Or.inl hn))

theorem Followed.acc {n : Int} {path : Path} (hpath : Followed g dropped none ((n, []) :: path)) :
    Acc (g.Follows dropped) n := by
  refine Acc.intro n fun v hv => ?_
  obtain ⟨e, he, hkept, hsrc, rfl⟩ := hv
  rcases hpath.2.1 e (by simp [outEdges, he, hsrc]) with h | h | h | h
  · cases h
  · exact absurd h hkept
  · exact h
  · cases h

/-- The nodes that the search has visited and left start no endless walk, and no start is forgotten. -/
structure Searching (g : Graph) (dropped : Edge → Prop) (unvisited : List Int) (path : Path) (starts : List Int) :
    Prop where
  nodup : unvisited.Nodup
  waiting : ∀ n ∈ unvisited, n ∈ starts
  followed : Followed g dropped none path
  left : ∀ n ∈ g.nodeIds, n ∉ unvisited → n ∉ path.map Prod.fst → Acc (g.Follows dropped) n

theorem Searching.enter {unvisited starts starts' : List Int} {path path' : Path} {n : Int}
    (hs : Searching g dropped unvisited path starts) (hsame : path'.map Prod.fst = path.map Prod.fst)
    (hpath : Followed g dropped (some n) path') (hwaiting : ∀ m ∈ unvisited, m ≠ n → m ∈ starts') :
    Searching g dropped (unvisited.erase n) ((n, g.outEdges n) :: path') starts' where
  nodup := hs.nodup.erase n
  waiting m hm := by
    obtain ⟨hne, hm⟩ := hs.nodup.mem_erase_iff.1 hm
    exact hwaiting m hm hne
  followed := ⟨fun e he => (List.mem_filter.1 he).1, fun e he => Or.inl he, hpath⟩
  left m hm hvisited hoff := by
    simp only [List.map_cons, List.mem_cons, not_or, hsame] at hoff
    rw [hs.nodup.mem_erase_iff, not_and] at hvisited
    exact hs.left m hm (hvisited hoff.1) hoff.2

theorem Searching.follow {unvisited starts : List Int} {path : Path} {n : Int} {e : Edge} {edges : List Edge}
    (hs : Searching g dropped unvisited ((n, e :: edges) :: path) starts) {next : Option Int}
    (he : dropped e ∨ Acc (g.Follows dropped) e.dst ∨ next = some e.dst) :
    Followed g dropped next ((n, edges) :: path) := by
  obtain ⟨hedges, hfollowed, hrest⟩ := hs.followed
  refine ⟨fun d hd => hedges d (by simp [hd]), fun d hd => ?_, hrest⟩
  rcases hfollowed d hd with h | h | h | h
  · rcases List.mem_cons.1 h with rfl | h
    · exact Or.inr he
    · exact Or.inl h
  · exact Or.inr (Or.inl h)
  · exact Or.inr (Or.inr (Or.inl h))
  · cases h

/-- Without the edges that the search reports, no walk goes on for ever. -/
theorem acc_of_searchBack (unvisited : List Int) (path : Path) (starts : List Int)
    (hdropped : ∀ e ∈ g.searchBack unvisited path starts, dropped e)
    (hs : Searching g dropped unvisited path starts) : ∀ n ∈ g.nodeIds, Acc (g.Follows dropped) n := by
  fun_induction searchBack g unvisited path starts with
  | case1 unvisited =>
    intro n hn
    exact hs.left n hn (fun h => by cases hs.waiting n h) (by simp)
  | case2 unvisited s starts hmem ih =>
    refine ih hdropped (hs.enter rfl trivial fun m hm hne => ?_)
    exact (List.mem_cons.1 (hs.waiting m hm)).resolve_left hne
  | case3 unvisited s starts hmem ih =>
    refine ih hdropped { hs with waiting := fun m hm => ?_ }
    exact (List.mem_cons.1 (hs.waiting m hm)).resolve_left fun h => hmem (h ▸ hm)
  | case4 unvisited starts n path ih =>
    -- all edges from `n` are followed, so the search leaves it
    have hleft : Acc (g.Follows dropped) n := hs.followed.acc
    refine ih hdropped ⟨hs.nodup, hs.waiting, hs.followed.2.2.left hleft, fun m hm hvisited hoff => ?_⟩
    by_cases hmn : m = n
    · exact hmn ▸ hleft
    · exact hs.left m hm hvisited (by simpa using ⟨hmn, by simpa using hoff⟩)
  | case5 unvisited starts n e edges path rest hon ih =>
    have he : dropped e := hdropped e (by simp)
    refine ih (fun d hd => hdropped d (by simp [hd])) ⟨hs.nodup, hs.waiting, hs.follow (Or.inl he), hs.left⟩
  | case6 unvisited starts n e edges path rest hon hmem ih =>
    exact ih hdropped (hs.enter rfl (hs.follow (Or.inr (Or.inr rfl))) fun m hm _ => hs.waiting m hm)
  | case7 unvisited starts n e edges path rest hon hmem ih =>
    have he : Acc (g.Follows dropped) e.dst := by
      refine hs.left e.dst (g.wired.closed e (hs.followed.1 e (by simp))).2 hmem ?_
      simpa [rest, @eq_comm _ n] using hon
    exact ih hdropped ⟨hs.nodup, hs.waiting, hs.follow (Or.inr (Or.inl he)), hs.left⟩

/-! ## Graphs without their back edges -/

theorem wellFounded_follows (starts : List Int) (hdropped : ∀ e ∈ g.backEdgesFrom starts, dropped e) :
    WellFounded (g.Follows dropped) := by
  have hall : ∀ n ∈ g.nodeIds, Acc (g.Follows dropped) n := by
    refine acc_of_searchBack g.nodeIds [] _ hdropped ⟨g.wired.nodes_distinct, fun n hn => ?_, trivial, ?_⟩
    · by_cases hstart : n ∈ starts
      · exact List.mem_append_left _ hstart
      · exact List.mem_append_right _ (List.mem_filter.2 ⟨hn, by simpa using hstart⟩)
    · exact fun n hn hnot => absurd hn hnot
  refine ⟨fun n => ?_⟩
  by_cases hn : n ∈ g.nodeIds
  · exact hall n hn
  · -- no edge leaves what is no node
    refine Acc.intro n fun v hv => ?_
    obtain ⟨e, he, -, rfl, -⟩ := hv
    exact absurd (g.wired.closed e he).1 hn

theorem withoutEdges_nil (g : Graph) : g.withoutEdges [] = g := ext rfl (by simp [withoutEdges])

/-- A graph has no endless walk without the edges that a search reports. -/
theorem wellFounded_withoutEdges (starts : List Int) {ids : List Int}
    (hids : ∀ e ∈ g.backEdgesFrom starts, e.id ∈ ids) : WellFounded fun v u => v ∈ (g.withoutEdges ids).succs u := by
  have hwf : WellFounded (g.Follows fun e => e.id ∈ ids) := wellFounded_follows starts hids
  refine Subrelation.wf (fun {v u} hv => ?_) hwf
  obtain ⟨e, he, hsrc, hdst⟩ := mem_succs_iff.1 hv
  obtain ⟨he, hkept⟩ := List.mem_filter.1 he
  exact ⟨e, he, by simpa using hkept, hsrc, hdst⟩

/-- What loop removal gives has no endless walk. -/
theorem wellFounded_of_loopFree {repair : Bool} (hfree : g.loopFree repair = .ok h) :
    WellFounded fun v u => v ∈ h.succs u := by
  unfold loopFree at hfree
  dsimp only at hfree
  split at hfree
  · rename_i hnone
    cases hfree
    rw [← g.unflagged.withoutEdges_nil]
    refine wellFounded_withoutEdges (g.unflagged.roots.map Node.id) fun e he => ?_
    have hempty : g.unflagged.backEdges = [] := by simpa using hnone
    rw [backEdges] at hempty
    rw [hempty] at he
    cases he
  · split at hfree
    · cases hfree
      exact wellFounded_withoutEdges _ fun e he => List.mem_map_of_mem he
    · cases hfree

/-! ## Walks in a graph without cycles -/

theorem not_onCycle (hwf : WellFounded fun v u => v ∈ g.succs u) (u : Int) : ¬g.OnCycle u := by
  induction u using hwf.induction with
  | _ u ih =>
    intro hcycle
    obtain ⟨v, hv, nodes, hwalk⟩ := hcycle
    -- the cycle goes through the next node as well
    apply ih v hv
    cases hwalk with
    | stay hu => exact ⟨_, hv, .refl hu⟩
    | step hnext hwalk => exact ⟨_, hnext, Reaches.tail ⟨_, hwalk⟩ hv⟩

theorem Walk.nodup (hwf : WellFounded fun v u => v ∈ g.succs u) {u v : Int} {nodes : List Int}
    (hwalk : g.Walk .forward u nodes v) : nodes.Nodup := by
  induction hwalk with
  | stay _ => simp
  | step hv hwalk ih =>
    refine List.nodup_cons.2 ⟨fun hu => ?_, ih⟩
    obtain ⟨part, -, hpart⟩ := hwalk.take hu
    exact not_onCycle hwf _ ⟨_, hv, part, hpart⟩

theorem Walk.length_le (hwf : WellFounded fun v u => v ∈ g.succs u) {u v : Int} {nodes : List Int}
    (hwalk : g.Walk .forward u nodes v) : nodes.length ≤ g.nodes.length := by
  have hsub := (List.Nodup.subperm (hwalk.nodup hwf) hwalk.nodes_mem).length_le
  simpa [nodeIds] using hsub

end Flowgraph.Graph
