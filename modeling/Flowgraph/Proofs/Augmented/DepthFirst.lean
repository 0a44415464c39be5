import Flowgraph.Augmented.Preorder
import Flowgraph.Proofs.Augmented.Ends
import Flowgraph.Proofs.Graph.Search
import Mathlib.Data.Finset.Card
import Mathlib.Data.List.Nodup
/-!
# Depth-first search

The recursive depth-first search visits a node, then all it can from each neighbour in turn, and skips the nodes that it has
visited (`Graph.depthFirst`). For what it gives, it makes no difference whether the neighbours of a node are gone through first or
put before the nodes that are left (`Graph.depthFirst_visit`). Therefore both searches of the library visit the same nodes:

* The search by unvisited nodes leaves unvisited what the recursive search does (`Graph.explore_eq_filter`), so that the
  recursive search visits exactly what walks reach (`Graph.mem_depthFirst_iff`).
* The walk by uncrossed arcs keeps a stack, in which a node can wait several times. It crosses all arcs from a node when it
  comes to it first and none when it comes to it again. So the uncrossed arcs are those from the unvisited nodes
  (`Preorder.Tracks`), and the nodes come up for the first time in the order of the recursive search (`Preorder.firsts_rest`).
  It emits what waits, and the neighbours of a node once it visits that node (`Preorder.count_rest`).
-/

namespace Flowgraph

namespace Graph

variable {g : Graph} {dir : Direction} {unvisited : List Int} {n : Int}

theorem nodup_ahead (g : Graph) (dir : Direction) (u : Int) : (g.ahead dir u).Nodup := by
  cases dir with
  | forward => exact nodup_eraseDups _
  | backward => exact nodup_eraseDups _

/-! ## The recursive search -/

/-- The recursive depth-first search from some nodes in turn, in the order of its visits. A visited node is skipped; from any
other the search goes through the neighbours in order before it turns to the nodes that are left. -/
def depthFirst (g : Graph) (dir : Direction) (unvisited nodes : List Int) : List Int :=
  match nodes with
  | [] => []
  | n :: nodes =>
    if n ∈ unvisited then
      let below := depthFirst g dir (unvisited.erase n) (g.ahead dir n)
      n :: below ++ depthFirst g dir ((unvisited.erase n).filter fun m => !below.contains m) nodes
    else depthFirst g dir unvisited nodes
  termination_by (unvisited.length, nodes.length)
  decreasing_by
    · rename_i h
      have := List.length_erase_of_mem h
      have := List.length_pos_of_mem h
      apply Prod.Lex.left
      omega
    · rename_i h
      have := List.length_erase_of_mem h
      have := List.length_pos_of_mem h
      apply Prod.Lex.left
      exact Nat.lt_of_le_of_lt (List.length_filter_le _ _) (by omega)
    · apply Prod.Lex.right
      simp

theorem depthFirst_nil : g.depthFirst dir unvisited [] = [] := by
  rw [depthFirst]

theorem depthFirst_skip (hn : n ∉ unvisited) (nodes : List Int) :
    g.depthFirst dir unvisited (n :: nodes) = g.depthFirst dir unvisited nodes := by
  rw [depthFirst, if_neg hn]

theorem filter_not_contains_append (l xs ys : List Int) :
    l.filter (fun m => !(xs ++ ys).contains m) = (l.filter fun m => !xs.contains m).filter fun m => !ys.contains m := by
  rw [List.filter_filter]
  refine List.filter_congr fun m _ => ?_
  simp [Bool.and_comm]

theorem filter_not_contains_cons {l : List Int} (hnodup : l.Nodup) (n : Int) (xs : List Int) :
    l.filter (fun m => !(n :: xs).contains m) = (l.erase n).filter fun m => !xs.contains m := by
  rw [hnodup.erase_eq_filter, List.filter_filter]
  refine List.filter_congr fun m _ => ?_
  rw [Bool.eq_iff_iff]
  simp [and_comm]

/-- The nodes of two lists are visited one list after the other. -/
theorem depthFirst_append (unvisited nodes more : List Int) (hnodup : unvisited.Nodup) :
    g.depthFirst dir unvisited (nodes ++ more) = g.depthFirst dir unvisited nodes ++
      g.depthFirst dir (unvisited.filter fun m => !(g.depthFirst dir unvisited nodes).contains m) more := by
  fun_induction depthFirst g dir unvisited nodes with
  | case1 unvisited => simp
  | case2 unvisited n nodes hn below _ ih =>
    -- what the first list leaves unvisited is what `n`, its neighbours and the other nodes leave in turn
    simp only [List.cons_append, List.append_assoc]
    rw [filter_not_contains_cons hnodup, filter_not_contains_append, depthFirst, if_pos hn,
      ← ih ((hnodup.erase n).filter _)]
    rfl
  | case3 unvisited n nodes hn ih =>
    rw [List.cons_append, depthFirst_skip hn]
    exact ih hnodup

/-- A node that is visited puts its neighbours before the nodes that are left. -/
theorem depthFirst_visit (hnodup : unvisited.Nodup) (hn : n ∈ unvisited) (nodes : List Int) :
    g.depthFirst dir unvisited (n :: nodes) = n :: g.depthFirst dir (unvisited.erase n) (g.ahead dir n ++ nodes) := by
  rw [depthFirst, if_pos hn, depthFirst_append _ _ _ (hnodup.erase n)]
  rfl

theorem depthFirst_subset (unvisited nodes : List Int) : ∀ m ∈ g.depthFirst dir unvisited nodes, m ∈ unvisited := by
  fun_induction depthFirst g dir unvisited nodes with
  | case1 => simp
  | case2 unvisited n nodes hn below ihbelow ih =>
    intro m hm
    rcases List.mem_append.1 hm with hm | hm
    · rcases List.mem_cons.1 hm with rfl | hm
      · exact hn
      · exact List.mem_of_mem_erase (ihbelow m hm)
    · exact List.mem_of_mem_erase (List.mem_filter.1 (ih m hm)).1
  | case3 unvisited n nodes hn ih => exact ih

/-- The search by unvisited nodes visits what the recursive search visits. -/
theorem explore_eq_filter (unvisited pending : List Int) (hnodup : unvisited.Nodup) :
    g.explore dir unvisited pending = unvisited.filter fun m => !(g.depthFirst dir unvisited pending).contains m := by
  fun_induction explore g dir unvisited pending with
  | case1 unvisited => simp [depthFirst_nil]
  | case2 unvisited n pending hn ih =>
    rw [ih (hnodup.erase n), depthFirst_visit hnodup hn, filter_not_contains_cons hnodup]
  | case3 unvisited n pending hn ih => rw [ih hnodup, depthFirst_skip hn]

/-- The recursive search visits the nodes that walks reach. -/
theorem mem_depthFirst_iff {s : Int} : n ∈ g.depthFirst dir g.nodeIds [s] ↔ g.Reaches dir s n := by
  have hsub : n ∈ g.depthFirst dir g.nodeIds [s] → n ∈ g.nodeIds := depthFirst_subset _ _ n
  rw [← mem_reachable_iff, reachable, explore_eq_filter _ _ nodup_nodeIds]
  simp only [List.mem_filter, Bool.not_eq_true', List.contains_eq_mem, decide_eq_false_iff_not]
  constructor
  · intro hn
    exact ⟨hsub hn, fun hnot => hnot.2 hn⟩
  · rintro ⟨hn, hnot⟩
    by_contra hmiss
    exact hnot ⟨hn, hmiss⟩

end Graph

namespace Preorder

variable {g : Graph} {dir : Direction} {p q : Preorder} {unvisited : List Int} {n : Int}

/-! ## One step of the walk -/

theorem mem_arcs_iff {u v : Int} : (u, v) ∈ arcs g dir ↔ v ∈ g.ahead dir u := by
  cases dir
  · simp [arcs, Graph.ahead, Graph.mem_succs_iff]
  · simp [arcs, Graph.ahead, Graph.mem_preds_iff, and_comm]

theorem nodup_arcs : (arcs g dir).Nodup := by
  unfold arcs
  split
  · exact nodup_eraseDups _
  · exact nodup_eraseDups _

/-- Crossing uncrossed arcs reaches all the neighbours across them, in order. -/
theorem reached_of_uncrossed (n : Int) (ms : List Int) (uncrossed : List (Int × Int)) (hnodup : ms.Nodup)
    (h : ∀ m ∈ ms, (n, m) ∈ uncrossed) : (cross n ms uncrossed).1 = ms := by
  induction ms generalizing uncrossed with
  | nil => rfl
  | cons m ms ih =>
    obtain ⟨hm, hms⟩ := List.forall_mem_cons.1 h
    obtain ⟨hnot, hnodup⟩ := List.nodup_cons.1 hnodup
    rw [cross, if_pos hm]
    refine congrArg (m :: ·) (ih (uncrossed.erase (n, m)) hnodup fun k hk => ?_)
    have hne : (n, k) ≠ (n, m) := fun heq => hnot ((Prod.mk.inj heq).2 ▸ hk)
    exact (List.mem_erase_of_ne hne).2 (hms k hk)

/-- Where no arc is uncrossed, there is nothing to cross. -/
theorem cross_of_crossed (n : Int) (ms : List Int) (uncrossed : List (Int × Int)) (h : ∀ m, (n, m) ∉ uncrossed) :
    cross n ms uncrossed = ([], uncrossed) := by
  induction ms with
  | nil => rfl
  | cons m ms ih => rw [cross, if_neg (h m), ih]

/-- Crossing uses up the arcs to the given neighbours, and no others. -/
theorem mem_left_iff (n : Int) (ms : List Int) (uncrossed : List (Int × Int)) (hnodup : uncrossed.Nodup)
    (arc : Int × Int) :
    arc ∈ (cross n ms uncrossed).2 ↔ arc ∈ uncrossed ∧ ¬(arc.1 = n ∧ arc.2 ∈ ms) := by
  induction ms generalizing uncrossed with
  | nil => simp [cross]
  | cons k ms ih =>
    simp only [cross]
    split
    · rw [ih _ (hnodup.erase _), hnodup.mem_erase_iff, List.mem_cons, ne_eq, Prod.ext_iff]
      grind
    · rename_i hk
      rw [ih _ hnodup, List.mem_cons]
      constructor
      · rintro ⟨harc, hnot⟩
        refine ⟨harc, ?_⟩
        rintro ⟨hn, hm | hm⟩
        · exact hk (by rw [← hn, ← hm]; exact harc)
        · exact hnot ⟨hn, hm⟩
      · exact fun h => ⟨h.1, fun h' => h.2 ⟨h'.1, Or.inr h'.2⟩⟩

theorem nodup_left (n : Int) (ms : List Int) (uncrossed : List (Int × Int)) (hnodup : uncrossed.Nodup) :
    (cross n ms uncrossed).2.Nodup := by
  induction ms generalizing uncrossed with
  | nil => exact hnodup
  | cons k ms ih =>
    simp only [cross]
    split
    · exact ih _ (hnodup.erase _)
    · exact ih _ hnodup

/-- What a step does: the next node is the first that waits, and the neighbours that it reaches wait in its place. -/
theorem next?_eq_some_iff {p q : Preorder} {n : Int} :
    p.next? = some (n, q) ↔ ∃ waiting, p.waiting = n :: waiting ∧
      q = { p with
        uncrossed := (cross n (p.graph.ahead p.direction n) p.uncrossed).2
        waiting := (cross n (p.graph.ahead p.direction n) p.uncrossed).1 ++ waiting } := by
  unfold next?
  split
  · rename_i h
    simp [h]
  · rename_i m waiting h
    simp only [h, Option.some.injEq, Prod.mk.injEq, List.cons.injEq]
    constructor
    · rintro ⟨rfl, rfl⟩
      exact ⟨waiting, ⟨rfl, rfl⟩, rfl⟩
    · rintro ⟨_, ⟨rfl, rfl⟩, rfl⟩
      exact ⟨rfl, rfl⟩

/-- The uncrossed arcs of a walk are those from the nodes that it has not visited. -/
structure Tracks (p : Preorder) (unvisited : List Int) : Prop where
  nodup : unvisited.Nodup
  arcs_nodup : p.uncrossed.Nodup
  uncrossed : ∀ u v, (u, v) ∈ p.uncrossed ↔ u ∈ unvisited ∧ v ∈ p.graph.ahead p.direction u

theorem tracks_start (g : Graph) (dir : Direction) (node : Int) : Tracks (start g dir node) g.nodeIds where
  nodup := Graph.nodup_nodeIds
  arcs_nodup := nodup_arcs
  uncrossed u v := by
    refine mem_arcs_iff.trans ⟨fun hv => ?_, fun hv => hv.2⟩
    exact ⟨(Graph.mem_nodeIds_of_mem_ahead hv).1, hv⟩

/-- At a node that it has not visited, the walk goes on to all the neighbours. -/
theorem Tracks.visit (h : Tracks p unvisited) (hnext : p.next? = some (n, q)) (hn : n ∈ unvisited) :
    Tracks q (unvisited.erase n) ∧
      ∃ waiting, p.waiting = n :: waiting ∧ q.waiting = p.graph.ahead p.direction n ++ waiting := by
  obtain ⟨waiting, hw, rfl⟩ := next?_eq_some_iff.1 hnext
  refine ⟨⟨h.nodup.erase n, nodup_left _ _ _ h.arcs_nodup, fun u v => ?_⟩, waiting, hw, ?_⟩
  · rw [mem_left_iff _ _ _ h.arcs_nodup, h.uncrossed, h.nodup.mem_erase_iff]
    constructor
    · rintro ⟨⟨hu, hv⟩, hnot⟩
      exact ⟨⟨fun hun => hnot ⟨hun, hun ▸ hv⟩, hu⟩, hv⟩
    · rintro ⟨⟨hne, hu⟩, hv⟩
      exact ⟨⟨hu, hv⟩, fun hnow => hne hnow.1⟩
  · show (cross n (p.graph.ahead p.direction n) p.uncrossed).1 ++ waiting = _
    rw [reached_of_uncrossed _ _ _ (p.graph.nodup_ahead p.direction n)]
    exact fun m hm => (h.uncrossed n m).2 ⟨hn, hm⟩

/-- At a node that it has visited, the walk adds nothing to what waits. -/
theorem Tracks.revisit (h : Tracks p unvisited) (hnext : p.next? = some (n, q)) (hn : n ∉ unvisited) :
    Tracks q unvisited ∧ p.waiting = n :: q.waiting := by
  obtain ⟨waiting, hw, rfl⟩ := next?_eq_some_iff.1 hnext
  rw [cross_of_crossed n _ p.uncrossed fun m hm => hn ((h.uncrossed n m).1 hm).1]
  exact ⟨⟨h.nodup, h.arcs_nodup, h.uncrossed⟩, hw⟩

theorem graph_next? (hnext : p.next? = some (n, q)) : q.graph = p.graph ∧ q.direction = p.direction := by
  obtain ⟨waiting, -, rfl⟩ := next?_eq_some_iff.1 hnext
  exact ⟨rfl, rfl⟩

theorem waiting_of_next?_eq_none (hnone : p.next? = none) : p.waiting = [] := by
  unfold next? at hnone
  split at hnone
  · assumption
  · cases hnone

/-! ## The whole walk -/

/-- The nodes that the walk has not visited come up first in the order of the recursive search. -/
theorem firsts_rest (p : Preorder) (unvisited : List Int) (h : Tracks p unvisited) :
    (p.rest.filter fun m => unvisited.contains m).eraseDups = p.graph.depthFirst p.direction unvisited p.waiting := by
  fun_induction rest p generalizing unvisited with
  | case1 p hnone => simp [waiting_of_next?_eq_none hnone, Graph.depthFirst_nil]
  | case2 p n q hnext ih =>
    obtain ⟨hgraph, hdir⟩ := graph_next? hnext
    rw [hgraph, hdir] at ih
    by_cases hn : n ∈ unvisited
    · obtain ⟨htracks, waiting, hp, hq⟩ := h.visit hnext hn
      have hsplit : (q.rest.filter fun m => unvisited.contains m).filter (fun m => !m == n) =
          q.rest.filter fun m => (unvisited.erase n).contains m := by
        rw [List.filter_filter]
        refine List.filter_congr fun m _ => ?_
        rw [Bool.eq_iff_iff]
        simp [h.nodup.mem_erase_iff]
      rw [List.filter_cons_of_pos (by simpa using hn), List.eraseDups_cons, hsplit, ih _ htracks, hp, hq,
        Graph.depthFirst_visit h.nodup hn]
    · obtain ⟨htracks, hp⟩ := h.revisit hnext hn
      rw [List.filter_cons_of_neg (by simpa using hn), ih _ htracks, hp, Graph.depthFirst_skip hn]

/-- A node is emitted as often as it waits, and once more for each node visited that has it as a neighbour. -/
theorem count_rest (p : Preorder) (unvisited : List Int) (h : Tracks p unvisited) (v : Int) :
    p.rest.count v = p.waiting.count v +
      (p.graph.depthFirst p.direction unvisited p.waiting).countP fun u => v ∈ p.graph.ahead p.direction u := by
  fun_induction rest p generalizing unvisited with
  | case1 p hnone => simp [waiting_of_next?_eq_none hnone, Graph.depthFirst_nil]
  | case2 p n q hnext ih =>
    obtain ⟨hgraph, hdir⟩ := graph_next? hnext
    rw [hgraph, hdir] at ih
    by_cases hn : n ∈ unvisited
    · obtain ⟨htracks, waiting, hp, hq⟩ := h.visit hnext hn
      have hahead := (p.graph.nodup_ahead p.direction n).count (a := v)
      rw [List.count_cons, ih _ htracks, hp, hq, Graph.depthFirst_visit h.nodup hn, List.countP_cons, List.count_append,
        List.count_cons, hahead]
      simp only [decide_eq_true_eq]
      omega
    · obtain ⟨htracks, hp⟩ := h.revisit hnext hn
      rw [List.count_cons, ih _ htracks, hp, Graph.depthFirst_skip hn, List.count_cons]
      omega

/-- Taken step by step, the walk emits what it emits on the whole, and then is at its end. -/
theorem pull_rest (p : Preorder) : ∃ last, p.pull p.rest.length = (p.rest, last) ∧ last.next? = none := by
  fun_induction rest p with
  | case1 p hnone => exact ⟨p, rfl, hnone⟩
  | case2 p n q hnext ih =>
    obtain ⟨last, hpull, hlast⟩ := ih
    refine ⟨last, ?_, hlast⟩
    rw [List.length_cons, pull, hnext]
    simp only [hpull]

theorem mem_nodeIds_of_mem_rest {s : Int} (hs : s ∈ g.nodeIds) : ∀ m ∈ (start g dir s).rest, m ∈ g.nodeIds := by
  intro m hm
  have hcount := count_rest (start g dir s) g.nodeIds (tracks_start g dir s) m
  have hpos : 0 < (start g dir s).rest.count m := List.count_pos_iff.2 hm
  by_cases hwaits : m ∈ (start g dir s).waiting
  · exact List.mem_singleton.1 hwaits ▸ hs
  · rw [hcount, List.count_eq_zero.2 hwaits, Nat.zero_add, List.countP_pos_iff] at hpos
    obtain ⟨u, -, hu⟩ := hpos
    exact (Graph.mem_nodeIds_of_mem_ahead (of_decide_eq_true hu)).2

end Preorder

namespace Graph

variable {g : Graph} {dir : Direction} {s : Int}

/-! ## Walks from a node -/

/-- A walk comes to the nodes for the first time in the order of the recursive search. -/
theorem preorder_eq_depthFirst (hs : s ∈ g.nodeIds) : g.preorder dir s = g.depthFirst dir g.nodeIds [s] := by
  have hnodes : (Preorder.start g dir s).rest.filter (fun m => g.nodeIds.contains m) = (Preorder.start g dir s).rest := by
    rw [List.filter_eq_self]
    intro m hm
    exact List.contains_iff_mem.2 (Preorder.mem_nodeIds_of_mem_rest hs m hm)
  rw [preorder, ← hnodes]
  exact Preorder.firsts_rest (Preorder.start g dir s) g.nodeIds (Preorder.tracks_start g dir s)

/-- So it emits the nodes that walks reach. -/
theorem mem_preorder_iff {n : Int} (hs : s ∈ g.nodeIds) : n ∈ g.preorder dir s ↔ g.Reaches dir s n := by
  rw [preorder_eq_depthFirst hs, mem_depthFirst_iff]

theorem nodup_preorder (s : Int) : (g.preorder dir s).Nodup := nodup_eraseDups _

theorem head?_preorder (s : Int) : (g.preorder dir s).head? = some s := by
  rw [preorder, Preorder.rest]
  exact List.head?_eq_some_iff.2 ⟨_, List.eraseDups_cons⟩

/-- A walk from a node comes to its end. It emits each node once for every node that the start reaches and that has it as a
neighbour, and the start once more; and it comes to the nodes for the first time in the order of the recursive search. -/
theorem emissions_follow_recursive_search (g : Graph) (dir : Direction) (s : Int) (hs : s ∈ g.nodeIds) :
    ∃ emitted last, (Preorder.start g dir s).pull emitted.length = (emitted, last) ∧ last.next? = none ∧
      (∀ v, ∃ sources : Finset Int, (∀ u, u ∈ sources ↔ g.Reaches dir s u ∧ v ∈ g.ahead dir u) ∧
        emitted.count v = sources.card + if v = s then 1 else 0) ∧
      emitted.eraseDups = g.depthFirst dir g.nodeIds [s] ∧ g.preorder dir s = emitted.eraseDups := by
  obtain ⟨last, hpull, hlast⟩ := Preorder.pull_rest (Preorder.start g dir s)
  refine ⟨(Preorder.start g dir s).rest, last, hpull, hlast, fun v => ?_, preorder_eq_depthFirst hs, rfl⟩
  have hnodup : (g.depthFirst dir g.nodeIds [s]).Nodup := by
    rw [← preorder_eq_depthFirst hs]
    exact nodup_preorder s
  refine ⟨((g.depthFirst dir g.nodeIds [s]).filter fun u => v ∈ g.ahead dir u).toFinset, fun u => ?_, ?_⟩
  · simp [mem_depthFirst_iff]
  · have hcount := Preorder.count_rest (Preorder.start g dir s) g.nodeIds (Preorder.tracks_start g dir s) v
    have hwaiting : (Preorder.start g dir s).waiting.count v = if v = s then 1 else 0 := by
      simp [Preorder.start, List.count_singleton, @eq_comm _ s]
    rw [List.toFinset_card_of_nodup (hnodup.filter _), ← List.countP_eq_length_filter, hcount, hwaiting, Nat.add_comm]
    rfl

theorem emissions_follow_recursive_search_twoEntryLoop :
    (5 : Int) ∈ twoEntryLoop.graph.nodeIds ∧
    ∃ emitted last, (Preorder.start twoEntryLoop.graph .forward 5).pull emitted.length = (emitted, last) ∧
      last.next? = none ∧
      (∀ v, ∃ sources : Finset Int,
        (∀ u, u ∈ sources ↔ twoEntryLoop.graph.Reaches .forward 5 u ∧ v ∈ twoEntryLoop.graph.ahead .forward u) ∧
        emitted.count v = sources.card + if v = 5 then 1 else 0) ∧
      emitted.eraseDups = twoEntryLoop.graph.depthFirst .forward twoEntryLoop.graph.nodeIds [5] ∧
      twoEntryLoop.graph.preorder .forward 5 = emitted.eraseDups :=
  ⟨by decide, emissions_follow_recursive_search twoEntryLoop.graph .forward 5 (by decide)⟩

end Graph

end Flowgraph
