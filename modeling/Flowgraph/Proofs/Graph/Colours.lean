import Flowgraph.Proofs.Graph.BackEdges
import Flowgraph.Proofs.Graph.Lookup
import Flowgraph.Proofs.Iteration
import Flowgraph.Proofs.Table
/-!
# The search for back edges by colours

The search can be done with a colour for each node: white before it is entered, grey as long as the search stands on it, black
after it is left. A stack holds the grey nodes, each with the number of its edges that have been followed, and an edge to
a grey node is a back edge (`Graph.paint`).

The colours say which nodes are unvisited and which are on the path (`Graph.colourAt`), so the coloured search reports the
same edges in the same order (`Graph.paint_eq_searchBack`). It always comes to its end, from whichever nodes it is started
(`Graph.detectBack_eq`).
-/

namespace Flowgraph.Graph

inductive Colour
  | white
  | grey
  | black
  deriving DecidableEq

/-- The state of a coloured search: the nodes that it stands on, the last one first, the colours and the back edges so far. -/
structure Painting where
  stack : List (Int × Nat)
  colours : Table Colour
  back : Array Edge

namespace Painting

/-- Follows the next edge of the last node, or leaves the node if there is none. -/
def advance (g : Graph) (s : Painting) : Except Fault Painting :=
  match s.stack with
  | [] => .ok s
  | (n, i) :: stack =>
    match (g.outEdges n)[i]? with
    | none => .ok { s with stack := stack, colours := s.colours.put n .black }
    | some e => do
      let stack := (n, i + 1) :: stack
      match ← s.colours.entry e.dst with
      | .white => return { s with stack := (e.dst, 0) :: stack, colours := s.colours.put e.dst .grey }
      | .grey => return { s with stack := stack, back := s.back.push e }
      | .black => return { s with stack := stack }

/-- Searches until the stack is empty. -/
def search (g : Graph) (s : Painting) : ExceptT Fault Part Painting := iterate (·.stack.isEmpty) (advance g) s

/-- Searches from a node, unless it has been visited. -/
def start (g : Graph) (s : Painting) (n : Int) : ExceptT Fault Part Painting := do
  let colour ← s.colours.entry n
  if colour = .white then search g { s with stack := [(n, 0)], colours := s.colours.put n .grey }
  else return s

end Painting

/-- Searches from some nodes in turn, all nodes being white at first. -/
def paint (g : Graph) (starts : List Int) : ExceptT Fault Part Painting :=
  starts.foldlM (Painting.start g) ⟨[], Table.tabulate g.nodeIds fun _ => .white, #[]⟩

/-- The back edges that a coloured search from some nodes, and then from all others, finds. -/
def paintFrom (g : Graph) (starts : List Int) : ExceptT Fault Part (List Edge) := do
  let s ← g.paint (starts ++ g.nodeIds.filter fun n => !starts.contains n)
  return s.back.toList

/-- The back edges that a coloured search from the nodes that are asked for, or else from the roots, finds. -/
def detectBack (g : Graph) (refs : Option (List NodeRef)) : ExceptT Fault Part (List Edge) := do
  let starts ← (refs.elim (.ok g.roots) (·.mapM g.resolve) : Except Fault (List Node))
  g.paintFrom (starts.map Node.id)

/-! ## Colours and the path -/

variable {g : Graph} {unvisited starts : List Int} {path : Path} {n s : Int} {e : Edge} {edges : List Edge} {back : Array Edge}

/-- The colour of a node, where some nodes are unvisited and the search stands on a path. -/
def colourAt (unvisited : List Int) (path : Path) (n : Int) : Colour :=
  if n ∈ unvisited then .white else if n ∈ path.map Prod.fst then .grey else .black

theorem colourAt_eq_white_iff : colourAt unvisited path n = .white ↔ n ∈ unvisited := by
  unfold colourAt
  split
  · simp_all
  · split <;> simp_all

theorem Standing.colours_enter (h : g.Standing unvisited path) (hs : s ∈ unvisited) :
    (Table.tabulate g.nodeIds (colourAt unvisited path)).put s .grey =
      Table.tabulate g.nodeIds (colourAt (unvisited.erase s) ((s, g.outEdges s) :: path)) := by
  have hgrey : colourAt (unvisited.erase s) ((s, g.outEdges s) :: path) s = .grey := by
    rw [colourAt, if_neg h.distinct.not_mem_erase, if_pos (by simp)]
  rw [← hgrey]
  refine Table.put_tabulate (h.known s hs) fun m hm => ?_
  simp only [colourAt, List.mem_erase_of_ne hm, List.map_cons, List.mem_cons, hm, false_or]

theorem Standing.colours_leave (h : g.Standing unvisited ((n, edges) :: path)) :
    (Table.tabulate g.nodeIds (colourAt unvisited ((n, edges) :: path))).put n .black =
      Table.tabulate g.nodeIds (colourAt unvisited path) := by
  obtain ⟨hn, hnew⟩ := h.visited (n, edges) (by simp)
  have hblack : colourAt unvisited path n = .black := by
    rw [colourAt, if_neg hnew, if_neg (List.nodup_cons.1 h.nodes_distinct).1]
  rw [← hblack]
  refine Table.put_tabulate hn fun m hm => ?_
  simp only [colourAt, List.map_cons, List.mem_cons, hm, false_or]

/-- The number of edges that a node on the path has followed. -/
def followed (g : Graph) (p : Int × List Edge) : Nat := (g.outEdges p.1).length - p.2.length

theorem followed_none (g : Graph) (n : Int) : g.followed (n, g.outEdges n) = 0 := Nat.sub_self _

theorem Standing.next_edge (h : g.Standing unvisited ((n, edges) :: path)) :
    (g.outEdges n)[g.followed (n, edges)]? = edges.head? := by
  obtain ⟨before, hedges⟩ := h.rest (n, edges) (by simp)
  have hcount : g.followed (n, edges) = before.length := by
    rw [followed, ← hedges, List.length_append]
    omega
  rw [hcount, ← hedges, List.getElem?_append_right (le_refl _), Nat.sub_self, List.head?_eq_getElem?]

theorem Standing.followed_succ (h : g.Standing unvisited ((n, e :: edges) :: path)) :
    g.followed (n, e :: edges) + 1 = g.followed (n, edges) := by
  have hlength := (h.rest (n, e :: edges) (by simp)).length_le
  simp only [followed, List.length_cons] at hlength ⊢
  omega

/-! ## The coloured search -/

/-- The coloured search where some nodes are unvisited and it stands on a path. -/
def Painting.ofPath (g : Graph) (unvisited : List Int) (path : Path) (back : Array Edge) : Painting :=
  ⟨path.map fun p => (p.1, g.followed p), Table.tabulate g.nodeIds (colourAt unvisited path), back⟩

open Painting

theorem search_done : search g (ofPath g unvisited [] back) = pure (ofPath g unvisited [] back) := iterate_of_done rfl

theorem Standing.search_leave (h : g.Standing unvisited ((n, []) :: path)) :
    search g (ofPath g unvisited ((n, []) :: path) back) = search g (ofPath g unvisited path back) := by
  refine iterate_of_step rfl ?_
  simp only [advance, ofPath, List.map_cons, h.next_edge, List.head?_nil, h.colours_leave]

/-- What following an edge does depends on the colour of the node that it leads to. -/
theorem Standing.search_follow (h : g.Standing unvisited ((n, e :: edges) :: path)) :
    search g (ofPath g unvisited ((n, e :: edges) :: path) back) = search g (
      match colourAt unvisited ((n, edges) :: path) e.dst with
      | .white => ofPath g (unvisited.erase e.dst) ((e.dst, g.outEdges e.dst) :: (n, edges) :: path) back
      | .grey => ofPath g unvisited ((n, edges) :: path) (back.push e)
      | .black => ofPath g unvisited ((n, edges) :: path) back) := by
  have hentry : (Table.tabulate g.nodeIds (colourAt unvisited ((n, edges) :: path))).entry e.dst = .ok _ :=
    Table.entry_tabulate (g.wired.closed e h.edge_mem.1).2
  have hsame : colourAt unvisited ((n, e :: edges) :: path) = colourAt unvisited ((n, edges) :: path) := rfl
  refine iterate_of_step rfl ?_
  simp only [advance, ofPath, List.map_cons, h.next_edge, List.head?_cons, hsame, hentry, h.followed_succ]
  cases hcolour : colourAt unvisited ((n, edges) :: path) e.dst with
  | white =>
    rw [← h.follow.colours_enter (colourAt_eq_white_iff.1 hcolour), followed_none]
    rfl
  | grey => rfl
  | black => rfl

theorem start_eq (h : g.Standing unvisited []) (hs : s ∈ g.nodeIds) : start g (ofPath g unvisited [] back) s =
    if s ∈ unvisited then search g (ofPath g (unvisited.erase s) [(s, g.outEdges s)] back)
    else pure (ofPath g unvisited [] back) := by
  have hentry : (ofPath g unvisited [] back).colours.entry s = .ok _ := Table.entry_tabulate hs
  rw [start, hentry]
  show (pure _ >>= _) = _
  rw [pure_bind]
  by_cases hnew : s ∈ unvisited
  · rw [if_pos (colourAt_eq_white_iff.2 hnew), if_pos hnew]
    simp only [ofPath, List.map_cons, List.map_nil, followed_none, h.colours_enter hnew]
  · rw [if_neg (mt colourAt_eq_white_iff.1 hnew), if_neg hnew]

/-- The rest of a coloured search, along the other one. -/
theorem search_eq_searchBack (unvisited : List Int) (path : Path) (starts : List Int) (h : g.Standing unvisited path)
    (hstarts : ∀ s ∈ starts, s ∈ g.nodeIds) (back : Array Edge) :
    ∃ left, (do starts.foldlM (start g) (← search g (ofPath g unvisited path back))) =
      pure (ofPath g left [] (back ++ (g.searchBack unvisited path starts).toArray)) := by
  fun_induction searchBack g unvisited path starts generalizing back with
  | case1 unvisited => exact ⟨unvisited, by rw [search_done, pure_bind]; simp⟩
  | case2 unvisited s starts hs ih =>
    obtain ⟨hnode, hrest⟩ := List.forall_mem_cons.1 hstarts
    obtain ⟨left, ih⟩ := ih (h.enter hs (by simp)) hrest back
    refine ⟨left, ?_⟩
    rw [search_done, pure_bind, List.foldlM_cons, start_eq h hnode, if_pos hs, ih]
  | case3 unvisited s starts hs ih =>
    obtain ⟨hnode, hrest⟩ := List.forall_mem_cons.1 hstarts
    obtain ⟨left, ih⟩ := ih h hrest back
    refine ⟨left, ?_⟩
    rw [search_done, pure_bind] at ih
    rw [search_done, pure_bind, List.foldlM_cons, start_eq h hnode, if_neg hs, pure_bind, ih]
  | case4 unvisited starts n path ih =>
    obtain ⟨left, ih⟩ := ih h.leave hstarts back
    exact ⟨left, by rw [h.search_leave, ih]⟩
  | case5 unvisited starts n f edges path rest hon ih =>
    have hgrey : colourAt unvisited rest f.dst = .grey := by
      rw [colourAt, if_neg (h.follow.visited_of_any hon), if_pos (any_path_iff.1 hon)]
    obtain ⟨left, ih⟩ := ih h.follow hstarts (back.push f)
    refine ⟨left, ?_⟩
    rw [h.search_follow, hgrey, ih]
    simp
  | case6 unvisited starts n f edges path rest hon hf ih =>
    have hwhite : colourAt unvisited rest f.dst = .white := colourAt_eq_white_iff.2 hf
    obtain ⟨left, ih⟩ := ih (h.follow.enter hf h.leads_to) hstarts back
    exact ⟨left, by rw [h.search_follow, hwhite, ih]⟩
  | case7 unvisited starts n f edges path rest hon hf ih =>
    have hblack : colourAt unvisited rest f.dst = .black := by
      rw [colourAt, if_neg hf, if_neg (mt any_path_iff.2 hon)]
    obtain ⟨left, ih⟩ := ih h.follow hstarts back
    exact ⟨left, by rw [h.search_follow, hblack, ih]⟩

theorem paint_eq_searchBack (hstarts : ∀ s ∈ starts, s ∈ g.nodeIds) :
    ∃ left, g.paint starts = pure (ofPath g left [] (g.searchBack g.nodeIds [] starts).toArray) := by
  obtain ⟨left, hpaint⟩ := search_eq_searchBack g.nodeIds [] starts g.standing_start hstarts #[]
  refine ⟨left, ?_⟩
  have hwhite : Table.tabulate g.nodeIds (colourAt g.nodeIds []) = Table.tabulate g.nodeIds fun _ => .white :=
    List.map_congr_left fun n hn => by rw [colourAt_eq_white_iff.2 hn]
  rw [search_done, pure_bind, ofPath, hwhite] at hpaint
  rw [paint]
  simpa using hpaint

theorem paintFrom_eq (hstarts : ∀ s ∈ starts, s ∈ g.nodeIds) : g.paintFrom starts = pure (g.backEdgesFrom starts) := by
  have hall : ∀ s ∈ starts ++ g.nodeIds.filter fun n => !starts.contains n, s ∈ g.nodeIds := by
    intro s hs
    rcases List.mem_append.1 hs with hs | hs
    · exact hstarts s hs
    · exact (List.mem_filter.1 hs).1
  obtain ⟨left, hpaint⟩ := paint_eq_searchBack hall
  rw [paintFrom, hpaint, pure_bind]
  rfl

/-- The coloured search ends with the back edges of the other one, or is refused for a node that is not in the graph. -/
theorem detectBack_eq (g : Graph) (refs : Option (List NodeRef)) :
    (g.detectBack refs).run = Part.some (refs.elim (.ok g.backEdges) g.backEdgesOf) := by
  have hknown : ∀ nodes : List Node, (∀ n ∈ nodes, n ∈ g.nodes) → ∀ s ∈ nodes.map Node.id, s ∈ g.nodeIds :=
    fun nodes hnodes => List.forall_mem_map.2 fun n hn => List.mem_map_of_mem (hnodes n hn)
  cases refs with
  | none => exact (pure_bind _ _).trans (paintFrom_eq (hknown g.roots fun n hn => (List.mem_filter.1 hn).1))
  | some refs =>
    simp only [detectBack, backEdgesOf, Option.elim_some]
    cases hnodes : refs.mapM g.resolve with
    | error fault => exact throw_bind _ _
    | ok nodes => exact (pure_bind _ _).trans (paintFrom_eq (hknown nodes (mapM_resolve_eq_ok hnodes).2))

end Flowgraph.Graph
