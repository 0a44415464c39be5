import Flowgraph.Proofs.Feasibility.Paths
import Flowgraph.Proofs.Graph.Acyclic
import Flowgraph.Proofs.Iteration
import Mathlib.Data.Set.Card
/-!
# All paths of a function

The paths of a function are the walks of its loop-free graph that start at a root and end where nothing follows
(`Graph.IsMaximal`). They are listed root by root, and where two of them part, in the order of successors
(`Graph.Before`); there is no limit to what is listed but the number of paths that is allowed
(`Explorer.enumeration_is_exact`).

Without the limit, listing is a plain recursion over successors (`Graph.ways`). The limit only decides whether the list is
given (`Explorer.enumerate_eq`), and the bound on the depth does not matter, because a walk without repetition is
no longer than the graph has nodes. For the same reason a loop that keeps the paths it has still to follow on a stack comes to its
end, with the same list or the same refusal (`Explorer.followAll_eq`).
-/

namespace Flowgraph

namespace Graph

variable {g : Graph} {n : Node} {p q : List Node} {first : List Int}

/-- A walk from one of some nodes to a node that leads nowhere. -/
def IsMaximal (g : Graph) (roots : List Node) (p : List Node) : Prop :=
  (∀ n ∈ p, n ∈ g.nodes) ∧ ∃ r ∈ roots, ∃ t, g.Walk .forward r.id (p.map Node.id) t ∧ g.succs t = []

/-- The order of walks that start at one of some nodes: where two of them part, the one comes first whose next node does. -/
inductive Before (g : Graph) : List Int → List Node → List Node → Prop
  | part {first : List Int} {m n : Node} {p q : List Node} :
      [m.id, n.id].Sublist first → Before g first (m :: p) (n :: q)
  | along {first : List Int} {n : Node} {p q : List Node} :
      Before g (g.succs n.id) p q → Before g first (n :: p) (n :: q)

theorem nodup_succs (g : Graph) (u : Int) : (g.succs u).Nodup := nodup_eraseDups _

theorem walk_cons_iff {dir : Direction} {u t : Int} {rest : List Int} :
    g.Walk dir u (u :: rest) t ↔ (rest = [] ∧ t = u ∧ u ∈ g.nodeIds) ∨ ∃ v ∈ g.ahead dir u, g.Walk dir v rest t := by
  constructor
  · intro hwalk
    cases hwalk with
    | stay hu => exact Or.inl ⟨rfl, rfl, hu⟩
    | step hv hwalk => exact Or.inr ⟨_, hv, hwalk⟩
  · intro h
    rcases h with ⟨rfl, rfl, hu⟩ | ⟨v, hv, hwalk⟩
    · exact .stay hu
    · exact .step hv hwalk

theorem Before.ne (hfirst : first.Nodup) (h : g.Before first p q) : p ≠ q := by
  induction h with
  | part hsub =>
    intro heq
    cases heq
    exact List.nodup_iff_sublist.1 hfirst _ hsub
  | along _ ih =>
    intro heq
    exact ih (g.nodup_succs _) (List.cons.inj heq).2

/-! ## Successors -/

theorem map_id_successors (g : Graph) (n : Node) : (g.successors n).map Node.id = g.succs n.id := by
  apply map_id_lookUp
  intro i hi
  exact (mem_nodeIds_of_mem_ahead (show i ∈ g.ahead .forward n.id from hi)).2

theorem mem_successors_iff {c : Node} : c ∈ g.successors n ↔ c ∈ g.nodes ∧ c.id ∈ g.succs n.id := mem_lookUp_iff

/-! ## Listing without a limit -/

/-- The ways on from a node to nodes that lead nowhere, at most `depth` nodes long. -/
def ways (g : Graph) : (depth : Nat) → Node → List (List Node)
  | 0, _ => []
  | depth + 1, n =>
    match g.successors n with
    | [] => [[n]]
    | children => (children.flatMap (ways g depth)).map (n :: ·)

theorem ways_leaf (depth : Nat) (h : g.succs n.id = []) : g.ways (depth + 1) n = [[n]] := by
  rw [← map_id_successors, List.map_eq_nil_iff] at h
  rw [ways, h]

theorem ways_step (depth : Nat) (h : g.succs n.id ≠ []) :
    g.ways (depth + 1) n = ((g.successors n).flatMap (g.ways depth)).map (n :: ·) := by
  rw [← map_id_successors, ne_eq, List.map_eq_nil_iff] at h
  rw [ways]
  split
  · contradiction
  · rfl

theorem walk_of_mem_ways (depth : Nat) (hn : n ∈ g.nodes) (hp : p ∈ g.ways depth n) :
    (∀ m ∈ p, m ∈ g.nodes) ∧ ∃ t, g.Walk .forward n.id (p.map Node.id) t ∧ g.succs t = [] := by
  induction depth generalizing n p with
  | zero => cases hp
  | succ depth ih =>
    by_cases hleaf : g.succs n.id = []
    · rw [ways_leaf depth hleaf, List.mem_singleton] at hp
      subst hp
      exact ⟨by simpa using hn, n.id, .stay (List.mem_map_of_mem hn), hleaf⟩
    · rw [ways_step depth hleaf, List.mem_map] at hp
      obtain ⟨rest, hrest, rfl⟩ := hp
      obtain ⟨c, hc, hrest⟩ := List.mem_flatMap.1 hrest
      obtain ⟨hcg, hsucc⟩ := mem_successors_iff.1 hc
      obtain ⟨hnodes, t, hwalk, hend⟩ := ih hcg hrest
      exact ⟨by simpa using ⟨hn, hnodes⟩, t, .step hsucc hwalk, hend⟩

theorem mem_ways_of_walk (depth : Nat) (hn : n ∈ g.nodes) (hp : ∀ m ∈ p, m ∈ g.nodes) (hlength : p.length ≤ depth)
    {t : Int} (hwalk : g.Walk .forward n.id (p.map Node.id) t) (hend : g.succs t = []) : p ∈ g.ways depth n := by
  induction depth generalizing n p with
  | zero =>
    obtain rfl : p = [] := List.length_eq_zero_iff.1 (by omega)
    cases hwalk
  | succ depth ih =>
    cases p with
    | nil => cases hwalk
    | cons m rest =>
      obtain rfl : m = n := by
        have hhead : (m.id :: rest.map Node.id).head? = some n.id := hwalk.head_eq
        have hinj := List.inj_on_of_nodup_map g.wired.nodes_distinct
        exact hinj (hp m (by simp)) hn (by simpa using hhead)
      rw [List.map_cons, walk_cons_iff] at hwalk
      rcases hwalk with ⟨hrest, rfl, -⟩ | ⟨v, hv, hwalk⟩
      · rw [ways_leaf depth hend, List.map_eq_nil_iff.1 hrest]
        simp
      · obtain ⟨c, hc, rfl⟩ : ∃ c ∈ g.nodes, c.id = v :=
          List.mem_map.1 (mem_nodeIds_of_mem_ahead hv).2
        have hleaf : g.succs m.id ≠ [] := List.ne_nil_of_mem hv
        have hrest := ih hc (fun k hk => hp k (by simp [hk])) (by simpa using hlength) hwalk
        rw [ways_step depth hleaf]
        exact List.mem_map_of_mem (List.mem_flatMap.2 ⟨c, mem_successors_iff.2 ⟨hc, hv⟩, hrest⟩)

theorem head_of_mem_ways {depth : Nat} (h : p ∈ g.ways depth n) : ∃ rest, p = n :: rest := by
  cases depth with
  | zero => cases h
  | succ depth =>
    by_cases hleaf : g.succs n.id = []
    · rw [ways_leaf depth hleaf, List.mem_singleton] at h
      exact ⟨[], h⟩
    · rw [ways_step depth hleaf, List.mem_map] at h
      obtain ⟨rest, -, rfl⟩ := h
      exact ⟨rest, rfl⟩

theorem pairwise_ways (depth : Nat) (roots : List Node) (hroots : (roots.map Node.id).Nodup) :
    (roots.flatMap (g.ways depth)).Pairwise (g.Before (roots.map Node.id)) := by
  induction depth generalizing roots with
  | zero =>
    have hnone : roots.flatMap (g.ways 0) = [] := List.flatMap_eq_nil_iff.2 fun _ _ => rfl
    simp [hnone]
  | succ depth ih =>
    rw [List.pairwise_flatMap]
    constructor
    · -- ways from one root differ further on
      intro r _
      by_cases hleaf : g.succs r.id = []
      · simp [ways_leaf depth hleaf]
      · rw [ways_step depth hleaf, List.pairwise_map]
        have hnext := ih (g.successors r) (by rw [map_id_successors]; exact g.nodup_succs r.id)
        rw [map_id_successors] at hnext
        exact hnext.imp fun h => .along h
    · rw [List.pairwise_iff_forall_sublist]
      intro r r' hsub p hp q hq
      obtain ⟨p', rfl⟩ := head_of_mem_ways hp
      obtain ⟨q', rfl⟩ := head_of_mem_ways hq
      exact .part (hsub.map Node.id)

theorem ways_succ (depth : Nat) (hn : n ∈ g.nodes)
    (hshort : ∀ nodes t, g.Walk .forward n.id nodes t → nodes.length ≤ depth) : g.ways (depth + 1) n = g.ways depth n := by
  induction depth generalizing n with
  | zero =>
    have hstay := hshort _ _ (.stay (List.mem_map_of_mem hn))
    simp at hstay
  | succ depth ih =>
    by_cases hleaf : g.succs n.id = []
    · rw [ways_leaf _ hleaf, ways_leaf _ hleaf]
    · rw [ways_step _ hleaf, ways_step _ hleaf]
      congr 1
      refine List.flatMap_congr fun c hc => ?_
      obtain ⟨hcg, hsucc⟩ := mem_successors_iff.1 hc
      exact ih hcg fun nodes t hwalk => by simpa using hshort _ _ (.step hsucc hwalk)

variable (hwf : WellFounded fun v u => v ∈ g.succs u)

include hwf

/-- Going deeper than the graph has nodes finds nothing more. -/
theorem ways_of_le {depth : Nat} (hdepth : g.nodes.length ≤ depth) (hn : n ∈ g.nodes) :
    g.ways depth n = g.ways g.nodes.length n := by
  induction depth, hdepth using Nat.le_induction with
  | base => rfl
  | succ depth hdepth ih =>
    rw [ways_succ depth hn fun nodes t hwalk => (hwalk.length_le hwf).trans hdepth, ih]

theorem mem_flatMap_ways_iff {roots : List Node} (hroots : ∀ r ∈ roots, r ∈ g.nodes) :
    p ∈ roots.flatMap (g.ways g.nodes.length) ↔ g.IsMaximal roots p := by
  rw [List.mem_flatMap]
  constructor
  · intro h
    obtain ⟨r, hr, hp⟩ := h
    obtain ⟨hnodes, hwalk⟩ := walk_of_mem_ways _ (hroots r hr) hp
    exact ⟨hnodes, r, hr, hwalk⟩
  · intro h
    obtain ⟨hnodes, r, hr, t, hwalk, hend⟩ := h
    have hlength := hwalk.length_le hwf
    rw [List.length_map] at hlength
    exact ⟨r, hr, mem_ways_of_walk _ (hroots r hr) hnodes hlength hwalk hend⟩

theorem IsMaximal.nodup {roots : List Node} (h : g.IsMaximal roots p) : (p.map Node.id).Nodup := by
  obtain ⟨-, r, -, t, hwalk, -⟩ := h
  exact hwalk.nodup hwf

end Graph

namespace Explorer

variable {g h : Graph} {limit : Nat} {found : Array (List Node)}

/-! ## The limit -/

theorem foldlM_flatMap {α β γ : Type} (f : α → List γ) (step : β → γ → Option β) (l : List α) (b : β) :
    (l.flatMap f).foldlM step b = l.foldlM (fun b a => (f a).foldlM step b) b := by
  induction l generalizing b with
  | nil => rfl
  | cons a l ih => simp [ih]

/-- Listing with a limit adds the ways on from a node one by one. -/
theorem extend_eq_foldlM (g : Graph) (limit depth : Nat) (before : List Node) (n : Node) (found : Array (List Node)) :
    extend g limit depth before n found = ((g.ways depth n).map (before ++ ·)).foldlM (addPath limit) found := by
  induction depth generalizing before n found with
  | zero => rfl
  | succ depth ih =>
    have hsuccs := g.map_id_successors n
    rw [extend]
    split
    · rename_i hnone
      rw [hnone] at hsuccs
      rw [Graph.ways_leaf depth hsuccs.symm]
      simp
    · rename_i hsome
      have hstep : g.succs n.id ≠ [] := by
        intro h
        exact hsome (by simpa [h] using hsuccs)
      have hmap : (((g.successors n).flatMap (g.ways depth)).map (n :: ·)).map (before ++ ·) =
          (g.successors n).flatMap fun c => (g.ways depth c).map ((before ++ [n]) ++ ·) := by
        simp [List.map_flatMap, Function.comp_def]
      rw [Graph.ways_step depth hstep, hmap, foldlM_flatMap]
      simp only [ih]

theorem foldlM_addPath (paths : List (List Node)) (found : Array (List Node)) (hfound : found.size ≤ limit) :
    (paths.foldlM (addPath limit) found).map Array.toList =
      if found.size + paths.length ≤ limit then some (found.toList ++ paths) else none := by
  induction paths generalizing found with
  | nil => simp [hfound]
  | cons p paths ih =>
    rw [List.foldlM_cons, addPath, List.length_cons]
    by_cases hfull : limit < found.size + 1
    · rw [if_pos hfull, if_neg (by omega)]
      rfl
    · rw [if_neg hfull, Option.bind_eq_bind, Option.bind_some, ih _ (by rw [Array.size_push]; omega), Array.size_push,
        Array.toList_push, List.append_assoc, Nat.add_assoc, Nat.add_comm 1]
      rfl

theorem enumerate_eq (g : Graph) (limit : Nat) (roots : List Node) :
    enumerate g limit roots =
      if (roots.flatMap (g.ways g.nodes.length)).length ≤ limit then some (roots.flatMap (g.ways g.nodes.length))
      else none := by
  have hroots : roots.foldlM (fun found r => extend g limit g.nodes.length [] r found) #[] =
      (roots.flatMap (g.ways g.nodes.length)).foldlM (addPath limit) #[] := by
    rw [foldlM_flatMap]
    simp [extend_eq_foldlM]
  rw [enumerate, hroots, foldlM_addPath _ _ (Nat.zero_le limit)]
  simp

/-! ## The stack -/

/-- The paths that are still to be followed, the topmost first, and those that are found. -/
structure Frontier where
  stack : List (List Node × Node)
  found : Array (List Node)

/-- Follows the topmost path: if it can go on, it is replaced by those that go on to its successors, pushed from the last to the
first, and if not, it is found. -/
def Frontier.advance (g : Graph) (name : Option String) (limit : Nat) (s : Frontier) : Except Fault Frontier :=
  match s.stack with
  | [] => .ok s
  | (before, n) :: stack =>
    let path := before ++ [n]
    let children := g.successors n
    if children.isEmpty then
      let found := s.found.push path
      if limit < found.size then .error (.tooManyPaths name limit) else .ok ⟨stack, found⟩
    else .ok ⟨children.reverse.foldl (fun stack c => (path, c) :: stack) stack, s.found⟩

/-- Follows paths until the stack is empty: those that are found. -/
def follow (g : Graph) (name : Option String) (limit : Nat) (stack : List (List Node × Node))
    (found : Array (List Node)) : ExceptT Fault Part (Array (List Node)) := do
  let s ← iterate (·.stack.isEmpty) (Frontier.advance g name limit) ⟨stack, found⟩
  return s.found

/-- The paths from some roots, followed on a stack for each root. -/
def followAll (g : Graph) (name : Option String) (limit : Nat) (roots : List Node) :
    ExceptT Fault Part (List (List Node)) := do
  let found ← roots.foldlM (fun found r => follow g name limit [([], r)] found) #[]
  return found.toList

theorem follow_nil (name : Option String) (found : Array (List Node)) : follow g name limit [] found = pure found := by
  rw [follow, iterate_of_done rfl, pure_bind]

theorem follow_of_step {name : Option String} {p : List Node × Node} {stack stack' : List (List Node × Node)}
    {found found' : Array (List Node)} (h : Frontier.advance g name limit ⟨p :: stack, found⟩ = .ok ⟨stack', found'⟩) :
    follow g name limit (p :: stack) found = follow g name limit stack' found' := by
  rw [follow, iterate_of_step rfl h, follow]

theorem follow_of_error {name : Option String} {p : List Node × Node} {stack : List (List Node × Node)}
    {found : Array (List Node)} {fault : Fault} (h : Frontier.advance g name limit ⟨p :: stack, found⟩ = .error fault) :
    follow g name limit (p :: stack) found = throw fault := by
  rw [follow, iterate_of_error rfl h, throw_bind]

/-- A listing that ends, with its paths or because they are too many. -/
def listed {α : Type} (name : Option String) (limit : Nat) : Option α → ExceptT Fault Part α
  | none => throw (.tooManyPaths name limit)
  | some found => return found

theorem listed_bind {α β : Type} (name : Option String) (limit : Nat) (o : Option α) (f : α → Option β) :
    listed name limit (o >>= f) = listed name limit o >>= fun a => listed name limit (f a) := by
  cases o with
  | none => exact (throw_bind _ _).symm
  | some a => exact (pure_bind a fun a => listed name limit (f a)).symm

theorem foldl_push (path : List Node) (children : List Node) (stack : List (List Node × Node)) :
    children.reverse.foldl (fun stack c => (path, c) :: stack) stack = children.map (path, ·) ++ stack := by
  rw [List.foldl_reverse]
  induction children with
  | nil => rfl
  | cons c children ih => rw [List.foldr_cons, ih, List.map_cons, List.cons_append]

/-- The topmost path is followed to all its ends before the stack below it is touched. The depth of the recursion is that of the
walks from its last node; over the successors that are pushed, the stack of the first has the others below it. -/
theorem follow_cons (name : Option String) (depth : Nat) (before : List Node) {n : Node} (stack : List (List Node × Node))
    (found : Array (List Node)) (hn : n ∈ g.nodes)
    (hshort : ∀ nodes t, g.Walk .forward n.id nodes t → nodes.length ≤ depth) :
    follow g name limit ((before, n) :: stack) found =
      listed name limit (extend g limit depth before n found) >>= follow g name limit stack := by
  induction depth generalizing before n stack found with
  | zero =>
    have hstay := hshort _ _ (.stay (List.mem_map_of_mem hn))
    simp at hstay
  | succ depth ih =>
    have hsucc : ∀ c ∈ g.successors n, c ∈ g.nodes ∧ ∀ nodes t, g.Walk .forward c.id nodes t → nodes.length ≤ depth := by
      intro c hc
      obtain ⟨hcg, hcs⟩ := Graph.mem_successors_iff.1 hc
      exact ⟨hcg, fun nodes t hwalk => by simpa using hshort _ _ (.step hcs hwalk)⟩
    have hpushed : ∀ (children : List Node) (found : Array (List Node)), (∀ c ∈ children, c ∈ g.successors n) →
        follow g name limit (children.map (before ++ [n], ·) ++ stack) found =
          listed name limit (children.foldlM (fun found c => extend g limit depth (before ++ [n]) c found) found) >>=
            follow g name limit stack := by
      intro children
      induction children with
      | nil => exact fun found _ => (pure_bind found _).symm
      | cons c children ihc =>
        intro found hchildren
        obtain ⟨hc, hrest⟩ := List.forall_mem_cons.1 hchildren
        rw [List.map_cons, List.cons_append, ih (before ++ [n]) _ found (hsucc c hc).1 (hsucc c hc).2, List.foldlM_cons,
          listed_bind, bind_assoc]
        exact bind_congr fun found => ihc found hrest
    rw [extend]
    cases hchildren : g.successors n with
    | nil =>
      dsimp only
      rw [addPath]
      split
      · rename_i hlimit
        have hrefused : Frontier.advance g name limit ⟨(before, n) :: stack, found⟩ = .error (.tooManyPaths name limit) := by
          simp [Frontier.advance, hchildren, hlimit]
        exact (follow_of_error hrefused).trans (throw_bind _ _).symm
      · rename_i hlimit
        have hfound : Frontier.advance g name limit ⟨(before, n) :: stack, found⟩ =
            .ok ⟨stack, found.push (before ++ [n])⟩ := by
          simp [Frontier.advance, hchildren, hlimit]
        exact (follow_of_step hfound).trans (pure_bind _ _).symm
    | cons c children =>
      dsimp only
      rw [← hchildren, ← hpushed _ found fun _ hc => hc, ← foldl_push]
      exact follow_of_step (by simp [Frontier.advance, hchildren])

theorem followAll_eq (hwf : WellFounded fun v u => v ∈ g.succs u) (name : Option String) (roots : List Node)
    (hroots : ∀ r ∈ roots, r ∈ g.nodes) :
    followAll g name limit roots = listed name limit (enumerate g limit roots) := by
  have hloop : ∀ found : Array (List Node), roots.foldlM (fun found r => follow g name limit [([], r)] found) found =
      listed name limit (roots.foldlM (fun found r => extend g limit g.nodes.length [] r found) found) := by
    induction roots with
    | nil => exact fun _ => rfl
    | cons r roots ih =>
      obtain ⟨hr, hrest⟩ := List.forall_mem_cons.1 hroots
      intro found
      have hroot : follow g name limit [([], r)] found = _ :=
        follow_cons name g.nodes.length [] [] found hr fun nodes t hwalk => hwalk.length_le hwf
      have hdone : follow g name limit [] = pure := by
        funext found
        exact follow_nil name found
      rw [List.foldlM_cons, List.foldlM_cons, listed_bind, hroot, hdone, bind_pure]
      exact bind_congr fun found => ih hrest found
  rw [followAll, hloop, enumerate]
  cases roots.foldlM (fun found r => extend g limit g.nodes.length [] r found) #[] with
  | none => exact throw_bind _ _
  | some found => exact pure_bind found _

/-! ## The paths of an explorer -/

variable {settings : Settings} {limits : Settings.Limits} {solver : Option Solver} {external : Option External} {name : Option String}
  {a : Augmented} {s : Solver}

theorem made_eq_enumerate (hlimits : settings.limits = .ok limits) (ha : Augmented.ofGraph g name = .ok a)
    (hfree : g.loopFree limits.repairCycles = .ok h)
    (hsolver : solver.elim (Solver.ofLimits limits external) .ok = .ok s) :
    made g settings solver external name =
      match enumerate h limits.maxPaths g.roots with
      | none => .error (.tooManyPaths name limits.maxPaths)
      | some paths => .ok ⟨name, h, s, paths⟩ := by
  rw [made, hlimits, ha]
  show (g.loopFree limits.repairCycles >>= _) = _
  rw [hfree]
  show (solver.elim (Solver.ofLimits limits external) .ok >>= _) = _
  rw [hsolver]
  rfl

/-- The paths of an explorer are the maximal walks from the roots. -/
theorem mem_paths_iff {x : Explorer} (hx : made g settings solver external name = .ok x) (p : List Node) :
    p ∈ x.paths ↔ x.graph.IsMaximal g.roots p := by
  obtain ⟨limits, -, hfree, hpaths⟩ := made_eq_ok hx
  have hroots : ∀ r ∈ g.roots, r ∈ x.graph.nodes := by
    intro r hr
    rw [Graph.nodes_loopFree hfree]
    exact (List.mem_filter.1 hr).1
  rw [enumerate_eq] at hpaths
  split at hpaths
  · rw [← Option.some.inj hpaths]
    exact Graph.mem_flatMap_ways_iff (Graph.wellFounded_of_loopFree hfree) hroots
  · cases hpaths

/-- Once settings, function and solver are accepted, following paths on a stack ends, and so does the listing, which going deeper
would not change. If there are not more paths than allowed, the explorer has what the stack gives: each path once and in order, and
no path passes a node twice. If there are more, both are refused. -/
theorem enumeration_is_exact (hlimits : settings.limits = .ok limits) (ha : Augmented.ofGraph g name = .ok a)
    (hfree : g.loopFree limits.repairCycles = .ok h)
    (hsolver : solver.elim (Solver.ofLimits limits external) .ok = .ok s) :
    WellFounded (fun v u => v ∈ h.succs u) ∧
    (∀ depth, h.nodes.length ≤ depth → ∀ r ∈ g.roots, ∀ found,
      extend h limits.maxPaths depth [] r found = extend h limits.maxPaths h.nodes.length [] r found) ∧
    {p | h.IsMaximal g.roots p}.Finite ∧
    ({p | h.IsMaximal g.roots p}.ncard ≤ limits.maxPaths →
      ∃ paths, (followAll h name limits.maxPaths g.roots).run = Part.some (.ok paths) ∧
        (∀ log, ((create g settings solver external name).run log).1 = .ok ⟨name, h, s, paths⟩) ∧
        (∀ p, p ∈ paths ↔ h.IsMaximal g.roots p) ∧ paths.Nodup ∧ (∀ p ∈ paths, (p.map Node.id).Nodup) ∧
        paths.Pairwise (h.Before (g.roots.map Node.id))) ∧
    (limits.maxPaths < {p | h.IsMaximal g.roots p}.ncard →
      (followAll h name limits.maxPaths g.roots).run = Part.some (.error (.tooManyPaths name limits.maxPaths)) ∧
      ∀ log, ((create g settings solver external name).run log).1 = .error (.tooManyPaths name limits.maxPaths)) := by
  have hwf := Graph.wellFounded_of_loopFree hfree
  have hroots : ∀ r ∈ g.roots, r ∈ h.nodes := by
    intro r hr
    rw [Graph.nodes_loopFree hfree]
    exact (List.mem_filter.1 hr).1
  have hdistinct : (g.roots.map Node.id).Nodup := g.wired.nodes_distinct.sublist (List.filter_sublist.map _)
  have hmem : ∀ p, p ∈ g.roots.flatMap (h.ways h.nodes.length) ↔ h.IsMaximal g.roots p :=
    fun p => Graph.mem_flatMap_ways_iff hwf hroots
  have horder := h.pairwise_ways h.nodes.length g.roots hdistinct
  have hnodup : (g.roots.flatMap (h.ways h.nodes.length)).Nodup := horder.imp fun hbefore => hbefore.ne hdistinct
  have hset : {p | h.IsMaximal g.roots p} = ((g.roots.flatMap (h.ways h.nodes.length)).toFinset : Set (List Node)) := by
    ext p
    rw [List.coe_toFinset]
    exact (hmem p).symm
  have hcount : {p | h.IsMaximal g.roots p}.ncard = (g.roots.flatMap (h.ways h.nodes.length)).length := by
    rw [hset, Set.ncard_coe_finset, List.toFinset_card_of_nodup hnodup]
  have hmade := made_eq_enumerate hlimits ha hfree hsolver
  have hstack : followAll h name limits.maxPaths g.roots = _ := followAll_eq hwf name g.roots hroots
  rw [enumerate_eq] at hmade hstack
  refine ⟨hwf, fun depth hdepth r hr found => ?_, ?_, fun hfew => ?_, fun hmany => ?_⟩
  · rw [extend_eq_foldlM, extend_eq_foldlM, Graph.ways_of_le hwf hdepth (hroots r hr)]
  · rw [hset]
    exact Finset.finite_toSet _
  · rw [hcount] at hfew
    rw [if_pos hfew] at hmade hstack
    refine ⟨_, hstack, fun log => (gives_create log).trans hmade, hmem, hnodup, fun p hp => ?_, horder⟩
    exact Graph.IsMaximal.nodup hwf ((hmem p).1 hp)
  · rw [hcount] at hmany
    rw [if_neg (by omega)] at hmade hstack
    exact ⟨hstack, fun log => (gives_create log).trans hmade⟩

/-- A branch and a loop back to it that is not flagged, with two edges to one of the branches. -/
def loopedBranch : Graph where
  nodes := [{ id := 0, kind := .condition, name := "p", isRoot := true }, { id := 1, name := "yes" }, { id := 2, name := "no" },
    { id := 3, name := "end", isExitPoint := true }]
  edges := [{ id := 0, src := 0, dst := 1 }, { id := 1, src := 0, dst := 2 }, { id := 2, src := 0, dst := 1 },
    { id := 3, src := 1, dst := 3 }, { id := 4, src := 2, dst := 3 }, { id := 5, src := 3, dst := 0 }]
  wired := ⟨by decide, by decide, by decide⟩

/-- The explorer of the branch with a loop, with the path through either of its sides. -/
def loopedBranchExplorer : Explorer :=
  ⟨none, loopedBranch.unflagged.withoutEdges [5], {}, [loopedBranch.lookUp [0, 1, 3], loopedBranch.lookUp [0, 2, 3]]⟩

theorem enumeration_is_exact_loopedBranch :
    let x := loopedBranchExplorer
    loopedBranch.loopFree true = .ok x.graph ∧ WellFounded (fun v u => v ∈ x.graph.succs u) ∧
    {p | x.graph.IsMaximal loopedBranch.roots p}.ncard ≤ 10000 ∧
    (followAll x.graph none 10000 loopedBranch.roots).run = Part.some (.ok x.paths) ∧
    (∀ log, ((create loopedBranch {} none none none).run log).1 = .ok x) ∧
    (∀ p, p ∈ x.paths ↔ x.graph.IsMaximal loopedBranch.roots p) ∧ x.paths.Nodup ∧ (∀ p ∈ x.paths, (p.map Node.id).Nodup) ∧
    x.paths.Pairwise (x.graph.Before (loopedBranch.roots.map Node.id)) := by
  intro x
  have hlimits : ({} : Settings).limits = .ok ⟨10000, 4096, 30000, .internal, true⟩ := by cbv
  have haugmented : Augmented.ofGraph loopedBranch none = .ok ⟨loopedBranch, none, by decide, by decide⟩ := by cbv
  have hfree : loopedBranch.loopFree true = .ok x.graph := by cbv
  have hsolver : (none : Option Solver).elim (Solver.ofLimits ⟨10000, 4096, 30000, .internal, true⟩ none) .ok = .ok {} := by cbv
  have hmade : made loopedBranch {} none none none = .ok x := by cbv
  obtain ⟨hwf, -, -, hfew, hmany⟩ := enumeration_is_exact hlimits haugmented hfree hsolver
  -- there are not too many paths, as there is an explorer
  have hcount : {p | x.graph.IsMaximal loopedBranch.roots p}.ncard ≤ 10000 := by
    by_contra hmore
    have hrefused := (hmany (not_le.1 hmore)).2 #[]
    rw [gives_create, hmade] at hrefused
    cases hrefused
  obtain ⟨paths, hstack, hcreate, hlisted⟩ := hfew hcount
  have hpaths : paths = x.paths := by
    have hsame := hcreate #[]
    rw [gives_create, hmade] at hsame
    exact (congrArg Explorer.paths (Except.ok.inj hsame)).symm
  subst hpaths
  exact ⟨hfree, hwf, hcount, hstack, hcreate, hlisted⟩

end Explorer

end Flowgraph
