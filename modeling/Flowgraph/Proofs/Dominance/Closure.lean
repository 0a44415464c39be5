import Flowgraph.Proofs.Dominance.Ascent
import Mathlib.Data.List.Perm.Subperm
import Mathlib.Logic.Function.Iterate
import Mathlib.Order.Bounds.Basic
/-!
# Iterated frontiers

Closing nodes under frontiers goes in rounds. A round adds the frontiers of all members that it starts with, each node at the end
and once (`Dominance.enlarge`), and rounds go on as long as there are more members than before. What is outside gets
smaller whenever what is inside grows (`Dominance.absorbed_perm`), so the rounds end (`Dominance.close_eq_iterate`).

The result is the least set that has the seeds and, with each node, its frontier
(`Dominance.iterated_frontier_is_least_closure`).
-/

namespace Flowgraph.Dominance

variable {d : Dominance} {state : List Int × List Int} {members seeds : List Int} {n x : Int}

/-! ## Rounds -/

/-- A list with another member at its end, unless it has it. -/
def insertNew (members : List Int) (n : Int) : List Int := if n ∈ members then members else members ++ [n]

/-- What a round comes across: the frontiers of some nodes, each in the order of identities. -/
def faced (d : Dominance) (members : List Int) : List Int :=
  members.flatMap fun n => (d.frontiers.sets n).mergeSort (· ≤ ·)

/-- One round of the closure. -/
def enlarge (d : Dominance) (members : List Int) : List Int := (d.faced members).foldl insertNew members

theorem mem_faced_iff : x ∈ d.faced members ↔ ∃ n ∈ members, x ∈ d.frontiers.sets n := by
  simp only [faced, List.mem_flatMap, List.mem_mergeSort]

theorem prefix_foldl_insertNew (ns members : List Int) : members <+: ns.foldl insertNew members := by
  induction ns generalizing members with
  | nil => exact List.prefix_rfl
  | cons n ns ih =>
    refine List.IsPrefix.trans ?_ (ih (insertNew members n))
    unfold insertNew
    split
    · exact List.prefix_rfl
    · exact List.prefix_append members [n]

theorem nodup_foldl_insertNew (ns : List Int) (h : members.Nodup) : (ns.foldl insertNew members).Nodup := by
  induction ns generalizing members with
  | nil => exact h
  | cons n ns ih =>
    apply ih
    unfold insertNew
    split
    · exact h
    · rename_i hnew
      exact h.append (List.nodup_singleton n) (List.disjoint_singleton.2 hnew)

theorem enlarge_eq_self (h : ∀ n ∈ members, ∀ y ∈ d.frontiers.sets n, y ∈ members) : d.enlarge members = members := by
  have hnone : ∀ ns : List Int, (∀ n ∈ ns, n ∈ members) → ns.foldl insertNew members = members := by
    intro ns hns
    induction ns with
    | nil => rfl
    | cons n ns ih =>
      rw [List.foldl_cons, insertNew, if_pos (hns n (by simp))]
      exact ih fun m hm => hns m (by simp [hm])
  refine hnone _ fun y hy => ?_
  obtain ⟨n, hn, hy⟩ := mem_faced_iff.1 hy
  exact h n hn y hy

theorem prefix_iterate_enlarge (d : Dominance) (members : List Int) (k : Nat) : members <+: d.enlarge^[k] members := by
  induction k generalizing members with
  | zero => exact List.prefix_rfl
  | succ k ih => exact (prefix_foldl_insertNew _ members).trans (ih (d.enlarge members))

theorem nodup_iterate_enlarge (h : members.Nodup) (k : Nat) : (d.enlarge^[k] members).Nodup := by
  induction k generalizing members with
  | zero => exact h
  | succ k ih => exact ih (nodup_foldl_insertNew _ h)

/-! ## The loop -/

/-- Absorbing nodes moves them from the outside to the inside, and loses none. -/
theorem absorbed_perm (ns : List Int) (state : List Int × List Int) :
    ((ns.foldl absorb state).1 ++ (ns.foldl absorb state).2).Perm (state.1 ++ state.2) := by
  induction ns generalizing state with
  | nil => exact List.Perm.refl _
  | cons n ns ih =>
    refine (ih (absorb state n)).trans ?_
    unfold absorb
    split
    · rename_i hn
      rw [List.append_assoc]
      exact (List.perm_cons_erase hn).symm.append_left state.1
    · exact List.Perm.refl _

/-- What is known to be inside or outside is absorbed exactly if it is not inside. -/
theorem absorbed_eq_insertNew (ns : List Int) (hdistinct : (state.1 ++ state.2).Nodup)
    (hknown : ∀ n ∈ ns, n ∈ state.1 ++ state.2) : (ns.foldl absorb state).1 = ns.foldl insertNew state.1 := by
  induction ns generalizing state with
  | nil => rfl
  | cons n ns ih =>
    have hperm := absorbed_perm [n] state
    have hfirst : (absorb state n).1 = insertNew state.1 n := by
      unfold absorb insertNew
      by_cases hn : n ∈ state.2
      · have hnew : n ∉ state.1 := fun hin => List.disjoint_of_nodup_append hdistinct hin hn
        rw [if_pos hn, if_neg hnew]
      · have hin : n ∈ state.1 := (List.mem_append.1 (hknown n (by simp))).resolve_right hn
        rw [if_neg hn, if_pos hin]
    rw [List.foldl_cons, List.foldl_cons, ← hfirst]
    refine ih (hperm.nodup_iff.2 hdistinct) fun m hm => ?_
    exact hperm.mem_iff.2 (hknown m (by simp [hm]))

/-- The loop goes through rounds, each of which adds members, until one adds none. -/
theorem close_eq_iterate (d : Dominance) (state : List Int × List Int) (hdistinct : (state.1 ++ state.2).Nodup)
    (hknown : ∀ x, ∀ y ∈ d.frontiers.sets x, y ∈ state.1 ++ state.2) :
    ∃ rounds, d.close state = d.enlarge^[rounds] state.1 ∧
      ∀ k < rounds, (d.enlarge^[k] state.1).length < (d.enlarge^[k + 1] state.1).length := by
  have hspread : ∀ state : List Int × List Int, (state.1 ++ state.2).Nodup →
      (∀ x, ∀ y ∈ d.frontiers.sets x, y ∈ state.1 ++ state.2) → (d.spread state).1 = d.enlarge state.1 := by
    intro state hdistinct hknown
    rw [spread_eq_foldl]
    refine absorbed_eq_insertNew _ hdistinct fun y hy => ?_
    obtain ⟨n, -, hy⟩ := mem_faced_iff.1 hy
    exact hknown n y hy
  fun_induction close d state with
  | case1 state state' hless ih =>
    have hround : (d.spread state).1 = d.enlarge state.1 := hspread state hdistinct hknown
    have hperm : ((d.spread state).1 ++ (d.spread state).2).Perm (state.1 ++ state.2) := by
      rw [spread_eq_foldl]
      exact absorbed_perm _ state
    obtain ⟨rounds, hclose, hgrows⟩ := ih (hperm.nodup_iff.2 hdistinct) fun x y hy => hperm.mem_iff.2 (hknown x y hy)
    rw [show state'.1 = d.enlarge state.1 from hround] at hclose hgrows
    refine ⟨rounds + 1, hclose, fun k hk => ?_⟩
    cases k with
    | zero =>
      -- the outside has become smaller by what the inside has grown
      have hlength := hperm.length_eq
      rw [List.length_append, List.length_append, hround] at hlength
      show state.1.length < (d.enlarge state.1).length
      have hless' : (d.spread state).2.length < state.2.length := hless
      omega
    | succ k => exact hgrows k (by omega)
  | case2 state state' hnotless =>
    refine ⟨0, ?_, fun k hk => absurd hk (Nat.not_lt_zero k)⟩
    rcases absorbed_cases (state.1.flatMap fun n => (d.frontiers.sets n).mergeSort (· ≤ ·)) state with h | ⟨h, -⟩
    · rw [← spread_eq_foldl] at h
      exact absurd h hnotless
    · rw [← spread_eq_foldl] at h
      exact congrArg Prod.fst h

/-! ## The closure of an analysis -/

variable {a : Augmented} {dir : Direction} {refs refs' : List NodeRef}

theorem closure_eq_iterate (a : Augmented) (dir : Direction) (seeds : List Int) :
    ∃ rounds, (analyse a dir).closure seeds = (analyse a dir).enlarge^[rounds] seeds.eraseDups ∧
      ∀ k < rounds, ((analyse a dir).enlarge^[k] seeds.eraseDups).length <
        ((analyse a dir).enlarge^[k + 1] seeds.eraseDups).length := by
  refine close_eq_iterate _ _ ?_ fun x y hy => List.mem_append.2 (frontiers_known a dir seeds x y hy)
  refine (nodup_eraseDups seeds).append (a.graph.wired.nodes_distinct.filter _) fun x hx hout => ?_
  have hnew : x ∉ seeds.eraseDups := by simpa using (List.mem_filter.1 hout).2
  exact hnew hx

theorem nodup_closure (a : Augmented) (dir : Direction) (seeds : List Int) : ((analyse a dir).closure seeds).Nodup := by
  obtain ⟨rounds, hclosure, -⟩ := closure_eq_iterate a dir seeds
  rw [hclosure]
  exact nodup_iterate_enlarge (nodup_eraseDups seeds) rounds

theorem prefix_closure (a : Augmented) (dir : Direction) (seeds : List Int) :
    seeds.eraseDups <+: (analyse a dir).closure seeds := by
  obtain ⟨rounds, hclosure, -⟩ := closure_eq_iterate a dir seeds
  rw [hclosure]
  exact prefix_iterate_enlarge _ _ rounds

theorem enlarge_closure (a : Augmented) (dir : Direction) (seeds : List Int) :
    (analyse a dir).enlarge ((analyse a dir).closure seeds) = (analyse a dir).closure seeds :=
  enlarge_eq_self (closure_closed a dir seeds)

theorem closure_closure (a : Augmented) (dir : Direction) (seeds : List Int) :
    (analyse a dir).closure ((analyse a dir).closure seeds) = (analyse a dir).closure seeds := by
  obtain ⟨rounds, hclosure, -⟩ := closure_eq_iterate a dir ((analyse a dir).closure seeds)
  rw [hclosure, eraseDups_of_nodup (nodup_closure a dir seeds)]
  exact Function.iterate_fixed (enlarge_closure a dir seeds) rounds

theorem mem_closure_append_iff {seeds' : List Int} :
    x ∈ (analyse a dir).closure (seeds ++ seeds') ↔
      x ∈ (analyse a dir).closure seeds ∨ x ∈ (analyse a dir).closure seeds' := by
  constructor
  · refine closure_induction (P := fun x => x ∈ (analyse a dir).closure seeds ∨ x ∈ (analyse a dir).closure seeds') _
      (fun x hx => ?_) (fun x hx y hy => ?_) x
    · exact (List.mem_append.1 hx).imp (mem_closure_of_seed _) (mem_closure_of_seed _)
    · exact hx.imp (fun hx => closure_closed a dir _ x hx y hy) fun hx => closure_closed a dir _ x hx y hy
  · have hsub : ∀ part, part ⊆ seeds ++ seeds' → ∀ x ∈ (analyse a dir).closure part,
        x ∈ (analyse a dir).closure (seeds ++ seeds') := fun part hpart =>
      closure_induction _ (fun x hx => mem_closure_of_seed _ (hpart hx)) (closure_closed a dir _)
    rintro (hx | hx)
    · exact hsub seeds (List.subset_append_left _ _) x hx
    · exact hsub seeds' (List.subset_append_right _ _) x hx

theorem closure_subset_nodeIds (dir : Direction) (hseeds : ∀ x ∈ seeds, x ∈ a.graph.nodeIds) :
    ∀ x ∈ (analyse a dir).closure seeds, x ∈ a.graph.nodeIds :=
  closure_induction _ hseeds fun _ _ _ hy => (reaches_of_mem_frontiers hy).end_mem

theorem iteratedFrontier_eq_ok (hrefs : ∀ ref ∈ refs, ref.key ∈ a.graph.nodeIds) :
    (analyse a dir).iteratedFrontier refs = .ok ((analyse a dir).closure (refs.map NodeRef.key)) := by
  obtain ⟨nodes, hnodes⟩ := Graph.exists_mapM_resolve hrefs
  have hresolve : refs.mapM (analyse a dir).flow.graph.resolve = .ok nodes := hnodes
  rw [← (Graph.mapM_resolve_eq_ok hnodes).1, iteratedFrontier, hresolve]
  rfl

/-- A set that has some nodes and, with every node, its frontier. -/
structure FrontierClosed (d : Dominance) (refs : List NodeRef) (S : Set Int) : Prop where
  seeds : ∀ ref ∈ refs, ref.key ∈ S
  frontiers : ∀ x ∈ S, ∀ front, d.frontier (.id x) = .ok front → ∀ y ∈ front, y ∈ S

theorem isLeast_closure (hrefs : ∀ ref ∈ refs, ref.key ∈ a.graph.nodeIds) :
    IsLeast {S | (analyse a dir).FrontierClosed refs S} {x | x ∈ (analyse a dir).closure (refs.map NodeRef.key)} := by
  have hseeds : ∀ x ∈ refs.map NodeRef.key, x ∈ a.graph.nodeIds := List.forall_mem_map.2 hrefs
  constructor
  · refine ⟨fun ref href => mem_closure_of_seed _ (List.mem_map_of_mem href), fun x hx front hfront y hy => ?_⟩
    rw [frontier_of_mem (.id x) (closure_subset_nodeIds dir hseeds x hx)] at hfront
    cases hfront
    exact closure_closed a dir _ x hx y hy
  · intro S hS x hx
    -- frontiers are only asked for nodes of the graph, so this is carried along
    refine (closure_induction (P := fun x => x ∈ S ∧ x ∈ a.graph.nodeIds) _ (fun x hx => ⟨?_, hseeds x hx⟩)
      (fun x hx y hy => ⟨?_, (reaches_of_mem_frontiers hy).end_mem⟩) x hx).1
    · obtain ⟨ref, href, rfl⟩ := List.mem_map.1 hx
      exact hS.seeds ref href
    · exact hS.frontiers x hx.1 _ (frontier_of_mem (.id x) hx.2) y hy

/-- Rounds lead from some members to others: each of them adds members, and one more would add none. -/
structure SettlesAfter (d : Dominance) (members found : List Int) (rounds : Nat) : Prop where
  reached : found = d.enlarge^[rounds] members
  grows : ∀ k < rounds, (d.enlarge^[k] members).length < (d.enlarge^[k + 1] members).length
  settled : d.enlarge found = found

theorem SettlesAfter.le_length {found : List Int} {rounds : Nat} (h : d.SettlesAfter members found rounds) :
    rounds ≤ found.length := by
  have hgrown : ∀ k ≤ rounds, k ≤ (d.enlarge^[k] members).length := by
    intro k
    induction k with
    | zero => exact fun _ => Nat.zero_le _
    | succ k ih =>
      intro hk
      have hbefore := ih (by omega)
      have hround := h.grows k (by omega)
      omega
  rw [h.reached]
  exact hgrown rounds (Nat.le_refl rounds)

theorem exists_settlesAfter (a : Augmented) (dir : Direction) (seeds : List Int) :
    ∃ rounds, (analyse a dir).SettlesAfter seeds.eraseDups ((analyse a dir).closure seeds) rounds := by
  obtain ⟨rounds, hreached, hgrows⟩ := closure_eq_iterate a dir seeds
  exact ⟨rounds, hreached, hgrows, enlarge_closure a dir seeds⟩

/-- Closing nodes of the graph under frontiers ends, after no more rounds than there are nodes. The result has no repetition, begins
with the seeds, each at its first place, and is the least set that has the seeds and the frontiers of its members. Closing it again
changes nothing, and the closure of two lists of seeds together has the members of both closures. -/
theorem iterated_frontier_is_least_closure (a : Augmented) (dir : Direction) (refs : List NodeRef)
    (hrefs : ∀ ref ∈ refs, ref.key ∈ a.graph.nodeIds) :
    ∃ found, (analyse a dir).iteratedFrontier refs = .ok found ∧
      (∃ rounds ≤ a.graph.nodes.length, (analyse a dir).SettlesAfter (refs.map NodeRef.key).eraseDups found rounds) ∧
      found.Nodup ∧ (refs.map NodeRef.key).eraseDups <+: found ∧
      IsLeast {S | (analyse a dir).FrontierClosed refs S} {x | x ∈ found} ∧
      (analyse a dir).iteratedFrontier (found.map .id) = .ok found ∧
      ∀ refs', (∀ ref ∈ refs', ref.key ∈ a.graph.nodeIds) →
        ∃ found' both, (analyse a dir).iteratedFrontier refs' = .ok found' ∧
          (analyse a dir).iteratedFrontier (refs ++ refs') = .ok both ∧ ∀ x, x ∈ both ↔ x ∈ found ∨ x ∈ found' := by
  have hfound := closure_subset_nodeIds dir (List.forall_mem_map.2 hrefs)
  refine ⟨_, iteratedFrontier_eq_ok hrefs, ?_, nodup_closure a dir _, prefix_closure a dir _, isLeast_closure hrefs, ?_, ?_⟩
  · obtain ⟨rounds, hsettles⟩ := exists_settlesAfter a dir (refs.map NodeRef.key)
    have hall := ((nodup_closure a dir _).subperm hfound).length_le
    rw [Graph.nodeIds, List.length_map] at hall
    exact ⟨rounds, hsettles.le_length.trans hall, hsettles⟩
  · have hkeys : (((analyse a dir).closure (refs.map NodeRef.key)).map NodeRef.id).map NodeRef.key =
        (analyse a dir).closure (refs.map NodeRef.key) := by
      simp [Function.comp_def, NodeRef.key]
    rw [iteratedFrontier_eq_ok (List.forall_mem_map.2 hfound), hkeys, closure_closure]
  · intro refs' hrefs'
    have hboth : ∀ ref ∈ refs ++ refs', ref.key ∈ a.graph.nodeIds := by
      intro ref href
      exact (List.mem_append.1 href).elim (hrefs ref) (hrefs' ref)
    refine ⟨_, _, iteratedFrontier_eq_ok hrefs', iteratedFrontier_eq_ok hboth, fun x => ?_⟩
    rw [List.map_append]
    exact mem_closure_append_iff

/-- The loop can be entered at both of its nodes, so each is in the frontier of the other; the dead node adds nothing. -/
theorem iterated_frontier_is_least_closure_twoEntryLoop :
    (∀ ref ∈ [NodeRef.id 4, .id 1, .id 4], ref.key ∈ twoEntryLoop.graph.nodeIds) ∧
    (analyse twoEntryLoop .forward).iteratedFrontier [.id 4, .id 1, .id 4] = .ok [4, 1, 2] ∧
    IsLeast {S | (analyse twoEntryLoop .forward).FrontierClosed [.id 4, .id 1, .id 4] S} {x | x ∈ [4, 1, 2]} ∧
    ∃ found' both, (analyse twoEntryLoop .forward).iteratedFrontier [.id 3, .id 2] = .ok found' ∧
      (analyse twoEntryLoop .forward).iteratedFrontier ([.id 4, .id 1, .id 4] ++ [.id 3, .id 2]) = .ok both ∧
      ∀ x, x ∈ both ↔ x ∈ [4, 1, 2] ∨ x ∈ found' := by
  have hrefs : ∀ ref ∈ [NodeRef.id 4, .id 1, .id 4], ref.key ∈ twoEntryLoop.graph.nodeIds := by decide
  have hclosure : (analyse twoEntryLoop .forward).closure [4, 1, 4] = [4, 1, 2] := by decide +kernel
  have hvalue : (analyse twoEntryLoop .forward).iteratedFrontier [.id 4, .id 1, .id 4] = .ok [4, 1, 2] :=
    (iteratedFrontier_eq_ok hrefs).trans (congrArg Except.ok hclosure)
  obtain ⟨found, hfound, -, -, -, hleast, -, hunion⟩ :=
    iterated_frontier_is_least_closure twoEntryLoop .forward [.id 4, .id 1, .id 4] hrefs
  obtain rfl : [4, 1, 2] = found := Except.ok.inj (hvalue.symm.trans hfound)
  exact ⟨hrefs, hvalue, hleast, hunion [.id 3, .id 2] (by decide)⟩

end Flowgraph.Dominance
