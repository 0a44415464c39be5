import Flowgraph.Proofs.Graph.Lookup
import Flowgraph.Proofs.Run
/-!
# Explorers and their paths

Making an explorer gives the same result whatever was recorded before (`Explorer.gives_create`). If it succeeds, the explorer
has the loop-free graph of the function and the paths that were listed from its roots (`Explorer.made_eq_ok`), and the nodes
on its paths are nodes of its graph (`Explorer.mem_nodes_of_made`). A query about nodes of the graph finds the paths that it
selects (`Explorer.between_eq_ok`).
-/

namespace Flowgraph

variable {g h : Graph} {limit : Nat}

theorem Graph.nodes_loopFree {repair : Bool} (hfree : g.loopFree repair = .ok h) : h.nodes = g.nodes := by
  unfold loopFree at hfree
  dsimp only at hfree
  split at hfree
  · cases hfree
    rfl
  · split at hfree
    · cases hfree
      rfl
    · cases hfree

theorem Augmented.base_ofGraph {name : Option String} {a : Augmented} (ha : ofGraph g name = .ok a) : a.base = g := by
  unfold ofGraph at ha
  split at ha
  · split at ha
    · cases ha
    · cases ha
      rfl
  · cases ha

namespace Explorer

variable {x : Explorer} {found found' : Array (List Node)}

/-! ## Making an explorer -/

/-- The explorer of a function, or what is wrong with the settings or the function. -/
def made (g : Graph) (settings : Settings) (solver : Option Solver) (external : Option External) (name : Option String) :
    Except Fault Explorer := do
  let limits ← settings.limits.mapError .settings
  let _ ← Augmented.ofGraph g name
  let h ← g.loopFree limits.repairCycles
  let solver ← solver.elim (Solver.ofLimits limits external) .ok
  match enumerate h limits.maxPaths g.roots with
  | none => .error (.tooManyPaths name limits.maxPaths)
  | some paths => .ok ⟨name, h, solver, paths⟩

variable {settings : Settings} {solver : Option Solver} {external : Option External} {name : Option String}

theorem gives_create : Gives (create g settings solver external name) (made g settings solver external name) := by
  unfold create made
  cases settings.limits with
  | error fault => exact (Gives.throw _).then_error
  | ok limits =>
    refine Gives.then_ok (.pure limits) ?_
    cases ha : Augmented.ofGraph g name with
    | error fault => exact Gives.then_error fun log => (g.gives_augment name log).trans ha
    | ok a =>
      refine Gives.then_ok (fun log => (g.gives_augment name log).trans ha) ?_
      rw [Augmented.base_ofGraph ha]
      refine (g.gives_removeLoops limits.repairCycles).bind fun h => ?_
      -- whichever solver it is, the paths are listed next
      have hpaths : ∀ s : Solver, Gives
          (match enumerate h limits.maxPaths g.roots with
          | none => throw (.tooManyPaths name limits.maxPaths)
          | some paths => do
            Task.log .info .feasibility s!"CFG{ofFunction name}: enumerated {paths.length} path(s)"
            return ⟨name, h, s, paths⟩ : Task Explorer)
          (match enumerate h limits.maxPaths g.roots with
          | none => .error (.tooManyPaths name limits.maxPaths)
          | some paths => .ok ⟨name, h, s, paths⟩) := by
        intro s
        cases enumerate h limits.maxPaths g.roots with
        | none => exact Gives.throw _
        | some paths => exact (Task.gives_log _ _ _).then_ok (.pure _)
      cases solver with
      | some s => exact Gives.then_ok (.pure s) (hpaths s)
      | none => exact (Task.gives_ofExcept _).bind hpaths

theorem made_eq_ok (hx : made g settings solver external name = .ok x) :
    ∃ limits, settings.limits = .ok limits ∧ g.loopFree limits.repairCycles = .ok x.graph ∧
      enumerate x.graph limits.maxPaths g.roots = some x.paths := by
  obtain ⟨limits, hlimits, hx⟩ := bind_eq_ok_iff.1 hx
  obtain ⟨-, -, hx⟩ := bind_eq_ok_iff.1 hx
  obtain ⟨h, hfree, hx⟩ := bind_eq_ok_iff.1 hx
  obtain ⟨s, -, hx⟩ := bind_eq_ok_iff.1 hx
  refine ⟨limits, ?_, ?_⟩
  · cases hs : settings.limits with
    | error fault =>
      rw [hs] at hlimits
      cases hlimits
    | ok limits' =>
      rw [hs] at hlimits
      cases hlimits
      rfl
  · split at hx
    · cases hx
    · rename_i paths hpaths
      cases hx
      exact ⟨hfree, hpaths⟩

/-! ## Nodes on paths -/

/-- What every step of a loop that may stop preserves holds at its end. -/
theorem foldlM_preserves {α β : Type} {P : β → Prop} {step : β → α → Option β} {l : List α} {b b' : β}
    (hstep : ∀ a ∈ l, ∀ b b', P b → step b a = some b' → P b') (hb : P b) (h : l.foldlM step b = some b') : P b' := by
  induction l generalizing b with
  | nil =>
    cases h
    exact hb
  | cons a l ih =>
    rw [List.foldlM_cons, Option.bind_eq_bind, Option.bind_eq_some_iff] at h
    obtain ⟨next, hnext, hrest⟩ := h
    exact ih (fun a' ha' => hstep a' (by simp [ha'])) (hstep a (by simp) b next hb hnext) hrest

theorem mem_nodes_of_mem_successors {m n : Node} (hm : m ∈ g.successors n) : m ∈ g.nodes := by
  obtain ⟨i, -, hi⟩ := List.mem_filterMap.1 hm
  exact (Graph.node?_eq_some_iff.1 hi).1

/-- Whether paths pass nodes of a graph only. -/
def Inside (g : Graph) (paths : Array (List Node)) : Prop := ∀ p ∈ paths, ∀ m ∈ p, m ∈ g.nodes

theorem inside_extend (depth : Nat) {before : List Node} {n : Node} (hbefore : ∀ m ∈ before, m ∈ g.nodes)
    (hn : n ∈ g.nodes) (hfound : Inside g found) (h : extend g limit depth before n found = some found') :
    Inside g found' := by
  induction depth generalizing before n found found' with
  | zero =>
    cases h
    exact hfound
  | succ depth ih =>
    have hpath : ∀ m ∈ before ++ [n], m ∈ g.nodes := by
      simpa [or_imp, forall_and] using ⟨hbefore, hn⟩
    rw [extend] at h
    split at h
    · unfold addPath at h
      split at h
      · cases h
      · cases h
        intro p hp
        rcases Array.mem_push.1 hp with hp | rfl
        · exact hfound p hp
        · exact hpath
    · refine foldlM_preserves (fun c hc found found' hfound hstep => ?_) hfound h
      exact ih hpath (mem_nodes_of_mem_successors hc) hfound hstep

theorem mem_nodes_of_enumerate {roots : List Node} {paths : List (List Node)} (hroots : ∀ r ∈ roots, r ∈ g.nodes)
    (h : enumerate g limit roots = some paths) : ∀ p ∈ paths, ∀ m ∈ p, m ∈ g.nodes := by
  rw [enumerate, Option.map_eq_some_iff] at h
  obtain ⟨found, hfound, rfl⟩ := h
  have hinside : Inside g found :=
    foldlM_preserves (fun r hr found found' hinside hstep => inside_extend _ (by simp) (hroots r hr) hinside hstep)
      (by simp [Inside]) hfound
  intro p hp
  exact hinside p (Array.mem_toList_iff.1 hp)

theorem mem_nodes_of_made (hx : made g settings solver external name = .ok x) :
    x.graph.nodes = g.nodes ∧ ∀ p ∈ x.paths, ∀ m ∈ p, m ∈ x.graph.nodes := by
  obtain ⟨limits, -, hfree, hpaths⟩ := made_eq_ok hx
  have hnodes := Graph.nodes_loopFree hfree
  refine ⟨hnodes, mem_nodes_of_enumerate (fun r hr => ?_) hpaths⟩
  rw [hnodes]
  exact (List.mem_filter.1 hr).1

/-! ## Queries -/

/-- A query about nodes of the graph is answered with the paths that it selects. -/
theorem between_eq_ok {q : Query} (hfirst : ∀ ref ∈ q.first, ref.key ∈ x.graph.nodeIds)
    (hsecond : ∀ ref ∈ q.second, ref.key ∈ x.graph.nodeIds)
    (hexcluded : ∀ ref ∈ q.excluded, ref.key ∈ x.graph.nodeIds) :
    x.between q = .ok (x.paths.filter fun p => selects (q.first.map NodeRef.key) (q.second.map NodeRef.key)
      (q.excluded.map NodeRef.key) (p.map Node.id)) := by
  have hoption : ∀ o : Option NodeRef, (∀ ref ∈ o, ref.key ∈ x.graph.nodeIds) →
      ∃ n, o.mapM x.graph.resolve = .ok n ∧ n.map Node.id = o.map NodeRef.key := by
    intro o ho
    cases o with
    | none => exact ⟨none, rfl, rfl⟩
    | some ref =>
      obtain ⟨n, hn⟩ := Graph.exists_resolve_iff.2 (ho ref rfl)
      exact ⟨some n, by simp [hn], by simp [(Graph.resolve_eq_ok_iff.1 hn).2]⟩
  obtain ⟨first, hfirst, hfirstId⟩ := hoption q.first hfirst
  obtain ⟨second, hsecond, hsecondId⟩ := hoption q.second hsecond
  obtain ⟨excluded, hexcluded⟩ := Graph.exists_mapM_resolve hexcluded
  rw [between, look, hfirst, hsecond, hexcluded, ← hfirstId, ← hsecondId, ← (Graph.mapM_resolve_eq_ok hexcluded).1]
  rfl

end Explorer

end Flowgraph
