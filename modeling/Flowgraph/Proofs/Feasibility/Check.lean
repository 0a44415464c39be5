import Flowgraph.Proofs.Branch.Satisfiable
import Flowgraph.Proofs.Feasibility.Commitment
import Flowgraph.Proofs.Feasibility.Paths
/-!
# Which queries have a feasible path

A query is answered by going through the paths that it selects, as long as they end at an exit point, until one is feasible or
has too many conditions. With the internal engine the answer is whether some assignment of truth values to condition
names agrees with all branches of one of these paths, and the search gives up exactly if it comes to a path with too many
conditions before it comes to such a path (`Explorer.check_decides_feasibility`).
-/

namespace Flowgraph.Explorer

variable {x : Explorer} {path : List Node} {paths : List (List Node)}

/-! ## The search without its records -/

/-- Looks for a feasible path among those of some that end at an exit point. -/
def search (x : Explorer) : List (List Node) → Except Fault Bool
  | [] => .ok false
  | path :: paths =>
    if endsAtExit path then do
      let cs ← x.commitments path none
      let feasible ← x.solver.satisfiable cs
      if feasible then .ok true else search x paths
    else search x paths

variable (hsteady : x.solver.Steady)

include hsteady

theorem gives_feasible (cs : List Constraint) : Gives (x.feasible cs) (x.solver.satisfiable cs) :=
  Inquiry.gives_ofTask (Solver.gives_solve hsteady cs)

theorem gives_firstFeasible (last : Option (List Constraint)) (paths : List (List Node)) :
    Gives (x.firstFeasible last paths) (x.search paths) := by
  induction paths generalizing last with
  | nil => exact (Inquiry.gives_log _ _).then_ok (.pure false)
  | cons path paths ih =>
    rw [firstFeasible, search]
    split
    · refine (x.gives_constraints path none).bind fun cs => (gives_feasible hsteady cs).bind fun feasible => ?_
      cases feasible with
      | false => exact ih (some cs)
      | true => exact (Inquiry.gives_log _ _).then_ok ((Inquiry.gives_log _ _).then_ok (.pure true))
    · exact ih last

theorem gives_checkSelection (s : Selection) : Gives (x.checkSelection s) (x.search (x.select s)) := by
  unfold checkSelection
  split
  · rename_i hnone
    rw [hnone]
    exact (Inquiry.gives_log _ _).then_ok (.pure false)
  · exact gives_firstFeasible hsteady none _

theorem gives_check (q : Query) : Gives (x.check q) (x.between q >>= x.search) := by
  have hbetween : (x.between q >>= x.search) = x.look q >>= fun s => x.search (x.select s) := by
    rw [between, bind_map_left]
  rw [hbetween]
  exact (Inquiry.gives_ofExcept _).bind (gives_checkSelection hsteady)

omit hsteady

/-! ## Feasible paths -/

/-- Whether truth values of conditions can agree with all branches of a path. -/
def Satisfiable (x : Explorer) (path : List Node) : Prop :=
  ∃ assignment : String → Bool, ∀ c, x.Commits path c → c.Holds assignment

/-- Whether a path commits to more conditions than the solver may be given. -/
def Overloads (x : Explorer) (path : List Node) : Prop :=
  x.solver.maxConditions.isBelow? {name : String | ∃ c, x.Commits path c ∧ c.condition = name}.ncard = some true

/-- Whether a path that commits to too many conditions comes before any other that is feasible. -/
def Exhausts (x : Explorer) (paths : List (List Node)) : Prop :=
  ∃ before path after, paths = before ++ path :: after ∧ x.Overloads path ∧
    ∀ p ∈ before, ¬(x.Satisfiable p ∧ ¬x.Overloads p)

theorem not_exhausts_nil : ¬x.Exhausts [] := by
  rintro ⟨before, path, after, h, -⟩
  simp at h

theorem exhausts_cons_iff :
    x.Exhausts (path :: paths) ↔ x.Overloads path ∨ ¬x.Satisfiable path ∧ x.Exhausts paths := by
  constructor
  · rintro ⟨_ | ⟨p, before⟩, q, after, h, hq, hbefore⟩
    · cases h
      exact Or.inl hq
    · cases h
      by_cases hover : x.Overloads path
      · exact Or.inl hover
      · refine Or.inr ⟨fun hsat => hbefore path (by simp) ⟨hsat, hover⟩, before, q, after, rfl, hq, ?_⟩
        exact fun p hp => hbefore p (by simp [hp])
  · rintro (hover | ⟨hsat, before, q, after, rfl, hq, hbefore⟩)
    · exact ⟨[], path, paths, rfl, hover, by simp⟩
    · refine ⟨path :: before, q, after, rfl, hq, ?_⟩
      intro p hp
      rcases List.mem_cons.1 hp with rfl | hp
      · exact fun h => hsat h.1
      · exact hbefore p hp

theorem solve_path (hengine : x.solver.engine = .internal) (hlimit : ∀ n, x.solver.maxConditions.isBelow? n ≠ none)
    (hpath : ∀ m ∈ path, m ∈ x.graph.nodes) :
    (x.Overloads path ∧ ∃ used, (x.commitments path none >>= x.solver.satisfiable) =
      .error (.tooManyConditions used x.solver.maxConditions)) ∨
    (¬x.Overloads path ∧ ∃ answer, (x.commitments path none >>= x.solver.satisfiable) = .ok answer ∧
      (answer = true ↔ x.Satisfiable path)) := by
  obtain ⟨cs, hcs, hmem⟩ := x.commitments_eq_ok hpath
  have hcount : Constraint.countConditions cs =
      {name : String | ∃ c, x.Commits path c ∧ c.condition = name}.ncard := by
    rw [Constraint.countConditions_eq_ncard]
    simp only [hmem]
  have hbind : (x.commitments path none >>= x.solver.satisfiable) = x.solver.satisfiable cs := by
    rw [hcs]
    rfl
  rw [hbind, Overloads, ← hcount]
  -- both sides count and test the same constraints, so only the limit decides which case it is
  cases hbelow : x.solver.maxConditions.isBelow? (Constraint.countConditions cs) with
  | none => exact absurd hbelow (hlimit _)
  | some beyond =>
    cases beyond with
    | true => exact Or.inl ⟨rfl, _, Solver.satisfiable_beyond hbelow⟩
    | false =>
      refine Or.inr ⟨by simp, _, Solver.answerOn_within hbelow _, ?_⟩
      rw [Solver.answer_internal hengine, Satisfiable]
      simp only [hmem]

/-- The search gives up on the first path with too many conditions, and otherwise finds a feasible path if there is one. -/
theorem search_outcome (hengine : x.solver.engine = .internal)
    (hlimit : ∀ n, x.solver.maxConditions.isBelow? n ≠ none)
    (hpaths : ∀ p ∈ paths, ∀ m ∈ p, m ∈ x.graph.nodes) :
    (x.Exhausts (paths.filter endsAtExit) ∧
      ∃ used, x.search paths = .error (.tooManyConditions used x.solver.maxConditions)) ∨
    (¬x.Exhausts (paths.filter endsAtExit) ∧ ∃ answer, x.search paths = .ok answer ∧
      (answer = true ↔ ∃ p ∈ paths.filter endsAtExit, x.Satisfiable p)) := by
  induction paths with
  | nil => exact Or.inr ⟨not_exhausts_nil, false, rfl, by simp⟩
  | cons path paths ih =>
    have hrest := ih fun p hp => hpaths p (by simp [hp])
    by_cases hexit : endsAtExit path
    · have hfilter : (path :: paths).filter endsAtExit = path :: paths.filter endsAtExit := by
        rw [List.filter_cons, if_pos hexit]
      have hsearch : x.search (path :: paths) = (x.commitments path none >>= x.solver.satisfiable) >>=
          fun feasible => if feasible then .ok true else x.search paths := by
        rw [search, if_pos hexit, bind_assoc]
      rw [hfilter, hsearch, exhausts_cons_iff]
      rcases x.solve_path hengine hlimit (hpaths path (by simp)) with
        ⟨hover, used, hfault⟩ | ⟨hover, answer, hanswer, hiff⟩
      · exact Or.inl ⟨Or.inl hover, used, by rw [hfault]; rfl⟩
      · rw [hanswer]
        by_cases hsat : x.Satisfiable path
        · -- a feasible path ends the search
          obtain rfl := hiff.2 hsat
          refine Or.inr ⟨by simp [hover, hsat], true, rfl, ?_⟩
          simp [hsat]
        · obtain rfl : answer = false := by simpa [hsat] using hiff
          have hnext : (Except.ok false >>= fun feasible => if feasible = true then .ok true else x.search paths) =
              x.search paths := rfl
          rw [hnext]
          simpa [hover, hsat] using hrest
    · rw [List.filter_cons, if_neg hexit, search, if_neg hexit]
      exact hrest

theorem exists_between {q : Query} (hfirst : ∀ ref ∈ q.first, ref.key ∈ x.graph.nodeIds)
    (hsecond : ∀ ref ∈ q.second, ref.key ∈ x.graph.nodeIds)
    (hexcluded : ∀ ref ∈ q.excluded, ref.key ∈ x.graph.nodeIds) :
    ∃ paths, x.between q = .ok paths ∧ paths ⊆ x.paths :=
  ⟨_, between_eq_ok hfirst hsecond hexcluded, List.filter_sublist.subset⟩

/-- With the internal engine and a limit that is a number, a query over nodes of the function is given up exactly if, among the
selected paths that end at an exit point, one with too many conditions comes before any feasible one. Otherwise the
answer is whether truth values of the conditions agree with all branches of one of these paths. -/
theorem check_decides_feasibility {g : Graph} {settings : Settings} {solver : Option Solver} {external : Option External}
    {name : Option String} {log : Array Report}
    (hx : ((create g settings solver external name).run log).1 = .ok x)
    (hengine : x.solver.engine = .internal) (hlimit : ∀ n, x.solver.maxConditions.isBelow? n ≠ none)
    (q : Query) (hfirst : ∀ ref ∈ q.first, ref.key ∈ g.nodeIds) (hsecond : ∀ ref ∈ q.second, ref.key ∈ g.nodeIds)
    (hexcluded : ∀ ref ∈ q.excluded, ref.key ∈ g.nodeIds) :
    ∃ paths, x.between q = .ok paths ∧ ∀ minutes,
      ((∃ used limit, ((x.check q).run minutes).1 = .error (.tooManyConditions used limit)) ↔
        x.Exhausts (paths.filter endsAtExit)) ∧
      (¬x.Exhausts (paths.filter endsAtExit) → ∃ answer, ((x.check q).run minutes).1 = .ok answer ∧
        (answer = true ↔ ∃ p ∈ paths.filter endsAtExit, x.Satisfiable p)) := by
  obtain ⟨hnodes, hinside⟩ := mem_nodes_of_made ((gives_create log).symm.trans hx)
  have hids : x.graph.nodeIds = g.nodeIds := by rw [Graph.nodeIds, hnodes, Graph.nodeIds]
  obtain ⟨paths, hpaths, hsub⟩ := x.exists_between (hids ▸ hfirst) (hids ▸ hsecond) (hids ▸ hexcluded)
  refine ⟨paths, hpaths, fun minutes => ?_⟩
  have hresult : ((x.check q).run minutes).1 = x.search paths := by
    rw [gives_check (Solver.steady_of_internal hengine) q minutes, hpaths]
    rfl
  rw [hresult]
  rcases search_outcome hengine hlimit fun p hp => hinside p (hsub hp) with
    ⟨hexhausts, used, hfault⟩ | ⟨hexhausts, answer, hanswer, hiff⟩
  · exact ⟨⟨fun _ => hexhausts, fun _ => ⟨used, _, hfault⟩⟩, fun h => absurd hexhausts h⟩
  · refine ⟨⟨?_, fun h => absurd h hexhausts⟩, fun _ => ⟨answer, hanswer, hiff⟩⟩
    rintro ⟨used, limit, hfault⟩
    rw [hanswer] at hfault
    cases hfault

/-- A condition that is tested again where it is known to hold. -/
def repeatedTest : Graph where
  nodes := [{ id := 0, kind := .condition, name := "p", isRoot := true }, { id := 1, kind := .condition, name := "p" },
    { id := 2, name := "yes", isExitPoint := true }, { id := 3, name := "no", isExitPoint := true }]
  edges := [⟨0, 0, 1, .structural, some "True", false, ∅, []⟩, ⟨1, 1, 2, .structural, some "TRUE", false, ∅, []⟩,
    ⟨2, 1, 3, .structural, some "false", false, ∅, []⟩]
  wired := ⟨by decide, by decide, by decide⟩

def repeatedTestExplorer : Explorer :=
  ⟨none, repeatedTest.unflagged, {}, [[0, 1, 2], [0, 1, 3]].map repeatedTest.lookUp⟩

theorem check_decides_feasibility_repeatedTest :
    ((create repeatedTest {} none none none).run #[]).1 = .ok repeatedTestExplorer ∧
    ∃ paths, repeatedTestExplorer.between ⟨some (.id 0), some (.id 3), []⟩ = .ok paths ∧ ∀ minutes,
      ((∃ used limit, ((repeatedTestExplorer.check ⟨some (.id 0), some (.id 3), []⟩).run minutes).1 =
          .error (.tooManyConditions used limit)) ↔
        repeatedTestExplorer.Exhausts (paths.filter endsAtExit)) ∧
      (¬repeatedTestExplorer.Exhausts (paths.filter endsAtExit) →
        ∃ answer, ((repeatedTestExplorer.check ⟨some (.id 0), some (.id 3), []⟩).run minutes).1 = .ok answer ∧
          (answer = true ↔ ∃ p ∈ paths.filter endsAtExit, repeatedTestExplorer.Satisfiable p)) := by
  have hx : ((create repeatedTest {} none none none).run #[]).1 = .ok repeatedTestExplorer := by
    rw [gives_create]
    cbv
  have hlimit : ∀ n, repeatedTestExplorer.solver.maxConditions.isBelow? n ≠ none := by
    intro n
    exact Option.some_ne_none _
  exact ⟨hx, check_decides_feasibility hx rfl hlimit ⟨some (.id 0), some (.id 3), []⟩ (by decide) (by decide) (by decide)⟩

end Flowgraph.Explorer
