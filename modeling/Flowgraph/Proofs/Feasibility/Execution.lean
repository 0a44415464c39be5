import Flowgraph.Proofs.Feasibility.Check
import Flowgraph.Proofs.Feasibility.Enumeration
/-!
# Executions and feasible paths

An execution takes edges, but a path knows only the nodes that it passes. Between two nodes with several edges the path is
taken for one that takes the first labelled edge, so an execution that takes another of them can be overlooked; so can one
that gives different values to names which the engine takes for the same, and a query about a foreign node is refused
(`Explorer.executions_overlooked`). Where none of this is the case, a query that selects the nodes of an execution finds it
feasible (`Explorer.executions_are_feasible`).
-/

namespace Flowgraph

namespace Graph

variable {g : Graph} {values : String → Bool} {u v : Int} {edges : List Edge}

/-- Whether truth values of conditions let an edge be taken: if it leaves a condition and is labelled true or false, this is the
value of the condition. -/
def Allows (g : Graph) (values : String → Bool) (e : Edge) : Prop :=
  ∀ n ∈ g.nodes, n.id = e.src → n.isCondition → ∀ value,
    e.label.map String.toLower = some (Explorer.truthWord value) → values n.name = value

theorem allows_of_label {e : Edge} {label : String} {value : Bool} (hlabel : e.label = some label)
    (hword : label.toLower = Explorer.truthWord value) (hvalue : ∀ n ∈ g.nodes, n.id = e.src → values n.name = value) :
    g.Allows values e := by
  intro n hn hid _ other hother
  rw [hlabel, Option.map_some, hword, Option.some.injEq] at hother
  rw [hvalue n hn hid]
  cases value <;> cases other <;> simp_all [Explorer.truthWord]

/-- A run through a function: edges that may be taken, from a root to an exit point that leads nowhere. -/
structure Execution (g : Graph) (values : String → Bool) (start : Int) (edges : List Edge) (stop : Int) : Prop where
  route : g.Route start edges stop
  enters : start ∈ g.roots.map Node.id
  leaves : stop ∈ g.exitPoints.map Node.id
  ends : g.succs stop = []
  allowed : ∀ e ∈ edges, g.Allows values e

theorem route_nil_iff : g.Route u [] v ↔ u ∈ g.nodeIds ∧ u = v := by
  constructor
  · intro h
    cases h with
    | stay hu => exact ⟨hu, rfl⟩
  · intro h
    obtain ⟨hu, rfl⟩ := h
    exact .stay hu

theorem route_cons_iff {e : Edge} : g.Route u (e :: edges) v ↔ e ∈ g.edges ∧ e.src = u ∧ g.Route e.dst edges v := by
  constructor
  · intro h
    cases h with
    | step he h => exact ⟨he, rfl, h⟩
  · intro h
    obtain ⟨he, rfl, h⟩ := h
    exact .step he h

/-- Where a route goes from a node to another, it takes an edge between them. -/
theorem Route.exists_edge (h : g.Route u edges v) {before after : List Int} {m n : Int}
    (hsplit : u :: edges.map Edge.dst = before ++ m :: n :: after) : ∃ e ∈ edges, e.src = m ∧ e.dst = n := by
  induction h generalizing before with
  | stay _ =>
    have hlength := congrArg List.length hsplit
    simp at hlength
    omega
  | @step e edges v _ _ ih =>
    cases before with
    | nil =>
      simp only [List.map_cons, List.nil_append, List.cons.injEq] at hsplit
      exact ⟨e, by simp, hsplit.1, hsplit.2.1⟩
    | cons b before =>
      obtain ⟨d, hd, hends⟩ := ih (List.cons.inj hsplit).2
      exact ⟨d, by simp [hd], hends⟩

end Graph

namespace Explorer

variable {x : Explorer} {path : List Node} {paths : List (List Node)} {values : String → Bool} {start stop : Int}
  {edges : List Edge}

/-! ## Selected paths -/

/-- The first and the second node of a query are on every path that it selects. -/
theorem mem_of_selects {first second : Option Int} {avoid ids : List Int} (h : selects first second avoid ids) :
    (∀ a ∈ first, a ∈ ids) ∧ ∀ b ∈ second, b ∈ ids := by
  cases first with
  | none =>
    cases second with
    | none => simp
    | some b =>
      simp only [selects, Bool.and_eq_true, List.contains_iff_mem] at h
      simpa using h.1
  | some a =>
    cases second with
    | none =>
      simp only [selects, Bool.and_eq_true, List.contains_iff_mem] at h
      simpa using h.1
    | some b =>
      simp only [selects, Bool.and_eq_true, List.contains_iff_mem] at h
      simpa using h.1.1

theorem run_feasible (x : Explorer) (cs : List Constraint) (m : Minutes) :
    ((x.feasible cs).run m).1 = x.solver.answerOn m.reports cs :=
  x.solver.run_solve m.reports cs

/-- A search that never gives up finds a path that the solver accepts on every occasion. What it says of the paths before
may change from one occasion to the next. -/
theorem gives_firstFeasible_true (last : Option (List Constraint))
    (hanswered : ∀ p ∈ paths, ∃ cs, x.commitments p none = .ok cs ∧ x.solver.checkSize cs = .ok ())
    (hpath : path ∈ paths) (hexit : endsAtExit path)
    (haccepted : ∀ cs, x.commitments path none = .ok cs → Gives (x.feasible cs) (.ok true)) :
    Gives (x.firstFeasible last paths) (.ok true) := by
  induction paths generalizing last with
  | nil => cases hpath
  | cons p paths ih =>
    have hrest : path ∈ paths → ∀ last, Gives (x.firstFeasible last paths) (.ok true) := fun hlater last =>
      ih last (fun q hq => hanswered q (by simp [hq])) hlater
    rw [firstFeasible]
    by_cases hends : endsAtExit p
    · obtain ⟨cs, hcs, hsize⟩ := hanswered p (by simp)
      rw [if_pos hends]
      refine Gives.then_ok (hcs ▸ x.gives_constraints p none) ?_
      refine Gives.then_some (P := fun answer => answer = true ∨ path ∈ paths) (fun m => ?_) fun answer hanswer => ?_
      · rw [run_feasible, Solver.answerOn, hsize]
        refine ⟨_, rfl, ?_⟩
        rcases List.mem_cons.1 hpath with rfl | hlater
        · have htrue := haccepted cs hcs m
          rw [run_feasible, Solver.answerOn, hsize] at htrue
          exact Or.inl (Except.ok.inj htrue)
        · exact Or.inr hlater
      · cases answer with
        | true => exact (Inquiry.gives_log _ _).then_ok ((Inquiry.gives_log _ _).then_ok (.pure true))
        | false => exact hrest (hanswer.resolve_left Bool.false_ne_true) (some cs)
    · rw [if_neg hends]
      exact hrest ((List.mem_cons.1 hpath).resolve_left fun h => hends (h ▸ hexit)) last

theorem gives_check_true {q : Query} (hbetween : x.between q = .ok paths)
    (hsearch : ∀ last, Gives (x.firstFeasible last paths) (.ok true)) : Gives (x.check q) (.ok true) := by
  obtain ⟨s, hlook, rfl⟩ := map_eq_ok_iff.1 hbetween
  have hgiven : Gives (Inquiry.ofExcept (x.look q)) (.ok s) := hlook ▸ Inquiry.gives_ofExcept (x.look q)
  refine hgiven.then_ok ?_
  unfold checkSelection
  split
  · rename_i hnone
    -- a search among no paths finds none
    have hfalse := hsearch none {}
    rw [hnone] at hfalse
    cases hfalse
  · exact hsearch none

/-! ## Constraints of a path -/

/-- A path commits to conditions of the function only. -/
theorem mem_conditionNames {c : Constraint} (hpath : ∀ m ∈ path, m ∈ x.graph.nodes) (hc : x.Commits path c) :
    c.condition ∈ x.conditionNames := by
  obtain ⟨before, n, next, after, rfl, hcondition, e, label, -, -, hname, -⟩ := hc
  rw [conditionNames, List.mem_eraseDups, hname]
  exact List.mem_map_of_mem (List.mem_filter.2 ⟨hpath n (by simp), hcondition⟩)

theorem countConditions_le {cs : List Constraint} (hcs : ∀ c ∈ cs, c.condition ∈ x.conditionNames) :
    Constraint.countConditions cs ≤ x.conditionNames.length := by
  refine (List.Nodup.subperm (nodup_eraseDups _) fun name hname => ?_).length_le
  obtain ⟨c, hc, rfl⟩ := List.mem_map.1 (List.mem_eraseDups.1 hname)
  exact hcs c hc

/-- With room for all conditions of the function, the solver answers for every path. -/
theorem solver_answers (hlimit : x.solver.maxConditions.isBelow? x.conditionNames.length = some false)
    (hpath : ∀ m ∈ path, m ∈ x.graph.nodes) :
    ∃ cs, x.commitments path none = .ok cs ∧ x.solver.checkSize cs = .ok () := by
  obtain ⟨cs, hcs, hmem⟩ := x.commitments_eq_ok hpath
  have hcount := countConditions_le fun c hc => mem_conditionNames hpath ((hmem c).1 hc)
  exact ⟨cs, hcs, Solver.checkSize_within (Value.isBelow?_of_le hcount hlimit)⟩

/-- The solver accepts a path all of whose commitments hold under values that the engine need not tell apart. -/
theorem solver_accepts (hsound : x.solver.Sound)
    (hlimit : x.solver.maxConditions.isBelow? x.conditionNames.length = some false)
    (hpath : ∀ m ∈ path, m ∈ x.graph.nodes) (hholds : ∀ c, x.Commits path c → c.Holds values)
    (hnames : ∀ a ∈ x.conditionNames, ∀ b ∈ x.conditionNames, x.solver.Alike a b → values a = values b)
    {cs : List Constraint} (hcs : x.commitments path none = .ok cs) : Gives (x.feasible cs) (.ok true) := by
  obtain ⟨cs', hcs', hmem⟩ := x.commitments_eq_ok hpath
  obtain rfl := Except.ok.inj (hcs.symm.trans hcs')
  have hconditions : ∀ c ∈ cs, c.condition ∈ x.conditionNames := fun c hc => mem_conditionNames hpath ((hmem c).1 hc)
  have hwithin := Value.isBelow?_of_le (countConditions_le hconditions) hlimit
  intro m
  rw [run_feasible, Solver.answerOn_within hwithin, Solver.answer_of_holds hsound (fun c hc => hholds c ((hmem c).1 hc))
    fun c hc d hd => hnames _ (hconditions c hc) _ (hconditions d hd)]

/-! ## Executions -/

theorem IsBranchEdge.mem {edges : List Edge} {e : Edge} (h : IsBranchEdge edges e) : e ∈ edges := by
  rcases h with rfl | ⟨-, before, after, rfl, -⟩
  · simp
  · simp

/-- The values of an execution meet what the path along its nodes commits to, if they allow the edge that the path is taken to
take wherever it is not the only one. -/
theorem holds_of_execution (hrun : x.graph.Execution values start edges stop)
    (hpath : path.map Node.id = start :: edges.map Edge.dst) (hnodes : ∀ m ∈ path, m ∈ x.graph.nodes)
    (hparallel : ∀ e ∈ edges, (x.graph.between e.src e.dst).length ≠ 1 →
      ∀ b, IsBranchEdge (x.graph.between e.src e.dst) b → x.graph.Allows values b)
    {c : Constraint} (hc : x.Commits path c) : c.Holds values := by
  obtain ⟨before, n, next, after, rfl, hcondition, b, label, hbranch, hlabel, hname, hword⟩ := hc
  obtain ⟨e, he, hsrc, hdst⟩ := hrun.route.exists_edge (by simpa using hpath.symm)
  rw [← hsrc, ← hdst] at hbranch
  have hallows : x.graph.Allows values b := by
    by_cases hone : (x.graph.between e.src e.dst).length = 1
    · -- there is only the edge that the execution takes
      obtain ⟨d, hd⟩ := List.length_eq_one_iff.1 hone
      have hmem : ∀ a ∈ x.graph.between e.src e.dst, a = d := fun a ha => by simpa [hd] using ha
      have htaken : e ∈ x.graph.between e.src e.dst := Graph.mem_between_iff.2 ⟨hrun.route.edges_mem e he, rfl, rfl⟩
      rw [hmem b hbranch.mem, ← hmem e htaken]
      exact hrun.allowed e he
    · exact hparallel e he hone b hbranch
  have hsame : n.id = b.src := by rw [(Graph.mem_between_iff.1 hbranch.mem).2.1, hsrc]
  rw [Constraint.Holds, hname]
  exact hallows n (hnodes n (by simp)) hsame hcondition c.value (by rw [hlabel, Option.map_some, hword])

/-- If the solver has room for all conditions of the function, and its external engine, where it has one, is sound, a query over the
function's nodes that selects those of an execution is feasible, provided that wherever the execution takes one of several edges between two
nodes its values also allow the first labelled one, and that they do not differ on names which the engine may take for one. An engine may
give up at any time. -/
theorem executions_are_feasible {g : Graph} {settings : Settings} {solver : Option Solver} {external : Option External}
    {name : Option String} {log : Array Report} (hx : ((create g settings solver external name).run log).1 = .ok x)
    (hsound : x.solver.Sound) (hlimit : x.solver.maxConditions.isBelow? x.conditionNames.length = some false)
    (q : Query) (hexcluded : ∀ ref ∈ q.excluded, ref.key ∈ g.nodeIds)
    (hrun : x.graph.Execution values start edges stop)
    (hparallel : ∀ e ∈ edges, (x.graph.between e.src e.dst).length ≠ 1 →
      ∀ b, IsBranchEdge (x.graph.between e.src e.dst) b → x.graph.Allows values b)
    (hnames : ∀ a ∈ x.conditionNames, ∀ b ∈ x.conditionNames, x.solver.Alike a b → values a = values b)
    (hselected : selects (q.first.map NodeRef.key) (q.second.map NodeRef.key) (q.excluded.map NodeRef.key)
      (start :: edges.map Edge.dst)) (minutes : Minutes) :
    ((x.check q).run minutes).1 = .ok true := by
  have hmade := (gives_create log).symm.trans hx
  obtain ⟨hnodes, hinside⟩ := mem_nodes_of_made hmade
  have hids : x.graph.nodeIds = g.nodeIds := by rw [Graph.nodeIds, hnodes, Graph.nodeIds]
  have hwalk := hrun.route.walk
  -- the path along the nodes of the execution
  obtain ⟨path, hpath, hmem⟩ : ∃ path : List Node, path.map Node.id = start :: edges.map Edge.dst ∧
      ∀ m ∈ path, m ∈ x.graph.nodes :=
    ⟨_, Graph.map_id_lookUp hwalk.nodes_mem, fun m hm => (Graph.mem_lookUp_iff.1 hm).1⟩
  have hlisted : path ∈ x.paths := by
    obtain ⟨r, hr, hstart⟩ := List.mem_map.1 hrun.enters
    rw [Graph.roots, hnodes] at hr
    rw [mem_paths_iff hmade]
    exact ⟨hmem, r, hr, stop, by rw [hpath, hstart]; exact hwalk, hrun.ends⟩
  have hexit : endsAtExit path := by
    obtain ⟨t, ht, hstop⟩ := List.mem_map.1 hrun.leaves
    obtain ⟨ht, htexit⟩ := List.mem_filter.1 ht
    have hlast : (path.map Node.id).getLast? = some t.id := by rw [hpath, hstop]; exact hwalk.last_eq
    rw [List.getLast?_map, Option.map_eq_some_iff] at hlast
    obtain ⟨m, hm, hid⟩ := hlast
    have hsame : m = t :=
      List.inj_on_of_nodup_map x.graph.wired.nodes_distinct (hmem m (List.mem_of_getLast? hm)) ht hid
    rw [endsAtExit, hm, hsame]
    exact htexit
  have hnamed : ∀ {o : Option NodeRef}, (∀ i ∈ o.map NodeRef.key, i ∈ start :: edges.map Edge.dst) →
      ∀ ref ∈ o, ref.key ∈ x.graph.nodeIds := by
    intro o ho ref href
    rw [Option.mem_def] at href
    exact hwalk.nodes_mem _ (ho _ (by rw [href]; rfl))
  obtain ⟨hfirst, hsecond⟩ := mem_of_selects hselected
  refine gives_check_true (between_eq_ok (hnamed hfirst) (hnamed hsecond) (hids ▸ hexcluded)) (fun last => ?_) minutes
  refine gives_firstFeasible_true last (fun p hp => ?_) (List.mem_filter.2 ⟨hlisted, by rw [hpath]; exact hselected⟩) hexit ?_
  · exact solver_answers hlimit (hinside p (List.mem_filter.1 hp).1)
  · exact fun cs => solver_accepts hsound hlimit hmem (fun c hc => holds_of_execution hrun hpath hmem hparallel hc) hnames

/-- A condition with an unlabelled edge beside a labelled one, tested again at the next node. -/
def agreeingBranches : Graph where
  nodes := [{ id := 0, kind := .condition, name := "p", isRoot := true }, { id := 1, kind := .condition, name := "p" },
    { id := 2, name := "done", isExitPoint := true }]
  edges := [{ id := 0, src := 0, dst := 1, label := some "true" }, { id := 1, src := 0, dst := 1 },
    { id := 2, src := 1, dst := 2, label := some "TRUE" }]
  wired := ⟨by decide, by decide, by decide⟩

def agreeingExplorer : Explorer := ⟨none, agreeingBranches.unflagged, .literal, [agreeingBranches.lookUp [0, 1, 2]]⟩

theorem executions_are_feasible_agreeingBranches :
    ((create agreeingBranches { solverBackend := .text "z3" } none (some .literal) none).run #[]).1 = .ok agreeingExplorer ∧
    agreeingExplorer.graph.Execution (fun _ => true) 0 (agreeingBranches.edges.drop 1) 2 ∧
    ((agreeingExplorer.check ⟨some (.id 0), some (.id 2), []⟩).run {}).1 = .ok true := by
  have hx : ((create agreeingBranches { solverBackend := .text "z3" } none (some .literal) none).run #[]).1 = .ok agreeingExplorer := by
    rw [gives_create]
    cbv
  have hallowed : ∀ e ∈ agreeingBranches.edges, agreeingExplorer.graph.Allows (fun _ => true) e := by
    have hlower : "true".toLower = truthWord true := by decide +kernel
    have hupper : "TRUE".toLower = truthWord true := by decide +kernel
    intro e he
    simp only [agreeingBranches, List.mem_cons, List.not_mem_nil, or_false] at he
    rcases he with rfl | rfl | rfl
    · exact Graph.allows_of_label rfl hlower fun _ _ _ => rfl
    · intro n _ _ _ value hnone
      cases hnone
    · exact Graph.allows_of_label rfl hupper fun _ _ _ => rfl
  have hrun : agreeingExplorer.graph.Execution (fun _ => true) 0 (agreeingBranches.edges.drop 1) 2 := by
    refine ⟨?_, by decide, by decide, by decide, fun e he => hallowed e (List.mem_of_mem_drop he)⟩
    simp only [Graph.route_cons_iff, Graph.route_nil_iff, agreeingBranches, List.drop]
    decide
  have hparallel : ∀ e ∈ agreeingBranches.edges.drop 1, (agreeingExplorer.graph.between e.src e.dst).length ≠ 1 →
      ∀ b, IsBranchEdge (agreeingExplorer.graph.between e.src e.dst) b →
        agreeingExplorer.graph.Allows (fun _ => true) b := by
    intro e _ _ b hb
    have hedge : b ∈ agreeingExplorer.graph.edges := (Graph.mem_between_iff.1 hb.mem).1
    exact hallowed b (List.mem_filter.1 hedge).1
  exact ⟨hx, hrun, executions_are_feasible hx Solver.sound_literal (by rfl) ⟨some (.id 0), some (.id 2), []⟩ (by decide)
    hrun hparallel (fun _ _ _ _ _ => rfl) (by decide) {}⟩

/-- A condition with two edges to the next node, where the same condition is tested again. -/
def parallelBranches : Graph where
  nodes := [{ id := 0, kind := .condition, name := "p", isRoot := true }, { id := 1, kind := .condition, name := "p" },
    { id := 2, name := "done", isExitPoint := true }]
  edges := [{ id := 0, src := 0, dst := 1, label := some "true" }, { id := 1, src := 0, dst := 1, label := some "false" },
    { id := 2, src := 1, dst := 2, label := some "false" }]
  wired := ⟨by decide, by decide, by decide⟩

/-- Two conditions whose names differ only after a null character. -/
def truncatedNames : Graph where
  nodes := [{ id := 0, kind := .condition, name := "p\x00a", isRoot := true }, { id := 1, kind := .condition, name := "p\x00b" },
    { id := 2, name := "done", isExitPoint := true }]
  edges := [{ id := 0, src := 0, dst := 1, label := some "true" }, { id := 1, src := 1, dst := 2, label := some "false" }]
  wired := ⟨by decide, by decide, by decide⟩

theorem truncatedNames_execution :
    truncatedNames.unflagged.Execution (· == "p\x00a") 0 truncatedNames.edges 2 := by
  refine ⟨?_, by decide, by decide, by decide, fun e he => ?_⟩
  · simp only [Graph.route_cons_iff, Graph.route_nil_iff, truncatedNames]
    decide
  · have htrue : "true".toLower = truthWord true := by decide +kernel
    have hfalse : "false".toLower = truthWord false := by decide +kernel
    simp only [truncatedNames, List.mem_cons, List.not_mem_nil, or_false] at he
    rcases he with rfl | rfl
    · exact Graph.allows_of_label rfl htrue (by decide)
    · exact Graph.allows_of_label rfl hfalse (by decide)

theorem executions_overlooked :
    (∃ x, ((create parallelBranches {} none none none).run #[]).1 = .ok x ∧
      x.solver.maxConditions.isBelow? x.conditionNames.length = some false ∧
      x.graph.Execution (fun _ => false) 0 (parallelBranches.edges.drop 1) 2 ∧
      selects none none [] (0 :: (parallelBranches.edges.drop 1).map Edge.dst) ∧
      ((x.check {}).run {}).1 = .ok false) ∧
    (∃ x, ((create truncatedNames {} (some .literal) none none).run #[]).1 = .ok x ∧
      x.solver.maxConditions.isBelow? x.conditionNames.length = some false ∧
      x.graph.Execution (· == "p\x00a") 0 truncatedNames.edges 2 ∧
      selects none none [] (0 :: truncatedNames.edges.map Edge.dst) ∧
      ((x.check {}).run {}).1 = .ok false) ∧
    ∃ x, ((create truncatedNames {} none none none).run #[]).1 = .ok x ∧
      x.solver.maxConditions.isBelow? x.conditionNames.length = some false ∧
      x.graph.Execution (· == "p\x00a") 0 truncatedNames.edges 2 ∧
      selects none none [9] (0 :: truncatedNames.edges.map Edge.dst) ∧
      ((x.check ⟨none, none, [.id 9]⟩).run {}).1 = .error (.unknownNode .graph (.id 9)) := by
  refine ⟨?_, ?_, ?_⟩
  · refine ⟨⟨none, parallelBranches.unflagged, {}, [parallelBranches.lookUp [0, 1, 2]]⟩, ?_, by rfl, ?_, by decide, ?_⟩
    · rw [gives_create]
      cbv
    · refine ⟨?_, by decide, by decide, by decide, fun e he => ?_⟩
      · simp only [Graph.route_cons_iff, Graph.route_nil_iff, parallelBranches, List.drop]
        decide
      · have hfalse : "false".toLower = truthWord false := by decide +kernel
        have hlabel : ∀ e ∈ parallelBranches.edges.drop 1, e.label = some "false" := by decide
        exact Graph.allows_of_label (hlabel e he) hfalse fun _ _ _ => rfl
    · rw [gives_check (Solver.steady_of_internal rfl)]
      rfl
  · refine ⟨⟨none, truncatedNames.unflagged, .literal, [truncatedNames.lookUp [0, 1, 2]]⟩, ?_, by rfl,
      truncatedNames_execution, by decide, ?_⟩
    · rw [gives_create]
      cbv
    · rw [gives_check Solver.steady_literal]
      rfl
  · refine ⟨⟨none, truncatedNames.unflagged, {}, [truncatedNames.lookUp [0, 1, 2]]⟩, ?_, by rfl,
      truncatedNames_execution, by decide, ?_⟩
    · rw [gives_create]
      cbv
    · rw [gives_check (Solver.steady_of_internal rfl)]
      rfl

end Explorer

end Flowgraph
