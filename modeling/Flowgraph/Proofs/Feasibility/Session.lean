import Flowgraph.Proofs.Feasibility.Findings
import Mathlib.Data.List.TakeWhile
/-!
# Calls on one explorer

An explorer is asked for constraints, for feasible paths, for answers to several queries and for verdicts, in any order. All
calls add to the same findings, and one that fails leaves those that it has made until then. Each call yields what
it would yield at first (`Explorer.yields_ask`), so its reply does not depend on the calls before it, and the findings
are those of the decisions that were looked at, each once (`Explorer.replies_do_not_depend_on_history`). This is so as long as the
external engine, if there is one, does not change its rulings.
-/

namespace Flowgraph.Explorer

variable (x : Explorer)

/-! ## Calls and replies -/

/-- What an explorer is asked. -/
inductive Call where
  | constraints (path : List Node) (stop : Option NodeRef)
  | check (q : Query)
  | checkApart (a b : NodeRef)
  | checkMany (qs : List Query)
  | report (refs : Option (List NodeRef))

/-- What an explorer replies. -/
inductive Reply where
  | constraints (cs : List Constraint)
  | feasible (answer : Bool)
  | answers (answers : List Answer)
  | verdicts (vs : List Verdict)

def ask : Call → Inquiry Reply
  | .constraints path stop => return .constraints (← x.constraints path stop)
  | .check q => return .feasible (← x.check q)
  | .checkApart a b => return .feasible (← x.checkApart a b)
  | .checkMany qs => return .answers (← x.checkMany qs)
  | .report refs => return .verdicts (← x.report refs)

/-- What is left behind after a call, also after one that fails. -/
def minutesAfter (m : Minutes) (call : Call) : Minutes := ((x.ask call).run m).2

/-! ## Queries -/

/-- The decisions that a query looks at. -/
def stepsFor (q : Query) : List (Node × Node) :=
  whenOk (x.between q) fun paths => x.stepsOn (paths.filter endsAtExit)

variable {x} in
theorem findings_whenOk {α : Type} (result : Except Fault α) (ds : α → List (Node × Node)) :
    x.findings (whenOk result ds) = whenOk result fun a => x.findings (ds a) := by
  cases result with
  | ok a => rfl
  | error fault => rfl

variable {x} in
theorem findings_flatMap {α : Type} (l : List α) (ds : α → List (Node × Node)) :
    x.findings (l.flatMap ds) = l.flatMap fun a => x.findings (ds a) :=
  List.filterMap_flatMap

theorem yields_checkSelection (hsteady : x.solver.Steady) (s : Selection) :
    Yields (x.checkSelection s) (x.search (x.select s)) (x.findings (x.stepsOn ((x.select s).filter endsAtExit))) := by
  unfold checkSelection
  split
  · rename_i hnone
    rw [hnone]
    exact (Yields.pure false).after_log
  · exact x.yields_firstFeasible hsteady none _

theorem stepsFor_eq (q : Query) :
    x.stepsFor q = whenOk (x.look q) fun s => x.stepsOn ((x.select s).filter endsAtExit) := by
  unfold stepsFor between
  cases x.look q with
  | ok s => rfl
  | error fault => rfl

theorem yields_check (hsteady : x.solver.Steady) (q : Query) :
    Yields (x.check q) (x.look q >>= fun s => x.search (x.select s)) (x.findings (x.stepsFor q)) := by
  rw [stepsFor_eq, findings_whenOk]
  exact (Yields.ofExcept (x.look q)).bind (x.yields_checkSelection hsteady)

/-- The paths through a node that do not pass another. -/
def apart (a b : NodeRef) : Except Fault (List (List Node)) := do
  let m ← x.graph.resolve a
  let n ← x.graph.resolve b
  return x.paths.filter fun p => p.any (·.id == m.id) && !p.any (·.id == n.id)

theorem yields_checkApart (hsteady : x.solver.Steady) (a b : NodeRef) :
    Yields (x.checkApart a b) (x.apart a b >>= x.probe) (x.findings (whenOk (x.apart a b) x.stepsOn)) := by
  rw [findings_whenOk]
  unfold checkApart apart
  cases x.graph.resolve a with
  | error fault => exact (Yields.ofExcept (.error fault)).then_error
  | ok m =>
    refine (Yields.ofExcept (.ok m)).then_ok ?_
    cases x.graph.resolve b with
    | error fault => exact (Yields.ofExcept (.error fault)).then_error
    | ok n => exact (Yields.ofExcept (.ok n)).then_ok (x.yields_anyFeasible hsteady _)

/-- The answer to one of several queries, by what is found for its selection. -/
def settle (s : Selection) : Except Fault Bool → Except Fault Answer
  | .ok feasible => .ok ⟨s, feasible, none⟩
  | .error (.tooManyConditions used limit) => .ok ⟨s, false, some (.tooManyConditions used limit)⟩
  | .error fault => .error fault

def answered (q : Query) : Except Fault Answer := do
  let s ← x.look q
  settle s (x.search (x.select s))

theorem yields_answer (hsteady : x.solver.Steady) (q : Query) :
    Yields (x.answer q) (x.answered q) (x.findings (x.stepsFor q)) := by
  rw [stepsFor_eq, findings_whenOk]
  refine (Yields.ofExcept (x.look q)).bind fun s => ?_
  have hsearch := x.yields_checkSelection hsteady s
  -- both branches return early, which is a failure of their own kind
  rw [← List.append_nil (x.findings _)]
  cases hresult : x.search (x.select s) with
  | ok feasible =>
    rw [hresult] at hsearch
    have hanswer := hsearch.map fun feasible => (.error ⟨s, feasible, none⟩ : Except Answer Answer)
    exact hanswer.catch_ok.then_ok (Yields.pure (⟨s, feasible, none⟩ : Answer))
  | error fault =>
    rw [hresult] at hsearch
    by_cases hmany : ∃ used limit, fault = .tooManyConditions used limit
    · obtain ⟨used, limit, rfl⟩ := hmany
      rw [← List.append_nil (x.findings _)]
      exact (hsearch.then_error.catch_error (Yields.pure _).after_log).then_ok (.pure _)
    · have hsettle : settle s (.error fault) = .error fault := by
        unfold settle
        split
        · rename_i h
          cases h
        · rename_i used limit h
          cases h
          exact absurd ⟨used, limit, rfl⟩ hmany
        · rename_i h
          cases h
          rfl
      rw [hsettle]
      refine (hsearch.then_error.catch_error ?_).then_error
      split
      · rename_i used limit
        exact absurd ⟨used, limit, rfl⟩ hmany
      · exact (Yields.throw _).then_error

/-! ## Verdicts -/

/-- The verdict on a path up to a node. -/
def assess (node : Node) (path : List Node) : Except Fault Verdict := do
  let cs ← x.commitments path (some node)
  let feasible ← x.solver.satisfiable cs
  return ⟨node, path, cs, feasible⟩

/-- The verdicts on all paths through a node. -/
def assessAll (node : Node) : Except Fault (List Verdict) := do
  let paths ← x.containing node
  paths.mapM (x.assess node)

/-- The nodes that verdicts are asked for. -/
def targets : Option (List NodeRef) → Except Fault (List Node)
  | some refs => refs.mapM x.graph.resolve
  | none => .ok x.graph.nodes

/-- The decisions that the verdicts for a node look at. -/
def stepsTo (node : Node) : List (Node × Node) :=
  whenOk (x.containing node) fun paths =>
    (through (fun path => (x.assess node path).isOk) paths).flatMap (x.steps · (some node))

theorem yields_verdict (hsteady : x.solver.Steady) (node : Node) (path : List Node) :
    Yields (x.verdict node path) (x.assess node path) (x.findings (x.steps path (some node))) := by
  have hpath := x.yields_constraints path (some node)
  unfold verdict assess
  cases hcs : x.commitments path (some node) with
  | error fault =>
    rw [hcs] at hpath
    exact hpath.then_error
  | ok cs =>
    rw [hcs] at hpath
    rw [← List.append_nil (x.findings _)]
    refine hpath.then_ok ?_
    have hfeasible := x.yields_feasible hsteady cs
    show Yields _ (x.solver.satisfiable cs >>= _) _
    cases hsat : x.solver.satisfiable cs with
    | error fault =>
      rw [hsat] at hfeasible
      exact hfeasible.then_error
    | ok feasible =>
      rw [hsat] at hfeasible
      exact hfeasible.then_ok (Yields.pure _).after_log

theorem yields_verdicts (hsteady : x.solver.Steady) (node : Node) :
    Yields (x.verdicts node) (x.assessAll node) (x.findings (x.stepsTo node)) := by
  rw [stepsTo, findings_whenOk]
  refine (Yields.ofExcept (x.containing node)).bind fun paths => ?_
  rw [findings_flatMap]
  exact .mapM (x.yields_verdict hsteady node) paths

/-- The verdicts for the nodes that are asked for. -/
def reported (refs : Option (List NodeRef)) : Except Fault (List Verdict) := do
  let nodes ← x.targets refs
  let vs ← nodes.mapM x.assessAll
  return vs.flatten

/-- The decisions that these verdicts look at. -/
def stepsToAll (refs : Option (List NodeRef)) : List (Node × Node) :=
  whenOk (x.targets refs) fun nodes => (through (fun node => (x.assessAll node).isOk) nodes).flatMap x.stepsTo

theorem yields_report (hsteady : x.solver.Steady) (refs : Option (List NodeRef)) :
    Yields (x.report refs) (x.reported refs) (x.findings (x.stepsToAll refs)) := by
  have hall : ∀ nodes : List Node, Yields (do let vs ← nodes.mapM x.verdicts; return vs.flatten)
      (do let vs ← nodes.mapM x.assessAll; return vs.flatten)
      (x.findings ((through (fun node => (x.assessAll node).isOk) nodes).flatMap x.stepsTo)) := by
    intro nodes
    rw [findings_flatMap]
    exact (Yields.mapM (x.yields_verdicts hsteady) nodes).map List.flatten
  rw [stepsToAll, findings_whenOk]
  cases refs with
  | none => exact (Yields.pure x.graph.nodes).then_ok (hall x.graph.nodes)
  | some refs => exact (Yields.ofExcept (refs.mapM x.graph.resolve)).bind hall

/-! ## All calls -/

def reply : Call → Except Fault Reply
  | .constraints path stop => return .constraints (← x.commitments path stop)
  | .check q => do return .feasible (← x.look q >>= fun s => x.search (x.select s))
  | .checkApart a b => return .feasible (← x.apart a b >>= x.probe)
  | .checkMany qs => return .answers (← qs.mapM x.answered)
  | .report refs => return .verdicts (← x.reported refs)

/-- The decisions that a call looks at. Of several queries, those up to the first that fails are answered. -/
def examined : Call → List (Node × Node)
  | .constraints path stop => x.steps path stop
  | .check q => x.stepsFor q
  | .checkApart a b => whenOk (x.apart a b) x.stepsOn
  | .checkMany qs => (through (fun q => (x.answered q).isOk) qs).flatMap x.stepsFor
  | .report refs => x.stepsToAll refs

theorem yields_ask (hsteady : x.solver.Steady) (call : Call) :
    Yields (x.ask call) (x.reply call) (x.findings (x.examined call)) := by
  cases call with
  | constraints path stop => exact (x.yields_constraints path stop).map _
  | check q => exact (x.yields_check hsteady q).map _
  | checkApart a b => exact (x.yields_checkApart hsteady a b).map _
  | checkMany qs =>
    have hall := Yields.mapM (x.yields_answer hsteady) qs
    rw [← findings_flatMap] at hall
    exact hall.map _
  | report refs => exact (x.yields_report hsteady refs).map _

/-! ## Several queries -/

variable {x}

/-- If a solver may be given any number of conditions or can tell that they are too many, a search gives up only for that. -/
theorem probe_settles (hlimit : ∀ n, x.solver.maxConditions.isBelow? n ≠ none) {paths : List (List Node)}
    (hpaths : ∀ p ∈ paths, ∀ m ∈ p, m ∈ x.graph.nodes) :
    (∃ answer, x.probe paths = .ok answer) ∨ ∃ used limit, x.probe paths = .error (.tooManyConditions used limit) := by
  induction paths with
  | nil => exact .inl ⟨false, rfl⟩
  | cons path paths ih =>
    obtain ⟨cs, hcs, -⟩ := x.commitments_eq_ok (hpaths path (by simp))
    have hsolved : x.solved path = x.solver.satisfiable cs := by
      rw [solved, hcs]
      rfl
    rw [probe, hsolved]
    cases hbelow : x.solver.maxConditions.isBelow? (Constraint.countConditions cs) with
    | none => exact absurd hbelow (hlimit _)
    | some beyond =>
      cases beyond with
      | true =>
        rw [Solver.satisfiable_beyond hbelow]
        exact .inr ⟨_, _, rfl⟩
      | false =>
        rw [Solver.satisfiable, Solver.answerOn_within hbelow]
        cases x.solver.backend.answer #[] cs with
        | true => exact .inl ⟨true, rfl⟩
        | false => exact ih fun p hp => hpaths p (by simp [hp])

/-- Whether a query is about nodes of a graph. -/
structure Query.Known (q : Query) (g : Graph) : Prop where
  first : ∀ ref ∈ q.first, ref.key ∈ g.nodeIds
  second : ∀ ref ∈ q.second, ref.key ∈ g.nodeIds
  excluded : ∀ ref ∈ q.excluded, ref.key ∈ g.nodeIds

/-- Whether an answer says what the query alone is answered, or that it has too many conditions. -/
def Answer.Agrees (a : Answer) : Except Fault Bool → Prop
  | .ok feasible => a.feasible = feasible ∧ a.fault = none
  | .error fault => (∃ used limit, fault = .tooManyConditions used limit) ∧ a.feasible = false ∧ a.fault = some fault

theorem exists_answered (hsteady : x.solver.Steady) (hlimit : ∀ n, x.solver.maxConditions.isBelow? n ≠ none)
    (hpaths : ∀ p ∈ x.paths, ∀ m ∈ p, m ∈ x.graph.nodes) {q : Query} (hq : q.Known x.graph) :
    ∃ a, x.answered q = .ok a ∧ x.look q = .ok a.selection ∧ ∀ minutes, a.Agrees ((x.check q).run minutes).1 := by
  obtain ⟨paths, hbetween, hsub⟩ := x.exists_between hq.first hq.second hq.excluded
  obtain ⟨s, hlook, rfl⟩ := map_eq_ok_iff.1 hbetween
  have hcheck : ∀ minutes, ((x.check q).run minutes).1 = x.search (x.select s) := by
    intro minutes
    rw [(x.yields_check hsteady q).gives minutes, hlook]
    rfl
  have hanswered : x.answered q = settle s (x.search (x.select s)) := by
    rw [answered, hlook]
    rfl
  simp only [hcheck, hanswered, hlook]
  rw [search_eq]
  rcases probe_settles hlimit fun p hp => hpaths p (hsub (List.mem_filter.1 hp).1) with
    ⟨answer, hanswer⟩ | ⟨used, limit, hfault⟩
  · rw [hanswer]
    exact ⟨⟨s, answer, none⟩, rfl, rfl, fun _ => ⟨rfl, rfl⟩⟩
  · rw [hfault]
    exact ⟨⟨s, false, some _⟩, rfl, rfl, fun _ => ⟨⟨used, limit, rfl⟩, rfl, rfl⟩⟩

/-! ## Histories -/

/-- What a call comes to after others, for an explorer that some task makes. -/
structure Serves (make : Task Explorer) (x : Explorer) (m : Minutes) (call : Call) : Prop where
  /-- The reply is that of an explorer that has just been made. -/
  same_reply : ∀ log, ∃ y, (make.run log).1 = .ok y ∧
    ((x.ask call).run m).1 = ((y.ask call).run { reports := (make.run log).2 }).1
  grows : m.findings <+: (x.minutesAfter m call).findings
  once : ((x.minutesAfter m call).findings.map Finding.branch).Nodup
  /-- What is new are the branches without a true or false label that the call looks at. -/
  covers : ∀ b, b ∈ (x.minutesAfter m call).findings.map Finding.branch ↔
    b ∈ m.findings.map Finding.branch ∨ ∃ d ∈ x.examined call, (d.1.id, d.2.id) = b ∧ ¬∃ c, x.CommitsAt d c

theorem findings_minutesAfter (hsteady : x.solver.Steady) (m : Minutes) (call : Call) :
    (x.minutesAfter m call).findings = (x.findings (x.examined call)).foldl withFinding m.findings :=
  (x.yields_ask hsteady call).notes m

theorem nodup_findings (hsteady : x.solver.Steady) (calls : List Call) {m : Minutes}
    (h : (m.findings.map Finding.branch).Nodup) :
    ((calls.foldl x.minutesAfter m).findings.map Finding.branch).Nodup := by
  induction calls generalizing m with
  | nil => exact h
  | cons call calls ih =>
    apply ih
    rw [findings_minutesAfter hsteady]
    exact nodup_foldl_withFinding _ _ h

/-- All decisions of a path of the graph are looked at. -/
theorem steps_eq {path : List Node} (hpath : ∀ m ∈ path, m ∈ x.graph.nodes) :
    x.steps path none = decisions none path := by
  show (decisions none path).takeWhile x.knows = decisions none path
  refine List.takeWhile_eq_self_iff.2 fun d hd => ?_
  obtain ⟨⟨before, after, rfl⟩, -⟩ := mem_decisions_iff.1 hd
  rw [knows, Bool.and_eq_true, List.contains_iff_mem, List.contains_iff_mem]
  exact ⟨List.mem_map_of_mem (hpath _ (by simp)), List.mem_map_of_mem (hpath _ (by simp))⟩

/-- If the rulings of the external engine, where there is one, depend on the constraints alone, the following holds after any calls
on an explorer. Another call is replied as by one that has just been made. Findings are only added, at
most one for a branch, and exactly for the unclear branches that were looked at, which are all decisions of a path
of the explorer that is tried. With a limit that is a number, several queries over nodes of the function are all answered, each
as it is alone. -/
theorem replies_do_not_depend_on_history {g : Graph} {settings : Settings} {solver : Option Solver} {external : Option External}
    {name : Option String} {log : Array Report} (hx : ((create g settings solver external name).run log).1 = .ok x)
    (hsteady : x.solver.Steady) (before : List Call) (call : Call) :
    let make := create g settings solver external name
    let m := before.foldl x.minutesAfter { reports := (make.run log).2 }
    x.Serves make m call ∧ (∀ path ∈ x.paths, x.steps path none = decisions none path) ∧
      ∀ qs, (∀ n, x.solver.maxConditions.isBelow? n ≠ none) → (∀ q ∈ qs, q.Known g) →
        ∃ answers, ((x.ask (.checkMany qs)).run m).1 = .ok (.answers answers) ∧
          List.Forall₂ (fun q a => x.look q = .ok a.selection ∧ ∀ minutes, a.Agrees ((x.check q).run minutes).1)
            qs answers := by
  intro make m
  have hmade : made g settings solver external name = .ok x := (gives_create log).symm.trans hx
  obtain ⟨hnodes, hinside⟩ := mem_nodes_of_made hmade
  have hgraph : ∀ q : Query, q.Known g → q.Known x.graph := by
    intro q hq
    have hids : x.graph.nodeIds = g.nodeIds := by rw [Graph.nodeIds, hnodes, Graph.nodeIds]
    exact ⟨hids ▸ hq.first, hids ▸ hq.second, hids ▸ hq.excluded⟩
  refine ⟨⟨?_, ?_, ?_, ?_⟩, fun path hpath => steps_eq (hinside path hpath), ?_⟩
  · intro log'
    refine ⟨x, (gives_create log').trans hmade, ?_⟩
    rw [(x.yields_ask hsteady call).gives, (x.yields_ask hsteady call).gives]
  · rw [findings_minutesAfter hsteady]
    exact isPrefix_foldl_withFinding _ _
  · rw [findings_minutesAfter hsteady]
    exact nodup_foldl_withFinding _ _ (nodup_findings hsteady before (by simp))
  · intro b
    rw [findings_minutesAfter hsteady, mem_foldl_withFinding_iff, mem_findings_iff]
  · intro qs hlimit hqs
    obtain ⟨answers, hanswers, hall⟩ := exists_mapM_of_forall₂ (R := Eq) (List.forall₂_refl qs) fun q hq q' hq' => by
      subst hq'
      exact exists_answered hsteady hlimit hinside (hgraph q (hqs q hq))
    refine ⟨answers, ?_, hall⟩
    rw [(x.yields_ask hsteady (.checkMany qs)).gives, reply, hanswers]
    rfl

/-- A condition with a branch that has no label. -/
def halfLabelled : Graph where
  nodes := [{ id := 0, kind := .condition, name := "p", isRoot := true }, { id := 1, name := "a", isExitPoint := true },
    { id := 2, name := "b", isExitPoint := true }]
  edges := [⟨0, 0, 1, .structural, none, false, ∅, []⟩, ⟨1, 0, 2, .structural, some "true", false, ∅, []⟩]
  wired := ⟨by decide, by decide, by decide⟩

def halfLabelledExplorer : Explorer := ⟨none, halfLabelled.unflagged, .literal, [[0, 1], [0, 2]].map halfLabelled.lookUp⟩

theorem replies_do_not_depend_on_history_halfLabelled :
    let make := create halfLabelled {} (some .literal) none none
    let x := halfLabelledExplorer
    let m := [.check {}, .report (some [.id 7])].foldl x.minutesAfter { reports := (make.run #[]).2 }
    let call := .constraints (halfLabelled.lookUp [0, 1]) none
    let qs := [{}, { first := some (.id 0), second := some (.id 2) }]
    (make.run #[]).1 = .ok x ∧ x.Serves make m call ∧ (0, 1) ∈ (x.minutesAfter m call).findings.map Finding.branch ∧
      ∃ answers, ((x.ask (.checkMany qs)).run m).1 = .ok (.answers answers) ∧ answers.length = 2 := by
  intro make x m call qs
  have hx : (make.run #[]).1 = .ok x := by
    rw [gives_create]
    cbv
  have hlimit : ∀ n, x.solver.maxConditions.isBelow? n ≠ none := fun n => Option.some_ne_none _
  have hqs : ∀ q ∈ qs, q.Known halfLabelled := by
    intro q hq
    simp only [qs, List.mem_cons, List.not_mem_nil, or_false] at hq
    rcases hq with rfl | rfl
    · exact ⟨by decide, by decide, by decide⟩
    · exact ⟨by decide, by decide, by decide⟩
  obtain ⟨hserves, -, hmany⟩ := replies_do_not_depend_on_history hx Solver.steady_literal [.check {}, .report (some [.id 7])] call
  obtain ⟨answers, hreply, hall⟩ := hmany qs hlimit hqs
  have hunclear : (0, 1) ∈ (x.findings (x.examined call)).map Finding.branch := by decide
  have hfound := (hserves.covers (0, 1)).2 (.inr (mem_findings_iff.1 hunclear))
  exact ⟨hx, hserves, hfound, answers, hreply, hall.length_eq.symm⟩

end Flowgraph.Explorer
