import Flowgraph.Proofs.Feasibility.Check
/-!
# What inquiries find

An inquiry has its result and notes its findings wherever it is started (`Yields`); a finding about a branch that has one
already is dropped (`withFinding`). The findings of an inquiry are those of the decisions that it looks at
(`Explorer.steps`), on the paths that it tries (`Explorer.tried`).
-/

namespace Flowgraph

variable {α β : Type}

/-! ## Lists of findings -/

/-- The branch that a finding is about. -/
def Finding.branch (f : Finding) : Int × Int := (f.condition, f.next)

/-- Findings with another one, unless they have one about its branch. -/
def withFinding (fs : List Finding) (f : Finding) : List Finding :=
  if (fs.map Finding.branch).contains f.branch then fs else fs ++ [f]

section withFinding

variable (fs noted : List Finding)

theorem isPrefix_foldl_withFinding : fs <+: noted.foldl withFinding fs := by
  induction noted generalizing fs with
  | nil => exact List.prefix_rfl
  | cons f noted ih =>
    refine List.IsPrefix.trans ?_ (ih (withFinding fs f))
    unfold withFinding
    split
    · exact List.prefix_rfl
    · exact List.prefix_append fs [f]

theorem nodup_foldl_withFinding (h : (fs.map Finding.branch).Nodup) :
    ((noted.foldl withFinding fs).map Finding.branch).Nodup := by
  induction noted generalizing fs with
  | nil => exact h
  | cons f noted ih =>
    apply ih
    unfold withFinding
    split
    · exact h
    · rename_i hnew
      rw [List.contains_iff_mem] at hnew
      rw [List.map_append, List.map_singleton]
      exact h.append (List.nodup_singleton _) (List.disjoint_singleton.2 hnew)

theorem mem_foldl_withFinding_iff {b : Int × Int} :
    b ∈ (noted.foldl withFinding fs).map Finding.branch ↔ b ∈ fs.map Finding.branch ∨ b ∈ noted.map Finding.branch := by
  induction noted generalizing fs with
  | nil => simp
  | cons f noted ih =>
    have hstep : b ∈ (withFinding fs f).map Finding.branch ↔ b ∈ fs.map Finding.branch ∨ b = f.branch := by
      unfold withFinding
      split
      · rename_i hmem
        rw [List.contains_iff_mem] at hmem
        refine ⟨Or.inl, fun h => h.elim (fun h => h) fun h => h ▸ hmem⟩
      · simp
    rw [List.foldl_cons, ih, hstep, List.map_cons, List.mem_cons, or_assoc]

end withFinding

/-! ## Inquiries that note findings -/

/-- The result of an inquiry and the findings that it notes, wherever it is started. -/
structure Yields (t : Inquiry α) (result : Except Fault α) (fs : List Finding) : Prop where
  gives : Gives t result
  notes : ∀ m, (t.run m).2.findings = fs.foldl withFinding m.findings

/-- What comes of a value, if there is one. -/
def whenOk (result : Except Fault α) (more : α → List β) : List β :=
  match result with
  | .ok a => more a
  | .error _ => []

/-- The part of a list up to and with the first element that does not pass a test. -/
def through (p : α → Bool) : List α → List α
  | [] => []
  | a :: l => a :: if p a then through p l else []

namespace Yields

variable {t : Inquiry α} {k : α → Inquiry β} {fs fs' : List Finding}

protected theorem pure (a : α) : Yields (Pure.pure a) (.ok a) [] := ⟨.pure a, fun _ => rfl⟩

protected theorem throw (fault : Fault) : Yields (throw fault : Inquiry α) (.error fault) [] := ⟨.throw fault, fun _ => rfl⟩

theorem ofExcept (result : Except Fault α) : Yields (Inquiry.ofExcept result) result [] := by
  refine ⟨Inquiry.gives_ofExcept result, fun m => ?_⟩
  cases result with
  | ok a => rfl
  | error fault => rfl

theorem ofTask {t : Task α} {result : Except Fault α} (h : Gives t result) : Yields (Inquiry.ofTask t) result [] :=
  ⟨Inquiry.gives_ofTask h, fun _ => rfl⟩

theorem log (level : Level) (message : String) : Yields (Inquiry.log level message) (.ok ()) [] :=
  ofTask (Task.gives_log level _ message)

theorem run_eq {result : Except Fault α} (h : Yields t result fs) (m : Minutes) :
    ∃ m', t.run m = (result, m') ∧ m'.findings = fs.foldl withFinding m.findings :=
  ⟨(t.run m).2, Prod.ext (h.gives m) rfl, h.notes m⟩

theorem then_ok {a : α} {result : Except Fault β} (h : Yields t (.ok a) fs) (hk : Yields (k a) result fs') :
    Yields (t >>= k) result (fs ++ fs') := by
  refine ⟨h.gives.then_ok hk.gives, fun m => ?_⟩
  obtain ⟨m', hrun, hm'⟩ := h.run_eq m
  rw [run_bind, hrun, List.foldl_append, ← hm']
  exact hk.notes m'

theorem then_error {fault : Fault} (h : Yields t (.error fault) fs) : Yields (t >>= k) (.error fault) fs := by
  refine ⟨h.gives.then_error, fun m => ?_⟩
  obtain ⟨m', hrun, hm'⟩ := h.run_eq m
  rw [run_bind, hrun]
  exact hm'

protected theorem bind {result : Except Fault α} {next : α → Except Fault β} {more : α → List Finding}
    (h : Yields t result fs) (hk : ∀ a, Yields (k a) (next a) (more a)) :
    Yields (t >>= k) (result >>= next) (fs ++ whenOk result more) := by
  cases result with
  | error fault =>
    rw [whenOk, List.append_nil]
    exact h.then_error
  | ok a => exact h.then_ok (hk a)

protected theorem map {result : Except Fault α} (h : Yields t result fs) (f : α → β) :
    Yields (t >>= fun a => Pure.pure (f a)) (result >>= fun a => Pure.pure (f a)) fs := by
  cases result with
  | error fault => exact h.then_error
  | ok a =>
    rw [← List.append_nil fs]
    exact h.then_ok (.pure (f a))

/-- What only records does not change what is found. -/
theorem after_log {result : Except Fault α} {level : Level} {message : String} (h : Yields t result fs) :
    Yields (Inquiry.log level message >>= fun _ => t) result fs :=
  (log level message).then_ok h

theorem catch_ok {a : α} {handler : Fault → Inquiry α} (h : Yields t (.ok a) fs) :
    Yields (tryCatch t handler) (.ok a) fs := by
  constructor
  · intro m
    obtain ⟨m', ht, -⟩ := h.run_eq m
    rw [run_tryCatch, ht]
  · intro m
    obtain ⟨m', ht, hm'⟩ := h.run_eq m
    rw [run_tryCatch, ht]
    exact hm'

theorem catch_error {fault : Fault} {result : Except Fault α} {handler : Fault → Inquiry α}
    (h : Yields t (.error fault) fs) (hhandler : Yields (handler fault) result fs') :
    Yields (tryCatch t handler) result (fs ++ fs') := by
  constructor
  · intro m
    obtain ⟨m', ht, -⟩ := h.run_eq m
    rw [run_tryCatch, ht]
    exact hhandler.gives m'
  · intro m
    obtain ⟨m', ht, hm'⟩ := h.run_eq m
    rw [run_tryCatch, ht, List.foldl_append, ← hm']
    exact hhandler.notes m'

/-- A list of inquiries is gone through up to the first that fails. -/
protected theorem mapM {f : α → Inquiry β} {g : α → Except Fault β} {more : α → List Finding}
    (h : ∀ a, Yields (f a) (g a) (more a)) (l : List α) :
    Yields (l.mapM f) (l.mapM g) ((through (fun a => (g a).isOk) l).flatMap more) := by
  induction l with
  | nil => exact .pure []
  | cons a l ih =>
    rw [List.mapM_cons, List.mapM_cons, through, List.flatMap_cons]
    have ha := h a
    cases hg : g a with
    | error fault =>
      rw [hg] at ha
      rw [if_neg (by simp [Except.isOk, Except.toBool]), List.flatMap_nil, List.append_nil]
      exact ha.then_error
    | ok b =>
      rw [hg] at ha
      rw [if_pos (show (Except.ok b : Except Fault β).isOk = true from rfl)]
      exact ha.then_ok (ih.map (b :: ·))

end Yields

namespace Explorer

variable (x : Explorer)

/-! ## Decisions -/

/-- Whether the nodes of a decision are nodes of the graph. -/
def knows (d : Node × Node) : Bool := x.graph.nodeIds.contains d.1.id && x.graph.nodeIds.contains d.2.id

/-- The finding that a decision amounts to, if its branch is neither labelled true nor false. -/
def finding? (d : Node × Node) : Option Finding :=
  match readLabel d.1 d.2 ((branchEdge (x.graph.between d.1.id d.2.id)).bind Edge.label) with
  | .commits _ => none
  | .unclear f => some f

def findings (ds : List (Node × Node)) : List Finding := ds.filterMap x.finding?

variable {x} {d : Node × Node}

theorem finding?_eq_none_iff : x.finding? d = none ↔ ∃ c, x.CommitsAt d c := by
  obtain ⟨n, next⟩ := d
  simp only [← readLabel_eq_commits_iff_commitsAt, finding?]
  cases readLabel n next ((branchEdge (x.graph.between n.id next.id)).bind Edge.label) with
  | commits c => simp
  | unclear f => simp

theorem branch_of_finding {f : Finding} (h : x.finding? d = some f) : f.branch = (d.1.id, d.2.id) := by
  unfold finding? at h
  split at h
  · cases h
  · rename_i f' hread
    cases h
    unfold readLabel at hread
    split at hread
    · cases hread
      rfl
    · split at hread
      · cases hread
      · split at hread
        · cases hread
        · cases hread
          rfl

theorem mem_findings_iff {ds : List (Node × Node)} {b : Int × Int} :
    b ∈ (x.findings ds).map Finding.branch ↔ ∃ d ∈ ds, (d.1.id, d.2.id) = b ∧ ¬∃ c, x.CommitsAt d c := by
  constructor
  · intro h
    obtain ⟨f, hf, rfl⟩ := List.mem_map.1 h
    obtain ⟨d, hd, hfound⟩ := List.mem_filterMap.1 hf
    refine ⟨d, hd, (branch_of_finding hfound).symm, fun hcommits => ?_⟩
    rw [finding?_eq_none_iff.2 hcommits] at hfound
    cases hfound
  · rintro ⟨d, hd, rfl, hcommits⟩
    obtain ⟨f, hf⟩ := Option.ne_none_iff_exists'.1 fun hnone => hcommits (finding?_eq_none_iff.1 hnone)
    exact List.mem_map.2 ⟨f, List.mem_filterMap.2 ⟨d, hd, hf⟩, branch_of_finding hf⟩

theorem judge_of_knows (h : x.knows d) :
    x.judge d.1 d.2 = .ok (readLabel d.1 d.2 ((branchEdge (x.graph.between d.1.id d.2.id)).bind Edge.label)) := by
  rw [knows, Bool.and_eq_true, List.contains_iff_mem, List.contains_iff_mem] at h
  obtain ⟨m, hm⟩ := Graph.exists_resolve_iff.2 (show (NodeRef.node d.1).key ∈ _ from h.1)
  obtain ⟨n, hn⟩ := Graph.exists_resolve_iff.2 (show (NodeRef.node d.2).key ∈ _ from h.2)
  rw [judge, Graph.edgesBetween, hm, hn]
  show Except.ok (readLabel d.1 d.2 ((branchEdge (x.graph.between m.id n.id)).bind Edge.label)) = _
  rw [(Graph.resolve_eq_ok_iff.1 hm).2, (Graph.resolve_eq_ok_iff.1 hn).2]
  rfl

theorem judge_of_not_knows (h : ¬x.knows d) : ∃ fault, x.judge d.1 d.2 = .error fault := by
  rw [judge, Graph.edgesBetween]
  by_cases hnext : (NodeRef.node d.2).key ∈ x.graph.nodeIds
  · obtain ⟨n, hn⟩ := Graph.exists_resolve_iff.2 hnext
    have hfirst : (NodeRef.node d.1).key ∉ x.graph.nodeIds := by
      intro hfirst
      apply h
      rw [knows, Bool.and_eq_true, List.contains_iff_mem, List.contains_iff_mem]
      exact ⟨hfirst, hnext⟩
    exact ⟨_, by rw [hn, Graph.resolve_of_not_mem hfirst]; rfl⟩
  · exact ⟨_, by rw [Graph.resolve_of_not_mem hnext]; rfl⟩

variable (x)

theorem yields_note (f : Finding) : Yields (x.note f) (.ok ()) [f] := by
  refine ⟨x.gives_note f, fun m => ?_⟩
  have hany : (m.findings.any fun g => g.condition == f.condition && g.next == f.next) = true ↔
      (m.findings.map Finding.branch).contains f.branch := by
    simp only [List.any_eq_true, Bool.and_eq_true, beq_iff_eq, List.contains_iff_mem, List.mem_map, Finding.branch,
      Prod.mk.injEq]
  show ((x.note f).run m).2.findings = withFinding m.findings f
  unfold withFinding note
  by_cases h : (m.findings.map Finding.branch).contains f.branch
  · rw [if_pos h]
    show ((if _ then _ else _ : Inquiry Unit).run m).2.findings = _
    rw [if_pos (hany.2 h)]
    rfl
  · rw [if_neg h]
    show ((if _ then _ else _ : Inquiry Unit).run m).2.findings = _
    rw [if_neg (fun hmem => h (hany.1 hmem))]
    rfl

theorem yields_commit (cs : List Constraint) (d : Node × Node) (h : x.knows d) :
    ∃ cs', x.withDecision cs d = .ok cs' ∧ Yields (x.commit cs d) (.ok cs') (x.finding? d).toList := by
  unfold withDecision commit finding?
  rw [judge_of_knows h]
  cases readLabel d.1 d.2 ((branchEdge (x.graph.between d.1.id d.2.id)).bind Edge.label) with
  | commits c => exact ⟨_, rfl, (Yields.ofExcept (.ok (Judgement.commits c))).then_ok (.pure _)⟩
  | unclear f => exact ⟨cs, rfl, (Yields.ofExcept (.ok (Judgement.unclear f))).then_ok ((x.yields_note f).then_ok (.pure cs))⟩

theorem yields_commits (ds : List (Node × Node)) (cs : List Constraint) :
    Yields (ds.foldlM x.commit cs) (ds.foldlM x.withDecision cs) (x.findings (ds.takeWhile x.knows)) := by
  induction ds generalizing cs with
  | nil => exact .pure cs
  | cons d ds ih =>
    rw [List.foldlM_cons, List.foldlM_cons]
    by_cases hd : x.knows d
    · obtain ⟨cs', hcs', hcommit⟩ := x.yields_commit cs d hd
      have hfindings : x.findings ((d :: ds).takeWhile x.knows) =
          (x.finding? d).toList ++ x.findings (ds.takeWhile x.knows) := by
        rw [List.takeWhile_cons, if_pos hd, findings, List.filterMap_cons]
        cases x.finding? d with
        | none => rfl
        | some f => rfl
      rw [hcs', hfindings]
      exact hcommit.then_ok (ih cs')
    · obtain ⟨fault, hfault⟩ := judge_of_not_knows hd
      have hcommit : Yields (x.commit cs d) (.error fault) [] := by
        unfold commit
        rw [hfault]
        exact (Yields.ofExcept (.error fault)).then_error
      rw [withDecision, hfault, List.takeWhile_cons, if_neg hd]
      exact hcommit.then_error

/-! ## Paths -/

/-- The decisions of a path that are looked at, before a node if one is given. -/
def steps (path : List Node) (stop : Option NodeRef) : List (Node × Node) :=
  whenOk (stop.mapM x.graph.resolve) fun stop => (decisions (stop.map Node.id) path).takeWhile x.knows

theorem yields_constraints (path : List Node) (stop : Option NodeRef) :
    Yields (x.constraints path stop) (x.commitments path stop) (x.findings (x.steps path stop)) := by
  have hbind := (Yields.ofExcept (stop.mapM x.graph.resolve)).bind fun stop =>
    x.yields_commits (decisions (stop.map Node.id) path) []
  have hfindings : x.findings (x.steps path stop) = [] ++ whenOk (stop.mapM x.graph.resolve) fun stop =>
      x.findings ((decisions (stop.map Node.id) path).takeWhile x.knows) := by
    rw [steps, List.nil_append]
    cases stop.mapM x.graph.resolve with
    | error fault => rfl
    | ok stop => rfl
  rw [hfindings]
  exact hbind

theorem yields_feasible (hsteady : x.solver.Steady) (cs : List Constraint) :
    Yields (x.feasible cs) (x.solver.satisfiable cs) [] :=
  ⟨gives_feasible hsteady cs, fun _ => rfl⟩

/-- Whether a path is feasible. -/
def solved (path : List Node) : Except Fault Bool := x.commitments path none >>= x.solver.satisfiable

/-- Whether a path is known not to be feasible. -/
def rejects (path : List Node) : Bool :=
  match x.solved path with
  | .ok feasible => !feasible
  | .error _ => false

/-- The paths that a search tries: up to the first that is feasible or that it fails on. -/
def tried (paths : List (List Node)) : List (List Node) := through x.rejects paths

/-- The decisions on the paths that a search tries. -/
def stepsOn (paths : List (List Node)) : List (Node × Node) := (x.tried paths).flatMap (x.steps · none)

/-- Looks for a feasible path among some. -/
def probe : List (List Node) → Except Fault Bool
  | [] => .ok false
  | path :: paths => do if ← x.solved path then .ok true else probe paths

theorem search_eq (paths : List (List Node)) : x.search paths = x.probe (paths.filter endsAtExit) := by
  induction paths with
  | nil => rfl
  | cons path paths ih =>
    rw [search, List.filter_cons]
    by_cases hexit : endsAtExit path
    · rw [if_pos hexit, if_pos hexit, probe, solved, bind_assoc, ih]
    · rw [if_neg hexit, if_neg hexit, ih]

theorem findings_append (ds ds' : List (Node × Node)) : x.findings (ds ++ ds') = x.findings ds ++ x.findings ds' :=
  List.filterMap_append

/-- Trying one path, and others only if it is known not to be feasible. -/
theorem yields_attempt (hsteady : x.solver.Steady) {found rest : List Constraint → Inquiry Bool} {path : List Node} {paths : List (List Node)}
    (hfound : ∀ cs, Yields (found cs) (.ok true) [])
    (hrest : ∀ cs, Yields (rest cs) (x.probe paths) (x.findings (x.stepsOn paths))) :
    Yields (do let cs ← x.constraints path none; if ← x.feasible cs then found cs else rest cs)
      (x.probe (path :: paths)) (x.findings (x.stepsOn (path :: paths))) := by
  have hpath := x.yields_constraints path none
  unfold stepsOn at hrest ⊢
  rw [probe, tried, through, List.flatMap_cons, findings_append]
  unfold rejects solved
  cases hcs : x.commitments path none with
  | error fault =>
    rw [hcs] at hpath
    simpa [bind, Except.bind, findings] using hpath.then_error
  | ok cs =>
    rw [hcs] at hpath
    refine hpath.then_ok ?_
    have hfeasible := x.yields_feasible hsteady cs
    show Yields _ (x.solver.satisfiable cs >>= _) (x.findings (List.flatMap _ (if (match x.solver.satisfiable cs with
      | .ok feasible => !feasible
      | .error _ => false) then _ else _)))
    cases hsat : x.solver.satisfiable cs with
    | error fault =>
      rw [hsat] at hfeasible
      exact hfeasible.then_error
    | ok feasible =>
      rw [hsat] at hfeasible
      cases feasible with
      | true => exact hfeasible.then_ok (hfound cs)
      | false => exact hfeasible.then_ok (hrest cs)

theorem yields_firstFeasible (hsteady : x.solver.Steady) (last : Option (List Constraint)) (paths : List (List Node)) :
    Yields (x.firstFeasible last paths) (x.search paths) (x.findings (x.stepsOn (paths.filter endsAtExit))) := by
  rw [search_eq]
  induction paths generalizing last with
  | nil => exact (Yields.pure false).after_log
  | cons path paths ih =>
    rw [firstFeasible, List.filter_cons]
    by_cases hexit : endsAtExit path
    · rw [if_pos hexit, if_pos hexit]
      exact x.yields_attempt hsteady (fun cs => (Yields.pure true).after_log.after_log) fun cs => ih (some cs)
    · rw [if_neg hexit, if_neg hexit]
      exact ih last

theorem yields_anyFeasible (hsteady : x.solver.Steady) (paths : List (List Node)) :
    Yields (x.anyFeasible paths) (x.probe paths) (x.findings (x.stepsOn paths)) := by
  induction paths with
  | nil => exact .pure false
  | cons path paths ih => exact x.yields_attempt hsteady (fun _ => .pure true) fun _ => ih

end Explorer

end Flowgraph
