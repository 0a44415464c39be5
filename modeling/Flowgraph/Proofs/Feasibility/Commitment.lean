import Flowgraph.Proofs.Graph.Lookup
import Flowgraph.Proofs.Run
import Flowgraph.Proofs.Text.LowerCase
/-!
# What a path commits to

A path commits to a constraint where it goes on from a condition along an edge that is labelled true or false, in whatever
case (`Explorer.Commits`). The inquiry for the constraints of a path finds exactly these, whatever was found before, and
it does not fail on nodes of the graph (`Explorer.commitments_eq_ok`).
-/

namespace Flowgraph.Explorer

variable {x : Explorer} {edges : List Edge} {e : Edge} {c : Constraint} {n next : Node} {path : List Node}

/-! ## Branches -/

/-- The edge that is taken between two nodes: the only one, or else the first with a label. -/
def IsBranchEdge (edges : List Edge) (e : Edge) : Prop :=
  edges = [e] ∨ edges.length ≠ 1 ∧
    ∃ before after, edges = before ++ e :: after ∧ e.label.isSome ∧ ∀ d ∈ before, d.label = none

theorem branchEdge_eq_some_iff : branchEdge edges = some e ↔ IsBranchEdge edges e := by
  unfold branchEdge IsBranchEdge
  split
  · rename_i d
    simp
  · rename_i hmany
    have hlength : edges.length ≠ 1 := by
      intro h
      obtain ⟨d, rfl⟩ := List.length_eq_one_iff.1 h
      exact hmany d rfl
    rw [List.find?_eq_some_iff_append]
    constructor
    · rintro ⟨hlabel, before, after, rfl, hbefore⟩
      refine Or.inr ⟨hlength, before, after, rfl, hlabel, fun d hd => ?_⟩
      simpa using hbefore d hd
    · rintro (rfl | ⟨-, before, after, rfl, hlabel, hbefore⟩)
      · exact absurd rfl hlength
      · exact ⟨hlabel, before, after, rfl, fun d hd => by simp [hbefore d hd]⟩

/-- The word for a truth value on a label. -/
def truthWord (value : Bool) : String := if value then "true" else "false"

theorem truthWord_plain (value : Bool) : ∀ d ∈ (truthWord value).toList, Text.IsPlain d := by
  have hall : ∀ value, (truthWord value).toList.all (fun d => decide (Text.IsPlain d)) = true := by decide
  simpa using hall value

theorem readLabel_eq_commits_iff {label : Option String} :
    readLabel n next label = .commits c ↔
      ∃ l, label = some l ∧ c.condition = n.name ∧ l.toLower = truthWord c.value := by
  cases label with
  | none => simp [readLabel]
  | some l =>
    have hword : ∀ value, l.toLower = truthWord value ↔ Text.lower l = truthWord value := fun value =>
      (Text.lower_eq_iff (truthWord_plain value) l).symm
    obtain ⟨condition, value⟩ := c
    simp only [readLabel, Option.some.injEq, exists_eq_left', hword]
    by_cases htrue : Text.lower l = "true"
    · rw [if_pos htrue, htrue]
      cases value <;> simp [truthWord, eq_comm]
    · rw [if_neg htrue]
      by_cases hfalse : Text.lower l = "false"
      · rw [if_pos hfalse, hfalse]
        cases value <;> simp [truthWord, eq_comm]
      · rw [if_neg hfalse]
        cases value <;> simp [truthWord, htrue, hfalse]

/-- What going from a condition to the next node commits to. -/
def CommitsAt (x : Explorer) (decision : Node × Node) (c : Constraint) : Prop :=
  ∃ e label, IsBranchEdge (x.graph.between decision.1.id decision.2.id) e ∧ e.label = some label ∧
    c.condition = decision.1.name ∧ label.toLower = truthWord c.value

/-- What a path commits to: where a condition of the path is followed by another node, the edge between them is labelled. -/
def Commits (x : Explorer) (path : List Node) (c : Constraint) : Prop :=
  ∃ before n next after, path = before ++ n :: next :: after ∧ n.isCondition ∧ x.CommitsAt (n, next) c

theorem mem_decisions_iff :
    (n, next) ∈ decisions none path ↔
      (∃ before after, path = before ++ n :: next :: after) ∧ n.isCondition := by
  induction path with
  | nil => simp [decisions]
  | cons a rest ih =>
    cases rest with
    | nil =>
      simp only [decisions, List.not_mem_nil, false_iff, not_and]
      rintro ⟨before, after, h⟩
      have hlength := congrArg List.length h
      simp at hlength
      omega
    | cons b rest =>
      -- the pair comes first or later
      have hsplit : (∃ before after, a :: b :: rest = before ++ n :: next :: after) ↔
          (n = a ∧ next = b) ∨ ∃ before after, b :: rest = before ++ n :: next :: after := by
        constructor
        · rintro ⟨_ | ⟨d, before⟩, after, h⟩
          · cases h
            exact Or.inl ⟨rfl, rfl⟩
          · exact Or.inr ⟨before, after, (List.cons.inj h).2⟩
        · rintro (⟨rfl, rfl⟩ | ⟨before, after, h⟩)
          · exact ⟨[], rest, rfl⟩
          · exact ⟨a :: before, after, by rw [h, List.cons_append]⟩
      have hfirst : (n, next) ∈ decisions none (a :: b :: rest) ↔
          (n = a ∧ next = b ∧ a.isCondition) ∨ (n, next) ∈ decisions none (b :: rest) := by
        rw [decisions, if_neg (by simp)]
        split
        · rename_i ha
          simp [ha]
        · rename_i ha
          simp [ha]
      rw [hfirst, hsplit, ih, or_and_right]
      refine or_congr_left ⟨?_, ?_⟩
      · rintro ⟨rfl, rfl, hn⟩
        exact ⟨⟨rfl, rfl⟩, hn⟩
      · rintro ⟨⟨rfl, rfl⟩, hn⟩
        exact ⟨rfl, rfl, hn⟩

theorem judge_eq_ok (hn : n ∈ x.graph.nodes) (hnext : next ∈ x.graph.nodes) :
    x.judge n next = .ok (readLabel n next ((branchEdge (x.graph.between n.id next.id)).bind Edge.label)) := by
  have hresolve : ∀ m ∈ x.graph.nodes, x.graph.resolve (.node m) = .ok m := fun m hm =>
    Graph.resolve_eq_ok_iff.2 ⟨hm, rfl⟩
  simp only [judge, Graph.edgesBetween, hresolve n hn, hresolve next hnext]
  rfl

theorem readLabel_eq_commits_iff_commitsAt :
    readLabel n next ((branchEdge (x.graph.between n.id next.id)).bind Edge.label) = .commits c ↔
      x.CommitsAt (n, next) c := by
  rw [readLabel_eq_commits_iff]
  simp only [Option.bind_eq_some_iff, branchEdge_eq_some_iff, CommitsAt]
  constructor
  · rintro ⟨label, ⟨e, he, hlabel⟩, hrest⟩
    exact ⟨e, label, he, hlabel, hrest⟩
  · rintro ⟨e, label, he, hlabel, hrest⟩
    exact ⟨label, ⟨e, he, hlabel⟩, hrest⟩

theorem judge_commits_iff (hn : n ∈ x.graph.nodes) (hnext : next ∈ x.graph.nodes) :
    x.judge n next = .ok (.commits c) ↔ x.CommitsAt (n, next) c := by
  rw [judge_eq_ok hn hnext, Except.ok.injEq, readLabel_eq_commits_iff_commitsAt]

/-! ## The constraints of a path -/

/-- The constraints with those of a decision. -/
def withDecision (x : Explorer) (cs : List Constraint) (decision : Node × Node) : Except Fault (List Constraint) := do
  match ← x.judge decision.1 decision.2 with
  | .commits c => return if c ∈ cs then cs else cs ++ [c]
  | .unclear _ => return cs

/-- The constraints that a path commits to, before a node if one is given. -/
def commitments (x : Explorer) (path : List Node) (stop : Option NodeRef) : Except Fault (List Constraint) := do
  let stop ← stop.mapM x.graph.resolve
  (decisions (stop.map Node.id) path).foldlM x.withDecision []

theorem gives_note (x : Explorer) (f : Finding) : Gives (x.note f) (.ok ()) := by
  refine Gives.after_get fun m => ?_
  split
  · exact Gives.pure ()
  · exact (Inquiry.gives_log _ _).then_ok fun _ => rfl

theorem gives_commit (x : Explorer) (cs : List Constraint) (decision : Node × Node) :
    Gives (x.commit cs decision) (x.withDecision cs decision) := by
  refine (Inquiry.gives_ofExcept _).bind fun judgement => ?_
  cases judgement with
  | commits c => exact Gives.pure _
  | unclear f => exact (x.gives_note f).then_ok (.pure cs)

theorem gives_constraints (x : Explorer) (path : List Node) (stop : Option NodeRef) :
    Gives (x.constraints path stop) (x.commitments path stop) :=
  (Inquiry.gives_ofExcept _).bind fun _ => Gives.foldlM x.gives_commit _ _

/-- Going through decisions adds what each of them commits to. -/
theorem foldlM_withDecision_eq_ok (decisions : List (Node × Node))
    (hnodes : ∀ d ∈ decisions, d.1 ∈ x.graph.nodes ∧ d.2 ∈ x.graph.nodes) (cs : List Constraint) :
    ∃ cs', decisions.foldlM x.withDecision cs = .ok cs' ∧
      ∀ c, c ∈ cs' ↔ c ∈ cs ∨ ∃ d ∈ decisions, x.CommitsAt d c := by
  induction decisions generalizing cs with
  | nil => exact ⟨cs, rfl, by simp⟩
  | cons d decisions ih =>
    obtain ⟨hn, hnext⟩ := hnodes d (by simp)
    have hcommits := fun c => judge_commits_iff (c := c) hn hnext
    -- what the first decision adds
    obtain ⟨cs₁, hstep, hcs₁⟩ : ∃ cs₁, x.withDecision cs d = .ok cs₁ ∧ ∀ c, c ∈ cs₁ ↔ c ∈ cs ∨ x.CommitsAt d c := by
      unfold withDecision
      rw [judge_eq_ok hn hnext] at hcommits ⊢
      cases hread : readLabel d.1 d.2 ((branchEdge (x.graph.between d.1.id d.2.id)).bind Edge.label) with
      | commits c₀ =>
        rw [hread] at hcommits
        refine ⟨if c₀ ∈ cs then cs else cs ++ [c₀], rfl, fun c => ?_⟩
        rw [← hcommits, Except.ok.injEq, Judgement.commits.injEq]
        split
        · rename_i hmem
          refine ⟨Or.inl, ?_⟩
          rintro (h | rfl)
          · exact h
          · exact hmem
        · rw [List.mem_append, List.mem_singleton, eq_comm]
      | unclear f =>
        rw [hread] at hcommits
        refine ⟨cs, rfl, fun c => ?_⟩
        rw [← hcommits]
        simp
    obtain ⟨cs', hrest, hcs'⟩ := ih (fun d' hd' => hnodes d' (by simp [hd'])) cs₁
    refine ⟨cs', by rw [List.foldlM_cons, hstep]; exact hrest, fun c => ?_⟩
    rw [hcs', hcs₁, or_assoc]
    simp

/-- The constraints of a path of the graph are found, and are what the path commits to. -/
theorem commitments_eq_ok (hpath : ∀ m ∈ path, m ∈ x.graph.nodes) :
    ∃ cs, x.commitments path none = .ok cs ∧ ∀ c, c ∈ cs ↔ x.Commits path c := by
  have hnodes : ∀ d ∈ decisions none path, d.1 ∈ x.graph.nodes ∧ d.2 ∈ x.graph.nodes := by
    rintro ⟨n, next⟩ hd
    obtain ⟨⟨before, after, rfl⟩, -⟩ := mem_decisions_iff.1 hd
    exact ⟨hpath n (by simp), hpath next (by simp)⟩
  obtain ⟨cs, hcs, hmem⟩ := foldlM_withDecision_eq_ok (decisions none path) hnodes []
  refine ⟨cs, hcs, fun c => ?_⟩
  rw [hmem]
  constructor
  · rintro (h | ⟨⟨n, next⟩, hd, hc⟩)
    · exact absurd h List.not_mem_nil
    · obtain ⟨⟨before, after, hsplit⟩, hn⟩ := mem_decisions_iff.1 hd
      exact ⟨before, n, next, after, hsplit, hn, hc⟩
  · rintro ⟨before, n, next, after, hsplit, hn, hc⟩
    exact Or.inr ⟨(n, next), mem_decisions_iff.2 ⟨⟨before, after, hsplit⟩, hn⟩, hc⟩

end Flowgraph.Explorer
