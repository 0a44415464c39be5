import Flowgraph.Feasibility.Explorer
/-!
# Feasibility of paths

A path commits to the constraints of the branches that it takes, and is feasible if these can hold together. A
branch whose label is neither true nor false adds no constraint; it is noted as a finding, once for each pair of nodes.

An `Inquiry` is a computation that may fail and that leaves behind reports and findings. Its answers do not depend on
the findings made before.
-/

namespace Flowgraph

/-- A branch without a usable label: its ends, and the caution about it. -/
structure Finding where
  condition : Int
  next : Int
  caution : Caution
  deriving DecidableEq, Repr

/-- What inquiries leave behind. -/
structure Minutes where
  findings : List Finding := []
  reports : Array Report := #[]

/-- A computation about the paths of a function. -/
abbrev Inquiry := ExceptT Fault (StateM Minutes)

namespace Inquiry

/-- A result that is already known. -/
def ofExcept {α : Type} (x : Except Fault α) : Inquiry α :=
  match x with
  | .ok a => pure a
  | .error fault => throw fault

def ofTask {α : Type} (t : Task α) : Inquiry α := fun m =>
  let (result, reports) := t.run m.reports
  (result, { m with reports := reports })

def log (level : Level) (message : String) : Inquiry Unit := ofTask (Task.log level .feasibility message)

end Inquiry

namespace Explorer

variable (x : Explorer)

/-! ## Branches -/

/-- The edge that a path takes between two nodes: the only one, or else the first one with a label. -/
def branchEdge (edges : List Edge) : Option Edge :=
  match edges with
  | [e] => some e
  | _ => edges.find? (·.label.isSome)

/-- What taking a branch amounts to. -/
inductive Judgement where
  | commits (c : Constraint)
  | unclear (f : Finding)
  deriving DecidableEq, Repr

/-- What the label of a branch amounts to. -/
def readLabel (condition next : Node) (label : Option String) : Judgement :=
  match label with
  | none => .unclear ⟨condition.id, next.id, .unlabelled condition.name next.name⟩
  | some l =>
    if Text.lower l = "true" then .commits ⟨condition.name, true⟩
    else if Text.lower l = "false" then .commits ⟨condition.name, false⟩
    else .unclear ⟨condition.id, next.id, .unclearLabel condition.name l⟩

/-- What going from a condition to the next node amounts to. -/
def judge (condition next : Node) : Except Fault Judgement := do
  let edges ← x.graph.edgesBetween condition next
  return readLabel condition next ((branchEdge edges).bind Edge.label)

/-- The conditions along a path with the nodes after them, up to and without a last node. -/
def decisions (stop : Option Int) : List Node → List (Node × Node)
  | a :: b :: rest =>
    if some a.id = stop then []
    else if a.isCondition then (a, b) :: decisions stop (b :: rest)
    else decisions stop (b :: rest)
  | _ => []

/-- Notes a finding, unless there is one about the same branch. -/
def note (f : Finding) : Inquiry Unit := do
  let m ← get
  unless m.findings.any fun g => g.condition == f.condition && g.next == f.next do
    Inquiry.log .warning s!"CFG{ofFunction x.name}: {f.caution.incident.message}; constraint skipped"
    modify fun m => { m with findings := m.findings ++ [f] }

/-- Takes one decision of a path into account. -/
def commit (cs : List Constraint) (decision : Node × Node) : Inquiry (List Constraint) := do
  match ← Inquiry.ofExcept (x.judge decision.1 decision.2) with
  | .commits c => return if c ∈ cs then cs else cs ++ [c]
  | .unclear f =>
    x.note f
    return cs

/-- The constraints that a path commits to, before a node if one is given. -/
def constraints (path : List Node) (stop : Option NodeRef) : Inquiry (List Constraint) := do
  let stop ← Inquiry.ofExcept (stop.mapM x.graph.resolve)
  (decisions (stop.map Node.id) path).foldlM x.commit []

def feasible (cs : List Constraint) : Inquiry Bool := Inquiry.ofTask (x.solver.solve cs)

/-! ## Queries -/

/-- Constraints in the log. -/
def bracketed (cs : List Constraint) : String :=
  if cs.isEmpty then "" else s!"[{Constraint.displayAll cs}]"

/-- Whether the path ends where control leaves the function. -/
def endsAtExit (path : List Node) : Bool := (path.getLast?.map Node.isExitPoint).getD false

/-- Looks for a feasible path among some, given the constraints of the path before. -/
def firstFeasible (last : Option (List Constraint)) : List (List Node) → Inquiry Bool
  | [] => do
    let shown := match last with
      | none => "no constraints"
      | some cs => bracketed cs
    Inquiry.log .debug s!"INFEASIBLE: {shown}"
    return false
  | path :: paths => do
    if endsAtExit path then
      let cs ← x.constraints path none
      if ← x.feasible cs then
        Inquiry.log .debug s!"FEASIBLE: {arrowList path}"
        Inquiry.log .debug s!"FEASIBLE: {bracketed cs}"
        return true
      else firstFeasible (some cs) paths
    else firstFeasible last paths

/-- Whether one of the selected paths that end at an exit point is feasible. -/
def checkSelection (s : Selection) : Inquiry Bool := do
  match x.select s with
  | [] =>
    Inquiry.log .debug "INFEASIBLE: no path matches the query"
    return false
  | candidates => x.firstFeasible none candidates

/-- Whether a query has a feasible path that ends at an exit point. -/
def check (q : Query) : Inquiry Bool := do
  let s ← Inquiry.ofExcept (x.look q)
  x.checkSelection s

/-- Looks for a feasible path among some. -/
def anyFeasible : List (List Node) → Inquiry Bool
  | [] => return false
  | path :: paths => do
    if ← x.feasible (← x.constraints path none) then return true else anyFeasible paths

/-- Whether a feasible path has the first node and not the second. -/
def checkApart (a b : NodeRef) : Inquiry Bool := do
  let m ← Inquiry.ofExcept (x.graph.resolve a)
  let n ← Inquiry.ofExcept (x.graph.resolve b)
  x.anyFeasible (x.paths.filter fun p => p.any (·.id == m.id) && !p.any (·.id == n.id))

/-- The answer to one of several queries. A query with too many conditions has none. -/
structure Answer where
  selection : Selection
  feasible : Bool
  fault : Option Fault

/-- Answers one of several queries. -/
def answer (q : Query) : Inquiry Answer := do
  let s ← Inquiry.ofExcept (x.look q)
  try
    let feasible ← x.checkSelection s
    return ⟨s, feasible, none⟩
  catch
    | fault@(.tooManyConditions ..) => do
      Inquiry.log .warning s!"CFG{ofFunction x.name}: query abandoned: {fault.message}"
      return ⟨s, false, some fault⟩
    | fault => throw fault

/-- Answers several queries in turn. -/
def checkMany (qs : List Query) : Inquiry (List Answer) := qs.mapM x.answer

/-- Whether the part of a path up to a node is feasible. -/
structure Verdict where
  node : Node
  path : List Node
  constraints : List Constraint
  feasible : Bool

def Verdict.display (v : Verdict) : String :=
  let outcome := if v.feasible then "feasible" else "infeasible"
  s!"{v.node.name}: [{arrowList v.path}] {outcome} [{Constraint.displayAll v.constraints}]"

def verdict (node : Node) (path : List Node) : Inquiry Verdict := do
  let cs ← x.constraints path (some node)
  let v : Verdict := ⟨node, path, cs, ← x.feasible cs⟩
  Inquiry.log .debug v.display
  return v

def verdicts (node : Node) : Inquiry (List Verdict) := do
  let paths ← Inquiry.ofExcept (x.containing node)
  paths.mapM (x.verdict node)

/-- The verdicts for the nodes that are asked for, or for all nodes. -/
def report (refs : Option (List NodeRef)) : Inquiry (List Verdict) := do
  let nodes ← match refs with
    | some refs => Inquiry.ofExcept (refs.mapM x.graph.resolve)
    | none => pure x.graph.nodes
  let vs ← nodes.mapM x.verdicts
  return vs.flatten

end Explorer

end Flowgraph
