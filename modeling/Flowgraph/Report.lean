import Flowgraph.Fault
/-!
# Reports

While they work, operations write records to a log and issue cautions. Both are values: a `Task` is a
computation that may fail with a `Fault` and that leaves its reports behind in either case.
-/

namespace Flowgraph

/-- How much a record matters. -/
inductive Level where
  | debug
  | info
  | warning
  deriving DecidableEq, Repr

/-- The part of the library that writes a record. -/
inductive Source where
  | augmentation
  | dominance
  | reduction
  | store
  | description
  | solver
  | feasibility
  deriving DecidableEq, Repr

/-- The heading of the catalogue under which a record's source stands. -/
def Source.heading : Source → String
  | .augmentation => "ctrlflow_graph"
  | .dominance => "dominance"
  | .reduction => "event_flow"
  | .store => "graph_store"
  | .description => "graph_text"
  | .solver => "sat_solver"
  | .feasibility => "feasibility"

/-- A line of the log. -/
structure Record where
  level : Level
  source : Source
  message : String
  deriving DecidableEq, Repr

/-- What an operation leaves behind besides its result. -/
inductive Report where
  | record (r : Record)
  | caution (c : Caution)
  deriving DecidableEq, Repr

/-- A computation that may fail, and whose reports stay in either case. -/
abbrev Task := ExceptT Fault (StateM (Array Report))

namespace Task

def report (r : Report) : Task Unit := modify (·.push r)

def log (level : Level) (source : Source) (message : String) : Task Unit :=
  report (.record ⟨level, source, message⟩)

/-- A result that is already known, as a task that reports nothing. -/
def ofExcept {α : Type} (x : Except Fault α) : Task α :=
  match x with
  | .ok a => pure a
  | .error fault => throw fault

def reportAll (rs : List Report) : Task Unit := modify fun (before : Array Report) => before ++ rs

end Task

end Flowgraph
