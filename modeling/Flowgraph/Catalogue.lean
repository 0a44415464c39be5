/-!
# The catalogue of published names

The toolkit publishes its names under headings. A listing gives the names of each heading, followed by the heading
itself, heading after heading.
-/

namespace Flowgraph.Catalogue

def version : String := "0.1.0"

/-- The headings in the order of listing, each with its names. -/
def headings : List (String × List String) :=
  [("errors",
    ["ErrorSeverity", "ErrorCode", "ErrorCodes", "LsapError", "MalformedGraph", "GraphInvariantError",
     "UnknownNodeError", "UnreachableNodeError", "PathLimitExceeded", "SolverResourceExhausted",
     "GraphSyntaxError", "LsapWarning", "DisconnectedEventSet", "UnsupportedBranchCondition"]),
   ("config", ["AnalysisConfig", "configure_logging"]),
   ("graph_model", ["NodeKind", "EdgeKind", "Node", "Edge", "Graph", "GraphBuilder"]),
   ("ctrlflow_graph",
    ["ControlFlowGraph", "detect_back_edges", "is_acyclic", "loop_free_graph", "CFG_MASTER_ENTRY_NODE",
     "CFG_MASTER_EXIT_NODE", "CFG_ENTRY_EDGE", "CFG_EXIT_EDGE"]),
   ("dfs", ["DepthFirstPreorderIterator"]),
   ("dominance", ["DominanceAnalysis"]),
   ("graph_store", ["TaggedGraphStore", "StoreTransaction"]),
   ("event_flow",
    ["EventFlowGraphTransformation", "EventFlowGraph", "EFG_NODE", "EFG_EDGE", "NEW_EFG_EDGE"]),
   ("sat_solver",
    ["Constraint", "ConstraintSolver", "LiteralConflictSolver", "Z3ConstraintSolver", "SolverBackend",
     "make_solver"]),
   ("feasibility", ["FeasibilityChecker", "FeasibilityResult", "PathVerdict"]),
   ("graph_text", ["parse_functions", "parse_function", "load_functions", "node_named"])]

/-- All published names in the order of listing. -/
def listing : List String := headings.flatMap fun (heading, names) => names ++ [heading]

/-- The headings in alphabetical order. -/
def sortedHeadings : List String := (headings.map Prod.fst).mergeSort fun a b => !(b < a)

end Flowgraph.Catalogue
