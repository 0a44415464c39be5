import Flowgraph.Augmented.Basic
import Flowgraph.Augmented.Preorder
import Flowgraph.Branch.Constraint
import Flowgraph.Branch.External
import Flowgraph.Branch.Solver
import Flowgraph.Catalogue
import Flowgraph.Decimal.Shortest
import Flowgraph.Description.Assembly
import Flowgraph.Description.Fault
import Flowgraph.Description.Reader
import Flowgraph.Description.Tree
import Flowgraph.Description.Writer
import Flowgraph.Diagnostic.Code
import Flowgraph.Diagnostic.Incident
import Flowgraph.Distinct
import Flowgraph.Dominance.Basic
import Flowgraph.Dominance.Table
import Flowgraph.Fault
import Flowgraph.Feasibility.Explorer
import Flowgraph.Feasibility.Inquiry
import Flowgraph.Graph.Arena
import Flowgraph.Graph.Basic
import Flowgraph.Graph.Copy
import Flowgraph.Graph.Draft
import Flowgraph.Graph.Element
import Flowgraph.Graph.Loop
import Flowgraph.Graph.Reach
import Flowgraph.Graph.TagSet
import Flowgraph.Graph.Walk
import Flowgraph.Proofs.Augmented.DepthFirst
import Flowgraph.Proofs.Augmented.Enclosure
import Flowgraph.Proofs.Augmented.Ends
import Flowgraph.Proofs.Branch.Conflicts
import Flowgraph.Proofs.Branch.Satisfiable
import Flowgraph.Proofs.Description.Building
import Flowgraph.Proofs.Description.Grammar
import Flowgraph.Proofs.Description.Lookahead
import Flowgraph.Proofs.Description.Parts
import Flowgraph.Proofs.Description.Reading
import Flowgraph.Proofs.Description.Rearrangement
import Flowgraph.Proofs.Description.Refusal
import Flowgraph.Proofs.Description.RoundTrip
import Flowgraph.Proofs.Description.Truncation
import Flowgraph.Proofs.Dominance.Analysis
import Flowgraph.Proofs.Dominance.Ascent
import Flowgraph.Proofs.Dominance.Closure
import Flowgraph.Proofs.Dominance.Descent
import Flowgraph.Proofs.Dominance.Fixpoint
import Flowgraph.Proofs.Dominance.Frontier
import Flowgraph.Proofs.Dominance.Tree
import Flowgraph.Proofs.Dominance.Walk
import Flowgraph.Proofs.Feasibility.Check
import Flowgraph.Proofs.Feasibility.Commitment
import Flowgraph.Proofs.Feasibility.Enumeration
import Flowgraph.Proofs.Feasibility.Execution
import Flowgraph.Proofs.Feasibility.Findings
import Flowgraph.Proofs.Feasibility.Paths
import Flowgraph.Proofs.Feasibility.Prefixes
import Flowgraph.Proofs.Feasibility.Selection
import Flowgraph.Proofs.Feasibility.Session
import Flowgraph.Proofs.Graph.Acyclic
import Flowgraph.Proofs.Graph.BackEdges
import Flowgraph.Proofs.Graph.Colours
import Flowgraph.Proofs.Graph.Construction
import Flowgraph.Proofs.Graph.Lookup
import Flowgraph.Proofs.Graph.LoopRemoval
import Flowgraph.Proofs.Graph.Search
import Flowgraph.Proofs.Iteration
import Flowgraph.Proofs.Reduction.Branching
import Flowgraph.Proofs.Reduction.Control
import Flowgraph.Proofs.Reduction.DeadCode
import Flowgraph.Proofs.Reduction.Elimination
import Flowgraph.Proofs.Reduction.Indices
import Flowgraph.Proofs.Reduction.Origin
import Flowgraph.Proofs.Reduction.Outcome
import Flowgraph.Proofs.Reduction.Walk
import Flowgraph.Proofs.Run
import Flowgraph.Proofs.Store.Copying
import Flowgraph.Proofs.Store.History
import Flowgraph.Proofs.Store.Interruption
import Flowgraph.Proofs.Store.Keeping
import Flowgraph.Proofs.Store.Lookup
import Flowgraph.Proofs.Store.Materialize
import Flowgraph.Proofs.Store.Tables
import Flowgraph.Proofs.Store.Undo
import Flowgraph.Proofs.Store.Writing
import Flowgraph.Proofs.Table
import Flowgraph.Proofs.Text.LowerCase
import Flowgraph.Reduction.Basic
import Flowgraph.Reduction.Elimination
import Flowgraph.Report
import Flowgraph.Settings.Basic
import Flowgraph.Settings.Engine
import Flowgraph.Settings.Fault
import Flowgraph.Settings.Value
import Flowgraph.Store.Basic
import Flowgraph.Store.Import
import Flowgraph.Store.Journal
import Flowgraph.Store.Materialize
import Flowgraph.Table
import Flowgraph.Text.Blank
import Flowgraph.Text.LowerCase
import Flowgraph.Text.Numeral
import Flowgraph.Text.Position
import Flowgraph.Text.Printable
import Flowgraph.Text.Quoted
import Flowgraph.Text.Range
import Flowgraph.Text.Utf8
