import Flowgraph.Text.Quoted
/-!
# Codes of reported conditions

A condition that the analyses report has a stable code such as `LSAP-0001`, a one-line summary and a
severity. Two codes are the same when they are written alike.
-/

namespace Flowgraph.Diagnostic

/-- How bad a reported condition is. -/
inductive Severity where
  | fatal
  | error
  | warning
  | info
  deriving DecidableEq, Repr

namespace Severity

def all : List Severity := [.fatal, .error, .warning, .info]

def name : Severity → String
  | .fatal => "fatal"
  | .error => "error"
  | .warning => "warning"
  | .info => "info"

/-- Whether the condition is an error rather than a remark. -/
def isError : Severity → Bool
  | .fatal | .error => true
  | .warning | .info => false

def ofName? (s : String) : Option Severity := all.find? (·.name == s)

end Severity

/-- A code: a family, a number within it, what it stands for and how bad that is. -/
structure Code where
  number : Int
  summary : String
  severity : Severity := .error
  family : String := "LSAP"
  deriving DecidableEq, Repr

namespace Code

/-- A number filled with zeros up to four characters, the sign being one of them. -/
def fourPlaces (n : Int) : String :=
  let digits := toString n.natAbs
  let zeros (width : Nat) := String.ofList (List.replicate (width - digits.length) '0')
  if n < 0 then "-" ++ zeros 3 ++ digits else zeros 4 ++ digits

/-- The code as it is written. -/
def text (c : Code) : String := c.family ++ "-" ++ fourPlaces c.number

/-- The code with its summary, for inspection. -/
def display (c : Code) : String := s!"ErrorCode({c.text}, {Text.quote c.summary})"

/-- Whether two codes are written alike. -/
def same (a b : Code) : Bool := a.text == b.text

def noRoot : Code := ⟨1, "function CFG has no control-flow root", .fatal, "LSAP"⟩
def cyclic : Code := ⟨2, "CFG still cyclic after removing back edges", .fatal, "LSAP"⟩
def noExitConnection : Code := ⟨3, "event flow graph has no Entry/Exit connection", .warning, "LSAP"⟩
def unsupportedBranch : Code := ⟨4, "branch edge without a true/false label", .warning, "LSAP"⟩
def unknownNode : Code := ⟨1000, "node is not part of the graph", .error, "LSAP"⟩
def unreachableNode : Code := ⟨1001, "node is unreachable from the root", .error, "LSAP"⟩
def pathLimit : Code := ⟨1002, "path enumeration ceiling exceeded", .error, "LSAP"⟩
def solverLimit : Code := ⟨1003, "too many distinct branch conditions", .error, "LSAP"⟩
def badDescription : Code := ⟨2000, "invalid textual CFG description", .error, "LSAP"⟩
def brokenInvariant : Code := ⟨9000, "graph invariant violated", .fatal, "LSAP"⟩

/-- The codes in use, under the names they are listed by, in the order of these names. -/
def listed : List (String × Code) :=
  [("CYCLIC_LOOP_FREE_GRAPH", cyclic), ("GRAPH_SYNTAX", badDescription),
   ("INVARIANT_BROKEN", brokenInvariant), ("NO_EXIT_CONNECTION", noExitConnection),
   ("NO_STRUCTURAL_ROOT", noRoot), ("PATH_LIMIT", pathLimit), ("SOLVER_LIMIT", solverLimit),
   ("UNKNOWN_NODE", unknownNode), ("UNREACHABLE_NODE", unreachableNode),
   ("UNSUPPORTED_BRANCH", unsupportedBranch)]

end Code

/-- The number of codes that are written differently. -/
def countDistinct (codes : List Code) : Nat := (codes.map Code.text).eraseDups.length

end Flowgraph.Diagnostic
