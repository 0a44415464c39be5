import Flowgraph.Branch.Constraint
import Flowgraph.Report
/-!
# External engines

An external engine is not part of the analyses. It is handed constraints with a time limit, and rules on them or gives up. Its
rulings may depend on the occasion, for which stands what has been recorded until then.
-/

namespace Flowgraph

/-- What an external engine says of constraints: that they can hold together, that they cannot, or why it does not know. -/
inductive Ruling where
  | sat
  | unsat
  | unknown (reason : String)
  deriving DecidableEq, Repr

structure External where
  check : (log : Array Report) → (timeout : Value) → List Constraint → Ruling

/-- The part of a name before its first null character. -/
def upToNull (name : String) : String := String.ofList (name.toList.takeWhile (· != Char.ofNat 0))

/-- An engine that always knows, as all it is handed are literals. Names that agree up to a null character are one to it. -/
def External.literal : External where
  check _ _ cs :=
    match Constraint.firstConflict? (cs.map fun c => { c with condition := upToNull c.condition }) with
    | none => .sat
    | some _ => .unsat

end Flowgraph
