/-!
# Branch constraints

Taking a branch means that a condition has a truth value. A list of constraints can hold together under a truth
assignment; `firstConflict?` finds the first constraint that contradicts an earlier one.
-/

namespace Flowgraph

/-- A condition has a truth value. -/
structure Constraint where
  condition : String
  value : Bool
  deriving DecidableEq, Repr

namespace Constraint

def negated (c : Constraint) : Constraint := { c with value := !c.value }

def display (c : Constraint) : String := c.condition ++ (if c.value then "=T" else "=F")

def displayAll (cs : List Constraint) : String := " && ".intercalate (cs.map display)

/-- The number of conditions among some constraints. -/
def countConditions (cs : List Constraint) : Nat := (cs.map condition).eraseDups.length

/-- Whether an assignment of truth values to conditions meets a constraint. -/
def Holds (assignment : String → Bool) (c : Constraint) : Prop := assignment c.condition = c.value

/-- The condition of the first constraint that contradicts an earlier one, `seen` being the first values of the
conditions before. -/
def conflictFrom (seen : List (String × Bool)) : List Constraint → Option String
  | [] => none
  | c :: cs =>
    match seen.lookup c.condition with
    | none => conflictFrom ((c.condition, c.value) :: seen) cs
    | some v => if v = c.value then conflictFrom seen cs else some c.condition

/-- The condition of the first constraint that contradicts an earlier one. -/
def firstConflict? (cs : List Constraint) : Option String := conflictFrom [] cs

/-- The constraints that contradict the first value of their condition. -/
def contradictingFrom (seen : List (String × Bool)) : List Constraint → List Constraint
  | [] => []
  | c :: cs =>
    match seen.lookup c.condition with
    | none => contradictingFrom ((c.condition, c.value) :: seen) cs
    | some v => if v = c.value then contradictingFrom seen cs else c :: contradictingFrom seen cs

/-- The conditions required with both values, in the order in which they are first contradicted. -/
def conflicts (cs : List Constraint) : List String := ((contradictingFrom [] cs).map condition).eraseDups

end Constraint

end Flowgraph
