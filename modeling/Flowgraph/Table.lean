import Flowgraph.Fault
/-!
# Tables

Values by key, in the order in which the keys were first given. A table that is asked for the value of a key which it lacks
fails.
-/

namespace Flowgraph

/-- Values by key, in the order in which the keys were first given. -/
abbrev Table (α : Type) := List (Int × α)

namespace Table

variable {α : Type} (t : Table α)

def keys : List Int := t.map Prod.fst

def values : List α := t.map Prod.snd

/-- Gives a key a value. A key that is there keeps its place. -/
def put (k : Int) (a : α) : Table α :=
  if k ∈ keys t then t.map fun p => if p.1 = k then (k, a) else p else t ++ [(k, a)]

/-- The value of a key, which must be there. -/
def entry (k : Int) : Except Fault α :=
  match t.lookup k with
  | some a => .ok a
  | none => .error (.absentEntry k)

/-- Changes the value of a key, which must be there. -/
def change (k : Int) (f : α → α) : Except Fault (Table α) := do
  let a ← entry t k
  return put t k (f a)

/-- The table without a key, which must be there. -/
def without (k : Int) : Except Fault (Table α) :=
  if k ∈ keys t then .ok (t.filter (·.1 != k)) else .error (.absentEntry k)

end Table

end Flowgraph
