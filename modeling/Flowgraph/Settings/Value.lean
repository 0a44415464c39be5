import Flowgraph.Decimal.Shortest
import Flowgraph.Text.Quoted
/-!
# Values of settings

A setting may be given any value of a data document: nothing, a truth value, a number, a text, a list or
a table. Messages show a value with `Value.display`.
-/

namespace Flowgraph

/-- A value given to a setting. A real number is kept as its 64 bits. -/
inductive Value where
  | null
  | bool (b : Bool)
  | int (n : Int)
  | real (bits : UInt64)
  | text (s : String)
  | list (items : List Value)
  | table (entries : List (String × Value))
  deriving Inhabited

namespace Value

mutual

def display : Value → String
  | .null => "None"
  | .bool b => if b then "True" else "False"
  | .int n => toString n
  | .real bits => (Decimal.Binary.ofBits bits).display
  | .text s => Text.quote s
  | .list items => "[" ++ ", ".intercalate (displayItems items) ++ "]"
  | .table entries => "\x7b" ++ ", ".intercalate (displayEntries entries) ++ "\x7d"

/-- The items of a list, each in its own text. -/
def displayItems : List Value → List String
  | [] => []
  | v :: vs => v.display :: displayItems vs

/-- The entries of a table, each in its own text. -/
def displayEntries : List (String × Value) → List String
  | [] => []
  | (key, v) :: rest => (Text.quote key ++ ": " ++ v.display) :: displayEntries rest

end

def typeName : Value → String
  | .null => "NoneType"
  | .bool _ => "bool"
  | .int _ => "int"
  | .real _ => "float"
  | .text _ => "str"
  | .list _ => "list"
  | .table _ => "dict"

/-- Whether a number is below a natural number. Truth values count as zero and one; what is no number is not compared. -/
def isBelow? (v : Value) (n : Nat) : Option Bool :=
  match v with
  | .int m => some (m < n)
  | .bool b => some (b.toNat < n)
  | .real bits => some ((Decimal.Binary.ofBits bits).compareNat n == some .lt)
  | _ => none

/-- Whether a value counts as true: nothing, zero and what is empty do not. -/
def truthy : Value → Bool
  | .null => false
  | .bool b => b
  | .int n => n != 0
  | .real bits => !(Decimal.Binary.ofBits bits).isZero
  | .text s => s != ""
  | .list items => !items.isEmpty
  | .table entries => !entries.isEmpty

end Value

end Flowgraph
