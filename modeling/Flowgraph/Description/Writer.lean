import Flowgraph.Description.Reader
import Flowgraph.Graph.Element
/-!
# Writing a description

A function is written as a block with one statement on each line. Names, labels and values stand between double quotes,
where a quote and a backslash have a backslash before them, so that any text can be written; reading gives it back
(`quoted_inQuotes`). The label of an edge is written as a value of the key `cond`.
-/

namespace Flowgraph.Description

/-! ## What is written -/

/-- A node to be declared. -/
structure NodeLine where
  ident : String
  flags : List Flag := []
  name : Option String := none
  deriving DecidableEq, Repr

/-- An edge to be drawn. -/
structure EdgeLine where
  src : String
  dst : String
  label : Option String := none
  back : Bool := false
  attrs : Attrs := []
  deriving DecidableEq, Repr

/-- A statement to be written. -/
inductive Line where
  | node (l : NodeLine)
  | edge (l : EdgeLine)
  deriving DecidableEq, Repr

/-- A function to be written. -/
structure Block where
  name : String
  lines : List Line
  deriving DecidableEq, Repr

/-! ## Texts between quotes -/

/-- A text with a backslash before each quote and each backslash. -/
def escape : List Char → List Char
  | [] => []
  | c :: cs => if c = '"' ∨ c = '\\' then '\\' :: c :: escape cs else c :: escape cs

def inQuotes (s : String) : List Char := '"' :: (escape s.toList ++ ['"'])

theorem quotedRest_escape (cs rest : List Char) : quotedRest (escape cs ++ '"' :: rest) = some (cs, rest) := by
  induction cs with
  | nil => simp [escape, quotedRest]
  | cons c cs ih =>
    by_cases h : c = '"' ∨ c = '\\'
    · have hn : c ≠ '\n' := by rintro rfl; revert h; decide
      simp [escape, h, quotedRest, hn, ih]
    · simp only [not_or] at h
      simp [escape, h.1, h.2, quotedRest, ih]

theorem quoted_inQuotes (s : String) (rest : List Char) : quoted (inQuotes s ++ rest) = some (s, rest) := by
  simp [quoted, inQuotes, quotedRest_escape]

/-! ## Statements and functions -/

/-- The declaration of a node: its flags, then its name. -/
def NodeLine.write (l : NodeLine) : List Char :=
  "node ".toList ++ l.ident.toList ++ l.flags.flatMap (fun f => ' ' :: f.word.toList) ++
    (l.name.map fun s => ' ' :: inQuotes s).getD []

/-- A key with its value. -/
def writeEntry (entry : String × String) : List Char := entry.1.toList ++ '=' :: inQuotes entry.2

def EdgeLine.options (l : EdgeLine) : List (List Char) :=
  (l.label.map fun s => writeEntry ("cond", s)).toList ++ (if l.back then ["back".toList] else []) ++
    l.attrs.map writeEntry

/-- An edge: its ends, then its options if there are any. -/
def EdgeLine.write (l : EdgeLine) : List Char :=
  l.src.toList ++ " -> ".toList ++ l.dst.toList ++
    if l.options.isEmpty then [] else " [".toList ++ List.intercalate ", ".toList l.options ++ [']']

def Line.write : Line → List Char
  | .node l => l.write
  | .edge l => l.write

/-- A function: its name, then its statements, each on a line of its own. -/
def Block.write (b : Block) : List Char :=
  "function ".toList ++ b.name.toList ++ " \x7b\n".toList ++
    b.lines.flatMap (fun l => "    ".toList ++ l.write ++ ['\n']) ++ "\x7d\n".toList

def write (blocks : List Block) : String := String.ofList (blocks.flatMap Block.write)

end Flowgraph.Description
