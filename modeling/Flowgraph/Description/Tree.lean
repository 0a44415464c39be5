/-!
# The parts of a description

A description is a list of functions, and a function a list of statements. A statement declares a node, with
its display name and its flags, or draws an edge between two nodes, with options. Parts that a fault may
point at remember how many characters of the text were left where they start.
-/

namespace Flowgraph.Description

/-- A flag of a declared node. -/
inductive Flag where
  | condition
  | root
  | exit
  deriving DecidableEq, Repr

def Flag.word : Flag → String
  | .condition => "condition"
  | .root => "root"
  | .exit => "exit"

def Flag.all : List Flag := [.condition, .root, .exit]

/-- What may follow the identifier of a declared node. -/
inductive NodeOption where
  | name (s : String)
  | flag (f : Flag)
  deriving DecidableEq, Repr

/-- The declaration of a node. -/
structure NodeDecl where
  ident : String
  options : List NodeOption
  left : Nat
  deriving DecidableEq, Repr

/-- An option of an edge: a word alone, or a key with a value. -/
structure EdgeOption where
  key : String
  value : Option String
  left : Nat
  deriving DecidableEq, Repr

/-- An edge between two identifiers. -/
structure EdgeDecl where
  src : String
  dst : String
  options : List EdgeOption
  deriving DecidableEq, Repr

/-- A statement of a function. -/
inductive Statement where
  | node (d : NodeDecl)
  | edge (d : EdgeDecl)
  deriving DecidableEq, Repr

/-- A function: its name and its statements. -/
structure FunctionDecl where
  name : String
  statements : List Statement
  left : Nat
  deriving DecidableEq, Repr

/-- The display name of a declaration: the last one given. -/
def NodeDecl.name? (d : NodeDecl) : Option String :=
  d.options.foldl (fun name o => match o with
    | .name s => some s
    | .flag _ => name) none

def NodeDecl.has (d : NodeDecl) (f : Flag) : Bool := d.options.contains (.flag f)

/-- The identifiers that a statement mentions, in order. -/
def Statement.mentions : Statement → List String
  | .node d => [d.ident]
  | .edge d => [d.src, d.dst]

def Statement.nodeDecl? : Statement → Option NodeDecl
  | .node d => some d
  | .edge _ => none

def Statement.edgeDecl? : Statement → Option EdgeDecl
  | .node _ => none
  | .edge d => some d

def FunctionDecl.nodeDecls (f : FunctionDecl) : List NodeDecl := f.statements.filterMap Statement.nodeDecl?

def FunctionDecl.edgeDecls (f : FunctionDecl) : List EdgeDecl := f.statements.filterMap Statement.edgeDecl?

end Flowgraph.Description
