import Flowgraph.Graph.TagSet
import Flowgraph.Text.Quoted
/-!
# Nodes and edges

The elements of a flow graph. An element has an integer identity; two nodes are the same when their
identities are, and so are two edges. Messages show elements with `Node.display` and `Edge.display`.
-/

namespace Flowgraph

/-- What a node is for. Entry and exit are the two nodes added around a function's graph. -/
inductive NodeKind where
  | regular
  | condition
  | entry
  | exit
  deriving DecidableEq, Repr

/-- Where an edge comes from: the function itself, the links of the added entry and exit, or the
reduction to events, which keeps some edges and puts bypasses in place of the others. -/
inductive EdgeKind where
  | structural
  | entryLink
  | exitLink
  | reduced
  | bypass
  deriving DecidableEq, Repr

def NodeKind.all : List NodeKind := [.regular, .condition, .entry, .exit]

def NodeKind.name : NodeKind → String
  | .regular => "regular"
  | .condition => "condition"
  | .entry => "entry"
  | .exit => "exit"

def NodeKind.ofName? (s : String) : Option NodeKind := all.find? (·.name == s)

def EdgeKind.all : List EdgeKind := [.structural, .entryLink, .exitLink, .reduced, .bypass]

def EdgeKind.name : EdgeKind → String
  | .structural => "structural"
  | .entryLink => "entry-synthetic"
  | .exitLink => "exit-synthetic"
  | .reduced => "reduced"
  | .bypass => "bypass"

def EdgeKind.ofName? (s : String) : Option EdgeKind := all.find? (·.name == s)

/-- Text attributes of an element, in the order in which they were first given. -/
abbrev Attrs := List (String × String)

/-- Gives an attribute a value; an attribute that is already there keeps its place. -/
def Attrs.put (a : Attrs) (key value : String) : Attrs :=
  if a.any (·.1 == key) then a.map fun p => if p.1 == key then (key, value) else p
  else a ++ [(key, value)]

/-- A node: its identity, its kind, a name for display (for a condition, the condition itself), and
whether control enters or leaves the function there. -/
structure Node where
  id : Int
  kind : NodeKind := .regular
  name : String := ""
  isRoot : Bool := false
  isExitPoint : Bool := false
  attrs : Attrs := []
  deriving DecidableEq

/-- An edge: its identity, its ends, its kind, the label of the branch it stands for, and whether it
closes a loop. -/
structure Edge where
  id : Int
  src : Int
  dst : Int
  kind : EdgeKind := .structural
  label : Option String := none
  back : Bool := false
  tags : TagSet := ∅
  attrs : Attrs := []
  deriving DecidableEq

/-- Whether the node decides a branch. -/
def Node.isCondition (n : Node) : Bool := n.kind == .condition

def Edge.isLoop (e : Edge) : Bool := e.src == e.dst

def Node.display (n : Node) : String :=
  s!"Node(id={n.id}, kind={Text.quote n.kind.name}, name={Text.quote n.name})"

/-- An edge in messages. The label is shown where there is one. -/
def Edge.display (e : Edge) : String :=
  let label := match e.label with
    | some l => s!", condition={Text.quote l}"
    | none => ""
  s!"Edge(id={e.id}, {e.src} -> {e.dst}, kind={Text.quote e.kind.name}{label})"

/-- A node or an edge. -/
inductive Element where
  | node (n : Node)
  | edge (e : Edge)
  deriving DecidableEq

/-- Whether two elements are the same one. -/
def Element.same : Element → Element → Bool
  | .node a, .node b => a.id == b.id
  | .edge a, .edge b => a.id == b.id
  | _, _ => false

def Element.display : Element → String
  | .node n => n.display
  | .edge e => e.display

/-- How a node is asked for: by its identity, or by a node that carries it. -/
inductive NodeRef where
  | id (i : Int)
  | node (n : Node)
  deriving DecidableEq

/-- The identity that is asked for. -/
def NodeRef.key : NodeRef → Int
  | .id i => i
  | .node n => n.id

def NodeRef.display : NodeRef → String
  | .id i => toString i
  | .node n => n.display

instance : Coe Node NodeRef := ⟨.node⟩

/-- How an element is asked for. -/
inductive ElementRef where
  | node (r : NodeRef)
  | edge (id : Int)
  deriving DecidableEq

/-- The names of some nodes, separated by commas. -/
def nameList (nodes : List Node) : String := ", ".intercalate (nodes.map Node.name)

/-- The names of the nodes along a path. -/
def arrowList (nodes : List Node) : String := " -> ".intercalate (nodes.map Node.name)

/-- The way an analysis walks: along the edges, or against them. -/
inductive Direction where
  | forward
  | backward
  deriving DecidableEq, Repr

/-- The other way. -/
def Direction.flip : Direction → Direction
  | .forward => .backward
  | .backward => .forward

end Flowgraph
