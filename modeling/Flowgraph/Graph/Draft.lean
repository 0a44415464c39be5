import Flowgraph.Graph.Element
/-!
# Elements without identities

A draft is an element before it is given an identity. A node that is drafted without a name is named after
its identity. An edge that has its identity can be changed in everything else.
-/

namespace Flowgraph

/-- A node still without an identity. -/
structure NodeDraft where
  kind : NodeKind := .regular
  name : String := ""
  isRoot : Bool := false
  isExitPoint : Bool := false
  attrs : Attrs := []
  deriving DecidableEq

/-- An edge still without an identity and without ends. -/
structure EdgeDraft where
  kind : EdgeKind := .structural
  label : Option String := none
  back : Bool := false
  tags : TagSet := ∅
  attrs : Attrs := []
  deriving DecidableEq

def NodeDraft.withId (d : NodeDraft) (id : Int) : Node where
  id := id
  kind := d.kind
  name := if d.name = "" then s!"n{id}" else d.name
  isRoot := d.isRoot
  isExitPoint := d.isExitPoint
  attrs := d.attrs

def EdgeDraft.withId (d : EdgeDraft) (id src dst : Int) : Edge where
  id := id
  src := src
  dst := dst
  kind := d.kind
  label := d.label
  back := d.back
  tags := d.tags
  attrs := d.attrs

/-- What a node is apart from its identity. -/
def Node.draft (n : Node) : NodeDraft := ⟨n.kind, n.name, n.isRoot, n.isExitPoint, n.attrs⟩

/-- What a node is apart from its identity and its flags. -/
def Node.plainDraft (n : Node) : NodeDraft := { kind := n.kind, name := n.name, attrs := n.attrs }

/-- What an edge is apart from its identity and its ends. -/
def Edge.draft (e : Edge) : EdgeDraft := ⟨e.kind, e.label, e.back, e.tags, e.attrs⟩

/-- What is to be changed about an edge. -/
structure EdgeChange where
  kind : Option EdgeKind := none
  label : Option (Option String) := none
  back : Option Bool := none
  tags : Option TagSet := none
  attrs : Option Attrs := none
  deriving DecidableEq

/-- The edge with some changes. Its identity and its ends stay. -/
def Edge.change (e : Edge) (c : EdgeChange) : Edge where
  id := e.id
  src := e.src
  dst := e.dst
  kind := c.kind.getD e.kind
  label := c.label.getD e.label
  back := c.back.getD e.back
  tags := c.tags.getD e.tags
  attrs := c.attrs.getD e.attrs

@[simp] theorem NodeDraft.id_withId (d : NodeDraft) (id : Int) : (d.withId id).id = id := rfl

@[simp] theorem EdgeDraft.id_withId (d : EdgeDraft) (id src dst : Int) :
    (d.withId id src dst).id = id := rfl

@[simp] theorem EdgeDraft.src_withId (d : EdgeDraft) (id src dst : Int) :
    (d.withId id src dst).src = src := rfl

@[simp] theorem EdgeDraft.dst_withId (d : EdgeDraft) (id src dst : Int) :
    (d.withId id src dst).dst = dst := rfl

end Flowgraph
