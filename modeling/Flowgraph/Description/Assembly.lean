import Flowgraph.Description.Reader
import Flowgraph.Graph.Basic
import Flowgraph.Graph.Draft
import Flowgraph.Report
/-!
# From descriptions to graphs

The graph of a described function has one node for each identifier that its statements mention, numbered in
the order of first mention, and one edge for each edge statement, numbered in order. A declaration gives its
node a kind, flags and a name wherever it stands; an identifier that is only mentioned is a regular node.

A function is refused if it declares an identifier twice, and otherwise for the first option at fault: a word
that is no option, or a second label. Two functions of one name are refused last.
-/

namespace Flowgraph

namespace Description

open Text (Position)

/-- The attribute that keeps a node's identifier. -/
def identKey : String := "ident"

/-- The place where the last `left` characters of a text start. -/
def placeOf (text : List Char) (left : Nat) : Position := .at text (text.length - left)

/-! ## Edges -/

/-- Gives an edge its label, unless it has one. -/
def setLabel (place : Position) (edge : EdgeDecl) (draft : EdgeDraft) (label : String) :
    Except Fault EdgeDraft :=
  match draft.label with
  | some _ => .error (.twoLabels place edge.src edge.dst)
  | none => .ok { draft with label := some label }

/-- One option of an edge taken into account. -/
def applyOption (text : List Char) (edge : EdgeDecl) (draft : EdgeDraft) (o : EdgeOption) :
    Except Fault EdgeDraft :=
  let place := placeOf text o.left
  match o.value with
  | none =>
    if o.key = "true" ∨ o.key = "false" then setLabel place edge draft o.key
    else if o.key = "back" then .ok { draft with back := true }
    else .error (.unknownOption place o.key)
  | some value =>
    if o.key = "cond" then setLabel place edge draft value
    else .ok { draft with attrs := draft.attrs.put o.key value }

/-- What the options of an edge make of it. -/
def EdgeDecl.draft (text : List Char) (edge : EdgeDecl) : Except Fault EdgeDraft :=
  edge.options.foldlM (applyOption text edge) {}

/-! ## Nodes -/

namespace FunctionDecl

variable (f : FunctionDecl)

/-- The identifiers of a function, in the order of first mention. -/
def idents : List String := (f.statements.flatMap Statement.mentions).eraseDups

/-- What the declarations of a function make of an identifier. -/
def nodeDraft (ident : String) : NodeDraft :=
  match f.nodeDecls.find? (·.ident == ident) with
  | none => { name := ident, attrs := [(identKey, ident)] }
  | some d =>
    { kind := if d.has .condition then .condition else .regular
      name := d.name?.getD ident
      isRoot := d.has .root
      isExitPoint := d.has .exit
      attrs := [(identKey, ident)] }

def number (ident : String) : Nat := f.idents.idxOf ident

def node (ident : String) : Node := (f.nodeDraft ident).withId (f.number ident)

def nodes : List Node := f.idents.map f.node

/-- The edges of a function, given what their options make of them. -/
def edges (drafts : List EdgeDraft) : List Edge :=
  (f.edgeDecls.zip drafts).zipIdx.map fun ((d, draft), i) =>
    draft.withId i (f.number d.src) (f.number d.dst)

theorem mem_idents_of_mem_edgeDecls {d : EdgeDecl} (h : d ∈ f.edgeDecls) :
    d.src ∈ f.idents ∧ d.dst ∈ f.idents := by
  obtain ⟨s, hs, hd⟩ := List.mem_filterMap.1 h
  cases s with
  | node _ => cases hd
  | edge d' =>
    cases hd
    constructor <;>
      exact List.mem_eraseDups.2 (List.mem_flatMap.2 ⟨_, hs, by simp [Statement.mentions]⟩)

theorem nodup_numbers : (f.nodes.map Node.id).Nodup := by
  have h : f.nodes.map Node.id = f.idents.map fun ident => (f.number ident : Int) := by
    simp [nodes, node, Function.comp_def]
  rw [h, List.Nodup, List.pairwise_map]
  refine (nodup_eraseDups _).imp_of_mem fun {a b} ha hb hab heq => hab ?_
  have ha : a ∈ f.idents := ha
  have hb : b ∈ f.idents := hb
  have hidx : f.idents.idxOf a = f.idents.idxOf b := Int.ofNat_inj.1 heq
  have hla := List.idxOf_lt_length_of_mem ha
  have hlb := List.idxOf_lt_length_of_mem hb
  rw [← List.getElem_idxOf hla, ← List.getElem_idxOf hlb]
  simp only [hidx]

theorem wired (drafts : List EdgeDraft) : Wired f.nodes (f.edges drafts) where
  nodes_distinct := f.nodup_numbers
  edges_distinct := by
    have h : (f.edges drafts).map Edge.id
        = ((f.edgeDecls.zip drafts).zipIdx.map Prod.snd).map Int.ofNat := by
      simp only [edges, List.map_map]
      rfl
    rw [h, List.zipIdx_map_snd, List.Nodup, List.pairwise_map]
    have distinct : (List.range' 0 (f.edgeDecls.zip drafts).length).Nodup := List.nodup_range'
    exact distinct.imp fun {a b} hab heq => hab (Int.ofNat_inj.1 heq)
  closed e he := by
    have number_mem {ident : String} (h : ident ∈ f.idents) :
        (f.number ident : Int) ∈ f.nodes.map Node.id :=
      List.mem_map.2 ⟨_, List.mem_map.2 ⟨ident, h, rfl⟩, rfl⟩
    obtain ⟨⟨⟨d, draft⟩, i⟩, hd, rfl⟩ := List.mem_map.1 he
    have hd : d ∈ f.edgeDecls := (List.of_mem_zip (List.fst_mem_of_mem_zipIdx hd)).1
    have := f.mem_idents_of_mem_edgeDecls hd
    exact ⟨number_mem this.1, number_mem this.2⟩

def graph (text : List Char) : Except Fault Graph :=
  match firstRepeat? NodeDecl.ident [] f.nodeDecls with
  | some d => .error (.declaredTwice (placeOf text d.left) d.ident f.name)
  | none => do
    let drafts ← f.edgeDecls.mapM (EdgeDecl.draft text)
    return ⟨f.nodes, f.edges drafts, f.wired drafts⟩

end FunctionDecl

/-! ## Texts -/

/-- Raises a fault of a description. -/
def orFail {α : Type} (x : Except Fault α) : Task α :=
  match x with
  | .ok a => pure a
  | .error fault => throw (.description fault)

/-- The graph of a function, recorded in the log. -/
def buildFunction (text : List Char) (f : FunctionDecl) : Task (String × Graph) := do
  let g ← orFail (f.graph text)
  Task.log .debug .description s!"parsed function {Text.quote f.name}: {g.display}"
  return (f.name, g)

/-- The functions that a text describes, by name, in order. -/
def parseChars (text : List Char) : Task (List (String × Graph)) := do
  let functions ← orFail (read text)
  let graphs ← functions.mapM (buildFunction text)
  match firstRepeat? FunctionDecl.name [] functions with
  | some f => throw (.description (.definedTwice (placeOf text f.left) f.name))
  | none => return graphs

/-- The functions that a text describes, by name, in order. -/
def parse (text : String) : Task (List (String × Graph)) := parseChars text.toList

/-- The function that a text describes, which must be the only one. -/
def parseSingle (text : String) : Task Graph := do
  match ← parse text with
  | [(_, g)] => return g
  | functions => throw (.description (.notSingle functions.length))

def parseFile (bytes : List UInt8) : Task (List (String × Graph)) :=
  match Text.Utf8.decode bytes with
  | .ok cs => parseChars (Text.Utf8.unifyLines cs)
  | .error fault => throw (.notText fault)

end Description

/-- The first node whose identifier in the description was the given one. -/
def Graph.identified (g : Graph) (ident : String) : Except Fault Node :=
  match g.nodes.find? (·.attrs.lookup Description.identKey == some ident) with
  | some n => .ok n
  | none => .error (.noNodeIdentified ident)

end Flowgraph
