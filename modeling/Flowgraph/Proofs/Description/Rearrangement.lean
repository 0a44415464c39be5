import Flowgraph.Proofs.Description.Parts
import Flowgraph.Proofs.Description.RoundTrip
import Flowgraph.Proofs.Graph.Lookup
/-!
# The order of statements

Where a node is declared does not matter. Two functions with the same statements, and the edges among them in the same order,
have the same identifiers, and what their declarations make of an identifier is the same (`Rearranges.nodeDraft_eq`). Their
graphs then agree but for the numbers of their nodes: edges run between the same identifiers, and nodes have the same kind, flags
and name, except that a node whose last quoted name is empty is named after its number.
-/

namespace Flowgraph

/-- The identifier that a node has in the description. -/
def Node.ident? (n : Node) : Option String := n.attrs.lookup Description.identKey

namespace Graph

/-- Whether every node has an identifier of its own, by which it is found. -/
def Identified (g : Graph) : Prop :=
  ∀ n ∈ g.nodes, ∃ ident, n.ident? = some ident ∧ g.identified ident = .ok n ∧ ∀ m ∈ g.nodes, m.ident? = some ident → m = n

/-- The edges of a graph between identifiers instead of nodes. -/
def drawn (g : Graph) : List (Int × Option String × Option String × EdgeDraft) :=
  g.edges.map fun e => (e.id, (g.node? e.src).bind Node.ident?, (g.node? e.dst).bind Node.ident?, e.draft)

end Graph

namespace Description

/-- The text of a quoted name. -/
def NodeOption.quoted? : NodeOption → Option String
  | .name s => some s
  | .flag _ => none

def NodeDecl.names (d : NodeDecl) : List String := d.options.filterMap NodeOption.quoted?

/-! ## Statements without their places -/

def NodeDecl.unplaced (d : NodeDecl) : NodeDecl := { d with left := 0 }

def EdgeOption.unplaced (o : EdgeOption) : EdgeOption := { o with left := 0 }

def EdgeDecl.unplaced (e : EdgeDecl) : EdgeDecl := { e with options := e.options.map EdgeOption.unplaced }

/-- A statement, wherever it stands. -/
def Statement.unplaced : Statement → Statement
  | .node d => .node d.unplaced
  | .edge e => .edge e.unplaced

theorem Statement.mentions_unplaced (st : Statement) : st.unplaced.mentions = st.mentions := by
  cases st with
  | node d => rfl
  | edge e => rfl

namespace FunctionDecl

/-- Whether two functions have the same statements, and the edges among them in the same order. -/
structure Rearranges (f f' : FunctionDecl) : Prop where
  statements : (f.statements.map Statement.unplaced).Perm (f'.statements.map Statement.unplaced)
  edges : f.edgeDecls.map EdgeDecl.unplaced = f'.edgeDecls.map EdgeDecl.unplaced

/-- Whether a text is the last quoted name in a declaration of an identifier. -/
def Names (f : FunctionDecl) (ident s : String) : Prop :=
  ∃ d ∈ f.nodeDecls, d.ident = ident ∧ d.names.getLast? = some s

end FunctionDecl

/-! ## Nodes -/

theorem foldl_name (os : List NodeOption) (init : Option String) :
    (os.foldl (fun name o => match o with
      | .name s => some s
      | .flag _ => name) init) = (os.filterMap NodeOption.quoted?).getLast?.or init := by
  induction os generalizing init with
  | nil => rfl
  | cons o os ih =>
    rw [List.foldl_cons, ih]
    cases o with
    | name s =>
      rw [List.filterMap_cons_some (by rfl), List.getLast?_cons]
      cases (os.filterMap NodeOption.quoted?).getLast? with
      | none => rfl
      | some t => rfl
    | flag fl => rw [List.filterMap_cons_none (by rfl)]

theorem NodeDecl.name?_eq (d : NodeDecl) : d.name? = d.names.getLast? := (foldl_name d.options none).trans Option.or_none

namespace FunctionDecl

variable {f f' : FunctionDecl}

theorem mem_idents_iff {ident : String} : ident ∈ f.idents ↔ ∃ st ∈ f.statements, ident ∈ st.mentions := by
  rw [idents, List.mem_eraseDups, List.mem_flatMap]

namespace Rearranges

theorem symm (h : f.Rearranges f') : f'.Rearranges f := ⟨h.statements.symm, h.edges.symm⟩

theorem mem_idents (h : f.Rearranges f') {ident : String} (hident : ident ∈ f.idents) : ident ∈ f'.idents := by
  obtain ⟨st, hst, hmention⟩ := mem_idents_iff.1 hident
  obtain ⟨st', hst', heq⟩ := List.mem_map.1 (h.statements.mem_iff.1 (List.mem_map_of_mem hst))
  refine mem_idents_iff.2 ⟨st', hst', ?_⟩
  rw [← st'.mentions_unplaced, heq, st.mentions_unplaced]
  exact hmention

theorem nodeDecls (h : f.Rearranges f') : (f.nodeDecls.map NodeDecl.unplaced).Perm (f'.nodeDecls.map NodeDecl.unplaced) := by
  have hmap : ∀ f : FunctionDecl, f.nodeDecls.map NodeDecl.unplaced = (f.statements.map Statement.unplaced).filterMap fun
      | .node d => some d
      | .edge _ => none := by
    intro f
    rw [FunctionDecl.nodeDecls, List.map_filterMap, List.filterMap_map]
    refine List.filterMap_congr fun st _ => ?_
    cases st with
    | node d => rfl
    | edge e => rfl
  rw [hmap, hmap]
  exact h.statements.filterMap _

theorem nodup (h : f.Rearranges f') (hnodup : (f.nodeDecls.map NodeDecl.ident).Nodup) :
    (f'.nodeDecls.map NodeDecl.ident).Nodup := by
  have hperm := h.nodeDecls.map NodeDecl.ident
  rw [List.map_map, List.map_map] at hperm
  exact hperm.nodup_iff.1 hnodup

theorem find?_eq (h : f.Rearranges f') (hnodup : (f.nodeDecls.map NodeDecl.ident).Nodup) (ident : String) :
    (f'.nodeDecls.find? (·.ident == ident)).map NodeDecl.unplaced = (f.nodeDecls.find? (·.ident == ident)).map NodeDecl.unplaced := by
  -- as identifiers are distinct, searching for one is membership, which is the same in every order
  have hfind : ∀ {f : FunctionDecl}, (f.nodeDecls.map NodeDecl.ident).Nodup → ∀ d,
      (f.nodeDecls.find? (·.ident == ident)).map NodeDecl.unplaced = some d ↔
        d ∈ f.nodeDecls.map NodeDecl.unplaced ∧ d.ident = ident := by
    intro f hnodup d
    rw [Option.map_eq_some_iff, List.mem_map]
    simp only [find?_key_eq_some_iff hnodup]
    constructor
    · rintro ⟨d', ⟨hd', rfl⟩, rfl⟩
      exact ⟨⟨d', hd', rfl⟩, rfl⟩
    · rintro ⟨⟨d', hd', rfl⟩, rfl⟩
      exact ⟨d', ⟨hd', rfl⟩, rfl⟩
  ext d
  rw [hfind (h.nodup hnodup), hfind hnodup, h.nodeDecls.mem_iff]

/-- What the declarations make of an identifier does not depend on where they stand. -/
theorem nodeDraft_eq (h : f.Rearranges f') (hnodup : (f.nodeDecls.map NodeDecl.ident).Nodup) (ident : String) :
    f'.nodeDraft ident = f.nodeDraft ident := by
  have hfind := h.find?_eq hnodup ident
  rw [nodeDraft, nodeDraft]
  cases hd : f.nodeDecls.find? (·.ident == ident) with
  | none =>
    rw [hd, Option.map_none, Option.map_eq_none_iff] at hfind
    rw [hfind]
  | some d =>
    rw [hd, Option.map_some, Option.map_eq_some_iff] at hfind
    obtain ⟨d', hd', heq⟩ := hfind
    have hoptions : d'.options = d.options := show d'.unplaced.options = d.unplaced.options by rw [heq]
    have hflags : ∀ flag, d'.has flag = d.has flag := fun flag => by rw [NodeDecl.has, NodeDecl.has, hoptions]
    have hname : d'.name? = d.name? := by rw [NodeDecl.name?, NodeDecl.name?, hoptions]
    simp only [hd', hflags, hname]

end Rearranges

theorem mem_nodes_iff {n : Node} : n ∈ f.nodes ↔ ∃ ident ∈ f.idents, f.node ident = n := List.mem_map

theorem ident?_node (f : FunctionDecl) (ident : String) : (f.node ident).ident? = some ident := by
  have hattrs : (f.nodeDraft ident).attrs = [(identKey, ident)] := by
    rw [nodeDraft]
    split
    · rfl
    · rfl
  rw [Node.ident?, node, NodeDraft.withId, hattrs]
  exact List.lookup_cons_self

theorem eq_node_of_ident? {n : Node} (hn : n ∈ f.nodes) {ident : String} (hident : n.ident? = some ident) :
    ident ∈ f.idents ∧ n = f.node ident := by
  obtain ⟨ident', hmem, rfl⟩ := mem_nodes_iff.1 hn
  obtain rfl : ident' = ident := Option.some.inj ((f.ident?_node ident').symm.trans hident)
  exact ⟨hmem, rfl⟩

theorem exists_ident?_iff {ident : String} : (∃ n ∈ f.nodes, n.ident? = some ident) ↔ ident ∈ f.idents := by
  constructor
  · rintro ⟨n, hn, hident⟩
    exact (eq_node_of_ident? hn hident).1
  · intro h
    exact ⟨f.node ident, mem_nodes_iff.2 ⟨ident, h, rfl⟩, f.ident?_node ident⟩

theorem nodup_ident? (f : FunctionDecl) : (f.nodes.map Node.ident?).Nodup := by
  have hidents : f.nodes.map Node.ident? = f.idents.map some := by
    rw [nodes, List.map_map]
    exact List.map_congr_left fun ident _ => f.ident?_node ident
  rw [hidents]
  exact (nodup_eraseDups _).map fun _ _ => Option.some.inj

section Graph

variable {g : Graph} (hnodes : g.nodes = f.nodes)

include hnodes

theorem identified_eq_ok_iff {ident : String} {n : Node} : g.identified ident = .ok n ↔ n ∈ g.nodes ∧ n.ident? = some ident := by
  have hfind : g.nodes.find? (·.ident? == some ident) = some n ↔ _ :=
    find?_key_eq_some_iff (hnodes ▸ f.nodup_ident?)
  rw [← hfind]
  cases hfound : g.nodes.find? (·.ident? == some ident) with
  | some m =>
    have hresult : g.identified ident = .ok m := by
      rw [Graph.identified, show g.nodes.find? (·.attrs.lookup identKey == some ident) = some m from hfound]
    rw [hresult, Except.ok.injEq, Option.some.injEq]
  | none =>
    have hresult : g.identified ident = .error (.noNodeIdentified ident) := by
      rw [Graph.identified, show g.nodes.find? (·.attrs.lookup identKey == some ident) = none from hfound]
    simp [hresult]

theorem identified : g.Identified := by
  intro n hn
  obtain ⟨ident, -, rfl⟩ := mem_nodes_iff.1 (hnodes ▸ hn)
  have hfound := (identified_eq_ok_iff hnodes).2 ⟨hn, f.ident?_node ident⟩
  refine ⟨ident, f.ident?_node ident, hfound, fun m hm hident => ?_⟩
  exact Except.ok.inj (((identified_eq_ok_iff hnodes).2 ⟨hm, hident⟩).symm.trans hfound)

theorem node?_number {ident : String} (h : ident ∈ f.idents) : g.node? (f.number ident) = some (f.node ident) := by
  rw [Graph.node?_eq_some_iff, hnodes, mem_nodes_iff]
  exact ⟨⟨ident, h, rfl⟩, rfl⟩

theorem drawn_eq {drafts : List EdgeDraft} (hedges : g.edges = f.edges drafts) :
    g.drawn = ((f.edgeDecls.map EdgeDecl.unplaced).zip drafts).zipIdx.map fun ((d, draft), i) =>
      ((i : Int), some d.src, some d.dst, draft) := by
  rw [Graph.drawn, hedges, edges, List.map_map, List.zip_map_left, List.zipIdx_map, List.map_map]
  refine List.map_congr_left fun entry hmem => ?_
  obtain ⟨⟨d, draft⟩, i⟩ := entry
  have hd : d ∈ f.edgeDecls := (List.of_mem_zip (List.fst_mem_of_mem_zipIdx hmem)).1
  obtain ⟨hsrc, hdst⟩ := f.mem_idents_of_mem_edgeDecls hd
  simp only [Function.comp_apply, EdgeDraft.src_withId, EdgeDraft.dst_withId, EdgeDraft.id_withId, node?_number hnodes hsrc,
    node?_number hnodes hdst, Option.bind_some, ident?_node]
  rfl

end Graph

theorem nodeDraft_name (f : FunctionDecl) (ident : String) :
    (f.nodeDraft ident).name = ((f.nodeDecls.find? (·.ident == ident)).bind NodeDecl.name?).getD ident := by
  rw [nodeDraft]
  cases f.nodeDecls.find? (·.ident == ident) with
  | none => rfl
  | some d => rfl

/-- A node is named by the last quoted name of its declaration. -/
theorem Names.nodeDraft_name {ident s : String} (h : f.Names ident s) (hnodup : (f.nodeDecls.map NodeDecl.ident).Nodup) :
    (f.nodeDraft ident).name = s := by
  obtain ⟨d, hd, hident, hlast⟩ := h
  rw [FunctionDecl.nodeDraft_name, (find?_key_eq_some_iff hnodup).2 ⟨hd, hident⟩, Option.bind_some, NodeDecl.name?_eq, hlast]
  rfl

/-- Without one, it is named by its identifier. -/
theorem nodeDraft_name_of_forall_not {ident : String} (h : ∀ s, ¬ f.Names ident s) : (f.nodeDraft ident).name = ident := by
  rw [nodeDraft_name]
  cases hfind : f.nodeDecls.find? (·.ident == ident) with
  | none => rfl
  | some d =>
    rw [Option.bind_some, NodeDecl.name?_eq]
    cases hlast : d.names.getLast? with
    | none => rfl
    | some s =>
      exact absurd ⟨d, List.mem_of_find?_eq_some hfind, by simpa using List.find?_some hfind, hlast⟩ (h s)

end FunctionDecl

/-! ## Edges -/

section Drafts

variable {text text' : List Char} {e e' : EdgeDecl} {draft draft' : EdgeDraft}

theorem setLabel_of_eq_ok {place place' : Text.Position} {label : String} (h : setLabel place e draft label = .ok draft') :
    setLabel place' e' draft label = .ok draft' := by
  rw [setLabel] at h ⊢
  cases hlabel : draft.label with
  | some l =>
    rw [hlabel] at h
    cases h
  | none =>
    rw [hlabel] at h
    exact h

/-- An option that is accepted does the same at any other place. -/
theorem applyOption_of_eq_ok {o o' : EdgeOption} (ho : o.unplaced = o'.unplaced) (h : applyOption text e draft o = .ok draft') :
    applyOption text' e' draft o' = .ok draft' := by
  obtain ⟨key, value, left⟩ := o
  obtain ⟨key', value', left'⟩ := o'
  obtain ⟨rfl, rfl, -⟩ := EdgeOption.mk.inj ho
  rw [applyOption] at h ⊢
  cases value with
  | none =>
    by_cases hlabel : key = "true" ∨ key = "false"
    · simp only [if_pos hlabel] at h ⊢
      exact setLabel_of_eq_ok h
    · by_cases hback : key = "back"
      · simp only [if_neg hlabel, if_pos hback] at h ⊢
        exact h
      · simp only [if_neg hlabel, if_neg hback] at h
        cases h
  | some value =>
    by_cases hcond : key = "cond"
    · simp only [if_pos hcond] at h ⊢
      exact setLabel_of_eq_ok h
    · simp only [if_neg hcond] at h ⊢
      exact h

theorem foldlM_applyOption_of_eq_ok {os os' : List EdgeOption} (hos : os.map EdgeOption.unplaced = os'.map EdgeOption.unplaced)
    (h : os.foldlM (applyOption text e) draft = .ok draft') : os'.foldlM (applyOption text' e') draft = .ok draft' := by
  induction os generalizing os' draft with
  | nil =>
    obtain rfl : os' = [] := List.map_eq_nil_iff.1 hos.symm
    exact h
  | cons o os ih =>
    obtain ⟨o', os', rfl, ho, hos⟩ := List.map_eq_cons_iff.1 hos.symm
    rw [List.foldlM_cons, bind_eq_ok_iff] at h ⊢
    obtain ⟨next, hnext, hrest⟩ := h
    exact ⟨next, applyOption_of_eq_ok ho.symm hnext, ih hos.symm hrest⟩

theorem EdgeDecl.draft_of_eq_ok (he : e.unplaced = e'.unplaced) (h : e.draft text = .ok draft) : e'.draft text' = .ok draft :=
  foldlM_applyOption_of_eq_ok (EdgeDecl.mk.inj he).2.2 h

theorem mapM_draft_of_eq_ok {es es' : List EdgeDecl} (hes : es.map EdgeDecl.unplaced = es'.map EdgeDecl.unplaced)
    {drafts : List EdgeDraft} (h : es.mapM (EdgeDecl.draft text) = .ok drafts) : es'.mapM (EdgeDecl.draft text') = .ok drafts := by
  induction es generalizing es' drafts with
  | nil =>
    obtain rfl : es' = [] := List.map_eq_nil_iff.1 hes.symm
    exact h
  | cons e es ih =>
    obtain ⟨e', es', rfl, he, hes⟩ := List.map_eq_cons_iff.1 hes.symm
    rw [List.mapM_cons, bind_eq_ok_iff] at h ⊢
    obtain ⟨draft, hdraft, h⟩ := h
    obtain ⟨rest, hrest, h⟩ := bind_eq_ok_iff.1 h
    exact ⟨draft, EdgeDecl.draft_of_eq_ok he.symm hdraft, bind_eq_ok_iff.2 ⟨rest, ih hes.symm hrest, h⟩⟩

end Drafts

/-! ## Graphs -/

namespace FunctionDecl

variable {f : FunctionDecl} {text : List Char}

theorem exists_drafts_of_graph {g : Graph} (h : f.graph text = .ok g) :
    (f.nodeDecls.map NodeDecl.ident).Nodup ∧
      ∃ drafts, f.edgeDecls.mapM (EdgeDecl.draft text) = .ok drafts ∧ g.nodes = f.nodes ∧ g.edges = f.edges drafts := by
  rw [graph] at h
  cases hrepeated : firstRepeat? NodeDecl.ident [] f.nodeDecls with
  | some d =>
    rw [hrepeated] at h
    cases h
  | none =>
    rw [hrepeated] at h
    obtain ⟨drafts, hdrafts, hg⟩ := bind_eq_ok_iff.1 h
    obtain rfl := Except.ok.inj hg
    exact ⟨firstRepeat?_nil_eq_none_iff.1 hrepeated, drafts, hdrafts, rfl, rfl⟩

theorem graph_of_drafts (hnodup : (f.nodeDecls.map NodeDecl.ident).Nodup) {drafts : List EdgeDraft}
    (hdrafts : f.edgeDecls.mapM (EdgeDecl.draft text) = .ok drafts) :
    f.graph text = .ok ⟨f.nodes, f.edges drafts, f.wired drafts⟩ := by
  rw [graph, firstRepeat?_nil_eq_none_iff.2 hnodup, hdrafts]
  rfl

end FunctionDecl

theorem ident_ne_empty {text : List Char} {fs : List FunctionDecl} (hread : read text = .ok fs) {f : FunctionDecl} (hf : f ∈ fs)
    {ident : String} (hident : ident ∈ f.idents) : ident ≠ "" := by
  obtain ⟨st, hst, hmention⟩ := FunctionDecl.mem_idents_iff.1 hident
  rintro rfl
  exact (isIdentifier_of_reads (reads_statement (reads_of_read hread hf) hst) _ hmention).ne_nil rfl

/-- The graph of a function agrees, but for the numbers of its nodes, with that of any rearrangement of its statements that keeps
the order of its edges. A node whose last quoted name is empty is named after its number, so its name may differ. -/
theorem rearrangement_keeps_graph {text text' : List Char} {fs : List FunctionDecl} (hread : read text = .ok fs)
    {f f' : FunctionDecl} (hf : f ∈ fs) (h : f.Rearranges f') {g : Graph} (hg : f.graph text = .ok g) :
    ∃ g', f'.graph text' = .ok g' ∧ g.Identified ∧ g'.Identified ∧
      (∀ ident, (∃ n ∈ g.nodes, n.ident? = some ident) ↔ ∃ m ∈ g'.nodes, m.ident? = some ident) ∧
      (∀ n ∈ g.nodes, ∀ m ∈ g'.nodes, ∀ ident, n.ident? = some ident → m.ident? = some ident →
        m.kind = n.kind ∧ m.isRoot = n.isRoot ∧ m.isExitPoint = n.isExitPoint ∧
        (∀ s, f.Names ident s → s ≠ "" → n.name = s ∧ m.name = s) ∧
        (f.Names ident "" → n.name = s!"n{n.id}" ∧ m.name = s!"n{m.id}") ∧
        ((∀ s, ¬ f.Names ident s) → n.name = ident ∧ m.name = ident)) ∧
      g'.drawn = g.drawn := by
  obtain ⟨hnodup, drafts, hdrafts, hnodes, hedges⟩ := FunctionDecl.exists_drafts_of_graph hg
  have hdrafts' : f'.edgeDecls.mapM (EdgeDecl.draft text') = .ok drafts := mapM_draft_of_eq_ok h.edges hdrafts
  refine ⟨_, FunctionDecl.graph_of_drafts (h.nodup hnodup) hdrafts', FunctionDecl.identified hnodes,
    FunctionDecl.identified (f := f') rfl, ?_, ?_, ?_⟩
  · intro ident
    rw [hnodes, FunctionDecl.exists_ident?_iff]
    show _ ↔ ∃ m ∈ f'.nodes, _
    rw [FunctionDecl.exists_ident?_iff]
    exact ⟨h.mem_idents, h.symm.mem_idents⟩
  · intro n hn m hm ident hident hident'
    obtain ⟨hmem, rfl⟩ := FunctionDecl.eq_node_of_ident? (hnodes ▸ hn) hident
    obtain ⟨-, rfl⟩ := FunctionDecl.eq_node_of_ident? (f := f') hm hident'
    rw [FunctionDecl.node, FunctionDecl.node, h.nodeDraft_eq hnodup]
    refine ⟨rfl, rfl, rfl, fun s hs hne => ?_, fun hs => ?_, fun hnone => ?_⟩
    · have hname := hs.nodeDraft_name hnodup
      rw [withId_of_ne (hname ▸ hne), withId_of_ne (hname ▸ hne)]
      exact ⟨hname, hname⟩
    · have hname := hs.nodeDraft_name hnodup
      exact ⟨if_pos hname, if_pos hname⟩
    · have hname := FunctionDecl.nodeDraft_name_of_forall_not hnone
      have hne : (f.nodeDraft ident).name ≠ "" := hname.symm ▸ ident_ne_empty hread hf hmem
      rw [withId_of_ne hne, withId_of_ne hne]
      exact ⟨hname, hname⟩
  · rw [FunctionDecl.drawn_eq hnodes hedges, FunctionDecl.drawn_eq (f := f') rfl rfl, h.edges]

/-- A function that declares its nodes after their edge, and its rearrangement that declares them before. -/
def declaredLate : String := "function f \x7b a -> b [true] node b \"q\" node a condition \"p\" \x7d"

def declaredEarly : FunctionDecl :=
  ⟨"f", [.node ⟨"a", [.flag .condition, .name "p"], 0⟩, .node ⟨"b", [.name "q"], 0⟩, .edge ⟨"a", "b", [⟨"true", none, 0⟩]⟩], 0⟩

theorem rearrangement_keeps_graph_declaredLate :
    ∃ f g g', read declaredLate.toList = .ok [f] ∧ f.Rearranges declaredEarly ∧ f.graph declaredLate.toList = .ok g ∧
      declaredEarly.graph [] = .ok g' ∧ g'.drawn = g.drawn ∧
      ∀ n ∈ g.nodes, ∀ m ∈ g'.nodes, n.ident? = some "a" → m.ident? = some "a" → n.name = "p" ∧ m.name = "p" := by
  let f : FunctionDecl :=
    ⟨"f", [.edge ⟨"a", "b", [⟨"true", none, 39⟩]⟩, .node ⟨"b", [.name "q"], 33⟩,
      .node ⟨"a", [.flag .condition, .name "p"], 22⟩], 60⟩
  have hread : read declaredLate.toList = .ok [f] := by decide +kernel
  have hrearranges : f.Rearranges declaredEarly := ⟨by decide, rfl⟩
  have hg : f.graph declaredLate.toList = .ok ⟨f.nodes, f.edges [{ label := some "true" }], f.wired _⟩ :=
    FunctionDecl.graph_of_drafts (by decide) rfl
  obtain ⟨g', hg', -, -, -, hnodes, hdrawn⟩ := rearrangement_keeps_graph hread List.mem_cons_self hrearranges hg
  refine ⟨f, _, g', hread, hrearranges, hg, hg', hdrawn, fun n hn m hm hident hident' => ?_⟩
  obtain ⟨-, -, -, hname, -, -⟩ := hnodes n hn m hm "a" hident hident'
  exact hname "p" ⟨⟨"a", [.flag .condition, .name "p"], 22⟩, by decide, rfl, rfl⟩ (by decide)

/-- Two orders of two declarations, one of which gives an empty name. -/
def emptyNameFirst : String := "function f \x7b node a \"\" node b \x7d"

def emptyNameLast : String := "function f \x7b node b node a \"\" \x7d"

/-- The node with the empty name is named after its number, which depends on the order. -/
theorem empty_name_depends_on_order :
    ∃ f f' g g', read emptyNameFirst.toList = .ok [f] ∧ read emptyNameLast.toList = .ok [f'] ∧ f.Rearranges f' ∧
      f.graph emptyNameFirst.toList = .ok g ∧ f'.graph emptyNameLast.toList = .ok g' ∧ f.Names "a" "" ∧
      (∃ n ∈ g.nodes, n.ident? = some "a" ∧ n.name = "n0") ∧ ∃ m ∈ g'.nodes, m.ident? = some "a" ∧ m.name = "n1" := by
  let f : FunctionDecl := ⟨"f", [.node ⟨"a", [.name ""], 18⟩, .node ⟨"b", [], 8⟩], 31⟩
  let f' : FunctionDecl := ⟨"f", [.node ⟨"b", [], 18⟩, .node ⟨"a", [.name ""], 11⟩], 31⟩
  have hread : read emptyNameFirst.toList = .ok [f] := by decide +kernel
  have hread' : read emptyNameLast.toList = .ok [f'] := by decide +kernel
  have hg : f.graph emptyNameFirst.toList = .ok ⟨f.nodes, f.edges [], f.wired []⟩ :=
    FunctionDecl.graph_of_drafts (by decide) rfl
  have hg' : f'.graph emptyNameLast.toList = .ok ⟨f'.nodes, f'.edges [], f'.wired []⟩ :=
    FunctionDecl.graph_of_drafts (by decide) rfl
  exact ⟨f, f', _, _, hread, hread', ⟨by decide, rfl⟩, hg, hg', ⟨_, List.mem_cons_self, rfl, rfl⟩,
    ⟨f.node "a", by decide, by decide, by decide⟩, f'.node "a", by decide, by decide, by decide⟩

end Description

end Flowgraph
