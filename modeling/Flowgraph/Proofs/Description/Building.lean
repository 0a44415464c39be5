import Flowgraph.Graph.Arena
import Flowgraph.Proofs.Description.RoundTrip
import Flowgraph.Proofs.Table
/-!
# Graphs of descriptions, statement by statement

The graph of a function can be built in an arena while its statements are gone through: a node is added when its identifier is first
mentioned, an edge when its statement is reached, and the nodes of the identifiers so far are looked up (`FunctionDecl.build`).
Declarations are collected before that, so a node has its flags even if it is mentioned before it is declared.

At each statement the arena holds the nodes and edges of the statements before it under the numbers that they have in the graph of
the function (`FunctionDecl.Built`). So what is built is this graph, and it is refused for the same fault
(`FunctionDecl.build_eq`).
-/

namespace Flowgraph.Description

/-! ## Building -/

abbrev Declared := List (String × NodeDecl)

def Declared.ofList (decls : List NodeDecl) : Declared := decls.map fun d => (d.ident, d)

theorem Declared.keys_ofList (decls : List NodeDecl) : (ofList decls).map Prod.fst = decls.map NodeDecl.ident := by
  simp [ofList, Function.comp_def]

theorem Declared.ofList_concat (decls : List NodeDecl) (d : NodeDecl) :
    ofList (decls ++ [d]) = ofList decls ++ [(d.ident, d)] := List.map_append

/-- What a declaration, if there is one, makes of an identifier. -/
def Declared.draft (declared : Declared) (ident : String) : NodeDraft :=
  let decl := declared.lookup ident
  { kind := if decl.any (·.has .condition) then .condition else .regular
    name := (decl.bind NodeDecl.name?).getD ident
    isRoot := decl.any (·.has .root)
    isExitPoint := decl.any (·.has .exit)
    attrs := [(identKey, ident)] }

/-- An arena, and the nodes in it by identifier. -/
structure Building where
  arena : Arena
  nodes : List (String × Node)

namespace Building

variable (declared : Declared)

/-- The node of an identifier, which is added if there is none. -/
def ensure (b : Building) (ident : String) : Node × Building :=
  match b.nodes.lookup ident with
  | some n => (n, b)
  | none =>
    let (n, arena) := b.arena.addNode (declared.draft ident)
    (n, ⟨arena, b.nodes ++ [(ident, n)]⟩)

/-- Adds what a statement is about. -/
def take (text : List Char) (b : Building) : Statement → Except Flowgraph.Fault Building
  | .node d => .ok (b.ensure declared d.ident).2
  | .edge d => do
    let (src, b) := b.ensure declared d.src
    let (dst, b) := b.ensure declared d.dst
    let draft ← raised (d.draft text)
    let (_, arena) ← b.arena.addEdge src.id dst.id draft
    return ⟨arena, b.nodes⟩

end Building

namespace FunctionDecl

variable (f : FunctionDecl) (text : List Char)

/-- Collects a declaration, unless there is one of its identifier. -/
def declare (declared : Declared) : Statement → Except Flowgraph.Fault Declared
  | .node d =>
    if d.ident ∈ declared.map Prod.fst then
      .error (.description (.declaredTwice (placeOf text d.left) d.ident f.name))
    else .ok (declared ++ [(d.ident, d)])
  | .edge _ => .ok declared

def build : Except Flowgraph.Fault Graph := do
  let declared ← f.statements.foldlM (f.declare text) []
  let b ← f.statements.foldlM (Building.take declared text) ⟨.empty, []⟩
  return b.arena.toGraph

/-! ## Declarations -/

theorem declare_run (sts : List Statement) (before : List NodeDecl) :
    sts.foldlM (f.declare text) (.ofList before) =
      match firstRepeat? NodeDecl.ident (before.map NodeDecl.ident).reverse (sts.filterMap Statement.nodeDecl?) with
      | some d => .error (.description (.declaredTwice (placeOf text d.left) d.ident f.name))
      | none => .ok (.ofList (before ++ sts.filterMap Statement.nodeDecl?)) := by
  induction sts generalizing before with
  | nil => simp [firstRepeat?, pure, Except.pure]
  | cons st sts ih =>
    rw [List.foldlM_cons]
    cases st with
    | edge e => exact ih before
    | node d =>
      have hdecls : (Statement.node d :: sts).filterMap Statement.nodeDecl? = d :: sts.filterMap Statement.nodeDecl? := rfl
      rw [hdecls, firstRepeat?]
      by_cases hd : d.ident ∈ before.map NodeDecl.ident
      · rw [if_pos (List.mem_reverse.2 hd), declare, if_pos (by rwa [Declared.keys_ofList])]
        rfl
      · have hrest := ih (before ++ [d])
        rw [List.map_append, List.reverse_append, List.append_assoc, Declared.ofList_concat] at hrest
        rw [if_neg (mt List.mem_reverse.1 hd), declare, if_neg (by rwa [Declared.keys_ofList])]
        exact hrest

theorem draft_declared (ident : String) :
    (Declared.ofList f.nodeDecls).draft ident = f.nodeDraft ident := by
  have hlookup : (Declared.ofList f.nodeDecls).lookup ident = f.nodeDecls.find? (·.ident == ident) := by
    rw [Declared.ofList]
    induction f.nodeDecls with
    | nil => rfl
    | cons d ds ih => rw [List.map_cons, List.lookup_cons, List.find?_cons, ih, BEq.comm]
  rw [Declared.draft, hlookup, nodeDraft]
  cases f.nodeDecls.find? (·.ident == ident) with
  | none => rfl
  | some d => rfl

/-! ## Mentions -/

variable {f} {mentioned : List String} {ident : String} {drawn : List (EdgeDecl × EdgeDraft)} {b : Building}

theorem eraseDups_concat_of_mem (h : ident ∈ mentioned) : (mentioned ++ [ident]).eraseDups = mentioned.eraseDups := by
  rw [List.eraseDups_append]
  simp [List.removeAll, h]

theorem eraseDups_concat_of_not_mem (h : ident ∉ mentioned) :
    (mentioned ++ [ident]).eraseDups = mentioned.eraseDups ++ [ident] := by
  rw [List.eraseDups_append]
  simp [List.removeAll, h, List.eraseDups_cons]

/-- An identifier that is mentioned for the first time has the number of those before it. -/
theorem number_of_first (h : mentioned ++ [ident] <+: f.statements.flatMap Statement.mentions) (hnew : ident ∉ mentioned) :
    f.number ident = mentioned.eraseDups.length := by
  obtain ⟨rest, hall⟩ := h
  rw [number, idents, ← hall, List.eraseDups_append, eraseDups_concat_of_not_mem hnew, List.append_assoc,
    List.idxOf_append_of_notMem (mt List.mem_eraseDups.1 hnew), List.singleton_append, List.idxOf_cons_self, Nat.add_zero]

/-! ## What is built -/

/-- A building has the nodes of some identifiers and some edges. -/
structure Built (f : FunctionDecl) (idents : List String) (drawn : List (EdgeDecl × EdgeDraft)) (b : Building) : Prop where
  nodes : b.nodes = idents.map fun ident => (ident, f.node ident)
  arena_nodes : b.arena.nodes = idents.map f.node
  nextNode : b.arena.nextNode = idents.length
  arena_edges : b.arena.edges = drawn.zipIdx.map fun ((d, draft), i) => draft.withId i (f.number d.src) (f.number d.dst)
  nextEdge : b.arena.nextEdge = drawn.length

theorem built_empty (f : FunctionDecl) : f.Built ([] : List String).eraseDups [] ⟨.empty, []⟩ := ⟨rfl, rfl, rfl, rfl, rfl⟩

/-- A node that is added gets its number in the graph of the function. -/
theorem Built.addNode {idents : List String} (h : f.Built idents drawn b) (hnumber : f.number ident = idents.length) :
    (b.arena.addNode (f.nodeDraft ident)).1 = f.node ident ∧
    f.Built (idents ++ [ident]) drawn ⟨(b.arena.addNode (f.nodeDraft ident)).2, b.nodes ++ [(ident, f.node ident)]⟩ := by
  have hnode : (b.arena.addNode (f.nodeDraft ident)).1 = f.node ident := by
    show (f.nodeDraft ident).withId b.arena.nextNode = _
    rw [h.nextNode, node, hnumber]
  refine ⟨hnode, ?_, ?_, ?_, h.arena_edges, h.nextEdge⟩
  · rw [List.map_append, ← h.nodes]
    rfl
  · show b.arena.nodes ++ [(b.arena.addNode (f.nodeDraft ident)).1] = _
    rw [hnode, h.arena_nodes, List.map_append]
    rfl
  · show b.arena.nextNode + 1 = _
    rw [h.nextNode, List.length_append]
    rfl

/-- A node that is ensured is that of its identifier. -/
theorem Built.ensure {declared : Declared} (hdeclared : declared.draft ident = f.nodeDraft ident)
    (h : f.Built mentioned.eraseDups drawn b)
    (hnext : mentioned ++ [ident] <+: f.statements.flatMap Statement.mentions) :
    ∃ b', b.ensure declared ident = (f.node ident, b') ∧ f.Built (mentioned ++ [ident]).eraseDups drawn b' := by
  by_cases hold : ident ∈ mentioned
  · have hlookup : b.nodes.lookup ident = some (f.node ident) := by
      rw [h.nodes]
      exact lookup_map_pair f.node _ (List.mem_eraseDups.2 hold)
    refine ⟨b, by rw [Building.ensure, hlookup], ?_⟩
    rwa [eraseDups_concat_of_mem hold]
  · have hlookup : b.nodes.lookup ident = none := by
      rw [h.nodes, List.lookup_eq_none_iff]
      simp only [List.mem_map, List.mem_eraseDups]
      rintro _ ⟨other, hother, rfl⟩
      simpa using fun heq : ident = other => hold (heq ▸ hother)
    obtain ⟨hnode, hbuilt⟩ := h.addNode (number_of_first hnext hold)
    refine ⟨_, by rw [Building.ensure, hlookup, hdeclared, ← hnode], ?_⟩
    rwa [eraseDups_concat_of_not_mem hold, hnode]

theorem Built.addEdge {idents : List String} (h : f.Built idents drawn b) {d : EdgeDecl} (draft : EdgeDraft)
    (hsrc : d.src ∈ idents) (hdst : d.dst ∈ idents) :
    ∃ e arena, b.arena.addEdge (f.number d.src) (f.number d.dst) draft = .ok (e, arena) ∧
      f.Built idents (drawn ++ [(d, draft)]) ⟨arena, b.nodes⟩ := by
  have hmem : ∀ ident ∈ idents, (f.number ident : Int) ∈ b.arena.nodeIds := by
    intro ident hident
    rw [Graph.nodeIds, h.arena_nodes, List.map_map]
    exact List.mem_map_of_mem hident
  rw [Arena.addEdge, dif_pos ⟨hmem _ hsrc, hmem _ hdst⟩]
  refine ⟨_, _, rfl, h.nodes, h.arena_nodes, h.nextNode, ?_, ?_⟩
  · show b.arena.edges ++ [_] = _
    rw [h.arena_edges, h.nextEdge, List.zipIdx_append, List.map_append]
    simp
  · show b.arena.nextEdge + 1 = _
    rw [h.nextEdge, List.length_append]
    rfl

/-! ## Statement by statement -/

variable {declared : Declared} (hdeclared : ∀ ident, declared.draft ident = f.nodeDraft ident)

include hdeclared

theorem take_edge {d : EdgeDecl} (h : f.Built mentioned.eraseDups drawn b)
    (hnext : mentioned ++ [d.src, d.dst] <+: f.statements.flatMap Statement.mentions) :
    match d.draft text with
    | .error fault => b.take declared text (.edge d) = .error (.description fault)
    | .ok draft => ∃ b', b.take declared text (.edge d) = .ok b' ∧
        f.Built (mentioned ++ [d.src, d.dst]).eraseDups (drawn ++ [(d, draft)]) b' := by
  have hends : mentioned ++ [d.src, d.dst] = mentioned ++ [d.src] ++ [d.dst] := by simp
  rw [hends] at hnext ⊢
  obtain ⟨b₁, hsrc, h₁⟩ := h.ensure (hdeclared d.src) ((List.prefix_append _ _).trans hnext)
  obtain ⟨b₂, hdst, h₂⟩ := h₁.ensure (hdeclared d.dst) hnext
  simp only [Building.take, hsrc, hdst]
  cases d.draft text with
  | error fault => rfl
  | ok draft =>
    obtain ⟨e, arena, hadded, hbuilt⟩ := h₂.addEdge (d := d) draft (List.mem_eraseDups.2 (by simp))
      (List.mem_eraseDups.2 (by simp))
    refine ⟨_, ?_, hbuilt⟩
    show (b₂.arena.addEdge (f.number d.src) (f.number d.dst) draft >>= _) = _
    rw [hadded]
    rfl

/-- Going through statements is refused for the first option at fault, and otherwise gives the building of them all. -/
theorem take_run (sts : List Statement) (h : f.Built mentioned.eraseDups drawn b)
    (hall : mentioned ++ sts.flatMap Statement.mentions = f.statements.flatMap Statement.mentions) :
    match (sts.filterMap Statement.edgeDecl?).mapM (EdgeDecl.draft text) with
    | .error fault => sts.foldlM (Building.take declared text) b = .error (.description fault)
    | .ok drafts => ∃ b', sts.foldlM (Building.take declared text) b = .ok b' ∧
        f.Built f.idents (drawn ++ (sts.filterMap Statement.edgeDecl?).zip drafts) b' := by
  induction sts generalizing mentioned drawn b with
  | nil =>
    rw [List.flatMap_nil, List.append_nil] at hall
    refine ⟨b, rfl, ?_⟩
    rw [idents, ← hall]
    simpa using h
  | cons st sts ih =>
    rw [List.flatMap_cons, ← List.append_assoc] at hall
    have hnext : mentioned ++ st.mentions <+: f.statements.flatMap Statement.mentions := hall ▸ List.prefix_append _ _
    rw [List.foldlM_cons]
    cases st with
    | node d =>
      obtain ⟨b', hensure, hbuilt⟩ := h.ensure (hdeclared d.ident) hnext
      have htake : b.take declared text (.node d) = .ok b' := by rw [Building.take, hensure]
      rw [htake]
      exact ih hbuilt hall
    | edge d =>
      have hedges : (Statement.edge d :: sts).filterMap Statement.edgeDecl? = d :: sts.filterMap Statement.edgeDecl? := rfl
      have htake := take_edge text hdeclared h hnext
      rw [hedges, List.mapM_cons]
      cases hdraft : d.draft text with
      | error fault =>
        rw [hdraft] at htake
        rw [htake]
        rfl
      | ok draft =>
        rw [hdraft] at htake
        obtain ⟨b', htake, hbuilt⟩ := htake
        have hrest := ih hbuilt hall
        rw [htake]
        cases hdrafts : (sts.filterMap Statement.edgeDecl?).mapM (EdgeDecl.draft text) with
        | error fault =>
          rw [hdrafts] at hrest
          exact hrest
        | ok drafts =>
          rw [hdrafts] at hrest
          obtain ⟨b'', hrun, hbuilt⟩ := hrest
          refine ⟨b'', hrun, ?_⟩
          rwa [List.append_assoc] at hbuilt

omit hdeclared

/-- What is built statement by statement is the graph of the function, and it is refused for the same fault. -/
theorem build_eq (f : FunctionDecl) (text : List Char) : f.build text = raised (f.graph text) := by
  have hdeclare : f.statements.foldlM (f.declare text) [] =
      match firstRepeat? NodeDecl.ident [] f.nodeDecls with
      | some d => .error (.description (.declaredTwice (placeOf text d.left) d.ident f.name))
      | none => .ok (.ofList f.nodeDecls) := f.declare_run text f.statements []
  have hrun := take_run text f.draft_declared f.statements f.built_empty rfl
  rw [build, graph, hdeclare]
  cases firstRepeat? NodeDecl.ident [] f.nodeDecls with
  | some d => rfl
  | none =>
    show (f.statements.foldlM (Building.take _ text) ⟨.empty, []⟩ >>= _) = raised (f.edgeDecls.mapM (EdgeDecl.draft text) >>= _)
    cases hdrafts : f.edgeDecls.mapM (EdgeDecl.draft text) with
    | error fault =>
      rw [← edgeDecls, hdrafts] at hrun
      rw [hrun]
      rfl
    | ok drafts =>
      rw [← edgeDecls, hdrafts] at hrun
      obtain ⟨b, hrun, hbuilt⟩ := hrun
      rw [hrun]
      exact congrArg Except.ok (Graph.ext hbuilt.arena_nodes hbuilt.arena_edges)

end FunctionDecl

end Flowgraph.Description
