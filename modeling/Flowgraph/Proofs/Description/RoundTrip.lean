import Flowgraph.Description.Assembly
import Flowgraph.Proofs.Description.Reading
import Flowgraph.Proofs.Run
/-!
# Parsing undoes writing

The graph that a written block describes can be told from the block: one node for each identifier in the order of first mention,
with what its declaration says, and one edge for each edge line (`Block.nodes`, `Block.edges`). Parsing the text of some
blocks gives these graphs under the names of the blocks, in order (`parsing_undoes_writing`).
-/

namespace Flowgraph.Description

/-! ## The graph of a block -/

def Line.mentions : Line → List String
  | .node l => [l.ident]
  | .edge l => [l.src, l.dst]

namespace Block

variable (b : Block)

/-- The edges that a function draws. -/
def edgeLines : List EdgeLine :=
  b.lines.filterMap fun
    | .node _ => none
    | .edge l => some l

def idents : List String := (b.lines.flatMap Line.mentions).eraseDups

/-- The declaration of an identifier. One that is only mentioned is as if it were declared without a name and without flags. -/
def declared (ident : String) : NodeLine := (b.nodeLines.find? (·.ident == ident)).getD { ident := ident }

def node (ident : String) (id : Nat) : Node where
  id := id
  kind := if .condition ∈ (b.declared ident).flags then .condition else .regular
  name := (b.declared ident).name.getD ident
  isRoot := decide (.root ∈ (b.declared ident).flags)
  isExitPoint := decide (.exit ∈ (b.declared ident).flags)
  attrs := [("ident", ident)]

/-- The nodes of a function, numbered from zero. -/
def nodes : List Node := b.idents.zipIdx.map fun (ident, i) => b.node ident i

/-- The edges of a function, numbered from zero. -/
def edges : List Edge :=
  b.edgeLines.zipIdx.map fun (l, i) =>
    { id := i, src := b.idents.idxOf l.src, dst := b.idents.idxOf l.dst, label := l.label, back := l.back, attrs := l.attrs }

end Block

/-! ## What is read of a block -/

section Matches

variable {lines : List Line} {sts : List Statement}

theorem mentions_eq (h : List.Forall₂ Line.Matches lines sts) :
    sts.flatMap Statement.mentions = lines.flatMap Line.mentions := by
  induction h with
  | nil => rfl
  | @cons l st lines sts hl _ ih =>
    rw [List.flatMap_cons, List.flatMap_cons, ih]
    cases hl with
    | node h => rw [Statement.mentions, Line.mentions, h.ident]
    | edge h => rw [Statement.mentions, Line.mentions, h.src, h.dst]

variable {b : Block} {f : FunctionDecl}

theorem Block.Matches.idents_eq (h : b.Matches f) : f.idents = b.idents := by
  rw [FunctionDecl.idents, idents, mentions_eq h.lines]

theorem Block.Matches.nodeDecls (h : b.Matches f) : List.Forall₂ NodeLine.Matches b.nodeLines f.nodeDecls := by
  refine List.rel_filterMap (fun l st hl => ?_) h.lines
  cases hl with
  | node h => exact .some h
  | edge h => exact .none

theorem Block.Matches.edgeDecls (h : b.Matches f) : List.Forall₂ EdgeLine.Matches b.edgeLines f.edgeDecls := by
  refine List.rel_filterMap (fun l st hl => ?_) h.lines
  cases hl with
  | node h => exact .none
  | edge h => exact .some h

end Matches

/-! ## Nodes -/

section Nodes

theorem NodeLine.Matches.has_eq {l : NodeLine} {d : NodeDecl} (h : l.Matches d) (flag : Flag) :
    d.has flag = decide (flag ∈ l.flags) := by
  rw [NodeDecl.has, h.options, Bool.eq_iff_iff, List.contains_iff_mem, decide_eq_true_eq, NodeLine.options]
  cases l.name with
  | none => simp
  | some s => simp

theorem name?_flags (ident : String) (flags : List Flag) (options : List NodeOption) (left : Nat) :
    NodeDecl.name? ⟨ident, flags.map .flag ++ options, left⟩ = NodeDecl.name? ⟨ident, options, left⟩ := by
  induction flags with
  | nil => rfl
  | cons flag flags ih => exact ih

theorem NodeLine.Matches.name?_eq {l : NodeLine} {d : NodeDecl} (h : l.Matches d) : d.name? = l.name := by
  obtain ⟨ident, options, left⟩ := d
  obtain rfl : options = l.options := h.options
  rw [NodeLine.options, name?_flags]
  cases l.name with
  | none => rfl
  | some s => rfl

variable {b : Block} {f : FunctionDecl}

theorem find?_matches {lines : List NodeLine} {ds : List NodeDecl} (h : List.Forall₂ NodeLine.Matches lines ds) (ident : String) :
    Option.Rel NodeLine.Matches (lines.find? (·.ident == ident)) (ds.find? (·.ident == ident)) := by
  induction h with
  | nil => exact .none
  | @cons l d lines ds hl _ ih =>
    rw [List.find?_cons, List.find?_cons, hl.ident]
    split
    · exact .some hl
    · exact ih

theorem Block.Writable.name_ne {l : NodeLine} (h : b.Writable) (hl : l ∈ b.nodeLines) : l.name ≠ some "" := by
  obtain ⟨line, hline, heq⟩ := List.mem_filterMap.1 hl
  cases line with
  | node l' =>
    cases heq
    exact (h.lines _ hline).2
  | edge l' => cases heq

theorem withId_of_ne {draft : NodeDraft} (h : draft.name ≠ "") (id : Int) :
    draft.withId id = ⟨id, draft.kind, draft.name, draft.isRoot, draft.isExitPoint, draft.attrs⟩ := by
  rw [NodeDraft.withId, if_neg h]

theorem Block.Matches.nodeDraft_eq (h : b.Matches f) (hb : b.Writable) {ident : String} (hident : ident ≠ "") (id : Nat) :
    (f.nodeDraft ident).withId id = b.node ident id := by
  have hfind := find?_matches h.nodeDecls ident
  unfold FunctionDecl.nodeDraft node declared
  cases hline : b.nodeLines.find? (·.ident == ident) with
  | none =>
    rw [hline] at hfind
    cases hdecl : f.nodeDecls.find? (·.ident == ident) with
    | none => exact withId_of_ne hident id
    | some d =>
      rw [hdecl] at hfind
      cases hfind
  | some l =>
    rw [hline] at hfind
    cases hdecl : f.nodeDecls.find? (·.ident == ident) with
    | none =>
      rw [hdecl] at hfind
      cases hfind
    | some d =>
      rw [hdecl] at hfind
      obtain ⟨hl⟩ := hfind
      have hname : l.name.getD ident ≠ "" := by
        have hempty := hb.name_ne (List.mem_of_find?_eq_some hline)
        cases hs : l.name with
        | none => exact hident
        | some s => exact fun heq => hempty (by rw [hs]; exact congrArg some heq)
      simp only [hl.has_eq, hl.name?_eq, decide_eq_true_eq]
      exact withId_of_ne hname id

theorem map_idxOf {α β : Type} [BEq α] [LawfulBEq α] {l : List α} (h : l.Nodup) (g : α → Nat → β) :
    l.map (fun a => g a (l.idxOf a)) = l.zipIdx.map fun (a, i) => g a i := by
  refine List.ext_getElem (by simp) fun i hi hi' => ?_
  rw [List.getElem_map, List.getElem_map, List.getElem_zipIdx, h.idxOf_getElem, Nat.zero_add]

theorem Block.Writable.ident_ne (h : b.Writable) {ident : String} (hident : ident ∈ b.idents) : ident ≠ "" := by
  have hword : IsIdentifier ident := by
    obtain ⟨line, hline, hmention⟩ := List.mem_flatMap.1 (List.mem_eraseDups.1 hident)
    have hwritable := h.lines line hline
    cases line with
    | node l =>
      obtain rfl := List.mem_singleton.1 hmention
      exact hwritable.1
    | edge l =>
      rcases List.mem_cons.1 hmention with rfl | hmention
      · exact hwritable.src
      · obtain rfl := List.mem_singleton.1 hmention
        exact hwritable.dst
  rintro rfl
  exact hword.ne_nil rfl

theorem Block.Matches.nodes_eq (h : b.Matches f) (hb : b.Writable) : f.nodes = b.nodes := by
  have hdrafts : f.nodes = b.idents.map fun ident => b.node ident (b.idents.idxOf ident) := by
    rw [FunctionDecl.nodes, h.idents_eq]
    refine List.map_congr_left fun ident hident => ?_
    rw [FunctionDecl.node, FunctionDecl.number, h.idents_eq]
    exact h.nodeDraft_eq hb (hb.ident_ne hident) _
  rw [hdrafts, Block.nodes]
  exact map_idxOf (nodup_eraseDups _) b.node

end Nodes

/-! ## Edges -/

def EdgeLine.draft (l : EdgeLine) : EdgeDraft := { label := l.label, back := l.back, attrs := l.attrs }

section Edges

variable {text : List Char} {edge : EdgeDecl} {os : List EdgeOption} {draft : EdgeDraft}

/-- Attributes that an edge does not have yet are added to it. -/
theorem foldlM_attrs {attrs : Attrs} (hos : os.map EdgeOption.entry = attrs.map fun entry => (entry.1, some entry.2))
    (hkeys : ∀ entry ∈ attrs, entry.1 ≠ "cond") (hdistinct : ((draft.attrs ++ attrs).map Prod.fst).Nodup) :
    os.foldlM (applyOption text edge) draft = .ok { draft with attrs := draft.attrs ++ attrs } := by
  induction attrs generalizing os draft with
  | nil =>
    obtain rfl := List.map_eq_nil_iff.1 hos
    rw [List.append_nil]
    rfl
  | cons entry attrs ih =>
    obtain ⟨o, os, rfl, ho, hos⟩ := List.map_eq_cons_iff.1 hos
    have hput : draft.attrs.put entry.1 entry.2 = draft.attrs ++ [entry] := by
      rw [Attrs.put, if_neg]
      intro hany
      obtain ⟨p, hp, hkey⟩ := List.any_eq_true.1 hany
      rw [List.map_append, List.nodup_append] at hdistinct
      exact hdistinct.2.2 _ (List.mem_map_of_mem hp) _ (List.mem_map_of_mem (List.mem_cons_self)) (beq_iff_eq.1 hkey)
    have hstep : applyOption text edge draft o = .ok { draft with attrs := draft.attrs ++ [entry] } := by
      obtain ⟨hkey, hvalue⟩ := Prod.mk.inj ho
      unfold applyOption
      rw [hvalue, hkey]
      simp only
      rw [if_neg (hkeys entry (by simp)), hput]
    rw [List.foldlM_cons, hstep]
    show os.foldlM (applyOption text edge) { draft with attrs := draft.attrs ++ [entry] } = _
    rw [ih hos (fun e he => hkeys e (by simp [he])) (by simpa using hdistinct)]
    simp

theorem foldlM_label {label : Option String} (hos : os.map EdgeOption.entry = (label.map fun s => ("cond", some s)).toList)
    (hdraft : draft.label = none) : os.foldlM (applyOption text edge) draft = .ok { draft with label := label } := by
  cases label with
  | none =>
    obtain rfl := List.map_eq_nil_iff.1 hos
    rw [← hdraft]
    rfl
  | some s =>
    obtain ⟨o, rfl, ho⟩ := List.map_eq_singleton_iff.1 hos
    obtain ⟨hkey, hvalue⟩ := Prod.mk.inj ho
    have hstep : applyOption text edge draft o = .ok { draft with label := some s } := by
      simp only [applyOption, setLabel, hkey, hvalue, hdraft, if_true]
    rw [List.foldlM_cons, hstep]
    rfl

theorem foldlM_back {back : Bool} (hos : os.map EdgeOption.entry = if back then [("back", none)] else [])
    (hdraft : draft.back = false) : os.foldlM (applyOption text edge) draft = .ok { draft with back := back } := by
  cases back with
  | false =>
    obtain rfl := List.map_eq_nil_iff.1 hos
    rw [← hdraft]
    rfl
  | true =>
    obtain ⟨o, rfl, ho⟩ := List.map_eq_singleton_iff.1 hos
    obtain ⟨hkey, hvalue⟩ := Prod.mk.inj ho
    have hstep : applyOption text edge draft o = .ok { draft with back := true } := by
      simp only [applyOption, hkey, hvalue, if_true]
      rw [if_neg (by decide)]
    rw [List.foldlM_cons, hstep]
    rfl

theorem EdgeLine.Matches.draft_eq {l : EdgeLine} {d : EdgeDecl} (h : l.Matches d) (hl : l.Writable) (text : List Char) :
    d.draft text = .ok l.draft := by
  obtain ⟨os, os₃, hsplit, hos, hos₃⟩ := List.map_eq_append_iff.1 h.options
  obtain ⟨os₁, os₂, rfl, hos₁, hos₂⟩ := List.map_eq_append_iff.1 hos
  have hattrs : os₃.foldlM (applyOption text d) { label := l.label, back := l.back } = .ok l.draft :=
    foldlM_attrs hos₃ (fun entry hentry => (hl.keys entry hentry).2) hl.distinct
  rw [EdgeDecl.draft, hsplit, List.foldlM_append, List.foldlM_append, foldlM_label hos₁ rfl]
  show os₂.foldlM (applyOption text d) { label := l.label } >>= _ = _
  rw [foldlM_back hos₂ rfl]
  exact hattrs

variable {b : Block} {f : FunctionDecl}

theorem Block.Writable.edgeLine {l : EdgeLine} (h : b.Writable) (hl : l ∈ b.edgeLines) : l.Writable := by
  obtain ⟨line, hline, heq⟩ := List.mem_filterMap.1 hl
  cases line with
  | node l' => cases heq
  | edge l' =>
    cases heq
    exact h.lines _ hline

theorem Block.Matches.drafts_eq (h : b.Matches f) (hb : b.Writable) (text : List Char) :
    f.edgeDecls.mapM (EdgeDecl.draft text) = .ok (b.edgeLines.map EdgeLine.draft) := by
  obtain ⟨drafts, hdrafts, hall⟩ := exists_mapM_of_forall₂ (P := fun l draft => l.draft = draft) h.edgeDecls
    fun l hl d hd => ⟨l.draft, hd.draft_eq (hb.edgeLine hl) text, rfl⟩
  have heq : b.edgeLines.map EdgeLine.draft = drafts := by
    rw [← List.forall₂_eq_eq_eq, List.forall₂_map_left_iff]
    exact hall
  rw [hdrafts, heq]

theorem Block.Matches.edges_eq (h : b.Matches f) : f.edges (b.edgeLines.map EdgeLine.draft) = b.edges := by
  have hlength := h.edgeDecls.length_eq
  refine List.ext_getElem (by simp [FunctionDecl.edges, Block.edges, hlength]) fun i hi hi' => ?_
  have hi'' : i < b.edgeLines.length := by simpa [Block.edges] using hi'
  have hmatch := h.edgeDecls.get hi'' (hlength ▸ hi'')
  rw [List.get_eq_getElem, List.get_eq_getElem] at hmatch
  simp only [FunctionDecl.edges, Block.edges, List.getElem_map, List.getElem_zipIdx, List.getElem_zip, FunctionDecl.number,
    h.idents_eq, Nat.zero_add, hmatch.src, hmatch.dst]
  rfl

end Edges

/-! ## Texts -/

theorem map_eq_of_forall₂ {α β γ : Type} {R : α → β → Prop} {f : α → γ} {g : β → γ} {l : List α} {l' : List β}
    (h : List.Forall₂ R l l') (hR : ∀ a b, R a b → g b = f a) : l'.map g = l.map f := by
  induction h with
  | nil => rfl
  | cons hab _ ih => rw [List.map_cons, List.map_cons, hR _ _ hab, ih]

theorem Block.Matches.graph_eq {b : Block} {f : FunctionDecl} (h : b.Matches f) (hb : b.Writable) (text : List Char) :
    ∃ g : Graph, f.graph text = .ok g ∧ g.nodes = b.nodes ∧ g.edges = b.edges := by
  have hdistinct : firstRepeat? NodeDecl.ident [] f.nodeDecls = none := by
    rw [firstRepeat?_nil_eq_none_iff, map_eq_of_forall₂ h.nodeDecls fun _ _ hl => hl.ident]
    exact hb.distinct
  refine ⟨⟨f.nodes, f.edges _, f.wired (b.edgeLines.map EdgeLine.draft)⟩, ?_, h.nodes_eq hb, h.edges_eq⟩
  rw [FunctionDecl.graph, hdistinct, h.drafts_eq hb]
  rfl

/-- A fault of a description as a fault. -/
def raised {α : Type} (result : Except Fault α) : Except Flowgraph.Fault α := result.mapError .description

theorem gives_orFail {α : Type} (result : Except Fault α) : Gives (orFail result) (raised result) := by
  cases result with
  | ok a => exact Gives.pure a
  | error fault => exact Gives.throw _

theorem gives_buildFunction (text : List Char) (f : FunctionDecl) :
    Gives (buildFunction text f) (do let g ← raised (f.graph text); return (f.name, g)) :=
  (gives_orFail _).bind fun _ => (Task.gives_log _ _ _).then_ok (.pure _)

/-- Functions with distinct names are read back from their text, in order, each as the graph of its statements. -/
theorem parsing_undoes_writing {blocks : List Block} (hblocks : ∀ b ∈ blocks, b.Writable)
    (hnames : (blocks.map Block.name).Nodup) :
    ∃ graphs, (∀ log, ((parse (write blocks)).run log).1 = .ok graphs) ∧
      List.Forall₂ (fun b (p : String × Graph) => p.1 = b.name ∧ p.2.nodes = b.nodes ∧ p.2.edges = b.edges) blocks graphs := by
  obtain ⟨fs, hfs, hread⟩ := read_write hblocks
  let text := (write blocks).toList
  have hgraphs := exists_mapM_of_forall₂ (f := fun f => do let g ← raised (f.graph text); return (f.name, g))
    (P := fun b (p : String × Graph) => p.1 = b.name ∧ p.2.nodes = b.nodes ∧ p.2.edges = b.edges) hfs
    fun b hb f hf => by
      obtain ⟨g, hg, hnodes, hedges⟩ := hf.graph_eq (hblocks b hb) text
      exact ⟨(f.name, g), by rw [hg]; rfl, hf.name, hnodes, hedges⟩
  obtain ⟨graphs, hmapM, hall⟩ := hgraphs
  have hdistinct : firstRepeat? FunctionDecl.name [] fs = none := by
    rw [firstRepeat?_nil_eq_none_iff, map_eq_of_forall₂ hfs fun _ _ hf => hf.name]
    exact hnames
  have hbuild := Gives.mapM (gives_buildFunction text) fs
  rw [hmapM] at hbuild
  refine ⟨graphs, ?_, hall⟩
  have hparse : Gives (parse (write blocks)) (.ok graphs) := by
    unfold parse parseChars
    rw [hread]
    refine (gives_orFail (.ok fs)).then_ok (hbuild.then_ok ?_)
    rw [hdistinct]
    exact .pure graphs
  exact hparse

/-- Two functions whose identifiers and options are words of the grammar, with names and values that need quoting. -/
def keywordBlocks : List Block :=
  [⟨"function", [.edge ⟨"node", "root", some "a \"b\" \\", true, [("back", ""), ("true", "]\n#")]⟩,
      .node ⟨"node", [.condition, .root], some "\x7d \"\\\n"⟩, .edge ⟨"root", "function", none, false, []⟩,
      .node ⟨"exit", [.exit], none⟩]⟩,
    ⟨"node", []⟩]

theorem parsing_undoes_writing_keywordBlocks :
    (∀ b ∈ keywordBlocks, b.Writable) ∧ (keywordBlocks.map Block.name).Nodup ∧
    ∃ graphs, (∀ log, ((parse (write keywordBlocks)).run log).1 = .ok graphs) ∧
      List.Forall₂ (fun b (p : String × Graph) => p.1 = b.name ∧ p.2.nodes = b.nodes ∧ p.2.edges = b.edges)
        keywordBlocks graphs := by
  have hblocks : ∀ b ∈ keywordBlocks, b.Writable := by decide
  have hnames : (keywordBlocks.map Block.name).Nodup := by decide
  exact ⟨hblocks, hnames, parsing_undoes_writing hblocks hnames⟩

end Flowgraph.Description
