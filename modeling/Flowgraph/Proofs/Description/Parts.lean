import Flowgraph.Description.Assembly
import Flowgraph.Proofs.Description.Lookahead
/-!
# The parts of a text

What the reader takes from a text is read somewhere in it: its functions (`reads_of_read`), their statements, and the options of
their edges. A part that remembers how much of the text was left is read at the place that this tells (`exists_readAt`). What
stands for a node in a statement is an identifier (`isIdentifier_of_reads`).
-/

namespace Flowgraph.Description

/-! ## Parts and places -/

/-- Whether a rule reads a part somewhere in a text. -/
def Reads {α : Type} (rule : Rule α) (text : List Char) (a : α) : Prop := ∃ s r, s <:+ text ∧ rule s = some (a, r)

/-- Whether a rule reads a part at the place after `offset` characters. -/
def ReadAt {α : Type} (rule : Rule α) (text : List Char) (offset : Nat) (a : α) : Prop :=
  offset ≤ text.length ∧ ∃ r, rule (text.drop offset) = some (a, r)

section Places

variable {α : Type} {rule : Rule α} {text s : List Char} {a : α}

theorem Reads.mono (h : Reads rule s a) (hs : s <:+ text) : Reads rule text a := by
  obtain ⟨t, r, ht, hr⟩ := h
  exact ⟨t, r, ht.trans hs, hr⟩

variable {left : α → Nat} (hleft : ∀ {s a r}, rule s = some (a, r) → left a = s.length)

include hleft

/-- A part is read at the place that it remembers. -/
theorem Reads.exists_readAt (h : Reads rule text a) :
    ∃ offset, ReadAt rule text offset a ∧ placeOf text (left a) = .at text offset := by
  obtain ⟨s, r, hs, hr⟩ := h
  refine ⟨text.length - s.length, ⟨Nat.sub_le _ _, r, ?_⟩, by rw [placeOf, hleft hr]⟩
  rw [← List.suffix_iff_eq_drop.1 hs]
  exact hr

/-- It is read at no other place. -/
theorem ReadAt.place_eq {offset : Nat} (h : ReadAt rule text offset a) : placeOf text (left a) = .at text offset := by
  obtain ⟨hoffset, r, hr⟩ := h
  rw [placeOf, hleft hr, List.length_drop, Nat.sub_sub_self hoffset]

end Places

/-! ## Rules -/

theorem suffix_of_rule {α : Type} {p : Peg} {rule : Rule α} (hp : ∀ s, p.run s = (rule s).map Prod.snd) {s r : List Char} {a : α}
    (h : rule s = some (a, r)) : r <:+ s :=
  p.run_suffix (by rw [hp, h]; rfl)

theorem reads_of_mem_many {α : Type} {p : Peg} {rule : Rule α} (hp : ∀ s, p.run s = (rule s).map Prod.snd) {s : List Char} {a : α}
    (h : a ∈ (many rule s).1) : Reads rule s a := by
  fun_induction many rule s with
  | case1 s hnone => exact absurd h List.not_mem_nil
  | case2 s b r hsome hshorter as t hmany ih =>
    rcases List.mem_cons.1 h with rfl | h
    · exact ⟨s, r, List.suffix_refl s, hsome⟩
    · rw [hmany] at ih
      exact (ih h).mono (suffix_of_rule hp hsome)
  | case3 s b r hsome hlong => exact absurd h List.not_mem_nil

theorem isWord_of_word {further : Char → Bool} {s r : List Char} {w : String} (h : word further s = some (w, r)) :
    IsWord further w := by
  cases s with
  | nil => cases h
  | cons c s =>
    rw [word] at h
    split at h
    next hc =>
      obtain ⟨rfl, -⟩ := Prod.mk.inj (Option.some.inj h)
      exact ⟨c, _, String.toList_ofList, hc, List.all_eq_true.1 List.all_takeWhile⟩
    next => cases h

theorem literal_suffix {w s r : List Char} (h : literal w s = some r) : r <:+ s := ⟨w, (eq_append_of_literal h).symm⟩

theorem spaces_suffix (s : List Char) : spaces s <:+ s := List.dropWhile_suffix _

theorem spaces1_suffix {s r : List Char} (h : spaces1 s = some r) : r <:+ s :=
  Grammar.spaces.run_suffix (by rw [Grammar.run_spaces, h])

/-! ## Statements -/

theorem nodeDecl_eq_some {s r : List Char} {d : NodeDecl} (h : nodeDecl s = some (d, r)) :
    IsIdentifier d.ident ∧ d.left = s.length := by
  simp only [nodeDecl, Option.bind_eq_bind, Option.bind_eq_some_iff] at h
  obtain ⟨_, -, _, -, ⟨ident, _⟩, hident, h⟩ := h
  obtain ⟨rfl, -⟩ := Prod.mk.inj (Option.some.inj h)
  exact ⟨isWord_of_word hident, rfl⟩

theorem left_of_assignment {s r : List Char} {o : EdgeOption} (h : assignment s = some (o, r)) : o.left = s.length := by
  simp only [assignment, Option.bind_eq_bind, Option.bind_eq_some_iff] at h
  obtain ⟨_, -, r₁, -, h⟩ := h
  split at h
  next => exact (Prod.mk.inj (Option.some.inj h)).1 ▸ rfl
  next =>
    obtain ⟨_, -, h⟩ := Option.bind_eq_some_iff.1 h
    exact (Prod.mk.inj (Option.some.inj h)).1 ▸ rfl

theorem left_of_edgeOption {s r : List Char} {o : EdgeOption} (h : edgeOption s = some (o, r)) : o.left = s.length := by
  rw [edgeOption] at h
  split at h
  next a hassignment => exact left_of_assignment (hassignment.trans h)
  next =>
    obtain ⟨_, -, hkey⟩ := Option.map_eq_some_iff.1 h
    exact (Prod.mk.inj hkey).1 ▸ rfl

theorem reads_of_mem_edgeOptions {s r : List Char} {os : List EdgeOption} (h : edgeOptions s = some (os, r)) {o : EdgeOption}
    (ho : o ∈ os) : Reads edgeOption s o := by
  simp only [edgeOptions, Option.bind_eq_bind, Option.bind_eq_some_iff] at h
  obtain ⟨t, hopen, ⟨first, r₁⟩, hfirst, _, -, h⟩ := h
  obtain ⟨rfl, -⟩ := Prod.mk.inj (Option.some.inj h)
  have hinner : spaces t <:+ s := (spaces_suffix t).trans ((literal_suffix hopen).trans (spaces_suffix s))
  rcases List.mem_cons.1 ho with rfl | ho
  · exact ⟨_, _, hinner, hfirst⟩
  · obtain ⟨t, r₂, ht, hnext⟩ := reads_of_mem_many Grammar.run_nextOption ho
    simp only [nextOption, Option.bind_eq_bind, Option.bind_eq_some_iff] at hnext
    obtain ⟨t', hseparator, hoption⟩ := hnext
    have hsuffix : t' <:+ t := Grammar.separator.run_suffix (by rw [Grammar.run_separator, hseparator])
    exact ⟨t', r₂, hsuffix.trans (ht.trans ((suffix_of_rule Grammar.run_edgeOption hfirst).trans hinner)), hoption⟩

theorem edgeDecl_eq_some {s r : List Char} {e : EdgeDecl} (h : edgeDecl s = some (e, r)) :
    IsIdentifier e.src ∧ IsIdentifier e.dst ∧ ∀ o ∈ e.options, Reads edgeOption s o := by
  simp only [edgeDecl, Option.bind_eq_bind, Option.bind_eq_some_iff] at h
  obtain ⟨⟨src, r₁⟩, hsrc, r₂, harrow, ⟨dst, r₃⟩, hdst, h⟩ := h
  obtain ⟨rfl, -⟩ := Prod.mk.inj (Option.some.inj h)
  refine ⟨isWord_of_word hsrc, isWord_of_word hdst, fun o ho => ?_⟩
  have hsource : spaces r₁ <:+ s := (spaces_suffix r₁).trans (suffix_of_rule Grammar.run_identifier hsrc)
  have htarget : spaces r₂ <:+ s := (spaces_suffix r₂).trans ((literal_suffix harrow).trans hsource)
  have hends : r₃ <:+ s := (suffix_of_rule Grammar.run_identifier hdst).trans htarget
  cases hoptions : edgeOptions r₃ with
  | none =>
    simp only [hoptions, Option.getD_none] at ho
    exact absurd ho List.not_mem_nil
  | some os =>
    simp only [hoptions, Option.getD_some] at ho
    exact (reads_of_mem_edgeOptions hoptions ho).mono hends

theorem statement_eq_some {s r : List Char} {st : Statement} (h : statement s = some (st, r)) :
    (∃ d t, nodeDecl s = some (d, t) ∧ st = .node d) ∨ ∃ e t, edgeDecl s = some (e, t) ∧ st = .edge e := by
  rw [statement] at h
  split at h
  next d t hnode => exact .inl ⟨d, t, hnode, (Prod.mk.inj (Option.some.inj h)).1.symm⟩
  next =>
    obtain ⟨⟨e, t⟩, hedge, h⟩ := Option.map_eq_some_iff.1 h
    exact .inr ⟨e, t, hedge, (Prod.mk.inj h).1.symm⟩

theorem reads_nodeDecl {text : List Char} {d : NodeDecl} (h : Reads statement text (.node d)) : Reads nodeDecl text d := by
  obtain ⟨s, r, hs, hstatement⟩ := h
  rcases statement_eq_some hstatement with ⟨_, t, hnode, ⟨⟩⟩ | ⟨_, _, _, ⟨⟩⟩
  exact ⟨s, t, hs, hnode⟩

theorem reads_edgeDecl {text : List Char} {e : EdgeDecl} (h : Reads statement text (.edge e)) : Reads edgeDecl text e := by
  obtain ⟨s, r, hs, hstatement⟩ := h
  rcases statement_eq_some hstatement with ⟨_, _, _, ⟨⟩⟩ | ⟨_, t, hedge, ⟨⟩⟩
  exact ⟨s, t, hs, hedge⟩

theorem reads_edgeOption {text : List Char} {e : EdgeDecl} (h : Reads edgeDecl text e) {o : EdgeOption} (ho : o ∈ e.options) :
    Reads edgeOption text o := by
  obtain ⟨s, r, hs, hedge⟩ := h
  exact ((edgeDecl_eq_some hedge).2.2 o ho).mono hs

theorem isIdentifier_of_reads {text : List Char} {st : Statement} (h : Reads statement text st) :
    ∀ ident ∈ st.mentions, IsIdentifier ident := by
  obtain ⟨s, r, -, hstatement⟩ := h
  intro ident hident
  rcases statement_eq_some hstatement with ⟨d, t, hnode, rfl⟩ | ⟨e, t, hedge, rfl⟩
  · obtain rfl := List.mem_singleton.1 hident
    exact (nodeDecl_eq_some hnode).1
  · obtain ⟨hsrc, hdst, -⟩ := edgeDecl_eq_some hedge
    rcases List.mem_cons.1 hident with rfl | hident
    · exact hsrc
    · obtain rfl := List.mem_singleton.1 hident
      exact hdst

/-! ## Functions -/

theorem function_eq_some {s r : List Char} {f : FunctionDecl} (h : function s = some (f, r)) :
    f.left = s.length ∧ ∀ st ∈ f.statements, Reads statement s st := by
  simp only [function, Option.bind_eq_bind, Option.bind_eq_some_iff] at h
  obtain ⟨r₁, hword, r₂, hspaces, ⟨name, r₃⟩, hname, r₄, hopen, _, -, h⟩ := h
  obtain ⟨rfl, -⟩ := Prod.mk.inj (Option.some.inj h)
  refine ⟨rfl, fun st hst => (reads_of_mem_many Grammar.run_statement hst).mono ?_⟩
  have hnamed : r₃ <:+ s :=
    (suffix_of_rule Grammar.run_identifier hname).trans ((spaces1_suffix hspaces).trans (literal_suffix hword))
  exact (skip_suffix r₄).trans ((literal_suffix hopen).trans ((skip_suffix r₃).trans hnamed))

theorem reads_statement {text : List Char} {f : FunctionDecl} (h : Reads function text f) {st : Statement}
    (hst : st ∈ f.statements) : Reads statement text st := by
  obtain ⟨s, r, hs, hfunction⟩ := h
  exact ((function_eq_some hfunction).2 st hst).mono hs

theorem reads_of_mem_nodeDecls {text : List Char} {f : FunctionDecl} (h : Reads function text f) {d : NodeDecl}
    (hd : d ∈ f.nodeDecls) : Reads nodeDecl text d := by
  obtain ⟨st, hst, heq⟩ := List.mem_filterMap.1 hd
  cases st with
  | node d' =>
    obtain rfl : d' = d := Option.some.inj heq
    exact reads_nodeDecl (reads_statement h hst)
  | edge e => cases heq

theorem reads_of_mem_edgeDecls {text : List Char} {f : FunctionDecl} (h : Reads function text f) {e : EdgeDecl}
    (he : e ∈ f.edgeDecls) : Reads edgeDecl text e := by
  obtain ⟨st, hst, heq⟩ := List.mem_filterMap.1 he
  cases st with
  | node d => cases heq
  | edge e' =>
    obtain rfl : e' = e := Option.some.inj heq
    exact reads_edgeDecl (reads_statement h hst)

theorem reads_of_read {text : List Char} {fs : List FunctionDecl} (h : read text = .ok fs) {f : FunctionDecl} (hf : f ∈ fs) :
    Reads function text f := by
  rw [read] at h
  split at h
  next functions hdocument =>
    obtain rfl : functions = fs := Except.ok.inj h
    have hmany : f ∈ (many function (skip text)).1 := by
      rw [show many function (skip text) = _ from hdocument]
      exact hf
    exact (reads_of_mem_many Grammar.run_function hmany).mono (skip_suffix text)
  next => cases h

end Flowgraph.Description
