import Flowgraph.Proofs.Description.Parts
import Flowgraph.Proofs.Description.RoundTrip
import Mathlib.Data.List.Induction
/-!
# What is refused in a text that the grammar accepts

A text that the grammar accepts is refused for what its functions say: a function offends if it declares an identifier twice or
has an edge that offends, and an edge offends by an unknown word among its options or by a second label. `FunctionDecl.FaultOf`
and `EdgeDecl.FaultOf` single out the first offence, with its place in the text. The graph of a function is refused exactly for
its fault (`FunctionDecl.refuses_graph`), and a text for the fault of its first function that offends, or else for the first
function that repeats a name (`RefusedFor`).
-/

namespace Flowgraph.Description

/-! ## Refusal -/

section Refuses

variable {α β ε : Type}

/-- A result is refused where something offends, and then for its fault. -/
structure Refuses (result : Except ε β) (offends : Prop) (FaultOf : ε → Prop) : Prop where
  ok_iff : (∃ b, result = .ok b) ↔ ¬ offends
  error_iff (fault : ε) : result = .error fault ↔ FaultOf fault

namespace Refuses

variable {result : Except ε β} {offends : Prop} {FaultOf : ε → Prop}

theorem intro (hfine : ¬ offends → ∃ b, result = .ok b) (hfault : offends → ∃ fault, FaultOf fault)
    (herror : ∀ fault, FaultOf fault → result = .error fault) : Refuses result offends FaultOf := by
  have hoffends : offends → ∀ b, result ≠ .ok b := by
    intro h b hb
    obtain ⟨fault, hf⟩ := hfault h
    cases hb.symm.trans (herror fault hf)
  refine ⟨⟨fun ⟨b, hb⟩ h => hoffends h b hb, hfine⟩, fun fault => ⟨fun h => ?_, herror fault⟩⟩
  by_cases ho : offends
  · obtain ⟨fault', hf⟩ := hfault ho
    obtain rfl : fault' = fault := Except.error.inj ((herror fault' hf).symm.trans h)
    exact hf
  · obtain ⟨b, hb⟩ := hfine ho
    cases hb.symm.trans h

theorem exists_fault (h : Refuses result offends FaultOf) (ho : offends) : ∃ fault, result = .error fault ∧ FaultOf fault := by
  cases hresult : result with
  | ok b => exact absurd ho (h.ok_iff.1 ⟨b, hresult⟩)
  | error fault => exact ⟨fault, rfl, (h.error_iff fault).1 hresult⟩

protected theorem bind_pure {γ : Type} (h : Refuses result offends FaultOf) (g : β → γ) :
    Refuses (result >>= fun b => pure (g b)) offends FaultOf := by
  refine .intro (fun hfine => ?_) (fun ho => ?_) fun fault hfault => ?_
  · obtain ⟨b, hb⟩ := h.ok_iff.2 hfine
    exact ⟨g b, by rw [hb]; rfl⟩
  · obtain ⟨fault, -, hfault⟩ := h.exists_fault ho
    exact ⟨fault, hfault⟩
  · rw [(h.error_iff fault).2 hfault]
    rfl

end Refuses

/-- The first of a list that offends, and its fault. -/
def FirstFault (Offends : α → Prop) (FaultOf : α → ε → Prop) (l : List α) (fault : ε) : Prop :=
  ∃ before a after, l = before ++ a :: after ∧ (∀ b ∈ before, ¬ Offends b) ∧ FaultOf a fault

theorem exists_first {Offends : α → Prop} {l : List α} (h : ∃ a ∈ l, Offends a) :
    ∃ before a after, l = before ++ a :: after ∧ (∀ b ∈ before, ¬ Offends b) ∧ Offends a := by
  classical
  obtain ⟨a, ha⟩ := Option.isSome_iff_exists.1 (List.find?_isSome (p := (Offends ·)).2 (by simpa using h))
  obtain ⟨hoffends, before, after, rfl, hbefore⟩ := List.find?_eq_some_iff_append.1 ha
  exact ⟨before, a, after, rfl, by simpa using hbefore, by simpa using hoffends⟩

/-- Going through a list is refused for the first of its elements that is refused. -/
theorem Refuses.mapM {f : α → Except ε β} {l : List α} {Offends : α → Prop} {FaultOf : α → ε → Prop}
    (h : ∀ a ∈ l, Refuses (f a) (Offends a) (FaultOf a)) :
    Refuses (l.mapM f) (∃ a ∈ l, Offends a) (FirstFault Offends FaultOf l) := by
  -- for a part of the list as well: what stands before the first that offends
  have hfine : ∀ l' ⊆ l, (∀ a ∈ l', ¬ Offends a) → ∃ bs, l'.mapM f = .ok bs := by
    intro l' hl' hnone
    obtain ⟨bs, hbs, -⟩ := exists_mapM_of_forall₂ (R := Eq) (P := fun _ _ => True) (List.forall₂_refl l') fun a ha _ heq => by
      obtain ⟨b, hb⟩ := (h a (hl' ha)).ok_iff.2 (hnone a ha)
      exact ⟨b, heq ▸ hb, trivial⟩
    exact ⟨bs, hbs⟩
  refine .intro (fun hnone => hfine l (List.Subset.refl l) fun a ha hoffends => hnone ⟨a, ha, hoffends⟩) ?_ ?_
  · intro hsome
    obtain ⟨before, a, after, hl, hbefore, ha⟩ := exists_first hsome
    obtain ⟨fault, -, hfault⟩ := (h a (hl ▸ by simp)).exists_fault ha
    exact ⟨fault, before, a, after, hl, hbefore, hfault⟩
  · rintro fault ⟨before, a, after, rfl, hbefore, hfault⟩
    obtain ⟨bs, hbs⟩ := hfine before (by simp) hbefore
    rw [List.mapM_append, hbs]
    show ((a :: after).mapM f >>= _) = _
    rw [List.mapM_cons, ((h a (by simp)).error_iff fault).2 hfault]
    rfl

theorem foldlM_eq_error {step : β → α → Except ε β} {before : List α} {b b' : β} (h : before.foldlM step b = .ok b') {a : α}
    {fault : ε} (hstep : step b' a = .error fault) (after : List α) : (before ++ a :: after).foldlM step b = .error fault := by
  rw [List.foldlM_append, h]
  show (a :: after).foldlM step b' = .error fault
  rw [List.foldlM_cons, hstep]
  rfl

end Refuses

/-! ## Edges -/

/-- Whether an option is a word that is none. -/
def EdgeOption.IsUnknown (o : EdgeOption) : Prop := o.value = none ∧ o.key ∉ ["true", "false", "back"]

/-- Whether an option gives a label. -/
def EdgeOption.IsLabel (o : EdgeOption) : Prop :=
  o.value = none ∧ o.key ∈ ["true", "false"] ∨ o.value ≠ none ∧ o.key = "cond"

instance (o : EdgeOption) : Decidable o.IsUnknown := inferInstanceAs (Decidable (_ ∧ _))

instance (o : EdgeOption) : Decidable o.IsLabel := inferInstanceAs (Decidable (_ ∨ _))

/-- Whether options cannot stand together: one of them is unknown, or two give labels. -/
def Offending (os : List EdgeOption) : Prop := (∃ o ∈ os, o.IsUnknown) ∨ 2 ≤ os.countP (·.IsLabel)

theorem offending_append_singleton {os : List EdgeOption} {o : EdgeOption} :
    Offending (os ++ [o]) ↔ Offending os ∨ o.IsUnknown ∨ o.IsLabel ∧ ∃ o' ∈ os, o'.IsLabel := by
  have hlabels : (∃ o' ∈ os, o'.IsLabel) ↔ 0 < os.countP (·.IsLabel) := by simp [List.countP_pos_iff]
  have hunknown : (∃ o' ∈ os ++ [o], o'.IsUnknown) ↔ (∃ o' ∈ os, o'.IsUnknown) ∨ o.IsUnknown := by
    simp [or_and_right, exists_or]
  rw [Offending, Offending, List.countP_append, List.countP_singleton, hlabels, hunknown]
  by_cases hlabel : o.IsLabel
  · simp only [hlabel, decide_true, if_true, true_and]
    grind
  · simp only [hlabel, decide_false, Bool.false_eq_true, if_false, Nat.add_zero, false_and, or_false]
    exact or_right_comm

theorem EdgeOption.IsLabel.applyOption_eq {o : EdgeOption} (h : o.IsLabel) (text : List Char) (e : EdgeDecl) (draft : EdgeDraft) :
    applyOption text e draft o = setLabel (placeOf text o.left) e draft (o.value.getD o.key) := by
  obtain ⟨key, value, left⟩ := o
  rw [applyOption]
  rcases h with ⟨rfl, hkey⟩ | ⟨hvalue, rfl⟩
  · exact if_pos (by simpa using hkey)
  · obtain ⟨value, rfl⟩ := Option.ne_none_iff_exists'.1 hvalue
    exact if_pos rfl

theorem EdgeOption.IsUnknown.applyOption_eq {o : EdgeOption} (h : o.IsUnknown) (text : List Char) (e : EdgeDecl)
    (draft : EdgeDraft) : applyOption text e draft o = .error (.unknownOption (placeOf text o.left) o.key) := by
  obtain ⟨key, value, left⟩ := o
  obtain ⟨rfl, hkey⟩ := h
  simp only [List.mem_cons, List.not_mem_nil, or_false, not_or] at hkey
  simp [applyOption, hkey]

/-- An option that gives no label leaves the label alone. -/
theorem applyOption_of_not {o : EdgeOption} (hunknown : ¬ o.IsUnknown) (hlabel : ¬ o.IsLabel) (text : List Char) (e : EdgeDecl)
    (draft : EdgeDraft) : ∃ draft', applyOption text e draft o = .ok draft' ∧ draft'.label = draft.label := by
  obtain ⟨key, value, left⟩ := o
  cases value with
  | none =>
    have hkey : key ≠ "true" ∧ key ≠ "false" ∧ key = "back" := by
      simp only [EdgeOption.IsUnknown, EdgeOption.IsLabel, List.mem_cons, List.not_mem_nil, true_and, or_false] at hunknown hlabel
      grind
    exact ⟨{ draft with back := true }, by simp [applyOption, hkey], rfl⟩
  | some value =>
    have hkey : key ≠ "cond" := fun hcond => hlabel (.inr ⟨Option.some_ne_none value, hcond⟩)
    exact ⟨{ draft with attrs := draft.attrs.put key value }, by simp [applyOption, hkey], rfl⟩

section Options

variable (text : List Char) (e : EdgeDecl)

/-- Options that can stand together are all taken into account, and the edge has a label then if one of them gives one. -/
theorem exists_draft_of_not_offending {os : List EdgeOption} (h : ¬ Offending os) :
    ∃ draft, os.foldlM (applyOption text e) {} = .ok draft ∧ (draft.label.isSome ↔ ∃ o ∈ os, o.IsLabel) := by
  -- from the right, so that an option meets the label that all those before it have left
  induction os using List.reverseRecOn with
  | nil => exact ⟨{}, rfl, by simp⟩
  | append_singleton os o ih =>
    rw [offending_append_singleton, not_or, not_or] at h
    obtain ⟨hos, hunknown, hsecond⟩ := h
    obtain ⟨draft, hdraft, hiff⟩ := ih hos
    rw [List.foldlM_append, hdraft]
    show ∃ draft', ([o].foldlM (applyOption text e) draft) = .ok draft' ∧ _
    simp only [List.foldlM_cons, List.foldlM_nil, bind_pure, List.mem_append, List.mem_singleton, or_and_right, exists_or,
      exists_eq_left, ← hiff]
    by_cases hlabel : o.IsLabel
    · have hnone : draft.label = none := by
        rw [← Option.not_isSome_iff_eq_none, hiff]
        exact fun hfirst => hsecond ⟨hlabel, hfirst⟩
      refine ⟨{ draft with label := some (o.value.getD o.key) }, ?_, by simp [hlabel]⟩
      rw [hlabel.applyOption_eq, setLabel, hnone]
    · obtain ⟨draft', hdraft', heq⟩ := applyOption_of_not hunknown hlabel text e draft
      exact ⟨draft', hdraft', by simp [heq, hlabel]⟩

/-- Options that cannot stand together have a first one that cannot stand with those before it. -/
theorem exists_first_of_offending {os : List EdgeOption} (h : Offending os) :
    ∃ before o after, os = before ++ o :: after ∧ ¬ Offending before ∧
      (o.IsUnknown ∨ o.IsLabel ∧ ∃ o' ∈ before, o'.IsLabel) := by
  induction os using List.reverseRecOn with
  | nil => simp [Offending] at h
  | append_singleton os o ih =>
    by_cases hos : Offending os
    · obtain ⟨before, o', after, rfl, hbefore, hfault⟩ := ih hos
      exact ⟨before, o', after ++ [o], by simp, hbefore, hfault⟩
    · exact ⟨os, o, [], rfl, hos, (offending_append_singleton.1 h).resolve_left hos⟩

end Options

namespace EdgeDecl

/-- Whether the options of an edge cannot stand together. -/
def Offends (e : EdgeDecl) : Prop := Offending e.options

/-- The fault of an edge, for the first option that cannot stand with those before it. -/
inductive FaultOf (text : List Char) (e : EdgeDecl) : Fault → Prop where
  | unknownOption {before o after offset} (hoptions : e.options = before ++ o :: after) (hbefore : ¬ Offending before)
      (hunknown : o.IsUnknown) (hplace : ReadAt edgeOption text offset o) :
      e.FaultOf text (.unknownOption (.at text offset) o.key)
  | twoLabels {before o after offset} (hoptions : e.options = before ++ o :: after) (hbefore : ¬ Offending before)
      (hlabel : o.IsLabel) (hfirst : ∃ o' ∈ before, o'.IsLabel) (hplace : ReadAt edgeOption text offset o) :
      e.FaultOf text (.twoLabels (.at text offset) e.src e.dst)

variable {text : List Char} {e : EdgeDecl}

theorem FaultOf.draft_eq {fault : Fault} (h : e.FaultOf text fault) : e.draft text = .error fault := by
  cases h with
  | @unknownOption before o after offset hoptions hbefore hunknown hplace =>
    obtain ⟨draft, hdraft, -⟩ := exists_draft_of_not_offending text e hbefore
    rw [EdgeDecl.draft, hoptions, ← hplace.place_eq left_of_edgeOption]
    exact foldlM_eq_error hdraft (hunknown.applyOption_eq text e draft) after
  | @twoLabels before o after offset hoptions hbefore hlabel hfirst hplace =>
    obtain ⟨draft, hdraft, hiff⟩ := exists_draft_of_not_offending text e hbefore
    obtain ⟨label, hsome⟩ := Option.isSome_iff_exists.1 (hiff.2 hfirst)
    rw [EdgeDecl.draft, hoptions, ← hplace.place_eq left_of_edgeOption]
    refine foldlM_eq_error hdraft ?_ after
    rw [hlabel.applyOption_eq, setLabel, hsome]

theorem refuses_draft (hread : Reads edgeDecl text e) : Refuses (e.draft text) e.Offends (e.FaultOf text) := by
  refine .intro (fun hfine => ?_) (fun hoffends => ?_) fun fault => FaultOf.draft_eq
  · obtain ⟨draft, hdraft, -⟩ := exists_draft_of_not_offending text e hfine
    exact ⟨draft, hdraft⟩
  · obtain ⟨before, o, after, hoptions, hbefore, hfault⟩ := exists_first_of_offending hoffends
    have ho : o ∈ e.options := hoptions ▸ by simp
    obtain ⟨offset, hplace, -⟩ := (reads_edgeOption hread ho).exists_readAt left_of_edgeOption
    rcases hfault with hunknown | ⟨hlabel, hfirst⟩
    · exact ⟨_, .unknownOption hoptions hbefore hunknown hplace⟩
    · exact ⟨_, .twoLabels hoptions hbefore hlabel hfirst hplace⟩

end EdgeDecl

/-! ## Functions -/

/-- The first member that repeats a key stands at the end of the longest part without repetitions. -/
theorem firstRepeat?_eq_some_iff {α : Type} {key : α → String} (seen : List String) {l : List α} {a : α} :
    firstRepeat? key seen l = some a ↔ ∃ before after, l = before ++ a :: after ∧ (before.map key).Nodup ∧
      (∀ b ∈ before, key b ∉ seen) ∧ (key a ∈ seen ∨ key a ∈ before.map key) := by
  induction l generalizing seen with
  | nil => simp [firstRepeat?]
  | cons b l ih =>
    rw [firstRepeat?]
    by_cases hb : key b ∈ seen
    · rw [if_pos hb, Option.some.injEq]
      constructor
      · rintro rfl
        exact ⟨[], l, rfl, List.nodup_nil, fun _ h => absurd h List.not_mem_nil, .inl hb⟩
      · rintro ⟨before, after, hl, -, hseen, -⟩
        cases before with
        | nil => exact (List.cons.inj hl).1
        | cons c before =>
          obtain ⟨rfl, -⟩ := List.cons.inj hl
          exact absurd hb (hseen b (by simp))
    · rw [if_neg hb, ih]
      constructor
      · rintro ⟨before, after, rfl, hnodup, hseen, hrepeat⟩
        refine ⟨b :: before, after, rfl, ?_, ?_, ?_⟩
        · rw [List.map_cons, List.nodup_cons]
          refine ⟨fun hmem => ?_, hnodup⟩
          obtain ⟨c, hc, hkey⟩ := List.mem_map.1 hmem
          exact hseen c hc (by simp [hkey])
        · exact List.forall_mem_cons.2 ⟨hb, fun c hc hmem => hseen c hc (by simp [hmem])⟩
        · rw [List.map_cons, List.mem_cons]
          rw [List.mem_cons] at hrepeat
          tauto
      · rintro ⟨before, after, hl, hnodup, hseen, hrepeat⟩
        cases before with
        | nil =>
          obtain ⟨rfl, -⟩ := List.cons.inj hl
          simp [hb] at hrepeat
        | cons c before =>
          obtain ⟨rfl, rfl⟩ := List.cons.inj hl
          rw [List.map_cons, List.nodup_cons] at hnodup
          refine ⟨before, after, rfl, hnodup.2, fun d hd hmem => ?_, ?_⟩
          · rcases List.mem_cons.1 hmem with hkey | hmem
            · exact hnodup.1 (List.mem_map.2 ⟨d, hd, hkey⟩)
            · exact hseen d (by simp [hd]) hmem
          · rw [List.map_cons, List.mem_cons] at hrepeat
            rw [List.mem_cons]
            tauto

theorem firstRepeat?_nil_eq_some_iff {α : Type} {key : α → String} {l : List α} {a : α} :
    firstRepeat? key [] l = some a ↔
      ∃ before after, l = before ++ a :: after ∧ (before.map key).Nodup ∧ key a ∈ before.map key := by
  simpa using firstRepeat?_eq_some_iff []

namespace FunctionDecl

/-- Whether a function declares an identifier twice or has an edge that offends. -/
def Offends (f : FunctionDecl) : Prop := ¬ (f.nodeDecls.map NodeDecl.ident).Nodup ∨ ∃ e ∈ f.edgeDecls, e.Offends

/-- The fault of a function, for its first repeated declaration, or else for its first edge that offends. -/
inductive FaultOf (text : List Char) (f : FunctionDecl) : Fault → Prop where
  | declaredTwice {before d after offset} (hdecls : f.nodeDecls = before ++ d :: after)
      (hbefore : (before.map NodeDecl.ident).Nodup) (hrepeated : d.ident ∈ before.map NodeDecl.ident)
      (hplace : ReadAt nodeDecl text offset d) : f.FaultOf text (.declaredTwice (.at text offset) d.ident f.name)
  | ofEdge {fault} (hdistinct : (f.nodeDecls.map NodeDecl.ident).Nodup)
      (hedge : FirstFault EdgeDecl.Offends (EdgeDecl.FaultOf text) f.edgeDecls fault) : f.FaultOf text fault

variable {text : List Char} {f : FunctionDecl}

theorem refuses_drafts (hread : Reads function text f) :
    Refuses (f.edgeDecls.mapM (EdgeDecl.draft text)) (∃ e ∈ f.edgeDecls, e.Offends)
      (FirstFault EdgeDecl.Offends (EdgeDecl.FaultOf text) f.edgeDecls) :=
  .mapM fun _ he => EdgeDecl.refuses_draft (reads_of_mem_edgeDecls hread he)

theorem refuses_graph (hread : Reads function text f) : Refuses (f.graph text) f.Offends (f.FaultOf text) := by
  have hdrafts := refuses_drafts hread
  refine .intro (fun hfine => ?_) (fun hoffends => ?_) fun fault hfault => ?_
  · rw [Offends, not_or, not_not] at hfine
    obtain ⟨drafts, hok⟩ := hdrafts.ok_iff.2 hfine.2
    rw [graph, firstRepeat?_nil_eq_none_iff.2 hfine.1, hok]
    exact ⟨_, rfl⟩
  · by_cases hdistinct : (f.nodeDecls.map NodeDecl.ident).Nodup
    · obtain ⟨fault, -, hfault⟩ := hdrafts.exists_fault (hoffends.resolve_left (not_not.2 hdistinct))
      exact ⟨fault, .ofEdge hdistinct hfault⟩
    · rw [← firstRepeat?_nil_eq_none_iff] at hdistinct
      obtain ⟨d, hd⟩ := Option.ne_none_iff_exists'.1 hdistinct
      obtain ⟨before, after, hdecls, hbefore, hrepeated⟩ := firstRepeat?_nil_eq_some_iff.1 hd
      have hmem : d ∈ f.nodeDecls := hdecls ▸ by simp
      obtain ⟨offset, hplace, -⟩ := (reads_of_mem_nodeDecls hread hmem).exists_readAt fun h => (nodeDecl_eq_some h).2
      exact ⟨_, .declaredTwice hdecls hbefore hrepeated hplace⟩
  · cases hfault with
    | @declaredTwice before d after offset hdecls hbefore hrepeated hplace =>
      rw [graph, firstRepeat?_nil_eq_some_iff.2 ⟨before, after, hdecls, hbefore, hrepeated⟩]
      simp only [hplace.place_eq fun h => (nodeDecl_eq_some h).2]
    | ofEdge hdistinct hedge =>
      rw [graph, firstRepeat?_nil_eq_none_iff.2 hdistinct, (hdrafts.error_iff fault).2 hedge]
      rfl

end FunctionDecl

/-! ## Texts -/

/-- What the functions of a text are refused for: the fault of the first that offends, or else the first that repeats a name. -/
inductive RefusedFor (text : List Char) (fs : List FunctionDecl) : Fault → Prop where
  | ofFunction {fault} (hfunction : FirstFault FunctionDecl.Offends (FunctionDecl.FaultOf text) fs fault) :
      RefusedFor text fs fault
  | definedTwice {before f after offset} (hfine : ∀ g ∈ fs, ¬ g.Offends) (hfunctions : fs = before ++ f :: after)
      (hbefore : (before.map FunctionDecl.name).Nodup) (hrepeated : f.name ∈ before.map FunctionDecl.name)
      (hplace : ReadAt function text offset f) : RefusedFor text fs (.definedTwice (.at text offset) f.name)

section Texts

variable {text : List Char} {fs : List FunctionDecl}

/-- The graph of a function with its name. -/
def namedGraph (text : List Char) (f : FunctionDecl) : Except Fault (String × Graph) := do
  let g ← f.graph text
  return (f.name, g)

/-- The graphs of functions with distinct names. -/
def namedGraphs (text : List Char) (fs : List FunctionDecl) : Except Fault (List (String × Graph)) := do
  let graphs ← fs.mapM (namedGraph text)
  match firstRepeat? FunctionDecl.name [] fs with
  | some f => .error (.definedTwice (placeOf text f.left) f.name)
  | none => .ok graphs

theorem refuses_namedGraphs (hread : ∀ f ∈ fs, Reads function text f) :
    Refuses (namedGraphs text fs) ((∃ f ∈ fs, f.Offends) ∨ ¬ (fs.map FunctionDecl.name).Nodup) (RefusedFor text fs) := by
  have hgraphs : Refuses (fs.mapM (namedGraph text)) (∃ f ∈ fs, f.Offends) _ :=
    .mapM fun f hf => (FunctionDecl.refuses_graph (hread f hf)).bind_pure (f.name, ·)
  refine .intro (fun hfine => ?_) (fun hoffends => ?_) fun fault hfault => ?_
  · rw [not_or, not_not] at hfine
    obtain ⟨graphs, hok⟩ := hgraphs.ok_iff.2 hfine.1
    rw [namedGraphs, hok, firstRepeat?_nil_eq_none_iff.2 hfine.2]
    exact ⟨graphs, rfl⟩
  · by_cases hfunction : ∃ f ∈ fs, f.Offends
    · obtain ⟨fault, -, hfault⟩ := hgraphs.exists_fault hfunction
      exact ⟨fault, .ofFunction hfault⟩
    · have hrepeated := hoffends.resolve_left hfunction
      rw [← firstRepeat?_nil_eq_none_iff] at hrepeated
      obtain ⟨f, hf⟩ := Option.ne_none_iff_exists'.1 hrepeated
      obtain ⟨before, after, hfunctions, hbefore, hname⟩ := firstRepeat?_nil_eq_some_iff.1 hf
      obtain ⟨offset, hplace, -⟩ := (hread f (hfunctions ▸ by simp)).exists_readAt fun h => (function_eq_some h).1
      exact ⟨_, .definedTwice (fun g hg ho => hfunction ⟨g, hg, ho⟩) hfunctions hbefore hname hplace⟩
  · cases hfault with
    | ofFunction hfunction =>
      rw [namedGraphs, (hgraphs.error_iff fault).2 hfunction]
      rfl
    | @definedTwice before f after offset hfine hfunctions hbefore hrepeated hplace =>
      obtain ⟨graphs, hok⟩ := hgraphs.ok_iff.2 fun ⟨g, hg, ho⟩ => hfine g hg ho
      rw [namedGraphs, hok, firstRepeat?_nil_eq_some_iff.2 ⟨before, after, hfunctions, hbefore, hrepeated⟩,
        ← hplace.place_eq fun h => (function_eq_some h).1]
      rfl

theorem raised_bind {α β : Type} (x : Except Fault α) (k : α → Except Fault β) :
    raised (x >>= k) = raised x >>= fun a => raised (k a) := by
  cases x with
  | ok a => rfl
  | error fault => rfl

theorem raised_mapM {α β : Type} (f : α → Except Fault β) (l : List α) : raised (l.mapM f) = l.mapM fun a => raised (f a) := by
  induction l with
  | nil => rfl
  | cons a l ih =>
    rw [List.mapM_cons, List.mapM_cons, raised_bind]
    simp only [raised_bind, ih]
    rfl

theorem raised_eq_error_iff {α : Type} {x : Except Fault α} {fault : Flowgraph.Fault} :
    raised x = .error fault ↔ ∃ cause, fault = .description cause ∧ x = .error cause := by
  cases x with
  | ok a => exact ⟨fun h => (nomatch h), fun ⟨_, _, h⟩ => (nomatch h)⟩
  | error cause =>
    constructor
    · intro h
      exact ⟨cause, (Except.error.inj h).symm, rfl⟩
    · rintro ⟨_, rfl, ⟨⟩⟩
      rfl

/-- Parsing a text that can be read gives the graphs of its functions. -/
theorem gives_parseChars (hread : read text = .ok fs) : Gives (parseChars text) (raised (namedGraphs text fs)) := by
  have hfunctions : Gives (orFail (read text)) (.ok fs) := by
    have hgives := gives_orFail (read text)
    rwa [congrArg raised hread] at hgives
  refine hfunctions.then_ok ?_
  rw [namedGraphs, raised_bind, raised_mapM]
  refine (Gives.mapM (fun f => ?_) fs).bind fun graphs => ?_
  · rw [namedGraph, raised_bind]
    exact gives_buildFunction text f
  · cases firstRepeat? FunctionDecl.name [] fs with
    | some f => exact Gives.throw _
    | none => exact Gives.pure graphs

end Texts

/-- A text that the grammar accepts is refused exactly if a function offends or two functions share a name. The fault is that of
the first function that offends, and only if there is none, that of the first function that repeats a name. -/
theorem refusal_names_first_offence {text : String} (h : Grammar.document.Accepts text.toList) :
    ∃ fs, read text.toList = .ok fs ∧ ∀ log,
      ((∃ fault, ((parse text).run log).1 = .error fault) ↔
        (∃ f ∈ fs, f.Offends) ∨ ¬ (fs.map FunctionDecl.name).Nodup) ∧
      ∀ fault, ((parse text).run log).1 = .error fault ↔
        ∃ cause, fault = .description cause ∧ RefusedFor text.toList fs cause := by
  obtain ⟨fs, hread⟩ := (Grammar.accepts_iff_read _).1 h
  have hrefuses := refuses_namedGraphs fun f hf => reads_of_read hread hf
  refine ⟨fs, hread, fun log => ?_⟩
  rw [show ((parse text).run log).1 = _ from gives_parseChars hread log]
  refine ⟨⟨?_, ?_⟩, fun fault => by simp only [raised_eq_error_iff, hrefuses.error_iff]⟩
  · rintro ⟨fault, hfault⟩
    by_contra hfine
    obtain ⟨graphs, hok⟩ := hrefuses.ok_iff.2 hfine
    rw [hok] at hfault
    cases hfault
  · intro hoffends
    obtain ⟨cause, herror, -⟩ := hrefuses.exists_fault hoffends
    exact ⟨.description cause, by rw [herror]; rfl⟩

/-- A text with three offences: an unknown option, a repeated declaration after it, and a repeated name. -/
def overlappingFaults : String := "function g \x7b a -> b [odd] node a node a \x7d function g \x7b \x7d"

/-- Of the three, the repeated declaration is reported. -/
theorem overlappingFaults_refused : Grammar.document.Accepts overlappingFaults.toList ∧
    ∀ log, ((parse overlappingFaults).run log).1 = .error (.description (.declaredTwice ⟨1, 34⟩ "a" "g")) := by
  have haccepts : Grammar.document.Accepts overlappingFaults.toList := by decide +kernel
  obtain ⟨fs, hread, hrefused⟩ := refusal_names_first_offence haccepts
  have hfs : read overlappingFaults.toList = .ok
      [⟨"g", [.edge ⟨"a", "b", [⟨"odd", none, 35⟩]⟩, .node ⟨"a", [], 30⟩, .node ⟨"a", [], 23⟩], 56⟩, ⟨"g", [], 14⟩] := by
    decide +kernel
  obtain rfl := Except.ok.inj (hread.symm.trans hfs)
  have hdecl : ReadAt nodeDecl overlappingFaults.toList 33 ⟨"a", [], 23⟩ :=
    ⟨by decide +kernel, overlappingFaults.toList.drop 39, by decide +kernel⟩
  have hplace : Text.Position.at overlappingFaults.toList 33 = ⟨1, 34⟩ := by decide +kernel
  refine ⟨haccepts, fun log => ((hrefused log).2 _).2 ⟨_, rfl, .ofFunction ⟨[], _, _, rfl, by simp, ?_⟩⟩⟩
  rw [← hplace]
  exact @FunctionDecl.FaultOf.declaredTwice _ _ [⟨"a", [], 30⟩] ⟨"a", [], 23⟩ [] 33 rfl (by decide) (by decide) hdecl

end Flowgraph.Description
