import Flowgraph.Proofs.Run
import Flowgraph.Proofs.Store.Lookup
import Flowgraph.Store.Materialize
/-!
# Writing to a store

What writing does is said of the store alone (`Writes`): it has a result and leaves a store behind, whatever the journal notes.
Every way of writing has a rule, and so have sequences of them.

A store in which elements are marked with a tag gains elements of that tag one by one (`Gains`). Along a run of such steps the
elements of the tag are those gained (`GainsAll.perm`), and nothing else happens to the store (`GainsAll.onlyGains`).
-/

namespace Flowgraph

/-! ## Lists that gain tagged elements -/

section Gains

variable {α : Type} {t : String} {l l₁ l' : List (Tagged α)} {x : α} {xs ys : List α}

/-- A list gains an element of a tag: one that is there gets the tag, or a new one with the tag comes last. -/
inductive Gains (t : String) (l : List (Tagged α)) (x : α) : List (Tagged α) → Prop
  | mark {before after : List (Tagged α)} {tags : TagSet} (hl : l = before ++ ⟨x, tags⟩ :: after) (ht : t ∉ tags) :
    Gains t l x (before ++ ⟨x, tags.insert t⟩ :: after)
  | append {tags : TagSet} (ht : t ∈ tags) : Gains t l x (l ++ [⟨x, tags⟩])

/-- A list gains elements of a tag, one after the other. -/
inductive GainsAll (t : String) : List (Tagged α) → List α → List (Tagged α) → Prop
  | nil {l : List (Tagged α)} : GainsAll t l [] l
  | cons {l l₁ l' : List (Tagged α)} {x : α} {xs : List α} :
    Gains t l x l₁ → GainsAll t l₁ xs l' → GainsAll t l (x :: xs) l'

/-- Nothing has happened to a list but that elements got a tag, and that elements with this tag were added at its end. -/
inductive OnlyGains (t : String) : List (Tagged α) → List (Tagged α) → Prop
  | added {l' : List (Tagged α)} (h : ∀ y ∈ l', t ∈ y.tags) : OnlyGains t [] l'
  | kept {x y : Tagged α} {l l' : List (Tagged α)} (hitem : y.item = x.item)
    (htags : y.tags = x.tags ∨ y.tags = x.tags.insert t) (h : OnlyGains t l l') : OnlyGains t (x :: l) (y :: l')

/-- The items that carry a tag. -/
def taggedItems (t : String) (l : List (Tagged α)) : List α := items (l.filter (t ∈ ·.tags))

theorem not_mem_tags_of_taggedItems_eq_nil (h : taggedItems t l = []) {y : Tagged α} (hy : y ∈ l) : t ∉ y.tags := by
  intro ht
  have hmem : y.item ∈ taggedItems t l := List.mem_map_of_mem (List.mem_filter.2 ⟨hy, by simpa using ht⟩)
  rw [h] at hmem
  cases hmem

theorem Gains.perm (h : Gains t l x l') : (taggedItems t l').Perm (x :: taggedItems t l) := by
  cases h with
  | @mark before after tags hl ht =>
    subst hl
    have hmem : t ∈ tags.insert t := TagSet.mem_insert.2 (.inl rfl)
    simp only [taggedItems, items, List.filter_append, List.filter_cons, hmem, ht, decide_true, decide_false, if_true,
      Bool.false_eq_true, if_false, List.map_append, List.map_cons]
    exact List.perm_middle
  | append ht =>
    simp only [taggedItems, items, List.filter_append, List.map_append]
    simp only [List.filter_cons, ht, decide_true, if_true, List.filter_nil, List.map_cons, List.map_nil]
    exact List.perm_append_singleton _ _

theorem GainsAll.perm (h : GainsAll t l xs l') : (taggedItems t l').Perm (xs ++ taggedItems t l) := by
  induction h with
  | nil => exact .refl _
  | cons hx _ ih => exact ih.trans ((hx.perm.append_left _).trans List.perm_middle)

theorem GainsAll.append (h : GainsAll t l xs l₁) (h' : GainsAll t l₁ ys l') : GainsAll t l (xs ++ ys) l' := by
  induction h with
  | nil => exact h'
  | cons hx _ ih => exact .cons hx (ih h')

/-- What does not get the tag stays. -/
theorem Gains.mem {y : Tagged α} (h : Gains t l x l') (hy : y ∈ l) (hne : y.item ≠ x) : y ∈ l' := by
  cases h with
  | mark hl ht =>
    subst hl
    rcases List.mem_append.1 hy with hy | hy
    · exact List.mem_append_left _ hy
    · rcases List.mem_cons.1 hy with rfl | hy
      · exact absurd rfl hne
      · exact List.mem_append_right _ (List.mem_cons_of_mem _ hy)
  | append ht => exact List.mem_append_left _ hy

theorem OnlyGains.refl (t : String) (l : List (Tagged α)) : OnlyGains t l l := by
  induction l with
  | nil => exact .added (by simp)
  | cons x l ih => exact .kept rfl (.inl rfl) ih

theorem OnlyGains.forall_mem (h : OnlyGains t l l') (hl : ∀ x ∈ l, t ∈ x.tags) : ∀ y ∈ l', t ∈ y.tags := by
  induction h with
  | added h => exact h
  | @kept x y l l' hitem htags _ ih =>
    have hx : t ∈ x.tags := hl x (by simp)
    have hy : t ∈ y.tags := by
      rcases htags with htags | htags
      · rwa [htags]
      · rw [htags]
        exact TagSet.mem_insert.2 (.inl rfl)
    simpa using ⟨hy, ih fun z hz => hl z (by simp [hz])⟩

theorem OnlyGains.trans (h : OnlyGains t l l₁) (h' : OnlyGains t l₁ l') : OnlyGains t l l' := by
  induction h generalizing l' with
  | added hadded => exact .added (h'.forall_mem hadded)
  | @kept x y l l₁ hitem htags _ ih =>
    cases h' with
    | @kept _ z _ l' hitem' htags' h' =>
      refine .kept (hitem'.trans hitem) ?_ (ih h')
      have hagain : (x.tags.insert t).insert t = x.tags.insert t :=
        TagSet.insert_of_mem (TagSet.mem_insert.2 (.inl rfl))
      rcases htags with htags | htags <;> rcases htags' with htags' | htags'
      · exact .inl (htags'.trans htags)
      · exact .inr (by rw [htags', htags])
      · exact .inr (htags'.trans htags)
      · exact .inr (by rw [htags', htags, hagain])

theorem Gains.onlyGains (h : Gains t l x l') : OnlyGains t l l' := by
  cases h with
  | @mark before after tags hl ht =>
    subst hl
    induction before with
    | nil => exact .kept rfl (.inr rfl) (.refl t after)
    | cons y before ih => exact .kept rfl (.inl rfl) ih
  | @append tags ht =>
    induction l with
    | nil => exact .added (by simpa using ht)
    | cons y l ih => exact .kept rfl (.inl rfl) ih

theorem GainsAll.onlyGains (h : GainsAll t l xs l') : OnlyGains t l l' := by
  induction h with
  | nil => exact .refl t _
  | cons hx _ ih => exact hx.onlyGains.trans ih

end Gains

/-! ## Writing -/

/-- Writing to a store has a result and leaves a store behind, whatever the journal. -/
def Writes {α : Type} (w : Writing α) (s : Store) (a : α) (s' : Store) : Prop :=
  ∀ j, ∃ j', w.run (j, s) = (.ok a, (j', s'))

namespace Writes

variable {α β : Type} {w : Writing α} {k : α → Writing β} {s s' s₁ : Store} {a : α} {b : β}

protected theorem pure (a : α) (s : Store) : Writes (pure a) s a s := fun j => ⟨j, rfl⟩

protected theorem bind (hw : Writes w s a s₁) (hk : Writes (k a) s₁ b s') : Writes (w >>= k) s b s' := by
  intro j
  obtain ⟨j₁, hw⟩ := hw j
  obtain ⟨j', hk⟩ := hk j₁
  exact ⟨j', by rw [run_bind, hw]; exact hk⟩

theorem after_get {k : Journal × Store → Writing α} (h : ∀ j, Writes (k (j, s)) s a s') : Writes (get >>= k) s a s' :=
  fun j => h j j

theorem mapM_nil (f : α → Writing β) (s : Store) : Writes ([].mapM f) s [] s := fun j => ⟨j, rfl⟩

theorem mapM_cons {f : α → Writing β} {l : List α} {bs : List β} (h : Writes (f a) s b s₁)
    (hl : Writes (l.mapM f) s₁ bs s') : Writes ((a :: l).mapM f) s (b :: bs) s' := by
  rw [List.mapM_cons]
  exact h.bind (hl.bind (.pure _ _))

theorem mapM_append {f : α → Writing β} {l m : List α} {bs cs : List β} (hl : Writes (l.mapM f) s bs s₁)
    (hm : Writes (m.mapM f) s₁ cs s') : Writes ((l ++ m).mapM f) s (bs ++ cs) s' := by
  rw [List.mapM_append]
  exact hl.bind (hm.bind (.pure _ _))

theorem createNode (draft : NodeDraft) (s : Store) :
    Writes (Writing.createNode draft) s (s.createNode draft ∅).1 (s.createNode draft ∅).2 := fun _ => ⟨_, rfl⟩

theorem attempt {f : Journal → Store → Except Fault (α × Journal × Store)}
    (h : ∀ j, ∃ j', f j s = .ok (a, j', s')) : Writes (Writing.attempt f) s a s' := by
  rw [Writing.attempt]
  refine after_get fun j _ => ?_
  obtain ⟨j', h⟩ := h j
  refine ⟨j', ?_⟩
  dsimp only
  rw [h]
  rfl

theorem tag {el : ElementRef} {t : String} {tags : TagSet} (htags : s.tagsOf el = .ok tags) (ht : t ∉ tags) :
    Writes (Writing.tag el t) s () (s.changeTags (·.insert t) el) := by
  refine attempt fun j => ?_
  have htag : s.tag el t = .ok (true, s.changeTags (·.insert t) el) := by
    rw [Store.tag, htags]
    exact if_neg ht
  rw [Journal.tag, htag]
  exact ⟨_, rfl⟩

theorem node {n : Node} {x : Tagged Node} (hx : x ∈ s.nodes) (hid : x.item.id = n.id) :
    Writes (Writing.node n) s x.item s := by
  refine attempt fun j => ⟨j, ?_⟩
  have hfound : s.taggedNode (.node n) = .ok x := Store.taggedNode_eq_ok_iff.2 ⟨hx, hid⟩
  rw [Store.node, hfound]
  rfl

theorem createEdge {src dst : Int} {draft : EdgeDraft} {e : Edge} (h : s.createEdge src dst draft = .ok (e, s')) :
    Writes (Writing.createEdge src dst draft) s e s' := by
  refine attempt fun j => ?_
  rw [Journal.createEdge, h]
  exact ⟨_, rfl⟩

end Writes

namespace Store

theorem nodes_changeTags (s : Store) (f : TagSet → TagSet) (ref : NodeRef) :
    (s.changeTags f (.node ref)).nodes = retag (·.id == ref.key) f s.nodes := rfl

variable {α : Type} {l : List (Tagged α)} {p : α → Bool} {f : TagSet → TagSet} {t : String}

theorem retag_of_forall_not (h : ∀ y ∈ l, p y.item = false) : retag p f l = l :=
  retag_eq_self fun y hy hp => by simp [h y hy] at hp

theorem retag_middle {before after : List (Tagged α)} {x : Tagged α} (hbefore : ∀ y ∈ before, p y.item = false)
    (hx : p x.item) (hafter : ∀ y ∈ after, p y.item = false) :
    retag p f (before ++ x :: after) = before ++ ⟨x.item, f x.tags⟩ :: after := by
  have hsplit : retag p f (before ++ x :: after) =
      retag p f before ++ (if p x.item then { x with tags := f x.tags } else x) :: retag p f after := by
    simp [retag]
  rw [hsplit, retag_of_forall_not hbefore, retag_of_forall_not hafter, if_pos hx]

theorem gains_retag {id : α → Int} (hdistinct : ((items l).map id).Nodup) {x : Tagged α} (hx : x ∈ l) (ht : t ∉ x.tags) :
    Gains t l x.item (retag (id · == id x.item) (·.insert t) l) := by
  obtain ⟨before, after, rfl⟩ := List.append_of_mem hx
  simp only [items, List.map_append, List.map_cons, List.map_map, List.nodup_append, List.nodup_cons, List.mem_map,
    List.mem_cons, Function.comp_apply] at hdistinct
  obtain ⟨-, ⟨hafter, -⟩, hbefore⟩ := hdistinct
  rw [retag_middle ?_ (by simp) ?_]
  · exact .mark rfl ht
  · intro y hy
    simpa using hbefore _ ⟨y, hy, rfl⟩ _ (.inl rfl)
  · intro y hy
    simpa using fun heq => hafter ⟨y, hy, heq⟩

end Store

end Flowgraph
