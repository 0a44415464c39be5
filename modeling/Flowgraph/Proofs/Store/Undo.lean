import Flowgraph.Proofs.Store.Lookup
import Flowgraph.Store.Journal
import Mathlib.Logic.Function.Basic
/-!
# Undoing in a shared store

Clients write to one store, each through a journal of its own, and undo their journals in any order. Once all of them are
undone, the store holds what it held at the start (`Shared.undoing_restores`).

Along the way the store keeps its first elements, in order and with their tags, and whatever it holds beyond them is noted in
a journal that is not undone yet (`Keeps`). Journals may note what is gone already, but never a first element, nor a tag that
one of them carried at the start (`Journal.Foreign`). Both are preserved by every request (`Restorable.step`).
-/

namespace Flowgraph

/-! ## Clients of a store -/

/-- What a client asks for through its journal. -/
inductive Request where
  | createNode (draft : NodeDraft) (tags : TagSet)
  | createEdge (src dst : Int) (draft : EdgeDraft)
  | tag (el : ElementRef) (t : String)
  | undo
  deriving DecidableEq

/-- The journal and the store after a request. One that is refused changes nothing. -/
def Request.perform (j : Journal) (s : Store) : Request → Journal × Store
  | createNode draft tags => (j.createNode s draft tags).2
  | createEdge src dst draft =>
    match j.createEdge s src dst draft with
    | .ok (_, next) => next
    | .error _ => (j, s)
  | tag el t =>
    match j.tag s el t with
    | .ok next => next
    | .error _ => (j, s)
  | undo => j.undo s

/-- A store with the journals of its clients. -/
structure Shared (ι : Type) where
  journals : ι → Journal
  store : Store

namespace Shared

variable {ι : Type}

/-- A store to which no client has written. -/
def opened (s : Store) : Shared ι := ⟨fun _ => {}, s⟩

variable [DecidableEq ι]

/-- A client makes a request. -/
def step (w : Shared ι) (call : ι × Request) : Shared ι :=
  let next := call.2.perform (w.journals call.1) w.store
  ⟨Function.update w.journals call.1 next.1, next.2⟩

/-- Clients make requests one after the other. -/
def run (w : Shared ι) (calls : List (ι × Request)) : Shared ι := calls.foldl step w

end Shared

/-! ## What a list of elements keeps -/

/-- A list of elements has kept those that it had before, which are those of identities below a bound. The others are `owned`,
and tags that were not there before are `added`. -/
structure Preserved {α : Type} (id : α → Int) (bound : Int) (before now : List (Tagged α)) (owned : Int → Prop)
    (added : Int → String → Prop) : Prop where
  items_eq : (items now).filter (fun x => decide (id x < bound)) = items before
  is_owned : ∀ y ∈ now, bound ≤ id y.item → owned (id y.item)
  keeps_tags : ∀ x ∈ before, ∀ y ∈ now, id y.item = id x.item → ∀ t ∈ x.tags, t ∈ y.tags
  is_added : ∀ x ∈ before, ∀ y ∈ now, id y.item = id x.item → ∀ t ∈ y.tags, t ∈ x.tags ∨ added (id y.item) t

namespace Preserved

variable {α : Type} {id : α → Int} {bound : Int} {before now : List (Tagged α)} {owned owned' : Int → Prop}
  {added added' : Int → String → Prop}

theorem lt_bound (h : Preserved id bound before now owned added) {x : α} (hx : x ∈ items before) : id x < bound := by
  rw [← h.items_eq, List.mem_filter] at hx
  simpa using hx.2

theorem refl (hdistinct : ((items now).map id).Nodup) (hbelow : ∀ x ∈ items now, id x < bound) :
    Preserved id bound now now owned added := by
  have hsame : ∀ x ∈ now, ∀ y ∈ now, id y.item = id x.item → y = x := by
    intro x hx y hy hid
    rw [items, List.map_map] at hdistinct
    exact List.inj_on_of_nodup_map hdistinct hy hx hid
  refine ⟨?_, ?_, ?_, ?_⟩
  · exact List.filter_eq_self.2 fun x hx => decide_eq_true (hbelow x hx)
  · intro y hy hge
    have := hbelow y.item (List.mem_map_of_mem hy)
    omega
  · intro x hx y hy hid t ht
    rwa [hsame x hx y hy hid]
  · intro x hx y hy hid t ht
    rw [hsame x hx y hy hid] at ht
    exact .inl ht

theorem mono (h : Preserved id bound before now owned added) (howned : ∀ i, owned i → owned' i)
    (hadded : ∀ i t, added i t → added' i t) : Preserved id bound before now owned' added' where
  items_eq := h.items_eq
  is_owned y hy hge := howned _ (h.is_owned y hy hge)
  keeps_tags := h.keeps_tags
  is_added x hx y hy hid t ht := (h.is_added x hx y hy hid t ht).imp_right (hadded _ t)

theorem append (h : Preserved id bound before now owned added) {z : Tagged α} (hge : bound ≤ id z.item)
    (howned : owned (id z.item)) : Preserved id bound before (now ++ [z]) owned added := by
  have hold : ∀ x ∈ before, ∀ y ∈ now ++ [z], id y.item = id x.item → y ∈ now := by
    intro x hx y hy hid
    rcases List.mem_append.1 hy with hy | hy
    · exact hy
    · rw [List.mem_singleton.1 hy] at hid
      have := h.lt_bound (List.mem_map_of_mem hx)
      omega
  refine ⟨?_, ?_, ?_, ?_⟩
  · have hnew : ¬ id z.item < bound := by omega
    simp only [Store.items_append, Store.items_singleton, List.filter_append, h.items_eq]
    simp [hnew]
  · intro y hy hge
    rcases List.mem_append.1 hy with hy | hy
    · exact h.is_owned y hy hge
    · rwa [List.mem_singleton.1 hy]
  · exact fun x hx y hy hid => h.keeps_tags x hx y (hold x hx y hy hid) hid
  · exact fun x hx y hy hid => h.is_added x hx y (hold x hx y hy hid) hid

/-- Tags of one element change: those that it had before stay, and those that are taken away need not be `added` any more. -/
theorem retag (h : Preserved id bound before now owned added) {i : Int} {f : TagSet → TagSet}
    (hkeep : ∀ x ∈ before, id x.item = i → ∀ t ∈ x.tags, ∀ u : TagSet, t ∈ u → t ∈ f u)
    (hat : ∀ (u : TagSet) t, t ∈ f u → added' i t ∨ t ∈ u ∧ (added i t → added' i t))
    (hother : ∀ k ≠ i, ∀ t, added k t → added' k t) :
    Preserved id bound before (Store.retag (id · == i) f now) owned added' := by
  refine ⟨?_, ?_, ?_, ?_⟩
  · rw [Store.items_retag]
    exact h.items_eq
  · intro y hy hge
    obtain ⟨z, hz, hitem, -⟩ := Store.mem_retag_iff.1 hy
    rw [hitem] at hge ⊢
    exact h.is_owned z hz hge
  · intro x hx y hy hid t ht
    obtain ⟨z, hz, hitem, htags⟩ := Store.mem_retag_iff.1 hy
    rw [hitem] at hid
    have hkept := h.keeps_tags x hx z hz hid t ht
    rw [htags]
    split
    · rename_i hi
      exact hkeep x hx (hid ▸ beq_iff_eq.1 hi) t ht z.tags hkept
    · exact hkept
  · intro x hx y hy hid t ht
    obtain ⟨z, hz, hitem, htags⟩ := Store.mem_retag_iff.1 hy
    rw [hitem] at hid ⊢
    rw [htags] at ht
    split at ht
    · rename_i hi
      rw [beq_iff_eq.1 hi]
      rcases hat z.tags t ht with hnew | ⟨hold, hstays⟩
      · exact .inr hnew
      · refine (h.is_added x hx z hz hid t hold).imp_right fun hadd => hstays ?_
        rwa [beq_iff_eq.1 hi] at hadd
    · rename_i hi
      exact (h.is_added x hx z hz hid t ht).imp_right (hother _ (by simpa using hi) t)

/-- Elements go that were not there before. -/
theorem filter (h : Preserved id bound before now owned added) {p : α → Bool} (hp : ∀ x ∈ items before, p x)
    (howned : ∀ x, p x → owned (id x) → owned' (id x)) :
    Preserved id bound before (now.filter (p ·.item)) owned' added := by
  refine ⟨?_, ?_, ?_, ?_⟩
  · rw [Store.items_filter, List.filter_comm, h.items_eq]
    exact List.filter_eq_self.2 hp
  · intro y hy hge
    obtain ⟨hy, hpy⟩ := List.mem_filter.1 hy
    exact howned _ hpy (h.is_owned y hy hge)
  · exact fun x hx y hy => h.keeps_tags x hx y (List.mem_filter.1 hy).1
  · exact fun x hx y hy => h.is_added x hx y (List.mem_filter.1 hy).1

theorem eq_of_nothing_owned (h : Preserved id bound before now owned added) (howned : ∀ i, ¬owned i)
    (hadded : ∀ i t, ¬added i t) : now = before := by
  have hitems : items now = items before := by
    rw [← h.items_eq]
    refine (List.filter_eq_self.2 fun x hx => ?_).symm
    obtain ⟨y, hy, rfl⟩ := List.mem_map.1 hx
    have : ¬ bound ≤ id y.item := fun hge => howned _ (h.is_owned y hy hge)
    simpa using this
  have hlength : now.length = before.length := by simpa [items] using congrArg List.length hitems
  refine List.ext_getElem hlength fun k hnow hbefore => ?_
  have hitem : now[k].item = before[k].item := by
    have := List.getElem_of_eq hitems (i := k) (by simpa [items] using hnow)
    simpa [items] using this
  have hid : id now[k].item = id before[k].item := congrArg id hitem
  have htags : now[k].tags = before[k].tags := by
    refine TagSet.ext fun t => ⟨fun ht => ?_, fun ht => ?_⟩
    · exact (h.is_added _ (List.getElem_mem hbefore) _ (List.getElem_mem hnow) hid t ht).resolve_right (hadded _ t)
    · exact h.keeps_tags _ (List.getElem_mem hbefore) _ (List.getElem_mem hnow) hid t ht
  cases hy : now[k]
  cases hx : before[k]
  simp_all

end Preserved

/-! ## What a store keeps -/

/-- An element by its identity alone. -/
def ElementRef.plain : ElementRef → ElementRef
  | .node ref => .node (.id ref.key)
  | .edge id => .edge id

/-- A store has kept what another one held. Its other nodes and edges are in `N` and `E`, the other tags of first elements in
`A`. -/
structure Keeps (s₀ s : Store) (N E : Int → Prop) (A : ElementRef → String → Prop) : Prop where
  nodes : Preserved Node.id s₀.nextNode s₀.nodes s.nodes N fun i => A (.node (.id i))
  edges : Preserved Edge.id s₀.nextEdge s₀.edges s.edges E fun i => A (.edge i)
  nextNode_le : s₀.nextNode ≤ s.nextNode
  nextEdge_le : s₀.nextEdge ≤ s.nextEdge

/-- A journal notes no element of a store, and no tag that an element of it carries. -/
structure Journal.Foreign (s₀ : Store) (j : Journal) : Prop where
  nodes : ∀ n ∈ j.nodes, s₀.nextNode ≤ n.id
  edges : ∀ e ∈ j.edges, s₀.nextEdge ≤ e.id
  tags : ∀ el t, (el, t) ∈ j.tags → ∀ tags, s₀.tagsOf el = .ok tags → t ∉ tags

/-- Whether a journal notes a tag of an element. -/
def Journal.NotesTag (j : Journal) (el : ElementRef) (t : String) : Prop := ∃ el', (el', t) ∈ j.tags ∧ el'.plain = el

namespace Keeps

variable {s₀ s s' : Store} {N N' E E' : Int → Prop} {A A' : ElementRef → String → Prop}

theorem refl : Keeps s s N E A where
  nodes := .refl s.wired.nodes_distinct s.nodes_below
  edges := .refl s.wired.edges_distinct s.edges_below
  nextNode_le := Int.le_refl _
  nextEdge_le := Int.le_refl _

theorem mono (h : Keeps s₀ s N E A) (hN : ∀ i, N i → N' i) (hE : ∀ i, E i → E' i) (hA : ∀ el t, A el t → A' el t) :
    Keeps s₀ s N' E' A' where
  nodes := h.nodes.mono hN fun _ => hA _
  edges := h.edges.mono hE fun _ => hA _
  nextNode_le := h.nextNode_le
  nextEdge_le := h.nextEdge_le

theorem createNode (h : Keeps s₀ s N E A) (draft : NodeDraft) (tags : TagSet) (hN : N s.nextNode) :
    Keeps s₀ (s.createNode draft tags).2 N E A where
  nodes := h.nodes.append h.nextNode_le hN
  edges := h.edges
  nextNode_le := Int.le_add_one h.nextNode_le
  nextEdge_le := h.nextEdge_le

theorem createEdge (h : Keeps s₀ s N E A) {src dst : Int} {draft : EdgeDraft} {e : Edge}
    (hcreated : s.createEdge src dst draft = .ok (e, s')) (hE : E e.id) : Keeps s₀ s' N E A := by
  obtain ⟨rfl, hnodes, hedges, hnextNode, hnextEdge⟩ := Store.createEdge_eq_ok hcreated
  refine ⟨?_, ?_, ?_, ?_⟩
  · rw [hnodes]
    exact h.nodes
  · rw [hedges]
    exact h.edges.append h.nextEdge_le hE
  · rw [hnextNode]
    exact h.nextNode_le
  · rw [hnextEdge]
    exact Int.le_add_one h.nextEdge_le

theorem changeTags (h : Keeps s₀ s N E A) {el : ElementRef} {f : TagSet → TagSet}
    (hkeep : ∀ tags, s₀.tagsOf el = .ok tags → ∀ t ∈ tags, ∀ u : TagSet, t ∈ u → t ∈ f u)
    (hat : ∀ (u : TagSet) t, t ∈ f u → A' el.plain t ∨ t ∈ u ∧ (A el.plain t → A' el.plain t))
    (hother : ∀ k ≠ el.plain, ∀ t, A k t → A' k t) : Keeps s₀ (s.changeTags f el) N E A' := by
  cases el with
  | node ref =>
    refine ⟨h.nodes.retag ?_ hat ?_, h.edges.mono (fun _ => id) ?_, h.nextNode_le, h.nextEdge_le⟩
    · intro x hx hid
      exact hkeep x.tags (Store.tagsOf_node_eq_ok_iff.2 ⟨x, hx, hid, rfl⟩)
    · intro k hk
      exact hother _ (by simpa [ElementRef.plain] using hk)
    · intro k
      exact hother _ (by simp [ElementRef.plain])
  | edge i =>
    refine ⟨h.nodes.mono (fun _ => id) ?_, h.edges.retag ?_ hat ?_, h.nextNode_le, h.nextEdge_le⟩
    · intro k
      exact hother _ (by simp [ElementRef.plain])
    · intro x hx hid
      exact hkeep x.tags (Store.tagsOf_edge_eq_ok_iff.2 ⟨x, hx, hid, rfl⟩)
    · intro k hk
      exact hother _ (by simpa [ElementRef.plain] using hk)

theorem tag (h : Keeps s₀ s N E A) {el : ElementRef} {t : String} (hA : A el.plain t) :
    Keeps s₀ (s.changeTags (·.insert t) el) N E A := by
  refine h.changeTags (fun _ _ t' _ u ht' => TagSet.mem_insert.2 (.inr ht')) ?_ (fun _ _ _ hk => hk)
  intro u t' ht'
  rcases TagSet.mem_insert.1 ht' with rfl | ht'
  · exact .inl hA
  · exact .inr ⟨ht', id⟩

theorem dropEdge (h : Keeps s₀ s N E A) {i : Int} (hi : s₀.nextEdge ≤ i) (hE : ∀ k ≠ i, E k → E' k) :
    Keeps s₀ (s.dropEdge i) N E' A := by
  refine ⟨h.nodes, h.edges.filter (p := (·.id != i)) ?_ ?_, h.nextNode_le, h.nextEdge_le⟩
  · intro e he
    have := s₀.edges_below e he
    simp
    omega
  · intro e hne
    exact hE _ (by simpa using hne)

theorem dropNode (h : Keeps s₀ s N E A) {i : Int} (hi : s₀.nextNode ≤ i) (hN : ∀ k ≠ i, N k → N' k) :
    Keeps s₀ (s.dropNode i) N' E A := by
  have hfirst : ∀ k ∈ (items s₀.nodes).map Node.id, k ≠ i := by
    intro k hk
    obtain ⟨n, hn, rfl⟩ := List.mem_map.1 hk
    have := s₀.nodes_below n hn
    omega
  refine ⟨h.nodes.filter (p := (·.id != i)) ?_ ?_, h.edges.filter (p := fun e => e.src != i && e.dst != i) ?_ ?_,
    h.nextNode_le, h.nextEdge_le⟩
  · intro n hn
    simpa using hfirst _ (List.mem_map_of_mem hn)
  · intro n hne
    exact hN _ (by simpa using hne)
  · -- the ends of a first edge are first nodes
    intro e he
    obtain ⟨hsrc, hdst⟩ := s₀.wired.closed e he
    simpa using ⟨hfirst _ hsrc, hfirst _ hdst⟩
  · exact fun _ _ => id

/-! ### Reverting a journal -/

theorem untagAll {L : List (ElementRef × String)}
    (hforeign : ∀ el t, (el, t) ∈ L → ∀ tags, s₀.tagsOf el = .ok tags → t ∉ tags)
    (h : Keeps s₀ s N E fun el t => A el t ∨ ∃ el', (el', t) ∈ L ∧ el'.plain = el) :
    Keeps s₀ (L.foldl (fun s (el, t) => s.changeTags (·.erase t) el) s) N E A := by
  induction L generalizing s with
  | nil => exact h.mono (fun _ => id) (fun _ => id) (by simp)
  | cons note L ih =>
    obtain ⟨el, t⟩ := note
    refine ih (fun el t hL => hforeign el t (by simp [hL])) (h.changeTags ?_ ?_ ?_)
    · intro tags htags t' ht' u hu
      have hne : t' ≠ t := fun heq => hforeign el t (by simp) tags htags (heq ▸ ht')
      exact TagSet.mem_erase.2 ⟨hu, hne⟩
    · intro u t' ht'
      obtain ⟨hu, hne⟩ := TagSet.mem_erase.1 ht'
      refine .inr ⟨hu, Or.imp_right ?_⟩
      intro hnoted
      obtain ⟨el', hmem, hplain⟩ := hnoted
      exact ⟨el', by simpa [hne] using hmem, hplain⟩
    · intro k hk t'
      refine Or.imp_right ?_
      intro hnoted
      obtain ⟨el', hmem, rfl⟩ := hnoted
      have hne : el' ≠ el := fun heq => hk (heq ▸ rfl)
      exact ⟨el', by simpa [hne] using hmem, rfl⟩

theorem dropEdges {L : List Edge} (hforeign : ∀ e ∈ L, s₀.nextEdge ≤ e.id)
    (h : Keeps s₀ s N (fun i => E i ∨ i ∈ L.map Edge.id) A) :
    Keeps s₀ (L.foldl (fun s e => s.dropEdge e.id) s) N E A := by
  induction L generalizing s with
  | nil => exact h.mono (fun _ => id) (by simp) (fun _ _ => id)
  | cons e L ih =>
    refine ih (fun f hf => hforeign f (by simp [hf])) (h.dropEdge (hforeign e (by simp)) ?_)
    intro k hk
    exact Or.imp_right fun hmem => by simpa [hk] using hmem

theorem dropNodes {L : List Node} (hforeign : ∀ n ∈ L, s₀.nextNode ≤ n.id)
    (h : Keeps s₀ s (fun i => N i ∨ i ∈ L.map Node.id) E A) :
    Keeps s₀ (L.foldl (fun s n => s.dropNode n.id) s) N E A := by
  induction L generalizing s with
  | nil => exact h.mono (by simp) (fun _ => id) (fun _ _ => id)
  | cons n L ih =>
    refine ih (fun m hm => hforeign m (by simp [hm])) (h.dropNode (hforeign n (by simp)) ?_)
    intro k hk
    exact Or.imp_right fun hmem => by simpa [hk] using hmem

/-- After a journal is reverted, only what others note is left beyond the first elements. -/
theorem revert {j : Journal} (hforeign : j.Foreign s₀)
    (h : Keeps s₀ s (fun i => N i ∨ i ∈ j.nodes.map Node.id) (fun i => E i ∨ i ∈ j.edges.map Edge.id)
      fun el t => A el t ∨ j.NotesTag el t) :
    Keeps s₀ (j.revert s) N E A := by
  refine dropNodes (fun n hn => hforeign.nodes n (List.mem_reverse.1 hn)) ?_
  refine dropEdges (fun e he => hforeign.edges e (List.mem_reverse.1 he)) ?_
  refine untagAll (fun el t hmem => hforeign.tags el t (List.mem_reverse.1 hmem)) ?_
  simpa only [List.map_reverse, List.mem_reverse, Journal.NotesTag] using h

end Keeps

/-! ## What a request writes -/

/-- What a request that is no undoing can do to a journal and a store. -/
inductive Written (j : Journal) (s : Store) : Journal → Store → Prop
  | nothing : Written j s j s
  | node (draft : NodeDraft) (tags : TagSet) :
    Written j s { j with nodes := j.nodes ++ [(s.createNode draft tags).1] } (s.createNode draft tags).2
  | edge {src dst : Int} {draft : EdgeDraft} {e : Edge} {s' : Store} (h : s.createEdge src dst draft = .ok (e, s')) :
    Written j s { j with edges := j.edges ++ [e] } s'
  | tag {el : ElementRef} {t : String} {tags : TagSet} (h : s.tagsOf el = .ok tags) (ht : t ∉ tags) :
    Written j s { j with tags := j.tags ++ [(el, t)] } (s.changeTags (·.insert t) el)

theorem Request.written_perform {r : Request} (hr : r ≠ .undo) (j : Journal) (s : Store) :
    Written j s (r.perform j s).1 (r.perform j s).2 := by
  cases r with
  | undo => exact absurd rfl hr
  | createNode draft tags => exact .node draft tags
  | createEdge src dst draft =>
    rw [perform]
    split
    · rename_i e next h
      rw [Journal.createEdge, bind_eq_ok_iff] at h
      obtain ⟨⟨e', s'⟩, hcreated, h⟩ := h
      cases h
      exact .edge hcreated
    · exact .nothing
  | tag el t =>
    rw [perform]
    split
    · rename_i next h
      rw [Journal.tag, bind_eq_ok_iff] at h
      obtain ⟨⟨added, s'⟩, htag, h⟩ := h
      cases h
      obtain ⟨tags, htags, ⟨_, rfl, rfl⟩ | ⟨ht, rfl, rfl⟩⟩ := Store.tag_eq_ok htag
      · exact .nothing
      · exact .tag htags ht
    · exact .nothing

namespace Written

variable {j j' : Journal} {s₀ s s' : Store} {N E : Int → Prop} {A : ElementRef → String → Prop}

theorem undone_eq (h : Written j s j' s') : j'.undone = j.undone := by
  cases h <;> rfl

theorem subset (h : Written j s j' s') : j.nodes ⊆ j'.nodes ∧ j.edges ⊆ j'.edges ∧ j.tags ⊆ j'.tags := by
  cases h <;> simp

/-- What is written is new, so the journal stays foreign. -/
theorem foreign (h : Written j s j' s') (hkeeps : Keeps s₀ s N E A) (hj : j.Foreign s₀) : j'.Foreign s₀ := by
  cases h with
  | nothing => exact hj
  | node draft tags =>
    refine ⟨?_, hj.edges, hj.tags⟩
    intro n hn
    rcases List.mem_append.1 hn with hn | hn
    · exact hj.nodes n hn
    · rw [List.mem_singleton.1 hn]
      exact hkeeps.nextNode_le
  | edge hcreated =>
    refine ⟨hj.nodes, ?_, hj.tags⟩
    intro e he
    rcases List.mem_append.1 he with he | he
    · exact hj.edges e he
    · rw [List.mem_singleton.1 he, (Store.createEdge_eq_ok hcreated).1]
      exact hkeeps.nextEdge_le
  | @tag el t tags htags ht =>
    refine ⟨hj.nodes, hj.edges, ?_⟩
    intro el' t' hmem first hfirst
    rcases List.mem_append.1 hmem with hmem | hmem
    · exact hj.tags el' t' hmem first hfirst
    · -- a tag that the element carried at the start is still there
      cases List.mem_singleton.1 hmem
      intro hin
      cases el with
      | node ref =>
        obtain ⟨x, hx, hid, rfl⟩ := Store.tagsOf_node_eq_ok_iff.1 hfirst
        obtain ⟨y, hy, hid', rfl⟩ := Store.tagsOf_node_eq_ok_iff.1 htags
        exact ht (hkeeps.nodes.keeps_tags x hx y hy (hid'.trans hid.symm) t hin)
      | edge i =>
        obtain ⟨x, hx, hid, rfl⟩ := Store.tagsOf_edge_eq_ok_iff.1 hfirst
        obtain ⟨y, hy, hid', rfl⟩ := Store.tagsOf_edge_eq_ok_iff.1 htags
        exact ht (hkeeps.edges.keeps_tags x hx y hy (hid'.trans hid.symm) t hin)

theorem keeps (h : Written j s j' s') (hkeeps : Keeps s₀ s N E A) (hN : ∀ i ∈ j'.nodes.map Node.id, N i)
    (hE : ∀ i ∈ j'.edges.map Edge.id, E i) (hA : ∀ el t, j'.NotesTag el t → A el t) : Keeps s₀ s' N E A := by
  cases h with
  | nothing => exact hkeeps
  | node draft tags =>
    refine hkeeps.createNode draft tags (hN _ ?_)
    simp [Store.createNode]
  | edge hcreated =>
    refine hkeeps.createEdge hcreated (hE _ ?_)
    simp
  | @tag el t tags htags ht =>
    refine hkeeps.tag (hA _ t ⟨el, ?_, rfl⟩)
    simp

end Written

/-! ## Runs -/

namespace Shared

variable {ι : Type} {w : Shared ι} {p q : Journal → Prop}

/-- Whether a journal that is not undone notes something. -/
def Noted (w : Shared ι) (p : Journal → Prop) : Prop := ∃ k, (w.journals k).undone = false ∧ p (w.journals k)

/-- What holds of a shared store until everything is undone: it has kept what it held at the start, and what it holds beyond
that is noted in journals that are foreign to the start. -/
structure Restorable (s₀ : Store) (w : Shared ι) : Prop where
  keeps : Keeps s₀ w.store (fun i => w.Noted (i ∈ ·.nodes.map Node.id)) (fun i => w.Noted (i ∈ ·.edges.map Edge.id))
    fun el t => w.Noted (·.NotesTag el t)
  foreign : ∀ k, (w.journals k).Foreign s₀

theorem restorable_opened (s : Store) : (opened s : Shared ι).Restorable s where
  keeps := .refl
  foreign _ := ⟨by simp [opened], by simp [opened], by simp [opened]⟩

variable [DecidableEq ι] {k : ι} {r : Request} {s₀ : Store} {calls : List (ι × Request)}

@[simp] theorem journals_step_self : (w.step (k, r)).journals k = (r.perform (w.journals k) w.store).1 := by
  simp [step]

theorem journals_step_of_ne {m : ι} (h : m ≠ k) : (w.step (k, r)).journals m = w.journals m := by
  simp [step, h]

theorem Restorable.write (h : w.Restorable s₀) (hr : r ≠ .undo) (hopen : (w.journals k).undone = false) :
    (w.step (k, r)).Restorable s₀ := by
  have hwritten := Request.written_perform hr (w.journals k) w.store
  have hundone : ((w.step (k, r)).journals k).undone = false := by
    rw [journals_step_self, hwritten.undone_eq, hopen]
  -- what is noted stays noted
  have hmono : ∀ p : Journal → Prop, (p (w.journals k) → p ((w.step (k, r)).journals k)) →
      w.Noted p → (w.step (k, r)).Noted p := by
    intro p hp hnoted
    obtain ⟨m, hm, hpm⟩ := hnoted
    by_cases hmk : m = k
    · subst hmk
      exact ⟨m, hundone, hp hpm⟩
    · refine ⟨m, ?_, ?_⟩
      · rwa [journals_step_of_ne hmk]
      · rwa [journals_step_of_ne hmk]
  obtain ⟨hnodes, hedges, htags⟩ := hwritten.subset
  rw [← journals_step_self] at hnodes hedges htags
  have hkeeps := h.keeps.mono (fun i => hmono (i ∈ ·.nodes.map Node.id) fun hi => List.map_subset _ hnodes hi)
    (fun i => hmono (i ∈ ·.edges.map Edge.id) fun hi => List.map_subset _ hedges hi)
    (fun el t => hmono (·.NotesTag el t) fun ⟨el', hmem, hplain⟩ => ⟨el', htags hmem, hplain⟩)
  refine ⟨?_, ?_⟩
  · rw [← journals_step_self] at hwritten
    exact hwritten.keeps hkeeps (fun i hi => ⟨k, hundone, hi⟩) (fun i hi => ⟨k, hundone, hi⟩)
      (fun el t ht => ⟨k, hundone, ht⟩)
  · intro m
    by_cases hmk : m = k
    · subst hmk
      rw [journals_step_self]
      exact hwritten.foreign h.keeps (h.foreign m)
    · rw [journals_step_of_ne hmk]
      exact h.foreign m

theorem Restorable.undo (h : w.Restorable s₀) : (w.step (k, .undo)).Restorable s₀ := by
  by_cases hundone : (w.journals k).undone
  · have hsame : w.step (k, .undo) = w := by
      simp [step, Request.perform, Journal.undo, hundone]
    rw [hsame]
    exact h
  · have hperform : Request.undo.perform (w.journals k) w.store =
        ({ w.journals k with undone := true }, (w.journals k).revert w.store) := by
      simp [Request.perform, Journal.undo, hundone]
    have hsplit : ∀ p : Journal → Prop, w.Noted p → (w.step (k, .undo)).Noted p ∨ p (w.journals k) := by
      intro p hnoted
      obtain ⟨m, hm, hpm⟩ := hnoted
      by_cases hmk : m = k
      · exact .inr (hmk ▸ hpm)
      · refine .inl ⟨m, ?_, ?_⟩
        · rwa [journals_step_of_ne hmk]
        · rwa [journals_step_of_ne hmk]
    refine ⟨?_, ?_⟩
    · have hstore : (w.step (k, .undo)).store = (w.journals k).revert w.store := by rw [step, hperform]
      rw [hstore]
      exact .revert (h.foreign k) (h.keeps.mono (fun i => hsplit _) (fun i => hsplit _) fun el t => hsplit _)
    · intro m
      by_cases hmk : m = k
      · subst hmk
        rw [journals_step_self, hperform]
        exact ⟨(h.foreign m).nodes, (h.foreign m).edges, (h.foreign m).tags⟩
      · rw [journals_step_of_ne hmk]
        exact h.foreign m

theorem undone_step_iff {m : ι} :
    ((w.step (k, r)).journals m).undone = true ↔ (w.journals m).undone = true ∨ (k, r) = (m, .undo) := by
  by_cases hmk : m = k
  · subst hmk
    rw [journals_step_self]
    by_cases hr : r = .undo
    · subst hr
      simp only [Request.perform, Journal.undo]
      split <;> simp_all
    · rw [(Request.written_perform hr _ _).undone_eq]
      simp [hr]
  · rw [journals_step_of_ne hmk]
    simp [Ne.symm hmk]

theorem undone_run_iff {m : ι} :
    ((w.run calls).journals m).undone = true ↔ (w.journals m).undone = true ∨ (m, .undo) ∈ calls := by
  induction calls generalizing w with
  | nil => simp [run]
  | cons call calls ih =>
    rw [run, List.foldl_cons, ← run, ih, undone_step_iff, List.mem_cons, or_assoc, @eq_comm _ call]

theorem journals_run_of_not_mem {m : ι} (h : ∀ call ∈ calls, call.1 ≠ m) : (w.run calls).journals m = w.journals m := by
  induction calls generalizing w with
  | nil => rfl
  | cons call calls ih =>
    rw [run, List.foldl_cons, ← run, ih fun c hc => h c (by simp [hc])]
    exact journals_step_of_ne (h call (by simp)).symm

/-- A run stays restorable, if no client writes after it has undone its journal. -/
theorem Restorable.run (h : w.Restorable s₀) (hopen : ∀ call ∈ calls, (w.journals call.1).undone = true → call.2 = .undo)
    (hlast : calls.Pairwise fun earlier later => earlier.2 = .undo → later.1 = earlier.1 → later.2 = .undo) :
    (w.run calls).Restorable s₀ := by
  induction calls generalizing w with
  | nil => exact h
  | cons call calls ih =>
    obtain ⟨k, r⟩ := call
    obtain ⟨hfirst, hrest⟩ := List.pairwise_cons.1 hlast
    have hstep : (w.step (k, r)).Restorable s₀ := by
      by_cases hr : r = .undo
      · exact hr ▸ h.undo
      · exact h.write hr (Bool.eq_false_iff.2 fun hundone => hr (hopen (k, r) (by simp) hundone))
    refine ih hstep ?_ hrest
    intro later hlater hundone
    rcases undone_step_iff.1 hundone with hundone | heq
    · exact hopen later (by simp [hlater]) hundone
    · cases heq
      exact hfirst later hlater rfl rfl

/-- Clients of a store write through journals of their own, none of them after it has undone its journal. Once every client that
has made a request has undone its journal, in whatever order and however often, the store holds the same nodes and edges as
before, with the same tags. -/
theorem undoing_restores (s : Store) (calls : List (ι × Request))
    (hlast : calls.Pairwise fun earlier later => earlier.2 = .undo → later.1 = earlier.1 → later.2 = .undo)
    (hundone : ∀ call ∈ calls, (call.1, .undo) ∈ calls) :
    ((opened s).run calls).store.nodes = s.nodes ∧ ((opened s).run calls).store.edges = s.edges := by
  have hfinal : ((opened s).run calls).Restorable s :=
    (restorable_opened s).run (fun _ _ h => by simp [opened] at h) hlast
  have hnone : ∀ p : Journal → Prop, ¬p {} → ¬((opened s).run calls).Noted p := by
    intro p hempty hnoted
    obtain ⟨k, hopen, hp⟩ := hnoted
    have hsilent : ∀ call ∈ calls, call.1 ≠ k := by
      intro call hcall hk
      have hmem := hundone call hcall
      rw [hk] at hmem
      rw [undone_run_iff.2 (.inr hmem)] at hopen
      cases hopen
    rw [journals_run_of_not_mem hsilent] at hp
    exact hempty hp
  refine ⟨hfinal.keeps.nodes.eq_of_nothing_owned ?_ ?_, hfinal.keeps.edges.eq_of_nothing_owned ?_ ?_⟩
  · exact fun i => hnone _ (by simp)
  · exact fun i t => hnone _ (by simp [Journal.NotesTag])
  · exact fun i => hnone _ (by simp)
  · exact fun i t => hnone _ (by simp [Journal.NotesTag])

/-- A store with two nodes and an edge that carries a tag. -/
def pairStore : Store :=
  .ofGraph ⟨[{ id := 0, name := "a" }, { id := 1, name := "b" }],
    [{ id := 0, src := 0, dst := 1, tags := .ofList ["kept"] }], ⟨by decide, by decide, by decide⟩⟩

/-- Requests of two clients that tag and connect what the other one has created. The first undoing takes an edge of the other
client along, and frees a tag that the other client then gives itself. -/
def crossedCalls : List (Bool × Request) :=
  [(false, .createNode { name := "c" } ∅), (false, .tag (.node (.id 0)) "seen"), (true, .createEdge 0 2 {}),
    (true, .tag (.node (.id 2)) "mine"), (true, .tag (.node (.id 0)) "seen"), (true, .tag (.edge 0) "kept"),
    (false, .tag (.edge 1) "seen"), (true, .createEdge 0 9 {}), (false, .undo), (true, .tag (.node (.id 0)) "seen"),
    (true, .tag (.edge 1) "late"), (true, .undo), (false, .undo)]

theorem undoing_restores_crossedCalls :
    crossedCalls.Pairwise (fun earlier later => earlier.2 = .undo → later.1 = earlier.1 → later.2 = .undo) ∧
    (∀ call ∈ crossedCalls, (call.1, .undo) ∈ crossedCalls) ∧
    ((opened pairStore).run crossedCalls).store.nodes = pairStore.nodes ∧
    ((opened pairStore).run crossedCalls).store.edges = pairStore.edges := by
  have hlast : crossedCalls.Pairwise
      fun earlier later => earlier.2 = .undo → later.1 = earlier.1 → later.2 = .undo := by decide
  have hundone : ∀ call ∈ crossedCalls, (call.1, .undo) ∈ crossedCalls := by decide
  exact ⟨hlast, hundone, undoing_restores pairStore crossedCalls hlast hundone⟩

end Shared

end Flowgraph
