import Flowgraph.Proofs.Graph.Lookup
import Flowgraph.Proofs.Run
import Flowgraph.Store.Basic
/-!
# Looking elements up in a store

Identities are distinct, so a look-up gives the one element that has the identity (`Store.taggedNode_eq_ok_iff`,
`Store.taggedEdge_eq_ok_iff`), and a tag is added exactly if that element does not carry it yet
(`Store.tag_eq_ok`).
-/

namespace Flowgraph.Store

variable {s s' : Store}

theorem taggedNode_eq_ok_iff {ref : NodeRef} {x : Tagged Node} :
    s.taggedNode ref = .ok x ↔ x ∈ s.nodes ∧ x.item.id = ref.key := by
  have hdistinct : (s.nodes.map (·.item.id)).Nodup := by
    simpa [items, Function.comp_def] using s.wired.nodes_distinct
  rw [← find?_key_eq_some_iff hdistinct, taggedNode]
  split
  · rename_i y h
    rw [h, Except.ok.injEq, Option.some.injEq]
  · rename_i h
    simp [h]

theorem taggedEdge_eq_ok_iff {id : Int} {x : Tagged Edge} :
    s.taggedEdge id = .ok x ↔ x ∈ s.edges ∧ x.item.id = id := by
  have hdistinct : (s.edges.map (·.item.id)).Nodup := by
    simpa [items, Function.comp_def] using s.wired.edges_distinct
  rw [← find?_key_eq_some_iff hdistinct, taggedEdge]
  split
  · rename_i y h
    rw [h, Except.ok.injEq, Option.some.injEq]
  · rename_i h
    simp [h]

theorem tagsOf_node_eq_ok_iff {ref : NodeRef} {tags : TagSet} :
    s.tagsOf (.node ref) = .ok tags ↔ ∃ x ∈ s.nodes, x.item.id = ref.key ∧ x.tags = tags := by
  simp only [tagsOf, map_eq_ok_iff, taggedNode_eq_ok_iff, and_assoc]

theorem tagsOf_edge_eq_ok_iff {id : Int} {tags : TagSet} :
    s.tagsOf (.edge id) = .ok tags ↔ ∃ x ∈ s.edges, x.item.id = id ∧ x.tags = tags := by
  simp only [tagsOf, map_eq_ok_iff, taggedEdge_eq_ok_iff, and_assoc]

theorem tag_eq_ok {el : ElementRef} {t : String} {added : Bool} (h : s.tag el t = .ok (added, s')) :
    ∃ tags, s.tagsOf el = .ok tags ∧
      (t ∈ tags ∧ added = false ∧ s' = s ∨ t ∉ tags ∧ added = true ∧ s' = s.changeTags (·.insert t) el) := by
  rw [tag, bind_eq_ok_iff] at h
  obtain ⟨tags, htags, h⟩ := h
  refine ⟨tags, htags, ?_⟩
  split at h
  · rename_i ht
    cases h
    exact .inl ⟨ht, rfl, rfl⟩
  · rename_i ht
    cases h
    exact .inr ⟨ht, rfl, rfl⟩

theorem createEdge_eq_ok {src dst : Int} {draft : EdgeDraft} {e : Edge} (h : s.createEdge src dst draft = .ok (e, s')) :
    e = draft.withId s.nextEdge src dst ∧ s'.nodes = s.nodes ∧ s'.edges = s.edges ++ [⟨e, draft.tags⟩] ∧
      s'.nextNode = s.nextNode ∧ s'.nextEdge = s.nextEdge + 1 := by
  rw [createEdge] at h
  split at h
  · cases h
    exact ⟨rfl, rfl, rfl, rfl, rfl⟩
  · cases h

theorem exists_createEdge {src dst : Int} (hsrc : src ∈ s.nodeIds) (hdst : dst ∈ s.nodeIds)
    (draft : EdgeDraft) : ∃ s', s.createEdge src dst draft = .ok (draft.withId s.nextEdge src dst, s') := by
  rw [createEdge, dif_pos ⟨hsrc, hdst⟩]
  exact ⟨_, rfl⟩

theorem mem_retag_iff {α : Type} {p : α → Bool} {f : TagSet → TagSet} {l : List (Tagged α)} {y : Tagged α} :
    y ∈ retag p f l ↔ ∃ x ∈ l, y.item = x.item ∧ y.tags = if p x.item then f x.tags else x.tags := by
  simp only [retag, List.mem_map]
  constructor
  · intro h
    obtain ⟨x, hx, rfl⟩ := h
    exact ⟨x, hx, by split <;> simp⟩
  · intro h
    obtain ⟨x, hx, hitem, htags⟩ := h
    refine ⟨x, hx, ?_⟩
    cases y
    split at htags <;> simp_all

theorem retag_eq_self {α : Type} {p : α → Bool} {f : TagSet → TagSet} {l : List (Tagged α)}
    (h : ∀ x ∈ l, p x.item → f x.tags = x.tags) : retag p f l = l := by
  refine (List.map_congr_left fun x hx => ?_).trans (List.map_id l)
  split
  · rename_i hp
    rw [h x hx hp]
    rfl
  · rfl

theorem has_iff {el : ElementRef} : s.has el = true ↔ ∃ tags, s.tagsOf el = .ok tags := by
  cases el with
  | node ref =>
    simp only [has, hasNode, List.any_eq_true, beq_iff_eq, tagsOf_node_eq_ok_iff]
    exact ⟨fun ⟨x, hx, hid⟩ => ⟨x.tags, x, hx, hid, rfl⟩, fun ⟨_, x, hx, hid, _⟩ => ⟨x, hx, hid⟩⟩
  | edge i =>
    simp only [has, hasEdge, List.any_eq_true, beq_iff_eq, tagsOf_edge_eq_ok_iff]
    exact ⟨fun ⟨x, hx, hid⟩ => ⟨x.tags, x, hx, hid, rfl⟩, fun ⟨_, x, hx, hid, _⟩ => ⟨x, hx, hid⟩⟩

end Flowgraph.Store
