import Flowgraph.Graph.Basic
import Flowgraph.Proofs.Table
import Mathlib.Data.List.Nodup
/-!
# Looking nodes up

Identities are distinct, so an identity finds the one node that carries it (`Graph.node?_eq_some_iff`), and a reference
resolves exactly if its identity is one of the graph (`Graph.resolve_eq_ok_iff`, `Graph.exists_resolve_iff`).
-/

namespace Flowgraph

/-- Where keys are distinct, a search by key finds the one member that has it. -/
theorem find?_key_eq_some_iff {α κ : Type} [BEq κ] [LawfulBEq κ] {key : α → κ} {l : List α} (hdistinct : (l.map key).Nodup)
    {k : κ} {x : α} : l.find? (key · == k) = some x ↔ x ∈ l ∧ key x = k := by
  constructor
  · intro h
    exact ⟨List.mem_of_find?_eq_some h, by simpa using List.find?_some h⟩
  · rintro ⟨hx, rfl⟩
    cases hfind : l.find? (key · == key x) with
    | none => simpa using List.find?_eq_none.1 hfind x hx
    | some y =>
      have hy := List.mem_of_find?_eq_some hfind
      have hkey : key y = key x := by simpa using List.find?_some hfind
      rw [List.inj_on_of_nodup_map hdistinct hy hx hkey]

namespace Graph

variable {g : Graph} {n : Node} {ref : NodeRef}

theorem node?_eq_some_iff {id : Int} : g.node? id = some n ↔ n ∈ g.nodes ∧ n.id = id :=
  find?_key_eq_some_iff g.wired.nodes_distinct

theorem resolve_eq_ok_iff : g.resolve ref = .ok n ↔ n ∈ g.nodes ∧ n.id = ref.key := by
  rw [← node?_eq_some_iff, resolve]
  split
  · rename_i m h
    rw [h, Except.ok.injEq, Option.some.injEq]
  · rename_i h
    simp [h]

theorem exists_resolve_iff : (∃ n, g.resolve ref = .ok n) ↔ ref.key ∈ g.nodeIds := by
  simp only [resolve_eq_ok_iff, nodeIds, List.mem_map]

theorem resolve_of_not_mem (h : ref.key ∉ g.nodeIds) : g.resolve ref = .error (.unknownNode .graph ref) := by
  rw [resolve]
  split
  · rename_i n hn
    exact absurd (exists_resolve_iff.1 ⟨n, resolve_eq_ok_iff.2 (node?_eq_some_iff.1 hn)⟩) h
  · rfl

theorem mapM_resolve_eq_ok {refs : List NodeRef} {nodes : List Node} (h : refs.mapM g.resolve = .ok nodes) :
    nodes.map Node.id = refs.map NodeRef.key ∧ ∀ n ∈ nodes, n ∈ g.nodes := by
  induction refs generalizing nodes with
  | nil =>
    cases h
    exact ⟨rfl, by simp⟩
  | cons ref refs ih =>
    rw [List.mapM_cons] at h
    cases hfirst : g.resolve ref with
    | error fault => rw [hfirst] at h; cases h
    | ok n =>
      cases hrest : refs.mapM g.resolve with
      | error fault => rw [hfirst, hrest] at h; cases h
      | ok ns =>
        rw [hfirst, hrest] at h
        cases h
        obtain ⟨hn, hid⟩ := resolve_eq_ok_iff.1 hfirst
        obtain ⟨hids, hns⟩ := ih hrest
        exact ⟨by rw [List.map_cons, List.map_cons, hid, hids], by simpa using ⟨hn, hns⟩⟩

theorem exists_mapM_resolve {refs : List NodeRef} (h : ∀ ref ∈ refs, ref.key ∈ g.nodeIds) :
    ∃ nodes, refs.mapM g.resolve = .ok nodes := by
  induction refs with
  | nil => exact ⟨[], rfl⟩
  | cons ref refs ih =>
    obtain ⟨n, hn⟩ := exists_resolve_iff.2 (h ref (by simp))
    obtain ⟨nodes, hnodes⟩ := ih fun ref' href => h ref' (by simp [href])
    rw [List.mapM_cons, hn, hnodes]
    exact ⟨n :: nodes, rfl⟩

/-- Of several references the first that does not resolve is at fault. -/
theorem mapM_resolve_eq_error {refs : List NodeRef} (h : refs.find? (·.key ∉ g.nodeIds) = some ref) :
    refs.mapM g.resolve = .error (.unknownNode .graph ref) := by
  induction refs with
  | nil => cases h
  | cons first refs ih =>
    rw [List.mapM_cons]
    by_cases hfirst : first.key ∈ g.nodeIds
    · obtain ⟨n, hn⟩ := exists_resolve_iff.2 hfirst
      rw [List.find?_cons_of_neg (by simpa using hfirst)] at h
      rw [hn, ih h]
      rfl
    · rw [List.find?_cons_of_pos (by simpa using hfirst), Option.some.injEq] at h
      rw [← h, resolve_of_not_mem hfirst]
      rfl

theorem mem_lookUp_iff {ids : List Int} : n ∈ g.lookUp ids ↔ n ∈ g.nodes ∧ n.id ∈ ids := by
  simp only [lookUp, List.mem_filterMap, node?_eq_some_iff]
  constructor
  · intro h
    obtain ⟨i, hi, hn, rfl⟩ := h
    exact ⟨hn, hi⟩
  · intro h
    exact ⟨n.id, h.2, h.1, rfl⟩

theorem map_id_lookUp {ids : List Int} (h : ∀ i ∈ ids, i ∈ g.nodeIds) : (g.lookUp ids).map Node.id = ids := by
  induction ids with
  | nil => rfl
  | cons i ids ih =>
    obtain ⟨m, hm, hid⟩ := List.mem_map.1 (h i (by simp))
    rw [lookUp, List.filterMap_cons_some (node?_eq_some_iff.2 ⟨hm, hid⟩), List.map_cons, hid]
    exact congrArg _ (ih fun j hj => h j (by simp [hj]))

theorem mem_pick_iff {ids : List Int} {i : Int} : i ∈ (g.pick ids).map Node.id ↔ i ∈ g.nodeIds ∧ i ∈ ids := by
  simp only [pick, nodeIds, List.mem_map, List.mem_filter, List.contains_iff_mem]
  constructor
  · rintro ⟨n, ⟨hn, hids⟩, rfl⟩
    exact ⟨⟨n, hn, rfl⟩, hids⟩
  · rintro ⟨⟨n, hn, rfl⟩, hids⟩
    exact ⟨n, ⟨hn, hids⟩, rfl⟩

theorem mem_others_iff {ids : List Int} {i : Int} : i ∈ (g.others ids).map Node.id ↔ i ∈ g.nodeIds ∧ i ∉ ids := by
  simp only [others, nodeIds, List.mem_map, List.mem_filter, Bool.not_eq_true', ← Bool.not_eq_true,
    List.contains_iff_mem]
  constructor
  · rintro ⟨n, ⟨hn, hids⟩, rfl⟩
    exact ⟨⟨n, hn, rfl⟩, hids⟩
  · rintro ⟨⟨n, hn, rfl⟩, hids⟩
    exact ⟨n, ⟨hn, hids⟩, rfl⟩

theorem mem_pick_of_not_mem_others {ids : List Int} {i : Int} (hi : i ∈ g.nodeIds)
    (hnot : i ∉ (g.others ids).map Node.id) : i ∈ (g.pick ids).map Node.id := by
  rw [mem_others_iff] at hnot
  by_cases hids : i ∈ ids
  · exact mem_pick_iff.2 ⟨hi, hids⟩
  · exact absurd ⟨hi, hids⟩ hnot

theorem ofLists_eq_ok {nodes : List Node} {edges : List Edge} (h : Wired nodes edges) :
    ofLists nodes edges = .ok ⟨nodes, edges, h⟩ := by
  unfold ofLists
  split
  · rename_i fault hfault
    rw [fault?_eq_none_iff.2 h] at hfault
    cases hfault
  · rfl

end Graph

end Flowgraph
