import Flowgraph.Table
/-!
# Tables of lists

The table of a list has a row for each of its members, in the order of the list (`Table.ofList`). Putting a value under a new key
is appending a member (`Table.put_ofList`), so a table that is filled with members of distinct keys one by one is the table of
their list (`Table.foldl_put_ofList`). In the table of a function at some keys every one of these keys can be looked up and given
another value (`Table.entry_tabulate`, `Table.put_tabulate`).
-/

namespace Flowgraph

theorem lookup_map_pair {κ α : Type} [BEq κ] [LawfulBEq κ] (row : κ → α) (l : List κ) {n : κ} (h : n ∈ l) :
    (l.map fun m => (m, row m)).lookup n = some (row n) := by
  induction l with
  | nil => cases h
  | cons m l ih =>
    rw [List.map_cons, List.lookup_cons]
    by_cases hnm : n = m
    · simp [hnm]
    · rw [beq_eq_false_iff_ne.2 hnm]
      exact ih ((List.mem_cons.1 h).resolve_left hnm)

namespace Table

variable {α β : Type} (key : α → Int) (value : α → β)

def ofList (l : List α) : Table β := l.map fun x => (key x, value x)

@[simp] theorem keys_ofList (l : List α) : keys (ofList key value l) = l.map key := by
  simp [keys, ofList, Function.comp_def]

@[simp] theorem values_ofList (l : List α) : values (ofList key value l) = l.map value := by
  simp [values, ofList, Function.comp_def]

theorem put_ofList {l : List α} {x : α} (hnew : key x ∉ l.map key) :
    put (ofList key value l) (key x) (value x) = ofList key value (l ++ [x]) := by
  rw [put, keys_ofList, if_neg hnew]
  simp [ofList]

theorem foldl_put_ofList (l before : List α) (hdistinct : ((before ++ l).map key).Nodup) :
    l.foldl (fun t x => put t (key x) (value x)) (ofList key value before) = ofList key value (before ++ l) := by
  induction l generalizing before with
  | nil => simp
  | cons x l ih =>
    have hnew : key x ∉ before.map key := by
      rw [List.map_append, List.map_cons, List.nodup_append] at hdistinct
      exact fun hx => hdistinct.2.2 _ hx _ (by simp) rfl
    rw [List.foldl_cons, put_ofList key value hnew, ih, List.append_assoc]
    · rfl
    · simpa using hdistinct

/-! ## Tables of functions -/

variable {ks : List Int} {f : Int → α} {k : Int}

/-- The table of a function at some keys. -/
def tabulate (ks : List Int) (f : Int → α) : Table α := ks.map fun k => (k, f k)

@[simp] theorem keys_tabulate : keys (tabulate ks f) = ks := by simp [keys, tabulate, Function.comp_def]

theorem entry_tabulate (hk : k ∈ ks) : entry (tabulate ks f) k = .ok (f k) := by
  rw [entry, tabulate, lookup_map_pair f ks hk]

theorem put_tabulate {h : Int → α} (hk : k ∈ ks) (hother : ∀ m ≠ k, f m = h m) :
    put (tabulate ks f) k (h k) = tabulate ks h := by
  have hkey : k ∈ keys (tabulate ks f) := keys_tabulate.symm ▸ hk
  rw [put, if_pos hkey, tabulate, tabulate, List.map_map]
  refine List.map_congr_left fun m _ => ?_
  by_cases hm : m = k
  · simp [hm]
  · simp [hm, hother m hm]

theorem change_tabulate {h : Int → α} {c : α → α} (hk : k ∈ ks) (hc : c (f k) = h k) (hother : ∀ m ≠ k, f m = h m) :
    change (tabulate ks f) k c = .ok (tabulate ks h) := by
  rw [change, entry_tabulate hk, ← put_tabulate hk hother, ← hc]
  rfl

end Table

end Flowgraph
