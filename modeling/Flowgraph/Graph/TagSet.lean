/-!
# Sets of tags

A set of tags is kept as its members in increasing order, so that two sets with the same members are
equal.
-/

namespace Flowgraph

/-- A finite set of tags. -/
structure TagSet where
  toList : List String
  sorted : toList.Pairwise (· < ·)
  deriving DecidableEq

namespace TagSet

/-- Puts a tag at its place in an increasing list. -/
def place (t : String) : List String → List String
  | [] => [t]
  | u :: us => if t < u then t :: u :: us else if u < t then u :: place t us else u :: us

theorem mem_place {t x : String} {l : List String} : x ∈ place t l ↔ x = t ∨ x ∈ l := by
  induction l with
  | nil => simp [place]
  | cons u us ih =>
    simp only [place]
    split
    · simp
    · split
      · simp only [List.mem_cons, ih]
        grind
      · rename_i h₁ h₂
        have : t = u := by
          rcases Std.lt_trichotomy t u with h | h | h
          · exact absurd h h₁
          · exact h
          · exact absurd h h₂
        grind

theorem sorted_place {t : String} {l : List String} (h : l.Pairwise (· < ·)) :
    (place t l).Pairwise (· < ·) := by
  induction l with
  | nil => simp [place]
  | cons u us ih =>
    simp only [List.pairwise_cons] at h
    simp only [place]
    split
    · rename_i htu
      simp only [List.pairwise_cons, List.mem_cons, forall_eq_or_imp]
      exact ⟨⟨htu, fun x hx => String.lt_trans htu (h.1 x hx)⟩, h.1, h.2⟩
    · split
      · rename_i hut
        simp only [List.pairwise_cons]
        refine ⟨fun x hx => ?_, ih h.2⟩
        rcases mem_place.1 hx with rfl | hx
        · exact hut
        · exact h.1 x hx
      · simpa using h

instance : EmptyCollection TagSet := ⟨⟨[], List.Pairwise.nil⟩⟩

instance : Inhabited TagSet := ⟨∅⟩

instance : Membership String TagSet := ⟨fun s t => t ∈ s.toList⟩

instance (t : String) (s : TagSet) : Decidable (t ∈ s) := inferInstanceAs (Decidable (t ∈ s.toList))

def insert (s : TagSet) (t : String) : TagSet := ⟨place t s.toList, sorted_place s.sorted⟩

def erase (s : TagSet) (t : String) : TagSet := ⟨s.toList.filter (· != t), s.sorted.filter _⟩

def insertAll (s : TagSet) (tags : List String) : TagSet := tags.foldl insert s

def ofList (tags : List String) : TagSet := (∅ : TagSet).insertAll tags

theorem mem_def {t : String} {s : TagSet} : t ∈ s ↔ t ∈ s.toList := Iff.rfl

theorem nodup (s : TagSet) : s.toList.Nodup := by
  refine s.sorted.imp ?_
  intro t u hlt heq
  exact String.lt_irrefl u (heq ▸ hlt)

theorem ext {s t : TagSet} (h : ∀ x, x ∈ s ↔ x ∈ t) : s = t := by
  have hperm : s.toList.Perm t.toList := (List.perm_ext_iff_of_nodup s.nodup t.nodup).2 h
  have hlist : s.toList = t.toList :=
    hperm.eq_of_pairwise (fun x y _ _ hxy hyx => absurd (String.lt_trans hxy hyx) (String.lt_irrefl x)) s.sorted t.sorted
  cases s
  cases t
  cases hlist
  rfl

theorem not_mem_empty (t : String) : t ∉ (∅ : TagSet) := List.not_mem_nil

theorem mem_insert {s : TagSet} {t x : String} : x ∈ s.insert t ↔ x = t ∨ x ∈ s := mem_place

theorem insert_of_mem {s : TagSet} {t : String} (h : t ∈ s) : s.insert t = s := by
  apply ext
  intro x
  rw [mem_insert]
  constructor
  · intro hx
    rcases hx with rfl | hx
    · exact h
    · exact hx
  · exact .inr

theorem mem_erase {s : TagSet} {t x : String} : x ∈ s.erase t ↔ x ∈ s ∧ x ≠ t := by
  simp [mem_def, erase]

theorem erase_of_not_mem {s : TagSet} {t : String} (h : t ∉ s) : s.erase t = s := by
  apply ext
  intro x
  rw [mem_erase]
  exact ⟨fun hx => hx.1, fun hx => ⟨hx, fun heq => h (heq ▸ hx)⟩⟩

theorem mem_insertAll {s : TagSet} {tags : List String} {x : String} :
    x ∈ s.insertAll tags ↔ x ∈ tags ∨ x ∈ s := by
  induction tags generalizing s with
  | nil => simp [insertAll]
  | cons t tags ih =>
    have : s.insertAll (t :: tags) = (s.insert t).insertAll tags := rfl
    rw [this, ih, mem_insert, List.mem_cons]
    grind

end TagSet

end Flowgraph
