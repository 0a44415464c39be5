/-!
# Lists without repetition

`firstRepeat?` finds the first member of a list whose key has occurred before, and there is none exactly when no key
is repeated. `firstPer` keeps the first member of each key. Leaving repetitions out keeps each member at its first place
(`pairwise_eraseDups`).
-/

namespace Flowgraph

section Keys

variable {α κ : Type} [DecidableEq κ] (key : α → κ)

/-- The first member whose key has been seen, in `seen` or earlier in the list. -/
def firstRepeat? (seen : List κ) : List α → Option α
  | [] => none
  | a :: as => if key a ∈ seen then some a else firstRepeat? (key a :: seen) as

/-- The members of which none earlier has the same key, `seen` being the keys of the members before. -/
def firstPer (seen : List κ) : List α → List α
  | [] => []
  | a :: as => if key a ∈ seen then firstPer seen as else a :: firstPer (key a :: seen) as

theorem firstPer_sublist (seen : List κ) (l : List α) : (firstPer key seen l).Sublist l := by
  induction l generalizing seen with
  | nil => exact List.Sublist.refl _
  | cons a l ih =>
    rw [firstPer]
    split
    · exact (ih seen).cons a
    · exact (ih _).cons_cons a

/-- Of the members of a key one stays. -/
theorem mem_keys_firstPer_iff (seen : List κ) (l : List α) (k : κ) :
    k ∈ (firstPer key seen l).map key ↔ k ∈ l.map key ∧ k ∉ seen := by
  induction l generalizing seen with
  | nil => simp [firstPer]
  | cons a l ih =>
    rw [firstPer]
    split
    · rename_i hseen
      rw [ih, List.map_cons, List.mem_cons]
      refine ⟨fun h => ⟨Or.inr h.1, h.2⟩, ?_⟩
      rintro ⟨rfl | hk, hnot⟩
      · exact absurd hseen hnot
      · exact ⟨hk, hnot⟩
    · rename_i hseen
      rw [List.map_cons, List.mem_cons, ih, List.map_cons, List.mem_cons, List.mem_cons, not_or]
      by_cases hk : k = key a
      · simp only [hk, true_or, true_and, true_iff]
        exact hseen
      · simp only [hk, false_or, not_false_eq_true, true_and]

theorem nodup_keys_firstPer (seen : List κ) (l : List α) : ((firstPer key seen l).map key).Nodup := by
  induction l generalizing seen with
  | nil => exact List.nodup_nil
  | cons a l ih =>
    rw [firstPer]
    split
    · exact ih seen
    · rw [List.map_cons, List.nodup_cons, mem_keys_firstPer_iff]
      exact ⟨fun h => h.2 List.mem_cons_self, ih _⟩

/-- The member that stays is the first of its key. -/
theorem find?_of_mem_firstPer {seen : List κ} {l : List α} {a : α} (h : a ∈ firstPer key seen l) :
    l.find? (fun b => key b = key a) = some a := by
  have hkey : key a ∉ seen := ((mem_keys_firstPer_iff key seen l _).1 (List.mem_map_of_mem h)).2
  induction l generalizing seen with
  | nil => cases h
  | cons b l ih =>
    rw [firstPer] at h
    rw [List.find?_cons]
    split at h
    · rename_i hseen
      have hne : key b ≠ key a := fun heq => hkey (heq ▸ hseen)
      rw [decide_eq_false hne]
      exact ih h hkey
    · rcases List.mem_cons.1 h with rfl | h
      · rw [decide_eq_true rfl]
      · have hkey' : key a ∉ key b :: seen := ((mem_keys_firstPer_iff key _ l _).1 (List.mem_map_of_mem h)).2
        have hne : key b ≠ key a := fun heq => hkey' (heq ▸ List.mem_cons_self)
        rw [decide_eq_false hne]
        exact ih h hkey'

variable {key} {l : List α}

theorem firstRepeat?_eq_none_iff {seen : List κ} :
    firstRepeat? key seen l = none ↔ (l.map key).Nodup ∧ ∀ a ∈ l, key a ∉ seen := by
  induction l generalizing seen with
  | nil => simp [firstRepeat?]
  | cons a as ih =>
    simp only [firstRepeat?]
    split
    · simp_all
    · simp only [ih, List.map_cons, List.nodup_cons, List.mem_map, List.mem_cons]
      grind

theorem firstRepeat?_nil_eq_none_iff : firstRepeat? key [] l = none ↔ (l.map key).Nodup := by
  simp [firstRepeat?_eq_none_iff]

end Keys

theorem nodup_eraseDups {β : Type} [BEq β] [LawfulBEq β] (l : List β) : l.eraseDups.Nodup := by
  match l with
  | [] => simp
  | a :: as =>
    rw [List.eraseDups_cons, List.nodup_cons]
    refine ⟨by simp [List.mem_eraseDups], nodup_eraseDups _⟩
  termination_by l.length
  decreasing_by
    have := List.length_filter_le (fun b => !b == a) as
    simp only [List.length_cons]; omega

theorem eraseDups_of_nodup {β : Type} [BEq β] [LawfulBEq β] {l : List β} (h : l.Nodup) : l.eraseDups = l := by
  induction l with
  | nil => rfl
  | cons a as ih =>
    obtain ⟨hfirst, hrest⟩ := List.nodup_cons.1 h
    have hne : ∀ b ∈ as, b ≠ a := fun b hb heq => hfirst (heq ▸ hb)
    have hsame : as.filter (fun b => !b == a) = as := List.filter_eq_self.2 fun b hb => by simpa using hne b hb
    rw [List.eraseDups_cons, hsame, ih hrest]

/-- What is left of a list keeps its order. -/
theorem findIdx_lt_of_filter {β : Type} {p q r : β → Bool} {l : List β}
    (h : (l.filter p).findIdx q < (l.filter p).findIdx r) :
    l.findIdx (fun a => p a && q a) < l.findIdx (fun a => p a && r a) := by
  induction l with
  | nil => exact absurd h (Nat.lt_irrefl 0)
  | cons a as ih =>
    rw [List.findIdx_cons, List.findIdx_cons]
    cases hp : p a with
    | false =>
      rw [List.filter_cons_of_neg (by simp [hp])] at h
      simpa using ih h
    | true =>
      rw [List.filter_cons_of_pos hp, List.findIdx_cons, List.findIdx_cons] at h
      cases hr : r a with
      | true => simp [hr] at h
      | false =>
        cases hq : q a with
        | true => exact Nat.succ_pos _
        | false =>
          rw [hq, hr] at h
          exact Nat.succ_lt_succ (ih (Nat.lt_of_succ_lt_succ h))

/-- The members that stay come in the order of their first places. -/
theorem pairwise_eraseDups {β : Type} [BEq β] [LawfulBEq β] (l : List β) :
    l.eraseDups.Pairwise fun a b => l.idxOf a < l.idxOf b := by
  match l with
  | [] => simp
  | a :: as =>
    have hne : ∀ b ∈ (as.filter fun b => !b == a).eraseDups, b ≠ a := by
      intro b hb
      simpa using (List.mem_filter.1 (List.mem_eraseDups.1 hb)).2
    have hafter : ∀ b, b ≠ a → (a :: as).idxOf b = as.idxOf b + 1 := by
      intro b hb
      rw [List.idxOf_cons, beq_eq_false_iff_ne.2 hb.symm, cond_false]
    rw [List.eraseDups_cons, List.pairwise_cons]
    constructor
    · intro b hb
      rw [List.idxOf_cons_self, hafter b (hne b hb)]
      exact Nat.succ_pos _
    · refine (pairwise_eraseDups (as.filter fun b => !b == a)).imp_of_mem fun {b c} hb hc hless => ?_
      have hpass : ∀ x, x ≠ a → (fun d => (!d == a) && d == x) = fun d => d == x := by
        intro x hx
        funext d
        by_cases hd : d = x
        · simp [hd, hx]
        · simp [hd]
      have hless' := findIdx_lt_of_filter hless
      rw [hpass b (hne b hb), hpass c (hne c hc)] at hless'
      rw [hafter b (hne b hb), hafter c (hne c hc)]
      exact Nat.succ_lt_succ hless'
  termination_by l.length
  decreasing_by
    have := List.length_filter_le (fun b => !b == a) as
    simp only [List.length_cons]; omega

end Flowgraph
