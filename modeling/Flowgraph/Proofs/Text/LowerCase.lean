import Flowgraph.Text.LowerCase
/-!
# Words in lower case

Many scripts have capitals, but few capitals have a small form among the first 128 characters: only the letters A to Z, the
Kelvin sign and the dotted I. So a text is a plain word in lower case exactly if it is that word up to the case of the letters
A to Z (`Text.lower_eq_iff`), as long as the word has neither `i` nor `k`.
-/

namespace Flowgraph.Text

theorem toNat_ofNat {m : Nat} (h : m.isValidChar) : (Char.ofNat m).toNat = m := by
  have hofNat : Char.ofNat m = Char.ofNatAux m h := dif_pos h
  rw [hofNat]
  rfl

theorem toNat_ofNat_cases (m : Nat) : (Char.ofNat m).toNat = m ∨ (Char.ofNat m).toNat = 0 := by
  by_cases h : m.isValidChar
  · exact Or.inl (toNat_ofNat h)
  · have hofNat : Char.ofNat m = Char.ofNat 0 := dif_neg h
    rw [hofNat]
    exact Or.inr rfl

theorem eq_of_toNat_eq {c d : Char} (h : c.toNat = d.toNat) : c = d :=
  Char.ext (UInt32.toNat_inj.1 h)

theorem toNat_toLower (c : Char) :
    c.toLower.toNat = if 65 ≤ c.toNat ∧ c.toNat ≤ 90 then c.toNat + 32 else c.toNat := by
  have hupper : c.val ≥ 'A'.val ∧ c.val ≤ 'Z'.val ↔ 65 ≤ c.toNat ∧ c.toNat ≤ 90 := Iff.rfl
  unfold Char.toLower
  split
  · rename_i h
    rw [if_pos (hupper.1 h)]
    have hsmall : c.val.toNat ≤ 90 := h.2
    show (c.val + 32).toNat = c.val.toNat + 32
    rw [UInt32.toNat_add]
    show (c.val.toNat + 32) % 4294967296 = c.val.toNat + 32
    omega
  · rename_i h
    rw [if_neg (mt hupper.2 h)]

/-- A character that no letter has for its small form but the letters A to Z and itself. -/
def IsPlain (c : Char) : Prop := 0 < c.toNat ∧ c.toNat < 128 ∧ c ≠ 'i' ∧ c ≠ 'k'

instance (c : Char) : Decidable (IsPlain c) := inferInstanceAs (Decidable (_ ∧ _))

/-- Beyond the letters A to Z, small forms stay beyond the first 128 characters, with the exception of the Kelvin sign. -/
theorem smallForms_beyond : ∀ r ∈ smallForms.tail, 128 ≤ r.first ∧
    (128 ≤ r.first + r.offset ∨ r.first = 0x212A ∧ r.last = 0x212A ∧ r.offset = -8383) := by
  have hall : smallForms.tail.all (fun r => 128 ≤ r.first &&
      (128 ≤ r.first + r.offset || r.first == 0x212A && r.last == 0x212A && r.offset == -8383)) := by decide
  simpa [and_assoc] using hall

theorem lowerChar_cases (c : Char) :
    lowerChar c = [c.toLower] ∨
      128 ≤ c.toNat ∧ ∃ d rest, lowerChar c = d :: rest ∧ ¬IsPlain d := by
  unfold lowerChar
  split
  · rename_i h
    exact Or.inr ⟨by omega, 'i', _, rfl, fun hplain => hplain.2.2.1 rfl⟩
  · have hforms : smallForms = ⟨0x41, 0x5A, 1, 32⟩ :: smallForms.tail := rfl
    have hfirst : CaseRun.contains ⟨0x41, 0x5A, 1, 32⟩ c.toNat = true ↔ 65 ≤ c.toNat ∧ c.toNat ≤ 90 := by
      simp [CaseRun.contains, Nat.mod_one]
    rw [hforms]
    by_cases hupper : 65 ≤ c.toNat ∧ c.toNat ≤ 90
    · -- a letter from A to Z
      rw [List.find?_cons_of_pos (p := fun r : CaseRun => r.contains c.toNat) (hfirst.2 hupper)]
      refine Or.inl (congrArg (· :: []) (eq_of_toNat_eq ?_))
      rw [toNat_toLower, if_pos hupper]
      show (Char.ofNat (c.toNat + 32)).toNat = c.toNat + 32
      exact toNat_ofNat (Or.inl (by omega))
    · -- anything else is in a run beyond the first 128 characters, or in none
      rw [List.find?_cons_of_neg (p := fun r : CaseRun => r.contains c.toNat) (mt hfirst.1 hupper)]
      cases hfind : smallForms.tail.find? (·.contains c.toNat) with
      | none =>
        refine Or.inl (congrArg (· :: []) (eq_of_toNat_eq ?_))
        rw [toNat_toLower, if_neg hupper]
      | some r =>
        have hin := List.find?_some hfind
        simp only [CaseRun.contains, Bool.and_eq_true, decide_eq_true_eq] at hin
        obtain ⟨hbeyond, hform⟩ := smallForms_beyond r (List.mem_of_find?_eq_some hfind)
        refine Or.inr ⟨by omega, _, [], rfl, fun hplain => ?_⟩
        obtain ⟨hpos, hlow, -, hk⟩ := hplain
        rcases hform with hform | ⟨hfst, hlast, hoff⟩
        · rcases toNat_ofNat_cases (c.toNat + r.offset).toNat with h | h <;> omega
        · have hc : c.toNat = 0x212A := by omega
          rw [hc, hoff] at hk
          exact hk rfl

theorem lowerCharAt_cases (before : List Char) (c : Char) (after : List Char) :
    lowerCharAt before c after = [c.toLower] ∨
      128 ≤ c.toNat ∧ ∃ d rest, lowerCharAt before c after = d :: rest ∧ ¬IsPlain d := by
  unfold lowerCharAt
  split
  · rename_i h
    refine Or.inr ⟨by omega, _, [], rfl, ?_⟩
    split
    · exact fun hplain => absurd hplain.2.1 (by decide)
    · exact fun hplain => absurd hplain.2.1 (by decide)
  · exact lowerChar_cases c

theorem lowerChars_eq_iff {word : List Char} (hword : ∀ d ∈ word, IsPlain d) (before cs : List Char) :
    lowerChars before cs = word ↔ cs.map Char.toLower = word := by
  induction cs generalizing before word with
  | nil => simp [lowerChars]
  | cons c cs ih =>
    rw [lowerChars, List.map_cons]
    cases word with
    | nil =>
      rcases lowerCharAt_cases before c cs with h | ⟨-, d, rest, h, -⟩
      · simp [h]
      · simp [h]
    | cons d word =>
      have hd := hword d (by simp)
      rcases lowerCharAt_cases before c cs with h | ⟨hc, d', rest, h, hstrange⟩
      · rw [h, List.singleton_append, List.cons.injEq, List.cons.injEq, ih fun x hx => hword x (by simp [hx])]
      · -- such a character is in no plain word, and no word in lower case is made from it
        have hne : d' ≠ d := fun heq => hstrange (heq ▸ hd)
        have hne' : c.toLower ≠ d := by
          rintro rfl
          have hlow := hd.2.1
          rw [toNat_toLower, if_neg (by omega)] at hlow
          omega
        simp [h, hne, hne']

/-- A text in lower case is a plain word exactly if it is the word up to the case of the letters A to Z. -/
theorem lower_eq_iff {word : String} (hword : ∀ d ∈ word.toList, IsPlain d) (s : String) :
    lower s = word ↔ s.toLower = word := by
  have hchars : ∀ t : String, t = word ↔ t.toList = word.toList := fun t => String.toList_inj.symm
  have hmap : s.toLower.toList = s.toList.map Char.toLower := String.toList_map
  rw [hchars (lower s), hchars s.toLower, lower, String.toList_ofList, hmap, lowerChars_eq_iff hword]

end Flowgraph.Text
