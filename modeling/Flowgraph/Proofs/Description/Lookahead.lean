import Flowgraph.Proofs.Description.Grammar
/-!
# How far the grammar looks ahead

A rule of the grammar may look at more than it reads: a word is only over where no further character comes, and an attempt that
is given up, as at quotes that are never closed, may have gone to the end of the text. None of this reaches beyond the brace that
closes a function. Where a function is read, every attempt that was given up failed for a reason that stands before the brace:
what is left at that point must go on with a statement or with the brace, and a quotation mark or a bracket is neither.

An expression is `Steady` if it reads the same of two texts that agree up to a closing brace. Steadiness goes through the ways of
composing expressions, where the condition on what is left is handed on (`Steady.seq`, `Steady.star`), up to functions
(`Grammar.exists_closing`).
-/

namespace Flowgraph.Description

open Text (isLayout)

/-! ## Texts that agree up to a closing brace -/

/-- Whether two texts are the same up to a closing brace. -/
def Alike (s s' : List Char) : Prop := ∃ v x y, s = v ++ '\x7d' :: x ∧ s' = v ++ '\x7d' :: y

theorem alike_brace (x y : List Char) : Alike ('\x7d' :: x) ('\x7d' :: y) := ⟨[], x, y, rfl, rfl⟩

namespace Alike

variable {s s' : List Char} {p : Char → Bool}

theorem append (u : List Char) (h : Alike s s') : Alike (u ++ s) (u ++ s') := by
  obtain ⟨v, x, y, rfl, rfl⟩ := h
  exact ⟨u ++ v, x, y, (List.append_assoc ..).symm, (List.append_assoc ..).symm⟩

theorem exists_cons (h : Alike s s') : ∃ c t t', s = c :: t ∧ s' = c :: t' := by
  obtain ⟨v, x, y, rfl, rfl⟩ := h
  cases v with
  | nil => exact ⟨_, x, y, rfl, rfl⟩
  | cons c v => exact ⟨c, _, _, rfl, rfl⟩

theorem head?_eq (h : Alike s s') : s'.head? = s.head? := by
  obtain ⟨c, t, t', rfl, rfl⟩ := h.exists_cons
  rfl

theorem stops (h : Alike s s') (hs : Stops p s) : Stops p s' := by
  rw [Stops, h.head?_eq]
  exact hs

theorem takeWhile_eq (h : Alike s s') (hp : p '\x7d' = false) : s'.takeWhile p = s.takeWhile p := by
  obtain ⟨v, x, y, rfl, rfl⟩ := h
  induction v with
  | nil => simp [hp]
  | cons c v ih => rw [List.cons_append, List.cons_append, List.takeWhile_cons, List.takeWhile_cons, ih]

theorem dropWhile (h : Alike s s') (hp : p '\x7d' = false) : Alike (s.dropWhile p) (s'.dropWhile p) := by
  obtain ⟨v, x, y, rfl, rfl⟩ := h
  induction v with
  | nil =>
    rw [List.nil_append, List.nil_append, dropWhile_of_stops (stops_cons.2 hp), dropWhile_of_stops (stops_cons.2 hp)]
    exact alike_brace x y
  | cons c v ih =>
    rw [List.cons_append, List.cons_append, List.dropWhile_cons, List.dropWhile_cons]
    split
    · exact ih
    · exact ⟨c :: v, x, y, rfl, rfl⟩

theorem literal_eq_none (h : Alike s s') {w : List Char} (hw : '\x7d' ∉ w) (hs : literal w s = none) : literal w s' = none := by
  obtain ⟨v, x, y, rfl, rfl⟩ := h
  induction w generalizing v with
  | nil => cases hs
  | cons a w ih =>
    cases v with
    | nil =>
      have ha : a ≠ '\x7d' := by
        rintro rfl
        exact hw List.mem_cons_self
      exact if_neg ha
    | cons c v =>
      rw [List.cons_append, literal] at hs ⊢
      split
      · rename_i hac
        rw [if_pos hac] at hs
        exact ih (fun hmem => hw (List.mem_cons_of_mem a hmem)) v hs
      · rfl

end Alike

/-! ## What expressions leave -/

namespace Peg

theorem run_char_eq_some_iff {p : Char → Bool} {s r : List Char} :
    (char p).run s = some r ↔ ∃ c, s = c :: r ∧ p c = true := by
  cases s with
  | nil => simp [run]
  | cons c s =>
    rw [run]
    split
    · rename_i hc
      simp [hc]
    · rename_i hc
      simp [hc]

theorem run_char_eq_none_iff {p : Char → Bool} {s : List Char} : (char p).run s = none ↔ Stops p s := by
  cases s with
  | nil => simp [run, Stops]
  | cons c s => simp [run, stops_cons]

theorem repeated_suffix {step : List Char → Option (List Char)} (h : ∀ s r, step s = some r → r <:+ s) (s : List Char) :
    repeated step s <:+ s := by
  fun_induction repeated step s with
  | case1 s hnone => exact List.suffix_rfl
  | case2 s r hsome hshorter ih => exact ih.trans (h s r hsome)
  | case3 s r hsome hlong => exact List.suffix_rfl

theorem run_suffix (p : Peg) {s r : List Char} (h : p.run s = some r) : r <:+ s := by
  induction p generalizing s r with
  | char p =>
    obtain ⟨c, rfl, -⟩ := run_char_eq_some_iff.1 h
    exact List.suffix_cons c r
  | text w =>
    rw [run_text] at h
    exact ⟨_, (eq_append_of_literal h).symm⟩
  | empty => exact Option.some.inj h ▸ List.suffix_rfl
  | seq p q ihp ihq =>
    obtain ⟨t, ht, hr⟩ := Option.bind_eq_some_iff.1 h
    exact (ihq hr).trans (ihp ht)
  | choice p q ihp ihq =>
    rcases Option.or_eq_some_iff.1 h with h | ⟨-, h⟩
    · exact ihp h
    · exact ihq h
  | star p ih =>
    rw [run_star, Option.some.injEq] at h
    exact h ▸ repeated_suffix (fun _ _ => ih) s
  | absent p ih =>
    rw [run] at h
    split at h
    · cases h
    · exact Option.some.inj h ▸ List.suffix_rfl

/-- Whether an expression may apply without reading anything. -/
def nullable : Peg → Bool
  | char _ => false
  | text w => w.toList.isEmpty
  | empty => true
  | seq p q => p.nullable && q.nullable
  | choice p q => p.nullable || q.nullable
  | star _ => true
  | absent _ => true

theorem length_lt_of_run {p : Peg} (hp : p.nullable = false) {s r : List Char} (h : p.run s = some r) : r.length < s.length := by
  induction p generalizing s r with
  | char p =>
    obtain ⟨c, rfl, -⟩ := run_char_eq_some_iff.1 h
    exact Nat.lt_succ_self _
  | text w =>
    rw [run_text] at h
    have hlength := congrArg List.length (eq_append_of_literal h)
    have hpos : 0 < w.toList.length := List.length_pos_iff.2 (List.isEmpty_eq_false_iff.1 hp)
    rw [List.length_append] at hlength
    omega
  | empty => cases hp
  | seq p q ihp ihq =>
    obtain ⟨t, ht, hr⟩ := Option.bind_eq_some_iff.1 h
    have hpt := (p.run_suffix ht).length_le
    have hqr := (q.run_suffix hr).length_le
    rcases Bool.and_eq_false_iff.1 hp with hp | hq
    · have := ihp hp ht
      omega
    · have := ihq hq hr
      omega
  | choice p q ihp ihq =>
    obtain ⟨hp, hq⟩ := Bool.or_eq_false_iff.1 hp
    rcases Option.or_eq_some_iff.1 h with h | ⟨-, h⟩
    · exact ihp hp h
    · exact ihq hq h
  | star p => cases hp
  | absent p => cases hp

end Peg

/-! ## Steadiness -/

/-- Whether an expression that leaves something fit reads the same where that is replaced by something alike. -/
def Steady (p : Peg) (fit : List Char → Prop) : Prop :=
  ∀ u r r', p.run (u ++ r) = some r → fit r → Alike r r' → p.run (u ++ r') = some r'

section Steady

variable {p q : Peg} {fit fit' : List Char → Prop}

theorem Steady.mono (h : Steady p fit) (hfit : ∀ r, fit' r → fit r) : Steady p fit' :=
  fun u r r' hr hr' => h u r r' hr (hfit r hr')

theorem steady_empty : Steady .empty fit := by
  intro u r r' h _ _
  obtain rfl : u = [] := by simpa using Option.some.inj h
  rfl

theorem steady_char (p : Char → Bool) : Steady (.char p) fit := by
  intro u r r' h _ _
  obtain ⟨c, heq, hc⟩ := Peg.run_char_eq_some_iff.1 h
  obtain rfl : u = [c] := List.append_cancel_right heq
  exact Peg.run_char_eq_some_iff.2 ⟨c, rfl, hc⟩

theorem steady_text (w : String) : Steady (.text w) fit := by
  intro u r r' h _ _
  rw [run_text] at h ⊢
  obtain rfl : u = w.toList := List.append_cancel_right (eq_append_of_literal h)
  exact literal_append _ _

/-- What is left after the first expression is what the second applies to. -/
theorem Steady.seq (hp : Steady p fun t => ∃ r, q.run t = some r ∧ fit r) (hq : Steady q fit) : Steady (.seq p q) fit := by
  intro u r r' h hfit halike
  obtain ⟨t, ht, hr⟩ := Option.bind_eq_some_iff.1 h
  obtain ⟨v, rfl⟩ := q.run_suffix hr
  obtain ⟨w, hw⟩ := p.run_suffix ht
  obtain rfl : w ++ v = u := List.append_cancel_right ((List.append_assoc ..).trans hw)
  rw [List.append_assoc] at ht ⊢
  rw [run_seq, hp w (v ++ r) (v ++ r') ht ⟨r, hr, hfit⟩ (halike.append v), Option.bind_some]
  exact hq v r r' hr hfit halike

theorem Steady.choice (hp : Steady p fit) (hq : Steady q fit)
    (hfail : ∀ u r r', p.run (u ++ r) = none → q.run (u ++ r) = some r → fit r → Alike r r' → p.run (u ++ r') = none) :
    Steady (.choice p q) fit := by
  intro u r r' h hfit halike
  rw [run_choice]
  rcases Option.or_eq_some_iff.1 h with h | ⟨hnone, h⟩
  · rw [hp u r r' h hfit halike, Option.some_or]
  · rw [hfail u r r' hnone h hfit halike, Option.none_or]
    exact hq u r r' h hfit halike

/-- After each round comes another one or what is fit to be left. -/
theorem Steady.star (hnull : p.nullable = false) (hp : Steady p fun t => (∃ r, p.run t = some r) ∨ fit t)
    (hfail : ∀ r r', p.run r = none → fit r → Alike r r' → p.run r' = none) : Steady (.star p) fit := by
  intro u r r' h hfit halike
  rw [run_star, Option.some.injEq] at h ⊢
  generalize hs : u ++ r = s at h
  induction s using repeated.induct p.run generalizing u with
  | case1 s hnone =>
    subst hs
    rw [repeated_stop hnone] at h
    obtain rfl : u = [] := by simpa using h
    exact repeated_stop (hfail r r' hnone hfit halike)
  | case2 s t hsome hshorter ih =>
    subst hs
    rw [repeated_step hsome hshorter] at h
    obtain ⟨v, rfl⟩ : r <:+ t := h ▸ Peg.repeated_suffix (fun _ _ => p.run_suffix) t
    obtain ⟨w, hw⟩ := p.run_suffix hsome
    obtain rfl : w ++ v = u := List.append_cancel_right ((List.append_assoc ..).trans hw)
    have hnext : (∃ t, p.run (v ++ r) = some t) ∨ fit (v ++ r) := by
      cases hv : p.run (v ++ r) with
      | some t => exact Or.inl ⟨t, rfl⟩
      | none =>
        rw [repeated_stop hv] at h
        exact Or.inr (h.symm ▸ hfit)
    rw [List.append_assoc] at hsome ⊢
    have hstep := hp w (v ++ r) (v ++ r') hsome hnext (halike.append v)
    rw [repeated_step hstep (Peg.length_lt_of_run hnull hstep)]
    exact ih v rfl h
  | case3 s t hsome hlong => exact absurd (Peg.length_lt_of_run hnull hsome) hlong

theorem dropWhile_append_eq_iff {p : Char → Bool} {u r : List Char} :
    (u ++ r).dropWhile p = r ↔ (∀ c ∈ u, p c = true) ∧ Stops p r := by
  constructor
  · intro h
    have hsplit : (u ++ r).takeWhile p ++ (u ++ r).dropWhile p = u ++ r := List.takeWhile_append_dropWhile
    rw [h] at hsplit
    constructor
    · rw [← List.all_eq_true, ← List.append_cancel_right hsplit]
      exact List.all_takeWhile
    · rw [← h]
      exact stops_dropWhile p _
  · rintro ⟨hu, hr⟩
    rw [List.dropWhile_append_of_pos hu, dropWhile_of_stops hr]

theorem steady_star_char (p : Char → Bool) : Steady (.star (.char p)) fit := by
  intro u r r' h _ halike
  rw [run_star, Option.some.injEq, repeated_char, dropWhile_append_eq_iff] at h ⊢
  exact ⟨h.1, halike.stops h.2⟩

end Steady

/-! ## Layout -/

/-- Whether a text goes on with a character that is no layout and starts no comment. -/
def Visible (s : List Char) : Prop := ∃ c t, s = c :: t ∧ isLayout c = false ∧ c ≠ '#'

theorem Visible.skip_eq {s : List Char} (h : Visible s) : skip s = s := by
  obtain ⟨c, t, rfl, hc, hhash⟩ := h
  exact skip_of_visible hc hhash t

theorem Visible.alike {s s' : List Char} (h : Visible s) (halike : Alike s s') : Visible s' := by
  obtain ⟨c, t, t', rfl, rfl⟩ := halike.exists_cons
  obtain ⟨d, _, heq, hd, hhash⟩ := h
  obtain ⟨rfl, -⟩ := List.cons.inj heq
  exact ⟨_, t', rfl, hd, hhash⟩

theorem skip_eq_nil_or_visible (s : List Char) : skip s = [] ∨ Visible (skip s) := by
  fun_induction skip s with
  | case1 => exact Or.inl rfl
  | case2 c s h ih => exact ih
  | case3 s h ih => exact ih
  | case4 c s h hc => exact Or.inr ⟨c, s, rfl, Bool.eq_false_iff.2 h, hc⟩

theorem skip_suffix (s : List Char) : skip s <:+ s := by
  fun_induction skip s with
  | case1 => exact List.suffix_rfl
  | case2 c s h ih => exact ih.trans (List.suffix_cons c s)
  | case3 s h ih => exact (ih.trans (List.dropWhile_suffix _)).trans (List.suffix_cons _ s)
  | case4 c s h hc => exact List.suffix_rfl

theorem isLayout_of_isSpace {c : Char} (h : isSpace c = true) : isLayout c = true := by
  simp only [isSpace, Bool.or_eq_true, beq_iff_eq] at h
  rcases h with rfl | rfl
  · decide
  · decide

theorem skip_spaces (s : List Char) : skip (spaces s) = skip s := by
  induction s with
  | nil => rfl
  | cons c s ih =>
    rw [spaces, List.dropWhile_cons]
    split
    · rename_i hc
      rw [skip_layout (isLayout_of_isSpace hc)]
      exact ih
    · rfl

/-- What comes after blanks within a line is what comes after layout, if it can be seen. -/
theorem head?_spaces_ne {c : Char} (hc : isLayout c = false) (hhash : c ≠ '#') {s : List Char} (h : (skip s).head? ≠ some c) :
    (spaces s).head? ≠ some c := by
  intro hhead
  obtain ⟨t, ht⟩ := List.head?_eq_some_iff.1 hhead
  rw [← skip_spaces, ht, skip_of_visible hc hhash] at h
  exact h rfl

/-- Nothing but layout and comments comes before a visible character, so another one may stand in its place. -/
theorem skip_append_of_visible {l r r' : List Char} (h : skip (l ++ r) = r) (hr : Visible r) (hr' : Visible r') :
    skip (l ++ r') = r' := by
  fun_induction skip l with
  | case1 => exact hr'.skip_eq
  | case2 c s hc ih =>
    rw [List.cons_append, skip_layout hc] at h ⊢
    exact ih h
  | case3 s hc ih =>
    rw [List.cons_append, skip, if_neg hc, if_pos rfl, List.dropWhile_append] at h ⊢
    split
    · -- a comment that does not end before `r` takes its first character
      rename_i hempty
      obtain ⟨d, t, rfl, hd, -⟩ := hr
      have hfeed : d ≠ '\n' := by
        rintro rfl
        exact absurd hd (by decide)
      rw [if_pos hempty, List.dropWhile_cons_of_pos (by simpa using hfeed)] at h
      have hskip := length_skip_le (t.dropWhile (· != '\n'))
      have hdrop := (List.dropWhile_sublist (l := t) (· != '\n')).length_le
      rw [h, List.length_cons] at hskip
      omega
    · rename_i hempty
      rw [if_neg hempty] at h
      exact ih h
  | case4 c s hc hhash =>
    rw [List.cons_append, skip_of_visible (Bool.eq_false_iff.2 hc) hhash] at h
    have hlength := congrArg List.length h
    rw [List.length_cons, List.length_append] at hlength
    omega

theorem steady_layout : Steady Grammar.layout Visible := by
  intro u r r' h hr halike
  rw [Grammar.run_layout, Option.some.injEq] at h ⊢
  exact skip_append_of_visible h hr (hr.alike halike)

/-! ## The rules -/

namespace Grammar

variable {fit : List Char → Prop}

theorem steady_word (further : Char → Bool) : Steady (word further) fit := (steady_char _).seq (steady_star_char _)

theorem steady_spaces : Steady spaces fit := (steady_char _).seq (steady_star_char _)

theorem steady_optional_spaces : Steady (Peg.optional spaces) fit := by
  intro u r r' h _ halike
  rw [run_optional_spaces, Option.some.injEq, Description.spaces, dropWhile_append_eq_iff] at h ⊢
  exact ⟨h.1, halike.stops h.2⟩

theorem steady_quotedItem : Steady quotedItem fit := by
  refine (steady_char _).choice ((steady_char _).seq (steady_char _)) fun u r r' hnone _ _ halike => ?_
  rw [Peg.run_char_eq_none_iff] at hnone ⊢
  exact (halike.append u).stops hnone

theorem steady_quoted : Steady quoted fit := by
  refine (steady_char _).seq (.seq (.star rfl steady_quotedItem fun r r' _ hfit halike => ?_) ((steady_char _).seq steady_empty))
  obtain ⟨t, ht, -⟩ := hfit
  obtain ⟨s, hs, -⟩ := Option.bind_eq_some_iff.1 ht
  obtain ⟨c, rfl, hc⟩ := Peg.run_char_eq_some_iff.1 hs
  obtain rfl : c = '"' := by simpa using hc
  obtain ⟨_, _, s', heq, rfl⟩ := halike.exists_cons
  obtain ⟨rfl, -⟩ := List.cons.inj heq
  rfl

/-- Quotes are read where a quotation mark stands. -/
theorem run_quoted_eq_none {s : List Char} (h : s.head? ≠ some '"') : quoted.run s = none := by
  have hnone : (Peg.just '"').run s = none := by
    rw [Peg.just, Peg.run_char_eq_none_iff]
    intro c hc
    simp only [beq_eq_false_iff_ne]
    rintro rfl
    exact h hc
  rw [quoted, run_inTurn_cons, hnone, Option.bind_none]

theorem steady_bare : Steady bare fit := (steady_char _).seq (steady_star_char _)

theorem steady_flagWord : Steady flagWord fit := by
  have hfail : ∀ w : String, '\x7d' ∉ w.toList → ∀ s s', (Peg.text w).run s = none → Alike s s' →
      (Peg.text w).run s' = none := by
    intro w hw s s' hnone halike
    rw [run_text] at hnone ⊢
    exact halike.literal_eq_none hw hnone
  refine (steady_text _).choice ((steady_text _).choice (steady_text _) ?_) ?_
  · exact fun u r r' hnone _ _ halike => hfail "root" (by decide) _ _ hnone (halike.append u)
  · exact fun u r r' hnone _ _ halike => hfail "condition" (by decide) _ _ hnone (halike.append u)

theorem steady_absent_char (p : Char → Bool) : Steady (.absent (.char p)) fit := by
  intro u r r' h _ halike
  rw [Peg.run] at h ⊢
  split at h
  · cases h
  · rename_i hnone
    obtain rfl : u = [] := by simpa using Option.some.inj h
    rw [Option.not_isSome_iff_eq_none, Peg.run_char_eq_none_iff] at hnone
    rw [List.nil_append, Peg.run_char_eq_none_iff.2 (halike.stops hnone)]
    rfl

theorem steady_flag : Steady flag fit := steady_flagWord.seq (steady_absent_char _)

/-- An expression that does not read quotes leaves them where they are. -/
theorem Steady.orQuoted {p : Peg} (hp : Steady p fit) (hquote : ∀ t, p.run ('"' :: t) = none) :
    Steady (.choice quoted p) fit := by
  refine steady_quoted.choice hp fun u r r' _ hr _ halike => run_quoted_eq_none fun hhead => ?_
  rw [(halike.append u).head?_eq, List.head?_eq_some_iff] at hhead
  obtain ⟨t, ht⟩ := hhead
  rw [ht, hquote] at hr
  cases hr

theorem steady_nodeOption : Steady nodeOption fit := steady_spaces.seq (Steady.orQuoted steady_flag fun _ => rfl)

/-- Where something visible follows that is no quotation mark, there is no further option of a node, whatever comes later. -/
theorem run_nodeOption_eq_none {r r' : List Char} (h : nodeOption.run r = none) (hr : (skip r).head? ≠ some '"')
    (halike : Alike r r') : nodeOption.run r' = none := by
  rw [nodeOption, run_seq, run_spaces] at h ⊢
  obtain ⟨c, t, t', hc, hc'⟩ := halike.exists_cons
  cases hspace : isSpace c with
  | false => rw [hc', spaces1_of_stops hspace, Option.bind_none]
  | true =>
    have hspaces : ∀ x, spaces1 (c :: x) = some (Description.spaces (c :: x)) := by
      intro x
      rw [spaces1, if_pos hspace, Description.spaces, Description.spaces, List.dropWhile_cons_of_pos hspace]
    have hrest : Alike (Description.spaces r) (Description.spaces r') := halike.dropWhile rfl
    have hquote : (Description.spaces r).head? ≠ some '"' := head?_spaces_ne (by decide) (by decide) hr
    rw [hc, hspaces, ← hc, Option.bind_some, run_choice, Option.or_eq_none_iff] at h
    rw [hc', hspaces, ← hc', Option.bind_some, run_choice, run_quoted_eq_none (hrest.head?_eq ▸ hquote), Option.none_or]
    have hflag := h.2
    rw [run_flag, Option.map_eq_none_iff, Description.flag, Option.map_eq_none_iff] at hflag ⊢
    rw [hrest.takeWhile_eq (by decide)]
    exact hflag

theorem steady_nodeDecl : Steady nodeDecl fun r => (skip r).head? ≠ some '"' := by
  refine (steady_text _).seq (steady_spaces.seq ((steady_word _).seq (.seq (.star rfl steady_nodeOption ?_) steady_empty)))
  rintro r r' h ⟨_, hrest, hr⟩ halike
  obtain rfl := Option.some.inj hrest
  exact run_nodeOption_eq_none h hr halike

theorem steady_assignment : Steady assignment fit :=
  (steady_word _).seq ((steady_text _).seq ((Steady.orQuoted steady_bare fun _ => rfl).seq steady_empty))

theorem literal_eq_none_of_head {c : Char} {s : List Char} (h : s.head? ≠ some c) : literal [c] s = none := by
  cases s with
  | nil => rfl
  | cons d s =>
    have hd : c ≠ d := by
      rintro rfl
      exact h rfl
    exact if_neg hd

theorem steady_edgeOption : Steady edgeOption fun r => r.head? ≠ some '=' := by
  refine steady_assignment.choice (steady_word _) fun u r r' _ hkey hr halike => ?_
  have hkeys : Steady key fun _ => True := steady_word _
  have hword : key.run (u ++ r') = some r' := hkeys u r r' hkey trivial halike
  have hequals : (Peg.text "=").run r' = none := by
    rw [run_text]
    exact literal_eq_none_of_head (halike.head?_eq ▸ hr)
  rw [assignment, run_inTurn_cons, hword, Option.bind_some, run_inTurn_cons, hequals, Option.bind_none]

theorem steady_separator : Steady separator fit := by
  refine (steady_optional_spaces.seq ((steady_text _).seq (steady_optional_spaces.seq steady_empty))).choice steady_spaces ?_
  intro u r r' hnone _ _ halike
  have hrest : Alike (Description.spaces (u ++ r)) (Description.spaces (u ++ r')) := (halike.append u).dropWhile rfl
  have hcomma : ∀ s, (Peg.seq (.optional spaces) (.seq (.text ",") (.seq (.optional spaces) .empty))).run s =
      (literal [','] (Description.spaces s)).bind fun r => some (Description.spaces r) := by
    intro s
    simp only [run_seq, run_optional_spaces, run_text, Option.bind_some, String.reduceToList]
    rfl
  rw [hcomma, Option.bind_eq_none_iff] at hnone
  have hnone' : literal [','] (Description.spaces (u ++ r)) = none := by
    by_contra hne
    obtain ⟨x, hx⟩ := Option.ne_none_iff_exists'.1 hne
    cases hnone x hx
  rw [hcomma, hrest.literal_eq_none (by decide) hnone', Option.bind_none]

theorem steady_nextOption : Steady nextOption fun r => r.head? ≠ some '=' := steady_separator.seq steady_edgeOption

/-- Where the bracket closes, there is no further option. -/
theorem run_nextOption_eq_none {s t : List Char} (h : Description.spaces s = ']' :: t) : nextOption.run s = none := by
  rw [nextOption, run_seq, run_separator, Description.separator, h]
  cases s with
  | nil => rfl
  | cons c s =>
    cases hc : isSpace c with
    | false => rw [spaces1_of_stops hc]; rfl
    | true =>
      rw [Description.spaces, List.dropWhile_cons_of_pos hc] at h
      show (spaces1 (c :: s)).bind _ = none
      rw [spaces1, if_pos hc, Description.spaces, h]
      rfl

/-- The options of an edge go on to the bracket that closes them. -/
theorem steady_star_nextOption : Steady (.star nextOption) fun r => ∃ t, Description.spaces r = ']' :: t := by
  refine Steady.star rfl (steady_nextOption.mono fun r hr hhead => ?_) fun r r' _ hr halike => ?_
  · obtain ⟨t, rfl⟩ := List.head?_eq_some_iff.1 hhead
    rcases hr with ⟨_, hr⟩ | ⟨_, hr⟩
    · cases hr
    · cases hr
  · obtain ⟨t, ht⟩ := hr
    have hrest : Alike (Description.spaces r) (Description.spaces r') := halike.dropWhile rfl
    have hhead := hrest.head?_eq
    rw [ht] at hhead
    obtain ⟨t', ht'⟩ := List.head?_eq_some_iff.1 hhead
    exact run_nextOption_eq_none ht'

theorem steady_edgeOptions : Steady edgeOptions fit := by
  have hclose : Steady (Peg.inTurn [.optional spaces, .text "]"]) fit :=
    steady_optional_spaces.seq ((steady_text _).seq steady_empty)
  have hmore : Steady (Peg.inTurn [.star nextOption, .optional spaces, .text "]"]) fit := by
    refine Steady.seq (steady_star_nextOption.mono fun r hr => ?_) hclose
    obtain ⟨_, hr, -⟩ := hr
    rw [run_inTurn_cons, run_optional_spaces, Option.bind_some, run_inTurn_cons, run_text] at hr
    obtain ⟨t, ht, -⟩ := Option.bind_eq_some_iff.1 hr
    exact ⟨t, eq_append_of_literal ht⟩
  refine steady_optional_spaces.seq ((steady_text _).seq (steady_optional_spaces.seq (.seq ?_ hmore)))
  refine steady_edgeOption.mono fun r hr hhead => ?_
  obtain ⟨t, rfl⟩ := List.head?_eq_some_iff.1 hhead
  obtain ⟨_, hr, -⟩ := hr
  rw [run_inTurn_cons, run_star, repeated_stop rfl] at hr
  cases hr

theorem steady_optional_edgeOptions : Steady (Peg.optional edgeOptions) fun r => (skip r).head? ≠ some '[' := by
  refine steady_edgeOptions.choice steady_empty fun u r r' _ hempty hr halike => ?_
  obtain rfl : u = [] := by simpa using Option.some.inj hempty
  have hrest : Alike (Description.spaces r) (Description.spaces r') := halike.dropWhile rfl
  have hbracket : (Description.spaces r').head? ≠ some '[' :=
    hrest.head?_eq ▸ head?_spaces_ne (by decide) (by decide) hr
  rw [List.nil_append, edgeOptions, run_inTurn_cons, run_optional_spaces, Option.bind_some, run_inTurn_cons, run_text,
    show "[".toList = ['['] from rfl, literal_eq_none_of_head hbracket, Option.bind_none]

theorem steady_edgeDecl : Steady edgeDecl fun r => (skip r).head? ≠ some '[' := by
  refine (steady_word _).seq (steady_optional_spaces.seq ((steady_text _).seq (steady_optional_spaces.seq
    ((steady_word _).seq (.seq (steady_optional_edgeOptions.mono ?_) steady_empty)))))
  rintro r ⟨_, hrest, hr⟩
  obtain rfl := Option.some.inj hrest
  exact hr

theorem isIdentChar_of_isWordStart {c : Char} (h : isWordStart c = true) : isIdentChar c = true := by
  simp only [isWordStart, isIdentChar, isKeyChar, Char.isAlphanum, Bool.or_eq_true] at h ⊢
  rcases h with h | h
  · exact Or.inl (Or.inl (Or.inl (Or.inl h)))
  · exact Or.inl (Or.inl (Or.inr h))

theorem run_identifier_eq_some_iff {s r : List Char} :
    identifier.run s = some r ↔ (∃ c ∈ s.head?, isWordStart c = true) ∧ s.dropWhile isIdentChar = r := by
  rw [run_identifier]
  cases s with
  | nil => simp [Description.identifier, Description.word]
  | cons c s =>
    rw [Description.identifier, Description.word]
    split
    · rename_i hc
      simp [hc, isIdentChar_of_isWordStart hc]
    · rename_i hc
      simp [hc]

/-- An edge is no declaration of a node, even if it starts with the word for one: the arrow comes where the identifier of a
declaration would. -/
theorem run_nodeDecl_eq_none {s r : List Char} (h : edgeDecl.run s = some r) : nodeDecl.run s = none := by
  obtain ⟨t, ht, hrest⟩ := Option.bind_eq_some_iff.1 h
  obtain ⟨-, rfl⟩ := run_identifier_eq_some_iff.1 ht
  rw [run_inTurn_cons, run_optional_spaces, Option.bind_some, run_inTurn_cons, run_text] at hrest
  obtain ⟨x, hx, -⟩ := Option.bind_eq_some_iff.1 hrest
  have harrow : Description.spaces (s.dropWhile isIdentChar) = '-' :: '>' :: x := eq_append_of_literal hx
  rw [nodeDecl, run_inTurn_cons, run_text]
  cases hword : literal "node".toList s with
  | none => rfl
  | some y =>
    obtain rfl : s = ['n', 'o', 'd', 'e'] ++ y := eq_append_of_literal hword
    rw [List.dropWhile_append_of_pos (List.all_eq_true.1 rfl)] at harrow
    rw [Option.bind_some, run_inTurn_cons, run_spaces]
    cases y with
    | nil => rfl
    | cons c y =>
      cases hc : isSpace c with
      | false => rw [spaces1_of_stops hc, Option.bind_none]
      | true =>
        have hstop : isIdentChar c = false := by
          simp only [isSpace, Bool.or_eq_true, beq_iff_eq] at hc
          rcases hc with rfl | rfl
          · decide
          · decide
        rw [dropWhile_of_stops (stops_cons.2 hstop), Description.spaces, List.dropWhile_cons_of_pos hc] at harrow
        rw [spaces1, if_pos hc, Description.spaces, harrow]
        rfl

/-- Whether a text goes on with a statement or with the end of a function. -/
def Begins (s : List Char) : Prop := ∃ c t, s = c :: t ∧ (isWordStart c = true ∨ c = '\x7d')

theorem Begins.visible {s : List Char} (h : Begins s) : Visible s := by
  obtain ⟨c, t, rfl, hc | rfl⟩ := h
  · exact ⟨c, t, rfl, not_isLayout_of_isWordStart hc, ne_of_isWordStart hc (by decide)⟩
  · exact ⟨_, t, rfl, by decide, by decide⟩

theorem Begins.head?_ne {s : List Char} (h : Begins s) {c : Char} (hc : isWordStart c = false) (hbrace : c ≠ '\x7d') :
    s.head? ≠ some c := by
  rintro hhead
  obtain ⟨d, t, rfl, hd | rfl⟩ := h
  · obtain rfl : d = c := Option.some.inj hhead
    rw [hc] at hd
    cases hd
  · exact hbrace (Option.some.inj hhead).symm

theorem steady_statement : Steady statement Begins := by
  have hnext : ∀ {r : List Char}, (∃ t, layout.run r = some t ∧ Begins t) → Begins (skip r) := by
    rintro r ⟨t, ht, hbegins⟩
    rw [run_layout, Option.some.injEq] at ht
    rw [ht]
    exact hbegins
  have hbracket : ∀ {r : List Char}, (∃ t, layout.run r = some t ∧ Begins t) → (skip r).head? ≠ some '[' :=
    fun h => (hnext h).head?_ne (by decide) (by decide)
  refine Steady.seq (.choice (steady_nodeDecl.mono fun r hr => ?_) (steady_edgeDecl.mono fun r => hbracket) ?_)
    (steady_layout.mono fun r => Begins.visible)
  · exact (hnext hr).head?_ne (by decide) (by decide)
  · intro u r r' _ hr hfit halike
    exact run_nodeDecl_eq_none (steady_edgeDecl u r r' hr (hbracket hfit) halike)

theorem begins_of_run_statement {s r : List Char} (h : statement.run s = some r) : Begins s := by
  obtain ⟨t, ht, -⟩ := Option.bind_eq_some_iff.1 h
  rcases Option.or_eq_some_iff.1 ht with ht | ⟨-, ht⟩
  · obtain ⟨x, hx, -⟩ := Option.bind_eq_some_iff.1 ht
    rw [run_text] at hx
    exact ⟨'n', _, eq_append_of_literal hx, Or.inl rfl⟩
  · obtain ⟨x, hx, -⟩ := Option.bind_eq_some_iff.1 ht
    obtain ⟨⟨c, hc, hstart⟩, -⟩ := run_identifier_eq_some_iff.1 hx
    obtain ⟨y, rfl⟩ := List.head?_eq_some_iff.1 hc
    exact ⟨c, y, rfl, Or.inl hstart⟩

theorem begins_of_brace {s : List Char} (h : s.head? = some '\x7d') : Begins s := by
  obtain ⟨t, rfl⟩ := List.head?_eq_some_iff.1 h
  exact ⟨_, t, rfl, Or.inr rfl⟩

theorem steady_star_statement : Steady (.star statement) fun r => r.head? = some '\x7d' := by
  refine Steady.star rfl (steady_statement.mono ?_) fun r r' _ hr halike => ?_
  · rintro r (⟨t, ht⟩ | hr)
    · exact begins_of_run_statement ht
    · exact begins_of_brace hr
  · obtain ⟨t, rfl⟩ := List.head?_eq_some_iff.1 (halike.head?_eq.trans hr)
    rfl

/-- A function up to the brace that closes it. -/
def opened : List Peg := [.text "function", spaces, identifier, layout, .text "\x7b", layout, .star statement]

theorem steady_opened : Steady (Peg.inTurn opened) fun r => r.head? = some '\x7d' := by
  have hbody : Steady (Peg.inTurn [.star statement]) fun r => r.head? = some '\x7d' := by
    refine Steady.seq (steady_star_statement.mono ?_) steady_empty
    rintro r ⟨_, hrest, hr⟩
    obtain rfl := Option.some.inj hrest
    exact hr
  have hinner : Steady (Peg.inTurn [layout, .star statement]) fun r => r.head? = some '\x7d' := by
    refine Steady.seq (steady_layout.mono ?_) hbody
    rintro t ⟨r, hr, hbrace⟩
    cases hstatement : statement.run t with
    | some x => exact (begins_of_run_statement hstatement).visible
    | none =>
      rw [run_inTurn_cons, run_star, repeated_stop hstatement] at hr
      obtain rfl : t = r := Option.some.inj hr
      exact (begins_of_brace hbrace).visible
  have hblock : Steady (Peg.inTurn [layout, .text "\x7b", layout, .star statement]) fun r => r.head? = some '\x7d' := by
    refine Steady.seq (steady_layout.mono ?_) ((steady_text _).seq hinner)
    rintro t ⟨r, hr, -⟩
    rw [run_inTurn_cons, run_text] at hr
    obtain ⟨x, hx, -⟩ := Option.bind_eq_some_iff.1 hr
    exact ⟨_, x, eq_append_of_literal hx, by decide, by decide⟩
  exact (steady_text _).seq (steady_spaces.seq ((steady_word _).seq hblock))

theorem run_inTurn_append (ps qs : List Peg) (s : List Char) :
    (Peg.inTurn (ps ++ qs)).run s = ((Peg.inTurn ps).run s).bind fun r => (Peg.inTurn qs).run r := by
  induction ps generalizing s with
  | nil => rfl
  | cons p ps ih => simp only [List.cons_append, run_inTurn_cons, Option.bind_assoc, ih]

/-- A function is read up to its closing brace whatever comes after, and then the layout after it. -/
theorem exists_closing {s r : List Char} (h : function.run s = some r) :
    ∃ u x, s = u ++ x ∧ u ≠ [] ∧ skip x = r ∧ ∀ y, function.run (u ++ y) = some (skip y) := by
  have hparts : ∀ t, function.run t =
      ((Peg.inTurn opened).run t).bind fun r => (literal ['\x7d'] r).bind fun x => some (skip x) := by
    intro t
    show (Peg.inTurn (opened ++ [.text "\x7d", layout])).run t = _
    simp only [run_inTurn_append, run_inTurn_cons, run_inTurn_nil, run_text, run_layout, Option.bind_some, String.reduceToList]
  rw [hparts] at h
  obtain ⟨t, ht, hclose⟩ := Option.bind_eq_some_iff.1 h
  obtain ⟨x, hx, hr⟩ := Option.bind_eq_some_iff.1 hclose
  obtain rfl : t = '\x7d' :: x := eq_append_of_literal hx
  obtain ⟨u, rfl⟩ := Peg.run_suffix _ ht
  refine ⟨u ++ ['\x7d'], x, by simp, by simp, Option.some.inj hr, fun y => ?_⟩
  rw [hparts, List.append_assoc, List.singleton_append, steady_opened u _ _ ht rfl (alike_brace x y)]
  rfl

end Grammar

end Flowgraph.Description
