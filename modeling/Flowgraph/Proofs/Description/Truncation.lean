import Flowgraph.Proofs.Description.Lookahead
import Flowgraph.Proofs.Description.RoundTrip
import Mathlib.Order.Bounds.Basic
/-!
# Where a text stops being a description

The grammar takes functions from the start of a text for as long as it can; `leftOver` is what then remains. The part that was
taken is accepted by itself (`leftOver_of_append`), and where a part from the start is accepted by itself, at least as much is
taken of the whole (`length_leftOver_append_le`). Both hold because a function is read alike whatever follows it. So the reader
stops at the end of the longest part that the grammar accepts, and the fault that it raises gives this place by line and column,
which tell it (`Text.lineStart_add_column`).
-/

namespace Flowgraph

namespace Text

/-! ## Lines and columns -/

/-- The number of characters before a line, lines being counted from one. -/
def lineStart : List Char → Nat → Nat
  | [], _ => 0
  | c :: s, line => if line ≤ 1 then 0 else 1 + lineStart s (if c = '\n' then line - 1 else line)

theorem lineStart_one (s : List Char) : lineStart s 1 = 0 := by
  cases s with
  | nil => rfl
  | cons c s => rfl

/-- The line after whole lines starts where they end. -/
theorem lineStart_append {lines : List Char} (h : ∀ c ∈ lines.getLast?, c = '\n') (s : List Char) :
    lineStart (lines ++ s) (lines.count '\n' + 1) = lines.length := by
  induction lines with
  | nil => exact lineStart_one s
  | cons c lines ih =>
    have hfeed : '\n' ∈ c :: lines := by
      have hlast := h _ (List.getLast?_eq_some_getLast (List.cons_ne_nil c lines))
      exact hlast ▸ List.getLast_mem (List.cons_ne_nil c lines)
    have hcount : 0 < (c :: lines).count '\n' := List.count_pos_iff.2 hfeed
    have hnext : (if c = '\n' then (c :: lines).count '\n' + 1 - 1 else (c :: lines).count '\n' + 1) = lines.count '\n' + 1 := by
      rw [List.count_cons]
      by_cases hc : c = '\n'
      · simp [hc]
      · simp [hc]
    have hlines : ∀ c ∈ lines.getLast?, c = '\n' := by
      intro d hd
      refine h d ?_
      cases lines with
      | nil => simp at hd
      | cons e lines => rwa [List.getLast?_cons_cons]
    rw [List.cons_append, lineStart, if_neg (by omega), hnext, ih hlines, List.length_cons, Nat.add_comm]

/-- A line and a column tell the place that they were made from. -/
theorem lineStart_add_column {text : List Char} {offset : Nat} (h : offset ≤ text.length) :
    lineStart text (Position.at text offset).line + (Position.at text offset).column = offset + 1 := by
  -- what stands before the place is whole lines, then a part of its own line
  set backwards := (text.take offset).reverse with hbackwards
  set lines := (backwards.dropWhile (· != '\n')).reverse with hlines
  set part := backwards.takeWhile (· != '\n') with hpart
  have hbefore : text.take offset = lines ++ part.reverse := by
    rw [hlines, hpart, ← List.reverse_append, List.takeWhile_append_dropWhile, hbackwards, List.reverse_reverse]
  have hfeed : ∀ c ∈ lines.getLast?, c = '\n' := by
    intro c hc
    rw [hlines, List.getLast?_reverse] at hc
    simpa using Description.stops_dropWhile (· != '\n') backwards c hc
  have hnone : part.reverse.count '\n' = 0 := by
    rw [List.count_reverse, List.count_eq_zero]
    intro hmem
    have hall := List.all_eq_true.1 (List.all_takeWhile (p := (· != '\n')) (l := backwards)) _ hmem
    simp at hall
  have htext : text = lines ++ (part.reverse ++ text.drop offset) := by
    rw [← List.append_assoc, ← hbefore, List.take_append_drop]
  have hline : (Position.at text offset).line = lines.count '\n' + 1 := by
    rw [Position.at, hbefore, List.count_append, hnone, Nat.add_zero]
  have hcolumn : (Position.at text offset).column = part.length + 1 := rfl
  have hlength : lines.length + part.length = offset := by
    have hreverse : part.reverse.length = part.length := List.length_reverse
    rw [← hreverse, ← List.length_append, ← hbefore, List.length_take_of_le h]
  rw [hline, hcolumn, htext, lineStart_append hfeed]
  omega

end Text

namespace Description

/-! ## Layout -/

theorem Visible.of_append {u y z : List Char} (h : Visible (u ++ y)) (hu : u ≠ []) : Visible (u ++ z) := by
  obtain ⟨c, t, ht, hc, hhash⟩ := h
  obtain ⟨d, u, rfl⟩ := List.exists_cons_of_ne_nil hu
  obtain ⟨rfl, -⟩ := List.cons.inj ht
  exact ⟨d, u ++ z, rfl, hc, hhash⟩

/-- Layout that is skipped to its end is skipped to its end without what follows. -/
theorem skip_eq_nil_of_append {l r : List Char} (h : skip (l ++ r) = r) : skip l = [] := by
  fun_induction skip l with
  | case1 => rfl
  | case2 c s hc ih =>
    rw [List.cons_append, skip_layout hc] at h
    exact ih h
  | case3 s hhash ih =>
    rw [List.cons_append, skip, if_neg hhash, if_pos rfl, List.dropWhile_append] at h
    split at h
    next hempty =>
      rw [List.isEmpty_iff.1 hempty]
      exact skip.eq_1
    next hmore => exact ih h
  | case4 c s hc hhash =>
    rw [List.cons_append, skip_of_visible (Bool.eq_false_iff.2 hc) hhash] at h
    have hlength := congrArg List.length h
    simp only [List.length_cons, List.length_append] at hlength
    omega

/-- What follows layout is not added to. -/
theorem length_skip_append_le {l : List Char} (h : skip l = []) (y : List Char) : (skip (l ++ y)).length ≤ y.length := by
  fun_induction skip l with
  | case1 => exact length_skip_le y
  | case2 c s hc ih =>
    rw [List.cons_append, skip_layout hc]
    exact ih h
  | case3 s hhash ih =>
    rw [List.cons_append, skip, if_neg hhash, if_pos rfl, List.dropWhile_append]
    split
    next hempty =>
      -- an open comment at the end goes on into what follows
      exact (length_skip_le _).trans (List.dropWhile_sublist _).length_le
    next hmore => exact ih h
  | case4 c s hc hhash => exact absurd h (List.cons_ne_nil c s)

/-- Where layout has ended, what follows plays no part. -/
theorem skip_append {s : List Char} (h : skip s ≠ []) (y : List Char) : skip (s ++ y) = skip s ++ y := by
  have hvisible : Visible (skip s) := (skip_eq_nil_or_visible s).resolve_left h
  obtain ⟨l, hl⟩ := skip_suffix s
  have hskip : skip (l ++ skip s) = skip s := by rw [hl]
  have hmore : Visible (skip s ++ y) := Visible.of_append (y := []) (by rwa [List.append_nil]) h
  have hafter := skip_append_of_visible hskip hvisible hmore
  rwa [← List.append_assoc, hl] at hafter

/-! ## What the grammar leaves -/

/-- What the grammar leaves of a text. -/
def leftOver (s : List Char) : List Char := repeated Grammar.function.run (skip s)

theorem run_document_eq (s : List Char) : Grammar.document.run s = some (leftOver s) := by
  rw [Grammar.document, run_seq, Grammar.run_layout]
  rfl

theorem accepts_iff_leftOver (s : List Char) : Grammar.document.Accepts s ↔ leftOver s = [] := by
  rw [Peg.Accepts, run_document_eq, Option.some.injEq]

theorem leftOver_suffix_skip (s : List Char) : leftOver s <:+ skip s :=
  Peg.repeated_suffix (fun _ _ h => Grammar.function.run_suffix h) _

theorem leftOver_suffix (s : List Char) : leftOver s <:+ s := (leftOver_suffix_skip s).trans (skip_suffix s)

theorem leftOver_of_skip_eq_nil {s : List Char} (h : skip s = []) : leftOver s = [] :=
  List.suffix_nil.1 (h ▸ leftOver_suffix_skip s)

/-- After a function, the grammar goes on with what stands behind its closing brace. -/
theorem leftOver_of_closing {s u x : List Char} (hs : skip s = u ++ x) (hu : u ≠ [])
    (hrun : Grammar.function.run (u ++ x) = some (skip x)) : leftOver s = leftOver x := by
  have hshorter : (skip x).length < (u ++ x).length := by
    have hskip := length_skip_le x
    have hpos := List.length_pos_iff.2 hu
    rw [List.length_append]
    omega
  rw [leftOver, hs, repeated_step hrun hshorter]
  rfl

/-- The grammar stops at the first place, or takes a function, which it takes alike whatever follows. -/
theorem leftOver_cases (s : List Char) :
    leftOver s = skip s ∨
      ∃ u x, skip s = u ++ x ∧ u ≠ [] ∧ (∀ y, Grammar.function.run (u ++ y) = some (skip y)) ∧ leftOver s = leftOver x := by
  cases hrun : Grammar.function.run (skip s) with
  | none => exact .inl (repeated_stop hrun)
  | some r =>
    obtain ⟨u, x, hs, hu, -, hclosing⟩ := Grammar.exists_closing hrun
    exact .inr ⟨u, x, hs, hu, hclosing, leftOver_of_closing hs hu (hclosing x)⟩

/-- The part that the grammar takes is accepted by itself. -/
theorem leftOver_of_append {p r : List Char} (h : leftOver (p ++ r) = r) : leftOver p = [] := by
  induction hn : p.length using Nat.strong_induction_on generalizing p with
  | h n ih =>
    rcases leftOver_cases (p ++ r) with hstop | ⟨u, x, hs, hu, hclosing, hleft⟩
    · exact leftOver_of_skip_eq_nil (skip_eq_nil_of_append (hstop.symm.trans h))
    · -- the function ends before what is left, so it is there without that as well
      obtain ⟨q, rfl⟩ : ∃ q, q ++ r = x := (h.symm.trans hleft) ▸ leftOver_suffix x
      obtain ⟨l, hl⟩ := skip_suffix (p ++ r)
      have happend : l ++ (u ++ q) ++ r = p ++ r := by
        rw [← hl, hs]
        simp only [List.append_assoc]
      obtain rfl : l ++ (u ++ q) = p := List.append_cancel_right happend
      have hskip : skip (l ++ (u ++ q)) = u ++ q := by
        have hvisible : Visible (u ++ (q ++ r)) := by
          rw [← hs]
          refine (skip_eq_nil_or_visible _).resolve_left ?_
          rw [hs]
          exact List.append_ne_nil_of_left_ne_nil hu _
        refine skip_append_of_visible (r := u ++ (q ++ r)) ?_ hvisible (hvisible.of_append hu)
        rw [← hs, hl]
      rw [leftOver_of_closing hskip hu (hclosing q)]
      refine ih q.length ?_ (hleft.symm.trans h) rfl
      have hpos := List.length_pos_iff.2 hu
      simp only [List.length_append] at hn
      omega

/-- Where a part from the start is accepted by itself, at least as much is taken of the whole. -/
theorem length_leftOver_append_le {p : List Char} (h : leftOver p = []) (y : List Char) :
    (leftOver (p ++ y)).length ≤ y.length := by
  induction hn : p.length using Nat.strong_induction_on generalizing p with
  | h n ih =>
    rcases leftOver_cases p with hstop | ⟨u, x, hs, hu, hclosing, hleft⟩
    · calc (leftOver (p ++ y)).length
        _ ≤ (skip (p ++ y)).length := (leftOver_suffix_skip _).length_le
        _ ≤ y.length := length_skip_append_le (hstop.symm.trans h) y
    · have hskip : skip (p ++ y) = u ++ (x ++ y) := by
        rw [skip_append (by simp [hs, hu]), hs, List.append_assoc]
      rw [leftOver_of_closing hskip hu (hclosing _)]
      refine ih x.length ?_ (hleft.symm.trans h) rfl
      have hpos := List.length_pos_iff.2 hu
      have hlength := congrArg List.length hs
      have hle := length_skip_le p
      simp only [List.length_append] at hlength
      omega

/-- The place where the grammar stops is the end of the longest part that it accepts. -/
theorem isGreatest_accepted {text : List Char} (h : leftOver text ≠ []) :
    IsGreatest {k | Grammar.document.Accepts (text.take k)} (text.length - (leftOver text).length) := by
  obtain ⟨p, hp⟩ := leftOver_suffix text
  have hlength : p.length = text.length - (leftOver text).length := by
    rw [← hp, List.length_append]
    simp [hp]
  constructor
  · have htake : text.take (text.length - (leftOver text).length) = p := by
      rw [← hlength]
      conv_lhs => rw [← hp]
      exact List.take_left
    show Grammar.document.Accepts _
    rw [htake, accepts_iff_leftOver]
    exact leftOver_of_append (r := leftOver text) (by rw [hp])
  · intro k hk
    have hrest := length_leftOver_append_le ((accepts_iff_leftOver _).1 hk) (text.drop k)
    rw [List.take_append_drop, List.length_drop] at hrest
    have hpos := List.length_pos_iff.2 h
    omega

/-- What the reader makes of a text of which something is left. -/
theorem read_of_leftOver {text : List Char} (h : leftOver text ≠ []) :
    read text = .error (.unexpected (.at text (text.length - (leftOver text).length))
      (String.ofList ((leftOver text).take excerptLength))) := by
  have hdocument : (document text).2 = leftOver text :=
    Option.some.inj ((Grammar.run_document text).symm.trans (run_document_eq text))
  rw [read]
  rcases hread : document text with ⟨fs, rest⟩
  obtain rfl : rest = leftOver text := by rw [← hdocument, hread]
  cases hrest : leftOver text with
  | nil => exact absurd hrest h
  | cons c rest => rfl

/-- A text that the grammar does not accept is refused at the end of the longest part from its start that the grammar accepts.
The fault quotes what comes next, and its line and column tell the place. -/
theorem refusal_marks_longest_accepted_part {text : String} (h : ¬ Grammar.document.Accepts text.toList) :
    ∃ k, IsGreatest {k | Grammar.document.Accepts (text.toList.take k)} k ∧ k < text.toList.length ∧
      (∀ log, ((parse text).run log).1 =
        .error (.description (.unexpected (.at text.toList k) (String.ofList ((text.toList.drop k).take 20))))) ∧
      Text.lineStart text.toList (Text.Position.at text.toList k).line + (Text.Position.at text.toList k).column = k + 1 := by
  have hleft : leftOver text.toList ≠ [] := fun hnil => h ((accepts_iff_leftOver _).2 hnil)
  have hpos := List.length_pos_iff.2 hleft
  have hle := (leftOver_suffix text.toList).length_le
  refine ⟨text.toList.length - (leftOver text.toList).length, isGreatest_accepted hleft, by omega, ?_,
    Text.lineStart_add_column (Nat.sub_le _ _)⟩
  rw [← List.suffix_iff_eq_drop.1 (leftOver_suffix text.toList)]
  have hfault := gives_orFail (read text.toList)
  rw [congrArg raised (read_of_leftOver hleft)] at hfault
  exact hfault.then_error

/-- A function, then one whose closing brace stands within an open quotation. -/
def openQuotation : String := "function f \x7b a -> b \x7d\nfunction g \x7b node a \"\x7d"

/-- The open quotation hides the brace: the text is refused where its second function starts. -/
theorem openQuotation_refused : ¬ Grammar.document.Accepts openQuotation.toList ∧
    ∀ log, ((parse openQuotation).run log).1 = .error (.description (.unexpected ⟨2, 1⟩ "function g \x7b node a ")) := by
  have h : ¬ Grammar.document.Accepts openQuotation.toList := by decide +kernel
  obtain ⟨k, hk, hlt, hfault, -⟩ := refusal_marks_longest_accepted_part h
  have hsecond : Grammar.document.Accepts (openQuotation.toList.take 22) := by decide +kernel
  have hlater : ∀ k < openQuotation.toList.length, Grammar.document.Accepts (openQuotation.toList.take k) → k ≤ 22 := by
    decide +kernel
  obtain rfl : k = 22 := le_antisymm (hlater k hlt hk.1) (hk.2 hsecond)
  exact ⟨h, hfault⟩

end Description

end Flowgraph
