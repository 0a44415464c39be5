import Flowgraph.Description.Writer
import Mathlib.Data.List.Forall2
/-!
# Reading what is written

Every rule of the grammar reads back what is written for it and leaves what comes after, provided that this does not go on with a
character that the rule would take as well. Going up the grammar, the functions that are read from the text of some blocks are
these blocks (`read_write`), up to where in the text they were found.

Words that are written as identifiers may be words of the grammar. An edge out of a node called `node` is the one statement that
starts like another kind of statement; the arrow tells them apart (`nodeDecl_edge`).
-/

namespace Flowgraph.Description

open Text (isLayout layout)

/-! ## Characters -/

/-- Whether a text goes on, if at all, with a character that is not of a class. -/
def Stops (p : Char → Bool) (s : List Char) : Prop := ∀ c ∈ s.head?, p c = false

section Stops

variable {p : Char → Bool} {c : Char} {s : List Char}

theorem stops_cons : Stops p (c :: s) ↔ p c = false := by simp [Stops]

theorem takeWhile_of_stops (h : Stops p s) : s.takeWhile p = [] := by
  cases s with
  | nil => rfl
  | cons c s => rw [List.takeWhile_cons, stops_cons.1 h, if_neg Bool.false_ne_true]

theorem dropWhile_of_stops (h : Stops p s) : s.dropWhile p = s := by
  cases s with
  | nil => rfl
  | cons c s => rw [List.dropWhile_cons, stops_cons.1 h, if_neg Bool.false_ne_true]

theorem stops_dropWhile (p : Char → Bool) (s : List Char) : Stops p (s.dropWhile p) := by
  induction s with
  | nil => simp [Stops]
  | cons c s ih =>
    rw [List.dropWhile_cons]
    split
    · exact ih
    · rename_i hc
      exact stops_cons.2 (Bool.eq_false_iff.2 hc)

end Stops

theorem isWordStart_bounds {c : Char} (h : isWordStart c) : 0x41 ≤ c.toNat ∧ c.toNat ≤ 0x7A := by
  change (decide (c.val ≥ 'A'.val ∧ c.val ≤ 'Z'.val) || (decide (c.val ≥ 'a'.val) && decide (c.val ≤ 'z'.val)) ||
    c == '_') = true at h
  simp only [Bool.or_eq_true, Bool.and_eq_true, decide_eq_true_eq, beq_iff_eq] at h
  rcases h with (⟨hlow, hhigh⟩ | ⟨hlow, hhigh⟩) | rfl
  · have hlow' : 0x41 ≤ c.toNat := hlow
    have hhigh' : c.toNat ≤ 0x5A := hhigh
    omega
  · have hlow' : 0x61 ≤ c.toNat := hlow
    have hhigh' : c.toNat ≤ 0x7A := hhigh
    omega
  · decide

theorem not_isLayout_of_isWordStart {c : Char} (h : isWordStart c) : isLayout c = false := by
  have hclear : ∀ i ∈ layout.intervals, i.2 < 0x41 ∨ 0x7A < i.1 := by decide
  have hbounds := isWordStart_bounds h
  rw [isLayout, Text.CharClass.contains, List.any_eq_false]
  intro i hi
  simp only [Bool.and_eq_true, decide_eq_true_eq, not_and]
  have hi' := hclear i hi
  omega

theorem ne_of_isWordStart {c d : Char} (h : isWordStart c) (hd : d.toNat < 0x41) : c ≠ d := by
  rintro rfl
  have hbounds := isWordStart_bounds h
  omega

theorem not_isSpace_of_isWordStart {c : Char} (h : isWordStart c) : isSpace c = false := by
  simp [isSpace, ne_of_isWordStart h (d := ' ') (by decide), ne_of_isWordStart h (d := '\t') (by decide)]

/-! ## Layout -/

variable {rest : List Char}

theorem skip_layout {c : Char} (h : isLayout c) (s : List Char) : skip (c :: s) = skip s := by
  rw [skip, if_pos h]

theorem skip_of_visible {c : Char} (h : isLayout c = false) (hc : c ≠ '#') (s : List Char) : skip (c :: s) = c :: s := by
  rw [skip, h, if_neg Bool.false_ne_true, if_neg hc]

theorem length_skip_le (s : List Char) : (skip s).length ≤ s.length := by
  fun_induction skip s with
  | case1 => simp
  | case2 c s h ih => simp only [List.length_cons]; omega
  | case3 s h ih =>
    have hdrop := (List.dropWhile_sublist (l := s) (· != '\n')).length_le
    simp only [List.length_cons]
    omega
  | case4 c s h hc => simp

theorem spaces_of_stops {s : List Char} (h : Stops isSpace s) : spaces s = s := dropWhile_of_stops h

theorem spaces1_blank {s : List Char} (h : Stops isSpace s) : spaces1 (' ' :: s) = some s := by
  rw [spaces1, if_pos (by decide), spaces_of_stops h]

theorem spaces1_of_stops {c : Char} {s : List Char} (h : isSpace c = false) : spaces1 (c :: s) = none := by
  rw [spaces1, h, if_neg Bool.false_ne_true]

theorem literal_append (w s : List Char) : literal w (w ++ s) = some s := by
  induction w with
  | nil => rfl
  | cons c w ih => rw [List.cons_append, literal, if_pos rfl, ih]

theorem eq_append_of_literal {w s r : List Char} (h : literal w s = some r) : s = w ++ r := by
  induction w generalizing s with
  | nil => exact Option.some.inj h
  | cons c w ih =>
    cases s with
    | nil => cases h
    | cons d s =>
      rw [literal] at h
      split at h
      · rename_i hcd
        rw [List.cons_append, ← ih h, hcd]
      · cases h

/-! ## Words -/

/-- Whether a text is a word: a first character, then further ones. -/
def IsWord (further : Char → Bool) (w : String) : Prop :=
  ∃ c cs, w.toList = c :: cs ∧ isWordStart c ∧ ∀ d ∈ cs, further d

/-- Whether a text can stand for a node or a function. -/
def IsIdentifier (w : String) : Prop := IsWord isIdentChar w

/-- Whether a text can stand for an option. -/
def IsKey (w : String) : Prop := IsWord isKeyChar w

instance (further : Char → Bool) (w : String) : Decidable (IsWord further w) :=
  match h : w.toList with
  | [] => .isFalse fun ⟨_, _, hw, _⟩ => by rw [h] at hw; cases hw
  | c :: cs =>
    if hc : isWordStart c ∧ cs.all further then .isTrue ⟨c, cs, h, hc.1, List.all_eq_true.1 hc.2⟩
    else .isFalse fun ⟨_, _, hw, hc', hcs⟩ => by rw [h] at hw; cases hw; exact hc ⟨hc', List.all_eq_true.2 hcs⟩

instance (w : String) : Decidable (IsIdentifier w) := inferInstanceAs (Decidable (IsWord _ _))

instance (w : String) : Decidable (IsKey w) := inferInstanceAs (Decidable (IsWord _ _))

section IsWord

variable {further : Char → Bool} {w : String}

theorem word_append (h : IsWord further w) (hrest : Stops further rest) : word further (w.toList ++ rest) = some (w, rest) := by
  obtain ⟨c, cs, hw, hc, hcs⟩ := h
  rw [hw, List.cons_append, word, if_pos hc, List.takeWhile_append_of_pos hcs, List.dropWhile_append_of_pos hcs,
    takeWhile_of_stops hrest, dropWhile_of_stops hrest, List.append_nil, ← hw, String.ofList_toList]

theorem IsWord.stops_isSpace (h : IsWord further w) : Stops isSpace (w.toList ++ rest) := by
  obtain ⟨c, cs, hw, hc, -⟩ := h
  rw [hw]
  exact stops_cons.2 (not_isSpace_of_isWordStart hc)

theorem IsWord.skip_append (h : IsWord further w) : skip (w.toList ++ rest) = w.toList ++ rest := by
  obtain ⟨c, cs, hw, hc, -⟩ := h
  rw [hw]
  exact skip_of_visible (not_isLayout_of_isWordStart hc) (ne_of_isWordStart hc (by decide)) _

theorem IsIdentifier.not_isSpace (h : IsIdentifier w) : ∀ c ∈ w.toList, isSpace c = false := by
  obtain ⟨c, cs, hw, hc, hcs⟩ := h
  intro d hd
  rw [hw] at hd
  rcases List.mem_cons.1 hd with rfl | hd
  · exact not_isSpace_of_isWordStart hc
  · have hfurther := hcs d hd
    cases hspace : isSpace d with
    | false => rfl
    | true =>
      simp only [isSpace, Bool.or_eq_true, beq_iff_eq] at hspace
      rcases hspace with rfl | rfl
      · exact absurd hfurther (by decide)
      · exact absurd hfurther (by decide)

theorem IsWord.ne_nil (h : IsWord further w) : w.toList ≠ [] := by
  obtain ⟨c, cs, hw, -⟩ := h
  rw [hw]
  exact List.cons_ne_nil c cs

end IsWord

/-! ## Repetition -/

theorem many_stop {α : Type} {rule : Rule α} {s : List Char} (h : rule s = none) : many rule s = ([], s) := by
  rw [many, h]

theorem many_step {α : Type} {rule : Rule α} {s r : List Char} {a : α} (h : rule s = some (a, r))
    (hshorter : r.length < s.length) : many rule s = (a :: (many rule r).1, (many rule r).2) := by
  rw [many, h]
  exact if_pos hshorter

/-! ## Declarations of nodes -/

def NodeOption.write : NodeOption → List Char
  | .name s => ' ' :: inQuotes s
  | .flag f => ' ' :: f.word.toList

def NodeLine.options (l : NodeLine) : List NodeOption := l.flags.map .flag ++ (l.name.map .name).toList

theorem NodeLine.write_eq (l : NodeLine) :
    l.write = "node ".toList ++ l.ident.toList ++ l.options.flatMap NodeOption.write := by
  show "node ".toList ++ l.ident.toList ++ l.flags.flatMap (fun f => ' ' :: f.word.toList) ++
    (l.name.map fun s => ' ' :: inQuotes s).getD [] = _
  rw [options, List.flatMap_append, List.flatMap_map, List.append_assoc]
  cases l.name with
  | none => rfl
  | some s => rw [Option.map_some, Option.map_some, Option.toList_some, List.flatMap_singleton]; rfl

theorem isIdentChar_of_mem_word (f : Flag) : ∀ c ∈ f.word.toList, isIdentChar c = true := by
  cases f with
  | condition => exact List.all_eq_true.1 rfl
  | root => exact List.all_eq_true.1 rfl
  | exit => exact List.all_eq_true.1 rfl

theorem flag_word (f : Flag) (hrest : Stops isIdentChar rest) : flag (f.word.toList ++ rest) = some (f, rest) := by
  have hword := isIdentChar_of_mem_word f
  rw [flag, List.takeWhile_append_of_pos hword, List.dropWhile_append_of_pos hword, takeWhile_of_stops hrest,
    dropWhile_of_stops hrest, List.append_nil, String.ofList_toList]
  cases f with
  | condition => rfl
  | root => rfl
  | exit => rfl

theorem nodeOption_write (o : NodeOption) (hrest : Stops isIdentChar rest) :
    nodeOption (o.write ++ rest) = some (o, rest) := by
  cases o with
  | name s =>
    have hspaces : spaces1 (' ' :: (inQuotes s ++ rest)) = some (inQuotes s ++ rest) := spaces1_blank (stops_cons.2 rfl)
    rw [NodeOption.write, List.cons_append]
    simp only [nodeOption, hspaces, quoted_inQuotes, Option.bind_eq_bind, Option.bind_some]
    rfl
  | flag f =>
    obtain ⟨c, cs, hword, hspace, hquote⟩ : ∃ c cs, f.word.toList = c :: cs ∧ isSpace c = false ∧ c ≠ '"' := by
      cases f with
      | condition => exact ⟨'c', _, rfl, rfl, by decide⟩
      | root => exact ⟨'r', _, rfl, rfl, by decide⟩
      | exit => exact ⟨'e', _, rfl, rfl, by decide⟩
    have hspaces : spaces1 (' ' :: (f.word.toList ++ rest)) = some (f.word.toList ++ rest) := by
      apply spaces1_blank
      rw [hword]
      exact stops_cons.2 hspace
    have hquoted : quoted (f.word.toList ++ rest) = none := by
      rw [hword, List.cons_append, quoted]
      rintro s ⟨⟩
      exact hquote rfl
    rw [NodeOption.write, List.cons_append]
    simp only [nodeOption, hspaces, hquoted, flag_word f hrest, Option.bind_eq_bind, Option.bind_some]
    rfl

theorem stops_options (os : List NodeOption) : Stops isIdentChar (os.flatMap NodeOption.write ++ '\n' :: rest) := by
  cases os with
  | nil => exact stops_cons.2 (by decide)
  | cons o os =>
    cases o with
    | name s => exact stops_cons.2 (by decide)
    | flag f => exact stops_cons.2 (by decide)

theorem many_nodeOption (os : List NodeOption) :
    many nodeOption (os.flatMap NodeOption.write ++ '\n' :: rest) = (os, '\n' :: rest) := by
  induction os with
  | nil => exact many_stop rfl
  | cons o os ih =>
    have hlength : 0 < o.write.length := by
      cases o with
      | name s => simp [NodeOption.write]
      | flag f => simp [NodeOption.write]
    rw [List.flatMap_cons, List.append_assoc, many_step (nodeOption_write o (stops_options os)), ih]
    simp only [List.length_append]
    omega

theorem nodeDecl_write {l : NodeLine} (h : IsIdentifier l.ident) :
    nodeDecl (l.write ++ '\n' :: rest) = some (⟨l.ident, l.options, (l.write ++ '\n' :: rest).length⟩, '\n' :: rest) := by
  generalize hlength : (l.write ++ '\n' :: rest).length = length
  have htext : l.write ++ '\n' :: rest = ['n', 'o', 'd', 'e'] ++
      ' ' :: (l.ident.toList ++ (l.options.flatMap NodeOption.write ++ '\n' :: rest)) := by
    rw [NodeLine.write_eq, List.append_assoc, List.append_assoc]
    rfl
  rw [htext] at hlength ⊢
  simp only [nodeDecl, literal_append, spaces1_blank h.stops_isSpace, identifier, word_append h (stops_options l.options),
    many_nodeOption, hlength, Option.bind_eq_bind, Option.bind_some]
  rfl

/-! ## Edges -/

def writeOption : String × Option String → List Char
  | (k, some v) => writeEntry (k, v)
  | (k, none) => k.toList

/-- The options of an edge: its label, whether it goes back, and its attributes. -/
def EdgeLine.entries (l : EdgeLine) : List (String × Option String) :=
  (l.label.map fun s => ("cond", some s)).toList ++ (if l.back then [("back", none)] else []) ++
    l.attrs.map fun entry => (entry.1, some entry.2)

/-- An option apart from its place. -/
def EdgeOption.entry (o : EdgeOption) : String × Option String := (o.key, o.value)

theorem EdgeLine.options_eq (l : EdgeLine) : l.options = l.entries.map writeOption := by
  have hattrs : l.attrs.map writeEntry = (l.attrs.map fun entry => (entry.1, some entry.2)).map writeOption := by
    rw [List.map_map]
    rfl
  rw [options, entries, List.map_append, List.map_append, hattrs]
  congr 2
  · cases l.label with
    | none => rfl
    | some s => rfl
  · cases l.back with
    | false => rfl
    | true => rfl

theorem IsKey.stops_isSpace_writeOption {e : String × Option String} (h : IsKey e.1) :
    Stops isSpace (writeOption e ++ rest) := by
  obtain ⟨k, _ | v⟩ := e
  · exact IsWord.stops_isSpace h
  · rw [writeOption, writeEntry, List.append_assoc]
    exact IsWord.stops_isSpace h

/-- Whether an option may end before a text. -/
def Ends (s : List Char) : Prop := ∀ c ∈ s.head?, c = ',' ∨ c = ']'

theorem Ends.stops_isKeyChar (h : Ends rest) : Stops isKeyChar rest := by
  intro c hc
  rcases h c hc with rfl | rfl
  · decide
  · decide

theorem Ends.literal_equals (h : Ends rest) : literal ['='] rest = none := by
  cases rest with
  | nil => rfl
  | cons c s =>
    have hc : '=' ≠ c := by
      rintro rfl
      simpa using h '=' rfl
    rw [literal, if_neg hc]

theorem edgeOption_write {e : String × Option String} (hkey : IsKey e.1) (hrest : Ends rest) :
    ∃ o, o.entry = e ∧ edgeOption (writeOption e ++ rest) = some (o, rest) := by
  obtain ⟨k, _ | v⟩ := e
  · have hword : key (k.toList ++ rest) = some (k, rest) := word_append hkey hrest.stops_isKeyChar
    have hassignment : assignment (k.toList ++ rest) = none := by
      simp only [assignment, hword, hrest.literal_equals, Option.bind_eq_bind, Option.bind_some, Option.bind_none]
    refine ⟨⟨k, none, (k.toList ++ rest).length⟩, rfl, ?_⟩
    rw [writeOption, edgeOption, hassignment]
    simp only [hword, Option.map_some]
  · have htext : writeOption (k, some v) ++ rest = k.toList ++ (['='] ++ (inQuotes v ++ rest)) := by
      rw [writeOption, writeEntry, List.append_assoc]
      rfl
    have hword : key (k.toList ++ (['='] ++ (inQuotes v ++ rest))) = some (k, ['='] ++ (inQuotes v ++ rest)) :=
      word_append hkey (stops_cons.2 (by decide))
    refine ⟨⟨k, some v, (writeOption (k, some v) ++ rest).length⟩, rfl, ?_⟩
    rw [htext]
    simp only [edgeOption, assignment, hword, literal_append, quoted_inQuotes, Option.bind_eq_bind, Option.bind_some]
    rfl

theorem nextOption_write {e : String × Option String} (hkey : IsKey e.1) (hrest : Ends rest) :
    ∃ o, o.entry = e ∧ nextOption (", ".toList ++ writeOption e ++ rest) = some (o, rest) := by
  have hseparator : separator (", ".toList ++ writeOption e ++ rest) = some (writeOption e ++ rest) := by
    have hspaces : spaces (' ' :: (writeOption e ++ rest)) = writeOption e ++ rest := by
      show spaces (writeOption e ++ rest) = _
      exact spaces_of_stops hkey.stops_isSpace_writeOption
    show some (spaces (' ' :: (writeOption e ++ rest))) = _
    rw [hspaces]
  rw [nextOption, hseparator]
  exact edgeOption_write hkey hrest

theorem ends_options (es : List (String × Option String)) (rest : List Char) :
    Ends (es.flatMap (fun e => ", ".toList ++ writeOption e) ++ ']' :: rest) := by
  cases es with
  | nil => simp [Ends]
  | cons e es =>
    intro c hc
    obtain rfl : ',' = c := Option.some.inj hc
    exact Or.inl rfl

theorem many_nextOption {es : List (String × Option String)} (hkeys : ∀ e ∈ es, IsKey e.1) (rest : List Char) :
    ∃ os, os.map EdgeOption.entry = es ∧
      many nextOption (es.flatMap (fun e => ", ".toList ++ writeOption e) ++ ']' :: rest) = (os, ']' :: rest) := by
  induction es with
  | nil => exact ⟨[], rfl, many_stop rfl⟩
  | cons e es ih =>
    obtain ⟨os, hos, hmany⟩ := ih fun e' he' => hkeys e' (by simp [he'])
    obtain ⟨o, ho, hnext⟩ := nextOption_write (hkeys e (by simp)) (ends_options es rest)
    refine ⟨o :: os, by rw [List.map_cons, ho, hos], ?_⟩
    have hlength : 0 < ", ".toList.length := by decide
    rw [List.flatMap_cons, List.append_assoc, many_step hnext, hmany]
    simp only [List.length_append]
    omega

theorem intercalate_cons {α : Type} (sep a : List α) (as : List (List α)) :
    sep.intercalate (a :: as) = a ++ as.flatMap (sep ++ ·) := by
  induction as generalizing a with
  | nil => simp
  | cons b bs ih => simp [ih]

theorem edgeOptions_write {e : String × Option String} {es : List (String × Option String)}
    (hkeys : ∀ e' ∈ e :: es, IsKey e'.1) (rest : List Char) :
    ∃ os, os.map EdgeOption.entry = e :: es ∧
      edgeOptions (" [".toList ++ List.intercalate ", ".toList ((e :: es).map writeOption) ++ [']'] ++ rest) =
        some (os, rest) := by
  obtain ⟨os, hos, hmany⟩ := many_nextOption (fun e' he' => hkeys e' (List.mem_cons_of_mem e he')) rest
  have htext : " [".toList ++ List.intercalate ", ".toList ((e :: es).map writeOption) ++ [']'] ++ rest =
      ' ' :: (['['] ++ (writeOption e ++ (es.flatMap (fun e => ", ".toList ++ writeOption e) ++ ']' :: rest))) := by
    rw [List.map_cons, intercalate_cons, List.flatMap_map]
    simp only [List.append_assoc]
    rfl
  have hkey : IsKey e.1 := hkeys e (by simp)
  have hspaces : ∀ s, spaces (' ' :: (['['] ++ s)) = ['['] ++ s := fun s => rfl
  have hclose : literal [']'] (spaces (']' :: rest)) = some rest := rfl
  obtain ⟨o, ho, hfirst⟩ := edgeOption_write hkey (ends_options es rest)
  refine ⟨o :: os, by rw [List.map_cons, ho, hos], ?_⟩
  rw [htext]
  simp only [edgeOptions, hspaces, literal_append, spaces_of_stops hkey.stops_isSpace_writeOption, hfirst, hmany, hclose,
    Option.bind_eq_bind, Option.bind_some]
  rfl

/-- What an edge must be for its line to be read back. -/
structure EdgeLine.Writable (l : EdgeLine) : Prop where
  src : IsIdentifier l.src
  dst : IsIdentifier l.dst
  keys : ∀ entry ∈ l.attrs, IsKey entry.1 ∧ entry.1 ≠ "cond"
  distinct : (l.attrs.map Prod.fst).Nodup

instance (l : EdgeLine) : Decidable l.Writable :=
  decidable_of_iff (IsIdentifier l.src ∧ IsIdentifier l.dst ∧ (∀ entry ∈ l.attrs, IsKey entry.1 ∧ entry.1 ≠ "cond") ∧
      (l.attrs.map Prod.fst).Nodup)
    ⟨fun h => ⟨h.1, h.2.1, h.2.2.1, h.2.2.2⟩, fun h => ⟨h.src, h.dst, h.keys, h.distinct⟩⟩

theorem EdgeLine.Writable.isKey_entries {l : EdgeLine} (h : l.Writable) : ∀ e ∈ l.entries, IsKey e.1 := by
  intro e he
  rcases List.mem_append.1 he with he | he
  · rcases List.mem_append.1 he with he | he
    · obtain ⟨s, -, rfl⟩ := Option.map_eq_some_iff.1 (Option.mem_toList.1 he)
      show IsKey "cond"
      exact ⟨'c', ['o', 'n', 'd'], rfl, rfl, List.all_eq_true.1 rfl⟩
    · split at he
      · obtain rfl := List.mem_singleton.1 he
        show IsKey "back"
        exact ⟨'b', ['a', 'c', 'k'], rfl, rfl, List.all_eq_true.1 rfl⟩
      · cases he
  · obtain ⟨entry, hentry, rfl⟩ := List.mem_map.1 he
    exact (h.keys entry hentry).1

def EdgeLine.tail (l : EdgeLine) : List Char :=
  if l.options.isEmpty then [] else " [".toList ++ List.intercalate ", ".toList l.options ++ [']']

theorem EdgeLine.write_append (l : EdgeLine) (s : List Char) :
    l.write ++ s = l.src.toList ++ ' ' :: (['-', '>'] ++ ' ' :: (l.dst.toList ++ (l.tail ++ s))) := by
  rw [write, ← tail]
  simp only [List.append_assoc]
  rfl

theorem EdgeLine.stops_tail (l : EdgeLine) : Stops isIdentChar (l.tail ++ '\n' :: rest) := by
  unfold tail
  split
  · exact stops_cons.2 (by decide)
  · exact stops_cons.2 (by decide)

theorem EdgeLine.Writable.edgeOptions_tail {l : EdgeLine} (h : l.Writable) (rest : List Char) :
    ∃ os, os.map EdgeOption.entry = l.entries ∧
      (edgeOptions (l.tail ++ '\n' :: rest)).getD ([], l.tail ++ '\n' :: rest) = (os, '\n' :: rest) := by
  have hkeys := h.isKey_entries
  unfold tail
  rw [options_eq]
  cases hentries : l.entries with
  | nil => exact ⟨[], rfl, rfl⟩
  | cons e es =>
    rw [hentries] at hkeys
    obtain ⟨os, hos, hread⟩ := edgeOptions_write hkeys ('\n' :: rest)
    refine ⟨os, hos, ?_⟩
    rw [if_neg (by simp), hread, Option.getD_some]

theorem EdgeLine.Writable.edgeDecl_write {l : EdgeLine} (h : l.Writable) (rest : List Char) :
    ∃ os, os.map EdgeOption.entry = l.entries ∧
      edgeDecl (l.write ++ '\n' :: rest) = some (⟨l.src, l.dst, os⟩, '\n' :: rest) := by
  obtain ⟨os, hos, hread⟩ := h.edgeOptions_tail rest
  refine ⟨os, hos, ?_⟩
  have hsrc : Stops isIdentChar (' ' :: (['-', '>'] ++ ' ' :: (l.dst.toList ++ (l.tail ++ '\n' :: rest)))) :=
    stops_cons.2 (by decide)
  have harrow : ∀ s, spaces (' ' :: (['-', '>'] ++ s)) = ['-', '>'] ++ s := fun s => rfl
  have hdst : spaces (' ' :: (l.dst.toList ++ (l.tail ++ '\n' :: rest))) = l.dst.toList ++ (l.tail ++ '\n' :: rest) :=
    spaces_of_stops (s := l.dst.toList ++ _) h.dst.stops_isSpace
  rw [write_append]
  simp only [edgeDecl, identifier, word_append h.src hsrc, harrow, literal_append, hdst, word_append h.dst l.stops_tail, hread,
    Option.bind_eq_bind, Option.bind_some]
  rfl

/-- An edge is not taken for the declaration of a node, even if it starts with the word for one. -/
theorem EdgeLine.Writable.nodeDecl_edge {l : EdgeLine} (h : l.Writable) : nodeDecl (l.write ++ rest) = none := by
  rw [write_append]
  unfold nodeDecl
  cases hword : literal ['n', 'o', 'd', 'e']
      (l.src.toList ++ ' ' :: (['-', '>'] ++ ' ' :: (l.dst.toList ++ (l.tail ++ rest)))) with
  | none => rfl
  | some r =>
    rw [Option.bind_eq_bind, Option.bind_some]
    cases r with
    | nil => rfl
    | cons d r =>
      cases hd : isSpace d with
      | false => rw [spaces1_of_stops hd]; rfl
      | true =>
        -- the first blank of the text comes after the word, so what follows is the arrow
        have hblank := congrArg (List.dropWhile fun c => !isSpace c) (eq_append_of_literal hword)
        rw [List.dropWhile_append_of_pos fun c hc => by rw [h.src.not_isSpace c hc]; rfl,
          List.dropWhile_append_of_pos (List.all_eq_true.1 rfl), dropWhile_of_stops (stops_cons.2 rfl),
          dropWhile_of_stops (stops_cons.2 (by rw [hd]; rfl))] at hblank
        rw [← hblank]
        rfl

/-! ## Statements -/

/-- What a statement must be to be read back. A name may not be empty, as a node with an empty name is given another. -/
def Line.Writable : Line → Prop
  | .node l => IsIdentifier l.ident ∧ l.name ≠ some ""
  | .edge l => l.Writable

instance : (l : Line) → Decidable l.Writable
  | .node l => inferInstanceAs (Decidable (IsIdentifier l.ident ∧ l.name ≠ some ""))
  | .edge l => inferInstanceAs (Decidable l.Writable)

/-- Whether a declaration is what was written. -/
structure NodeLine.Matches (l : NodeLine) (d : NodeDecl) : Prop where
  ident : d.ident = l.ident
  options : d.options = l.options

/-- Whether an edge is what was written. -/
structure EdgeLine.Matches (l : EdgeLine) (d : EdgeDecl) : Prop where
  src : d.src = l.src
  dst : d.dst = l.dst
  options : d.options.map EdgeOption.entry = l.entries

/-- Whether a statement is what was written. -/
inductive Line.Matches : Line → Statement → Prop where
  | node {l : NodeLine} {d : NodeDecl} (h : l.Matches d) : Line.Matches (.node l) (.node d)
  | edge {l : EdgeLine} {d : EdgeDecl} (h : l.Matches d) : Line.Matches (.edge l) (.edge d)

namespace Line.Writable

variable {l : Line}

theorem statement_write (h : l.Writable) (rest : List Char) :
    ∃ st, l.Matches st ∧ statement (l.write ++ '\n' :: rest) = some (st, skip rest) := by
  have hskip : skip ('\n' :: rest) = skip rest := skip_layout (by decide) rest
  cases l with
  | node l =>
    refine ⟨.node ⟨l.ident, l.options, (l.write ++ '\n' :: rest).length⟩, .node ⟨rfl, rfl⟩, ?_⟩
    rw [write, statement, nodeDecl_write h.1, ← hskip]
  | edge l =>
    obtain ⟨os, hos, hread⟩ := EdgeLine.Writable.edgeDecl_write h rest
    refine ⟨.edge ⟨l.src, l.dst, os⟩, .edge ⟨rfl, rfl, hos⟩, ?_⟩
    rw [write, statement, EdgeLine.Writable.nodeDecl_edge h, hread, ← hskip]
    rfl

theorem skip_write (h : l.Writable) : skip (l.write ++ rest) = l.write ++ rest := by
  cases l with
  | node l => exact skip_of_visible (by decide) (by decide) _
  | edge l =>
    rw [write, EdgeLine.write_append]
    exact IsWord.skip_append h.src

theorem length_pos (h : l.Writable) : 0 < l.write.length := by
  cases l with
  | node l =>
    show 0 < l.write.length
    rw [NodeLine.write_eq, List.length_append, List.length_append]
    have hword : 0 < "node ".toList.length := by decide
    omega
  | edge l =>
    have hsrc := List.length_pos_iff.2 (IsWord.ne_nil h.src)
    have htext := congrArg List.length (l.write_append [])
    simp only [List.append_nil, List.length_append] at htext
    show 0 < l.write.length
    omega

end Line.Writable

/-- The lines of a function, and what ends it. -/
def body (lines : List Line) : List Char :=
  lines.flatMap (fun l => [' ', ' ', ' ', ' '] ++ l.write ++ ['\n']) ++ ['\x7d', '\n']

theorem skip_body_cons {l : Line} (h : l.Writable) (lines : List Line) :
    skip (body (l :: lines) ++ rest) = l.write ++ '\n' :: (body lines ++ rest) := by
  have htext : body (l :: lines) ++ rest = ' ' :: ' ' :: ' ' :: ' ' :: (l.write ++ '\n' :: (body lines ++ rest)) := by
    simp [body]
  have hblank : isLayout ' ' = true := by decide
  rw [htext, skip_layout hblank, skip_layout hblank, skip_layout hblank, skip_layout hblank, h.skip_write]

theorem many_statement {lines : List Line} (h : ∀ l ∈ lines, l.Writable) (rest : List Char) :
    ∃ sts, List.Forall₂ Line.Matches lines sts ∧
      many statement (skip (body lines ++ rest)) = (sts, '\x7d' :: '\n' :: rest) := by
  induction lines with
  | nil =>
    refine ⟨[], .nil, ?_⟩
    have hskip : skip (body [] ++ rest) = '\x7d' :: '\n' :: rest := skip_of_visible (by decide) (by decide) _
    rw [hskip]
    exact many_stop rfl
  | cons l lines ih =>
    obtain ⟨sts, hsts, hmany⟩ := ih fun l' hl' => h l' (by simp [hl'])
    have hl := h l (by simp)
    obtain ⟨st, hst, hread⟩ := hl.statement_write (body lines ++ rest)
    refine ⟨st :: sts, .cons hst hsts, ?_⟩
    rw [skip_body_cons hl, many_step hread, hmany]
    have hshort := length_skip_le (body lines ++ rest)
    have hpos := hl.length_pos
    rw [List.length_append, List.length_cons]
    omega

/-! ## Functions -/

/-- The nodes that a function declares. -/
def Block.nodeLines (b : Block) : List NodeLine :=
  b.lines.filterMap fun
    | .node l => some l
    | .edge _ => none

/-- What a function must be to be read back. -/
structure Block.Writable (b : Block) : Prop where
  name : IsIdentifier b.name
  lines : ∀ l ∈ b.lines, l.Writable
  distinct : (b.nodeLines.map NodeLine.ident).Nodup

instance (b : Block) : Decidable b.Writable :=
  decidable_of_iff (IsIdentifier b.name ∧ (∀ l ∈ b.lines, l.Writable) ∧ (b.nodeLines.map NodeLine.ident).Nodup)
    ⟨fun h => ⟨h.1, h.2.1, h.2.2⟩, fun h => ⟨h.name, h.lines, h.distinct⟩⟩

/-- Whether a function is what was written. -/
structure Block.Matches (b : Block) (f : FunctionDecl) : Prop where
  name : f.name = b.name
  lines : List.Forall₂ Line.Matches b.lines f.statements

theorem Block.write_append (b : Block) (s : List Char) :
    b.write ++ s = ['f', 'u', 'n', 'c', 't', 'i', 'o', 'n'] ++
      ' ' :: (b.name.toList ++ ' ' :: (['\x7b'] ++ '\n' :: (body b.lines ++ s))) := by
  show ['f', 'u', 'n', 'c', 't', 'i', 'o', 'n', ' '] ++ b.name.toList ++ [' ', '\x7b', '\n'] ++
    b.lines.flatMap (fun l => [' ', ' ', ' ', ' '] ++ l.write ++ ['\n']) ++ ['\x7d', '\n'] ++ s = _
  simp only [body, List.append_assoc, List.cons_append, List.nil_append]

theorem Block.Writable.function_write {b : Block} (h : b.Writable) (rest : List Char) :
    ∃ f, b.Matches f ∧ function (b.write ++ rest) = some (f, skip rest) := by
  obtain ⟨sts, hsts, hmany⟩ := many_statement h.lines rest
  refine ⟨⟨b.name, sts, (b.write ++ rest).length⟩, ⟨rfl, hsts⟩, ?_⟩
  generalize hlength : (b.write ++ rest).length = length
  have hname : Stops isIdentChar (' ' :: (['\x7b'] ++ '\n' :: (body b.lines ++ rest))) := stops_cons.2 (by decide)
  have hopen : skip (' ' :: (['\x7b'] ++ '\n' :: (body b.lines ++ rest))) = ['\x7b'] ++ '\n' :: (body b.lines ++ rest) := by
    rw [skip_layout (by decide)]
    exact skip_of_visible (by decide) (by decide) _
  have hfirst : skip ('\n' :: (body b.lines ++ rest)) = skip (body b.lines ++ rest) := skip_layout (by decide) _
  have hclose : literal ['\x7d'] ('\x7d' :: '\n' :: rest) = some ('\n' :: rest) := rfl
  have hlast : skip ('\n' :: rest) = skip rest := skip_layout (by decide) _
  rw [write_append] at hlength ⊢
  simp only [function, literal_append, spaces1_blank h.name.stops_isSpace, identifier, word_append h.name hname, hopen, hfirst,
    hmany, hclose, hlast, hlength, Option.bind_eq_bind, Option.bind_some]
  rfl

/-- The functions that are read from the text of some blocks are these blocks. -/
theorem read_write {blocks : List Block} (h : ∀ b ∈ blocks, b.Writable) :
    ∃ fs, List.Forall₂ Block.Matches blocks fs ∧ read (write blocks).toList = .ok fs := by
  have hskip : ∀ b : Block, ∀ s, skip (b.write ++ s) = b.write ++ s := by
    intro b s
    rw [Block.write_append]
    exact skip_of_visible (by decide) (by decide) _
  have hdocument : ∃ fs, List.Forall₂ Block.Matches blocks fs ∧ document (blocks.flatMap Block.write) = (fs, []) := by
    unfold document
    induction blocks with
    | nil => exact ⟨[], .nil, by rw [List.flatMap_nil, skip]; exact many_stop rfl⟩
    | cons b blocks ih =>
      obtain ⟨fs, hfs, hmany⟩ := ih fun b' hb' => h b' (by simp [hb'])
      obtain ⟨f, hf, hread⟩ := (h b (by simp)).function_write (blocks.flatMap Block.write)
      refine ⟨f :: fs, .cons hf hfs, ?_⟩
      rw [List.flatMap_cons, hskip, many_step hread, hmany]
      have hshort := length_skip_le (blocks.flatMap Block.write)
      simp only [Block.write_append, List.length_append, List.length_cons]
      omega
  obtain ⟨fs, hfs, hread⟩ := hdocument
  refine ⟨fs, hfs, ?_⟩
  rw [write, String.toList_ofList, read, hread]

end Flowgraph.Description
