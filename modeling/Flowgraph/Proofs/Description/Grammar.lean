import Flowgraph.Proofs.Description.Reading
/-!
# The grammar of descriptions

The grammar as a parsing expression: alternatives are tried in order, repetitions go on for as long as something is read, and
nothing that was read is given back. `Peg.run` says what is left of a text after an expression, and a text is accepted if
nothing is left of it (`Peg.Accepts`).

The reader follows the grammar rule by rule and reaches the same place (`Grammar.run_document`), so it reads exactly the texts
that the grammar accepts (`Grammar.accepts_iff_read`).
-/

namespace Flowgraph.Description

open Text (isLayout)

/-! ## Parsing expressions -/

/-- A parsing expression. -/
inductive Peg where
  /-- One character of a class. -/
  | char (p : Char → Bool)
  /-- Characters as they stand. -/
  | text (w : String)
  /-- Nothing. -/
  | empty
  /-- One expression after the other. -/
  | seq (p q : Peg)
  /-- The first expression, or where it does not apply the second. -/
  | choice (p q : Peg)
  /-- An expression as often as it applies and reads something. -/
  | star (p : Peg)
  /-- A place where an expression does not apply. -/
  | absent (p : Peg)

/-- What is left after a step is taken as often as it can be and gets further. -/
def repeated (step : List Char → Option (List Char)) (s : List Char) : List Char :=
  match step s with
  | none => s
  | some r => if r.length < s.length then repeated step r else s
  termination_by s.length

namespace Peg

/-- What is left of a text after an expression, if it applies. -/
def run : Peg → List Char → Option (List Char)
  | char _, [] => none
  | char p, c :: s => if p c then some s else none
  | text w, s => if w.toList.isPrefixOf s then some (s.drop w.toList.length) else none
  | empty, s => some s
  | seq p q, s => (p.run s).bind q.run
  | choice p q, s => (p.run s).or (q.run s)
  | star p, s => some (repeated p.run s)
  | absent p, s => if (p.run s).isSome then none else some s

/-- Whether an expression reads the whole of a text. -/
def Accepts (p : Peg) (s : List Char) : Prop := p.run s = some []

instance (p : Peg) (s : List Char) : Decidable (p.Accepts s) := inferInstanceAs (Decidable (_ = _))

def inTurn : List Peg → Peg
  | [] => .empty
  | p :: ps => .seq p (inTurn ps)

def optional (p : Peg) : Peg := .choice p .empty

def plus (p : Peg) : Peg := .seq p (.star p)

def just (c : Char) : Peg := .char (· == c)

end Peg

/-! ## The rules -/

namespace Grammar

open Peg

def spaces : Peg := plus (.char isSpace)

def layout : Peg := .star (.choice (.char isLayout) (.seq (just '#') (.star (.char (· != '\n')))))

def word (further : Char → Bool) : Peg := .seq (.char isWordStart) (.star (.char further))

def identifier : Peg := word isIdentChar

def key : Peg := word isKeyChar

/-- A character between quotes, or one after a backslash. -/
def quotedItem : Peg := .choice (.char fun c => c != '"' && c != '\\') (.seq (just '\\') (.char (· != '\n')))

def quoted : Peg := inTurn [just '"', .star quotedItem, just '"']

def bare : Peg := plus (.char isBareChar)

def flagWord : Peg := .choice (.text "condition") (.choice (.text "root") (.text "exit"))

def flag : Peg := .seq flagWord (.absent (.char isIdentChar))

def nodeOption : Peg := .seq spaces (.choice quoted flag)

def nodeDecl : Peg := inTurn [.text "node", spaces, identifier, .star nodeOption]

def assignment : Peg := inTurn [key, .text "=", .choice quoted bare]

def edgeOption : Peg := .choice assignment key

def separator : Peg := .choice (inTurn [optional spaces, .text ",", optional spaces]) spaces

def nextOption : Peg := .seq separator edgeOption

def edgeOptions : Peg :=
  inTurn [optional spaces, .text "[", optional spaces, edgeOption, .star nextOption, optional spaces, .text "]"]

def edgeDecl : Peg :=
  inTurn [identifier, optional spaces, .text "->", optional spaces, identifier, optional edgeOptions]

def statement : Peg := .seq (.choice nodeDecl edgeDecl) layout

def function : Peg :=
  inTurn [.text "function", spaces, identifier, layout, .text "\x7b", layout, .star statement, .text "\x7d", layout]

def document : Peg := .seq layout (.star function)

end Grammar

section Run

variable {p q : Peg} {s : List Char}

theorem run_seq : (Peg.seq p q).run s = (p.run s).bind fun r => q.run r := rfl

theorem run_choice : (Peg.choice p q).run s = (p.run s).or (q.run s) := rfl

theorem run_star : (Peg.star p).run s = some (repeated p.run s) := rfl

theorem run_optional : (Peg.optional p).run s = (p.run s).or (some s) := rfl

theorem run_inTurn_nil : (Peg.inTurn []).run s = some s := rfl

theorem run_inTurn_cons {ps : List Peg} : (Peg.inTurn (p :: ps)).run s = (p.run s).bind fun r => (Peg.inTurn ps).run r :=
  rfl

theorem run_text (w : String) (s : List Char) : (Peg.text w).run s = literal w.toList s := by
  rw [Peg.run]
  generalize w.toList = w
  induction w generalizing s with
  | nil => cases s <;> rfl
  | cons a w ih =>
    cases s with
    | nil => rfl
    | cons c s =>
      rw [literal, ← ih s]
      by_cases hc : a = c
      · simp [hc]
      · simp [hc]

end Run

/-! ## Repetition -/

section Repeated

variable {step : List Char → Option (List Char)} {s r : List Char}

theorem repeated_stop (h : step s = none) : repeated step s = s := by rw [repeated, h]

theorem repeated_step (h : step s = some r) (hshorter : r.length < s.length) : repeated step s = repeated step r := by
  rw [repeated, h]
  exact if_pos hshorter

theorem repeated_many {α : Type} {rule : Rule α} (h : ∀ s, step s = (rule s).map Prod.snd) (s : List Char) :
    repeated step s = (many rule s).2 := by
  fun_induction many rule s with
  | case1 s hnone => rw [repeated_stop (by rw [h, hnone]; rfl)]
  | case2 s a r hsome hshorter as t hmany ih =>
    rw [repeated_step (by rw [h, hsome]; rfl) hshorter, ih, hmany]
  | case3 s a r hsome hlong =>
    have hstep : step s = some r := by rw [h, hsome]; rfl
    rw [repeated, hstep]
    exact if_neg hlong

theorem repeated_char (p : Char → Bool) (s : List Char) : repeated (Peg.char p).run s = s.dropWhile p := by
  induction s with
  | nil => exact repeated_stop rfl
  | cons c s ih =>
    rw [List.dropWhile_cons]
    split
    · rename_i hc
      rw [repeated_step (r := s) (by rw [Peg.run, if_pos hc]) (by simp), ih]
    · rename_i hc
      exact repeated_stop (by rw [Peg.run, if_neg hc])

end Repeated

/-! ## The reader follows the grammar -/

namespace Grammar

open Peg (run)

theorem run_spaces (s : List Char) : spaces.run s = spaces1 s := by
  cases s with
  | nil => rfl
  | cons c s =>
    show ((Peg.char isSpace).run (c :: s)).bind (Peg.star (.char isSpace)).run = _
    rw [Peg.run, spaces1]
    split
    · exact congrArg some (repeated_char isSpace s)
    · rfl

theorem run_optional_spaces (s : List Char) : (Peg.optional spaces).run s = some (Description.spaces s) := by
  show (spaces.run s).or (some s) = _
  rw [run_spaces]
  cases s with
  | nil => rfl
  | cons c s =>
    show (spaces1 (c :: s)).or (some (c :: s)) = some ((c :: s).dropWhile isSpace)
    rw [spaces1, List.dropWhile_cons]
    split
    · rfl
    · rfl

theorem run_layout (s : List Char) : layout.run s = some (skip s) := by
  show some (repeated _ s) = _
  congr 1
  fun_induction skip s with
  | case1 => exact repeated_stop rfl
  | case2 c s h ih => rw [repeated_step (r := s) (by simp [run, h]) (by simp), ih]
  | case3 s h ih =>
    have hcomment : (Peg.choice (.char isLayout) (.seq (Peg.just '#') (.star (.char (· != '\n'))))).run ('#' :: s) =
        some (s.dropWhile (· != '\n')) := by
      simp [run, Peg.just, h, repeated_char]
    have hlength := (List.dropWhile_sublist (l := s) (· != '\n')).length_le
    rw [repeated_step hcomment (by simp only [List.length_cons]; omega), ih]
  | case4 c s h hc => exact repeated_stop (by simp [run, Peg.just, h, hc])

theorem run_word (further : Char → Bool) (s : List Char) :
    (word further).run s = (Description.word further s).map Prod.snd := by
  cases s with
  | nil => rfl
  | cons c s =>
    show ((Peg.char isWordStart).run (c :: s)).bind (Peg.star (.char further)).run = _
    rw [Peg.run, Description.word]
    split
    · exact congrArg some (repeated_char further s)
    · rfl

theorem run_identifier (s : List Char) : identifier.run s = (Description.identifier s).map Prod.snd := run_word _ s

theorem run_key (s : List Char) : key.run s = (Description.key s).map Prod.snd := run_word _ s

theorem run_quotedItem {c : Char} (hquote : c ≠ '"') (hslash : c ≠ '\\') (s : List Char) : quotedItem.run (c :: s) = some s := by
  simp [quotedItem, run, hquote, hslash]

theorem run_quotedItem_escaped {c : Char} (hc : c ≠ '\n') (s : List Char) : quotedItem.run ('\\' :: c :: s) = some s := by
  simp [quotedItem, run, Peg.just, hc]

theorem run_quotedRest (s : List Char) :
    (Peg.just '"').run (repeated quotedItem.run s) = (quotedRest s).map Prod.snd := by
  fun_induction quotedRest s with
  | case1 => rw [repeated_stop rfl]; rfl
  | case2 s => rw [repeated_stop rfl]; rfl
  | case3 => rw [repeated_stop rfl]; rfl
  | case4 s => rw [repeated_stop rfl]; rfl
  | case5 c s hc cs r hrest ih =>
    rw [repeated_step (run_quotedItem_escaped hc s) (by simp only [List.length_cons]; omega), ih, hrest]
    rfl
  | case6 c s hc hrest ih =>
    rw [repeated_step (run_quotedItem_escaped hc s) (by simp only [List.length_cons]; omega), ih, hrest]
  | case7 c s hquote hlast hslash cs r hrest ih =>
    have hne : c ≠ '\\' := fun heq => by cases s with
      | nil => exact hlast heq rfl
      | cons d s => exact hslash d s heq rfl
    rw [repeated_step (run_quotedItem hquote hne s) (by simp), ih, hrest]
    rfl
  | case8 c s hquote hlast hslash hrest ih =>
    have hne : c ≠ '\\' := fun heq => by cases s with
      | nil => exact hlast heq rfl
      | cons d s => exact hslash d s heq rfl
    rw [repeated_step (run_quotedItem hquote hne s) (by simp), ih, hrest]

theorem run_quoted (s : List Char) : quoted.run s = (Description.quoted s).map Prod.snd := by
  simp only [quoted, run_inTurn_cons, run_inTurn_nil, run_star, Option.bind_some, Option.bind_fun_some, run_quotedRest]
  cases s with
  | nil => rfl
  | cons c s =>
    by_cases hc : c = '"'
    · subst hc
      show (quotedRest s).map Prod.snd = ((quotedRest s).map _).map Prod.snd
      rw [Option.map_map]
      rfl
    · rw [Description.quoted]
      · simp [Peg.just, run, hc]
      · rintro t ⟨⟩
        exact hc rfl

theorem run_bare (s : List Char) : bare.run s = (Description.bare s).map Prod.snd := by
  cases s with
  | nil => rfl
  | cons c s =>
    show ((Peg.char isBareChar).run (c :: s)).bind (Peg.star (.char isBareChar)).run = _
    rw [Peg.run, Description.bare, List.takeWhile_cons, List.dropWhile_cons]
    split
    · exact congrArg some (repeated_char isBareChar s)
    · rfl

theorem exists_flag_of_run {s r : List Char} (h : flagWord.run s = some r) : ∃ f : Flag, s = f.word.toList ++ r := by
  simp only [flagWord, run_choice, run_text, Option.or_eq_some_iff] at h
  rcases h with h | ⟨-, h | ⟨-, h⟩⟩
  · exact ⟨.condition, eq_append_of_literal h⟩
  · exact ⟨.root, eq_append_of_literal h⟩
  · exact ⟨.exit, eq_append_of_literal h⟩

/-- The word for a flag is read where it does not go on. -/
theorem run_flag_word (f : Flag) (r : List Char) :
    flag.run (f.word.toList ++ r) = if r.takeWhile isIdentChar = [] then some r else none := by
  have hword : flagWord.run (f.word.toList ++ r) = some r := by
    cases f with
    | condition => rfl
    | root => rfl
    | exit => rfl
  show (flagWord.run _).bind _ = _
  rw [hword, Option.bind_some]
  cases r with
  | nil => rfl
  | cons c r =>
    cases hc : isIdentChar c with
    | false => simp [run, hc]
    | true => simp [run, hc]

theorem run_flag (s : List Char) : flag.run s = (Description.flag s).map Prod.snd := by
  rw [Description.flag, Option.map_map]
  cases hfind : Flag.all.find? (·.word == String.ofList (s.takeWhile isIdentChar)) with
  | some f =>
    have hw : f.word = String.ofList (s.takeWhile isIdentChar) := by simpa using List.find?_some hfind
    have hs : s = f.word.toList ++ s.dropWhile isIdentChar := by
      rw [hw, String.toList_ofList, List.takeWhile_append_dropWhile]
    rw [hs, run_flag_word, ← hs, if_pos (takeWhile_of_stops (stops_dropWhile isIdentChar s))]
    rfl
  | none =>
    show flag.run s = none
    by_contra hne
    obtain ⟨r, hr⟩ := Option.ne_none_iff_exists'.1 hne
    obtain ⟨t, ht, -⟩ := Option.bind_eq_some_iff.1 hr
    obtain ⟨f, rfl⟩ := exists_flag_of_run ht
    rw [run_flag_word] at hr
    split at hr
    · rename_i hstop
      rw [List.takeWhile_append_of_pos (isIdentChar_of_mem_word f), hstop, List.append_nil, String.ofList_toList] at hfind
      have hall : f ∈ Flag.all := by cases f <;> decide
      simpa using List.find?_eq_none.1 hfind f hall
    · cases hr

theorem run_nodeOption (s : List Char) : nodeOption.run s = (Description.nodeOption s).map Prod.snd := by
  simp only [nodeOption, run_seq, run_choice, run_spaces, run_quoted, run_flag, Description.nodeOption, Option.bind_eq_bind,
    Option.map_bind]
  congr 1
  funext r
  show ((Description.quoted r).map Prod.snd).or ((Description.flag r).map Prod.snd) = _
  rw [Function.comp_apply]
  cases Description.quoted r with
  | some q => rfl
  | none => cases Description.flag r <;> rfl

theorem run_nodeDecl (s : List Char) : nodeDecl.run s = (Description.nodeDecl s).map Prod.snd := by
  simp only [nodeDecl, run_inTurn_cons, run_inTurn_nil, run_text, run_spaces, run_identifier, run_star,
    repeated_many run_nodeOption, Description.nodeDecl, Option.bind_eq_bind, Option.map_bind, Option.bind_map,
    Function.comp_def]
  rfl

theorem run_assignment (s : List Char) : assignment.run s = (Description.assignment s).map Prod.snd := by
  simp only [assignment, run_inTurn_cons, run_inTurn_nil, run_text, run_choice, run_key, run_quoted, run_bare,
    Description.assignment, Option.bind_eq_bind, Option.map_bind, Option.bind_map, Function.comp_def]
  congr 1
  funext k
  congr 1
  funext r
  cases Description.quoted r with
  | some q => rfl
  | none => cases Description.bare r <;> rfl

theorem run_edgeOption (s : List Char) : edgeOption.run s = (Description.edgeOption s).map Prod.snd := by
  rw [edgeOption, run_choice, run_assignment, run_key, Description.edgeOption]
  cases Description.assignment s with
  | some a => rfl
  | none => cases Description.key s <;> rfl

theorem run_separator (s : List Char) : separator.run s = Description.separator s := by
  simp only [separator, run_choice, run_inTurn_cons, run_inTurn_nil, run_optional_spaces, run_text, run_spaces,
    Option.bind_some, Description.separator, String.reduceToList]
  cases literal [','] (Description.spaces s) <;> rfl

theorem run_nextOption (s : List Char) : nextOption.run s = (Description.nextOption s).map Prod.snd := by
  simp only [nextOption, run_seq, run_separator, Description.nextOption, Option.bind_eq_bind, Option.map_bind]
  congr 1
  funext r
  exact run_edgeOption r

theorem run_edgeOptions (s : List Char) : edgeOptions.run s = (Description.edgeOptions s).map Prod.snd := by
  simp only [edgeOptions, run_inTurn_cons, run_inTurn_nil, run_optional_spaces, run_text, run_edgeOption, run_star,
    repeated_many run_nextOption, Description.edgeOptions, Option.bind_eq_bind, Option.map_bind, Option.bind_map,
    Option.bind_some, Function.comp_def]
  rfl

theorem run_optional_edgeOptions (s : List Char) :
    (Peg.optional edgeOptions).run s = some ((Description.edgeOptions s).getD ([], s)).2 := by
  rw [run_optional, run_edgeOptions]
  cases Description.edgeOptions s with
  | none => rfl
  | some os => rfl

theorem run_edgeDecl (s : List Char) : edgeDecl.run s = (Description.edgeDecl s).map Prod.snd := by
  simp only [edgeDecl, run_inTurn_cons, run_inTurn_nil, run_optional_spaces, run_text, run_identifier,
    run_optional_edgeOptions, Description.edgeDecl, Option.bind_eq_bind, Option.map_bind, Option.bind_map, Option.bind_some,
    Function.comp_def]
  rfl

theorem run_statement (s : List Char) : statement.run s = (Description.statement s).map Prod.snd := by
  simp only [statement, run_seq, run_choice, run_nodeDecl, run_edgeDecl, run_layout, Description.statement]
  cases Description.nodeDecl s with
  | some d => rfl
  | none => cases Description.edgeDecl s <;> rfl

theorem run_function (s : List Char) : function.run s = (Description.function s).map Prod.snd := by
  simp only [function, run_inTurn_cons, run_inTurn_nil, run_text, run_spaces, run_identifier, run_layout, run_star,
    repeated_many run_statement, Description.function, Option.bind_eq_bind, Option.map_bind, Option.bind_map,
    Option.bind_some, Function.comp_def]
  rfl

/-- The reader comes as far as the grammar does. -/
theorem run_document (s : List Char) : document.run s = some (Description.document s).2 := by
  rw [document, run_seq, run_layout, Option.bind_some, run_star, repeated_many run_function]
  rfl

/-- The texts that are read are those that the grammar accepts. -/
theorem accepts_iff_read (text : List Char) : document.Accepts text ↔ ∃ fs, read text = .ok fs := by
  rw [Peg.Accepts, run_document, Option.some.injEq, read]
  rcases Description.document text with ⟨fs, rest⟩
  constructor
  · rintro rfl
    exact ⟨fs, rfl⟩
  · rintro ⟨fs', h⟩
    cases rest with
    | nil => rfl
    | cons c rest => cases h

end Grammar

end Flowgraph.Description
