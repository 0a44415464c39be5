import Flowgraph.Description.Fault
import Flowgraph.Description.Tree
import Flowgraph.Text.Blank
/-!
# Reading a description

The grammar of descriptions, rule by rule, with alternatives tried in order and repetitions taken as far as
they go:

* document: layout, then functions;
* function: the word `function`, an identifier, and statements between braces;
* statement: a node declaration, or else an edge, then layout;
* node declaration: the word `node`, an identifier, then names and flags, each after blanks;
* edge: identifier, arrow, identifier, and possibly options between square brackets, separated by a comma or
  by blanks;
* option: a key, an equals sign and a value, or else a word.

Each rule takes the characters that are left and, where it applies, gives what it read and the characters
left after it. A document always ends somewhere; `read` refuses a text of which something is left.
-/

namespace Flowgraph.Description

open Text (isLayout)

/-- A rule of the grammar. -/
abbrev Rule (α : Type) := List Char → Option (α × List Char)

/-! ## Characters -/

/-- A blank within a line. -/
def isSpace (c : Char) : Bool := c == ' ' || c == '\t'

/-- The first character of an identifier or a key. -/
def isWordStart (c : Char) : Bool := c.isAlpha || c == '_'

/-- A further character of a key. -/
def isKeyChar (c : Char) : Bool := c.isAlphanum || c == '_'

/-- A further character of an identifier. -/
def isIdentChar (c : Char) : Bool := isKeyChar c || c == '.' || c == '$'

/-- A character of a value without quotation marks. -/
def isBareChar (c : Char) : Bool := !isLayout c && c != ',' && c != ']' && c != '"'

/-! ## Words -/

/-- Characters as they stand. -/
def literal : List Char → List Char → Option (List Char)
  | [], s => some s
  | _ :: _, [] => none
  | w :: ws, c :: s => if w = c then literal ws s else none

/-- Blanks within a line, where there may be none. -/
def spaces (s : List Char) : List Char := s.dropWhile isSpace

/-- Blanks within a line, at least one. -/
def spaces1 : List Char → Option (List Char)
  | [] => none
  | c :: s => if isSpace c then some (spaces s) else none

/-- White space and comments, which go from a number sign to the end of the line. -/
def skip : List Char → List Char
  | [] => []
  | c :: s =>
    if isLayout c then skip s
    else if c = '#' then skip (s.dropWhile (· != '\n'))
    else c :: s
  termination_by s => s.length
  decreasing_by
    · simp
    · have := (List.dropWhile_sublist (l := s) (· != '\n')).length_le
      simp only [List.length_cons]; omega

/-- A word: a first character, then further characters as far as they go. -/
def word (further : Char → Bool) : Rule String
  | [] => none
  | c :: s =>
    if isWordStart c then some (String.ofList (c :: s.takeWhile further), s.dropWhile further) else none

def identifier : Rule String := word isIdentChar

def key : Rule String := word isKeyChar

/-- The rest of a quoted text after its opening mark. A backslash stands before a character to be taken as it
is, which may not be a line feed. -/
def quotedRest : Rule (List Char)
  | [] => none
  | '"' :: s => some ([], s)
  | '\\' :: [] => none
  | '\\' :: c :: s =>
    if c = '\n' then none
    else match quotedRest s with
      | some (cs, r) => some (c :: cs, r)
      | none => none
  | c :: s =>
    match quotedRest s with
    | some (cs, r) => some (c :: cs, r)
    | none => none

/-- A text between double quotes. -/
def quoted : Rule String
  | '"' :: s => (quotedRest s).map fun (cs, r) => (String.ofList cs, r)
  | _ => none

def bare (s : List Char) : Option (String × List Char) :=
  let cs := s.takeWhile isBareChar
  if cs.isEmpty then none else some (String.ofList cs, s.dropWhile isBareChar)

/-- A flag, as a whole word. -/
def flag (s : List Char) : Option (Flag × List Char) :=
  let w := String.ofList (s.takeWhile isIdentChar)
  (Flag.all.find? (·.word == w)).map fun f => (f, s.dropWhile isIdentChar)

/-! ## Repetition -/

/-- A rule applied as often as it applies and reads something. -/
def many {α : Type} (rule : Rule α) (s : List Char) : List α × List Char :=
  match rule s with
  | none => ([], s)
  | some (a, r) =>
    if r.length < s.length then
      let (as, t) := many rule r
      (a :: as, t)
    else ([], s)
  termination_by s.length

/-! ## Statements -/

/-- A name or a flag of a declared node. -/
def nodeOption (s : List Char) : Option (NodeOption × List Char) := do
  let s ← spaces1 s
  match quoted s with
  | some (name, r) => return (.name name, r)
  | none =>
    let (f, r) ← flag s
    return (.flag f, r)

def nodeDecl (s : List Char) : Option (NodeDecl × List Char) := do
  let r ← literal ['n', 'o', 'd', 'e'] s
  let r ← spaces1 r
  let (ident, r) ← identifier r
  let (options, r) := many nodeOption r
  return (⟨ident, options, s.length⟩, r)

/-- A key with a value. -/
def assignment (s : List Char) : Option (EdgeOption × List Char) := do
  let (k, r) ← key s
  let r ← literal ['='] r
  let (value, r) ← match quoted r with
    | some q => some q
    | none => bare r
  return (⟨k, some value, s.length⟩, r)

def edgeOption (s : List Char) : Option (EdgeOption × List Char) :=
  match assignment s with
  | some a => some a
  | none => (key s).map fun (k, r) => (⟨k, none, s.length⟩, r)

/-- What stands between two options: a comma with or without blanks around it, or blanks. -/
def separator (s : List Char) : Option (List Char) :=
  match literal [','] (spaces s) with
  | some r => some (spaces r)
  | none => spaces1 s

def nextOption (s : List Char) : Option (EdgeOption × List Char) := do
  let r ← separator s
  edgeOption r

def edgeOptions (s : List Char) : Option (List EdgeOption × List Char) := do
  let r ← literal ['['] (spaces s)
  let (first, r) ← edgeOption (spaces r)
  let (more, r) := many nextOption r
  let r ← literal [']'] (spaces r)
  return (first :: more, r)

def edgeDecl (s : List Char) : Option (EdgeDecl × List Char) := do
  let (src, r) ← identifier s
  let r ← literal ['-', '>'] (spaces r)
  let (dst, r) ← identifier (spaces r)
  let (options, r) := (edgeOptions r).getD ([], r)
  return (⟨src, dst, options⟩, r)

/-- A statement and the layout after it. -/
def statement (s : List Char) : Option (Statement × List Char) :=
  match nodeDecl s with
  | some (d, r) => some (.node d, skip r)
  | none => (edgeDecl s).map fun (d, r) => (.edge d, skip r)

/-! ## Functions -/

def function (s : List Char) : Option (FunctionDecl × List Char) := do
  let r ← literal ['f', 'u', 'n', 'c', 't', 'i', 'o', 'n'] s
  let r ← spaces1 r
  let (name, r) ← identifier r
  let r ← literal ['\x7b'] (skip r)
  let (statements, r) := many statement (skip r)
  let r ← literal ['\x7d'] r
  return (⟨name, statements, s.length⟩, skip r)

/-- The functions at the start of a text, and what is left after them. -/
def document (text : List Char) : List FunctionDecl × List Char := many function (skip text)

/-- How many characters a fault shows of the text that it does not expect. -/
def excerptLength : Nat := 20

/-- The functions of a text, all of which must be functions. -/
def read (text : List Char) : Except Fault (List FunctionDecl) :=
  match document text with
  | (functions, []) => .ok functions
  | (_, rest) =>
    .error (.unexpected (.at text (text.length - rest.length)) (String.ofList (rest.take excerptLength)))

end Flowgraph.Description
