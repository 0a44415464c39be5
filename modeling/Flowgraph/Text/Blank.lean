import Flowgraph.Text.Range
/-!
# White space

Two classes of white space are in use. Descriptions of graphs are laid out with the characters of
`layout`, and these may stand around a numeral. Values of settings are trimmed of `blank`, which also
holds the four information separators U+001C to U+001F.
-/

namespace Flowgraph.Text

/-- White space between the words of a description. -/
def layout : CharClass := ⟨[
  (0x0009, 0x000D), (0x0020, 0x0020), (0x0085, 0x0085), (0x00A0, 0x00A0), (0x1680, 0x1680),
  (0x2000, 0x200A), (0x2028, 0x2029), (0x202F, 0x202F), (0x205F, 0x205F), (0x3000, 0x3000)]⟩

/-- White space around the value of a setting. -/
def blank : CharClass := ⟨(0x001C, 0x001F) :: layout.intervals⟩

/-- Whether a character lays out a description. -/
def isLayout (c : Char) : Bool := layout.contains c

/-- Whether a character is trimmed from the value of a setting. -/
def isBlank (c : Char) : Bool := blank.contains c

/-- Characters without those of a class at either end. -/
def trimChars (p : Char → Bool) (cs : List Char) : List Char :=
  ((cs.dropWhile p).reverse.dropWhile p).reverse

def trim (s : String) : String := String.ofList (trimChars isBlank s.toList)

end Flowgraph.Text
