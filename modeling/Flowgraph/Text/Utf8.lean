/-!
# Reading bytes as text

Text in files is UTF-8, read strictly: a byte that cannot start a character, a byte that cannot
continue one, and a character cut off by the end of the file are faults, each with the place and the
bytes concerned. After decoding, a carriage return, alone or before a line feed, is a line feed.
-/

namespace Flowgraph.Text.Utf8

/-- Why bytes are not text. -/
inductive Reason where
  | invalidStart
  | invalidContinuation
  | unexpectedEnd
  deriving DecidableEq, Repr

/-- The first place where bytes are not text, with the bytes of the broken character. -/
structure Fault where
  reason : Reason
  start : Nat
  bytes : List UInt8
  deriving DecidableEq, Repr

/-- What a first byte announces: the number of bytes to follow, its share of the code point, and the
bounds of the second byte. -/
structure Lead where
  following : Nat
  payload : Nat
  low : UInt8
  high : UInt8

/-- The bytes that can start a character. -/
def lead? (b : UInt8) : Option Lead :=
  let n := b.toNat
  if n < 0x80 then some ⟨0, n, 0x80, 0xBF⟩
  else if n < 0xC2 then none
  else if n < 0xE0 then some ⟨1, n - 0xC0, 0x80, 0xBF⟩
  else if n = 0xE0 then some ⟨2, 0, 0xA0, 0xBF⟩
  else if n = 0xED then some ⟨2, 0x0D, 0x80, 0x9F⟩
  else if n < 0xF0 then some ⟨2, n - 0xE0, 0x80, 0xBF⟩
  else if n = 0xF0 then some ⟨3, 0, 0x90, 0xBF⟩
  else if n < 0xF4 then some ⟨3, n - 0xF0, 0x80, 0xBF⟩
  else if n = 0xF4 then some ⟨3, 4, 0x80, 0x8F⟩
  else none

/-- The bytes that continue a character, at most `count` of them, the first one within bounds. -/
def continuation : (count : Nat) → (low high : UInt8) → List UInt8 → List UInt8
  | 0, _, _, _ => []
  | _ + 1, _, _, [] => []
  | count + 1, low, high, b :: bs =>
    if low ≤ b && b ≤ high then b :: continuation count 0x80 0xBF bs else []

/-- The character made of a first byte's share and the bytes that continue it. -/
def assemble (payload : Nat) (tail : List UInt8) : Char :=
  Char.ofNat (tail.foldl (fun acc b => acc * 0x40 + (b.toNat - 0x80)) payload)

/-- The characters of the bytes from a place on. -/
def decodeFrom (start : Nat) : List UInt8 → Except Fault (List Char)
  | [] => .ok []
  | b :: bs =>
    match lead? b with
    | none => .error ⟨.invalidStart, start, [b]⟩
    | some lead =>
      let tail := continuation lead.following lead.low lead.high bs
      if tail.length = lead.following then
        match decodeFrom (start + lead.following + 1) (bs.drop lead.following) with
        | .ok rest => .ok (assemble lead.payload tail :: rest)
        | .error fault => .error fault
      else
        let reason := if tail.length = bs.length then Reason.unexpectedEnd else .invalidContinuation
        .error ⟨reason, start, b :: tail⟩
  termination_by bs => bs.length
  decreasing_by simp only [List.length_drop, List.length_cons]; omega

def decode (bytes : List UInt8) : Except Fault (List Char) := decodeFrom 0 bytes

/-- Line ends in their one form, the line feed. -/
def unifyLines : List Char → List Char
  | [] => []
  | '\r' :: '\n' :: rest => '\n' :: unifyLines rest
  | '\r' :: rest => '\n' :: unifyLines rest
  | c :: rest => c :: unifyLines rest

def Reason.text : Reason → String
  | .invalidStart => "invalid start byte"
  | .invalidContinuation => "invalid continuation byte"
  | .unexpectedEnd => "unexpected end of data"

end Flowgraph.Text.Utf8
