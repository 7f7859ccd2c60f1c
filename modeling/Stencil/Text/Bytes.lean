import Stencil.Text.Position
import Stencil.Text.Split

/-!
# Texts by their bytes

A text is stored in UTF-8, so places in it are told by byte offsets, and a text
can only be cut between two characters. A cut beyond the end or inside a
character has no result.
-/

namespace Stencil.Text

/-- The UTF-8 encoding of a text. -/
def bytes (s : List Char) : List UInt8 :=
  s.flatMap String.utf8EncodeChar

/-- The number of bytes of a text. -/
def size (s : List Char) : Nat :=
  (bytes s).length

/-- The texts before and from a byte offset on. -/
def split? : Nat → List Char → Option (List Char × List Char)
  | 0, s => some ([], s)
  | _ + 1, [] => none
  | n + 1, c :: s =>
    if c.utf8Size ≤ n + 1 then
      (split? (n + 1 - c.utf8Size) s).map fun (before, after) => (c :: before, after)
    else none

def from? (s : List Char) (start : Nat) : Option (List Char) :=
  (split? start s).map (·.2)

def upTo? (s : List Char) (stop : Nat) : Option (List Char) :=
  (split? stop s).map (·.1)

def slice? (s : List Char) (start stop : Nat) : Option (List Char) :=
  if start ≤ stop then (from? s start).bind (upTo? · (stop - start)) else none

/-- The byte offset of the first `mark`. -/
def find? (mark s : List Char) : Option Nat :=
  (cut mark s).map fun (before, _) => size before

/-- Looks through the bytes from offset `i` on for a mark outside of quoted strings; a backslash
before the quote that opened a string is passed over together with it. -/
def scanBytes (mark : List UInt8) : Option UInt8 → Nat → List UInt8 → Option Nat
  | _, _, [] => none
  | none, i, b :: rest =>
    if b = '"'.toUInt8 ∨ b = '\''.toUInt8 then scanBytes mark (some b) (i + 1) rest
    else if mark.isPrefixOf (b :: rest) then some i
    else scanBytes mark none (i + 1) rest
  | some q, i, b :: rest =>
    match rest with
    | [] => none
    | next :: more =>
      if b = '\\'.toUInt8 ∧ next = q then scanBytes mark (some q) (i + 2) more
      else scanBytes mark (if b = q then none else some q) (i + 1) (next :: more)

/-- The byte offset, from `start` on, of the first `mark` outside of quoted strings. -/
def scanUntil (source : List Char) (start : Nat) (mark : List Char) : Option Nat :=
  scanBytes (bytes mark) none start ((bytes source).drop start)

end Stencil.Text
