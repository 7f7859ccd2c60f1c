/-!
# Digests of texts

A text is reduced to 64 bits by SipHash under the zero key, with one round of
mixing for every eight bytes and three at the end. Equal texts have equal
digests; whether different ones differ is nowhere promised.
-/

namespace Stencil.Text

structure Digest where
  v0 : UInt64
  v1 : UInt64
  v2 : UInt64
  v3 : UInt64

namespace Digest

def turn (x n : UInt64) : UInt64 :=
  (x <<< n) ||| (x >>> (64 - n))

def start : Digest :=
  ⟨0x736f6d6570736575, 0x646f72616e646f6d, 0x6c7967656e657261, 0x7465646279746573⟩

def round (d : Digest) : Digest :=
  let a0 := d.v0 + d.v1
  let a1 := turn d.v1 13 ^^^ a0
  let a2 := d.v2 + d.v3
  let a3 := turn d.v3 16 ^^^ a2
  let b0 := turn a0 32 + a3
  let b2 := a2 + a1
  ⟨b0, turn a1 17 ^^^ b2, turn b2 32, turn a3 21 ^^^ b0⟩

def absorb (d : Digest) (word : UInt64) : Digest :=
  let mixed := round { d with v3 := d.v3 ^^^ word }
  { mixed with v0 := mixed.v0 ^^^ word }

/-- The word of at most eight bytes, the lowest first. -/
def word : List UInt8 → UInt64
  | [] => 0
  | b :: bytes => b.toUInt64 ||| (word bytes <<< 8)

/-- Takes in bytes, eight at a time; the last word also tells how many there were. -/
def absorbAll (length : UInt64) (d : Digest) : List UInt8 → Digest
  | b0 :: b1 :: b2 :: b3 :: b4 :: b5 :: b6 :: b7 :: rest =>
    absorbAll length (d.absorb (word [b0, b1, b2, b3, b4, b5, b6, b7])) rest
  | rest => d.absorb (word rest ||| (length <<< 56))

def finish (d : Digest) : UInt64 :=
  let last := round (round (round { d with v2 := d.v2 ^^^ 0xff }))
  last.v0 ^^^ last.v1 ^^^ last.v2 ^^^ last.v3

def ofBytes (bytes : List UInt8) : UInt64 :=
  (absorbAll bytes.length.toUInt64 start bytes).finish

/-- The digest of a text; a byte that no text contains stands at its end. -/
def ofText (s : String) : UInt64 :=
  ofBytes (s.toUTF8.toList ++ [0xff])

end Digest
end Stencil.Text
