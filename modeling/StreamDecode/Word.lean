set_option autoImplicit false

/-! # Words and their byte order

A word of up to eight bytes is written with its most or its least significant byte first. `combine`
reads it by shifting one byte after the other into a 64-bit word. -/

namespace StreamDecode

/-- Which byte of a word comes first. -/
inductive ByteOrder where
  /-- The most significant byte comes first. -/
  | big
  /-- The least significant byte comes first. -/
  | little
deriving Repr, DecidableEq

namespace Word

/-- Shift one more byte into a word, at its low end. -/
def shiftIn (word : UInt64) (byte : UInt8) : UInt64 := (word <<< 8) ||| byte.toUInt64

/-- The word written by the bytes in the given order. -/
def combine (order : ByteOrder) (bytes : List UInt8) : UInt64 :=
  match order with
  | .big => bytes.foldl shiftIn 0
  | .little => bytes.reverse.foldl shiftIn 0

/-- The word that lies in memory as the given bytes, the byte at address `i` being bits `8 * i` to
    `8 * i + 7`. -/
def inMemory : List UInt8 → UInt64
  | [] => 0
  | byte :: bytes => byte.toUInt64 ||| (inMemory bytes <<< 8)

end Word

end StreamDecode
