import StreamDecode.Decoder.Demand
import StreamDecode.Word

set_option autoImplicit false

/-! # Decoders of fixed-width words

Each consumes exactly the bytes of one word, or fails for lack of input and consumes nothing. -/

namespace StreamDecode.Decoder

variable {β : Type} [Buffer β]

/-- The next `n` bytes as a word in the given order. -/
def word (n : Nat) (order : ByteOrder) : Decoder β UInt64 :=
  (getBytes n).map fun bytes => Word.combine order (Buffer.toBytes bytes)

/-- The next `n` bytes as they would lie in memory. -/
def wordInMemory (n : Nat) : Decoder β UInt64 :=
  (getBytes n).map fun bytes => Word.inMemory (Buffer.toBytes bytes)

/-- One byte. -/
def word8 : Decoder β UInt8 := (word 1 .big).map UInt64.toUInt8

/-- Two bytes, the most significant one first. -/
def word16be : Decoder β UInt16 := (word 2 .big).map UInt64.toUInt16

/-- Four bytes, the most significant one first. -/
def word32be : Decoder β UInt32 := (word 4 .big).map UInt64.toUInt32

/-- Eight bytes, the most significant one first. -/
def word64be : Decoder β UInt64 := word 8 .big

/-- Two bytes, the least significant one first. -/
def word16le : Decoder β UInt16 := (word 2 .little).map UInt64.toUInt16

/-- Four bytes, the least significant one first. -/
def word32le : Decoder β UInt32 := (word 4 .little).map UInt64.toUInt32

/-- Eight bytes, the least significant one first. -/
def word64le : Decoder β UInt64 := word 8 .little

/-- Two bytes as they would lie in memory. -/
def word16host : Decoder β UInt16 := (wordInMemory 2).map UInt64.toUInt16

/-- Four bytes as they would lie in memory. -/
def word32host : Decoder β UInt32 := (wordInMemory 4).map UInt64.toUInt32

/-- Eight bytes as they would lie in memory. -/
def word64host : Decoder β UInt64 := wordInMemory 8

/-- A machine word, which has eight bytes, as it would lie in memory. -/
def wordHost : Decoder β UInt64 := wordInMemory 8

end StreamDecode.Decoder
