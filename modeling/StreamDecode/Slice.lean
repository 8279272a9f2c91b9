import StreamDecode.Buffer

set_option autoImplicit false

/-! # Slices of numbered storage

A `Slice` is a window into storage that never changes. Taking and dropping move the window and
keep the storage; appending two non-empty slices, copying and joining put the bytes into new
storage. Storage is told apart by its number, so whether two slices share storage is a question
about numbers, whatever bytes they show. -/

namespace StreamDecode

/-- Bytes that never change, under the number that tells this storage from all other. -/
structure Storage where
  number : Nat
  content : Array UInt8
deriving Repr, DecidableEq

/-- A window into storage. Without storage the window has size `0`. -/
structure Slice where
  storage : Option Storage
  offset : Nat
  size : Nat
deriving Repr, DecidableEq

namespace Slice

/-- The bytes the window shows. -/
def toBytes (s : Slice) : Bytes :=
  match s.storage with
  | none => []
  | some storage => (storage.content.extract s.offset (s.offset + s.size)).toList

/-- The window lies inside the storage, and is empty where there is none. -/
def WellFormed (s : Slice) : Prop :=
  match s.storage with
  | none => s.size = 0
  | some storage => s.offset + s.size ≤ storage.content.size

/-- The empty slice without storage. -/
def absent : Slice := ⟨none, 0, 0⟩

/-- All of the given bytes, as the storage with the given number. -/
def ofBytes (number : Nat) (bytes : Bytes) : Slice :=
  ⟨some ⟨number, bytes.toArray⟩, 0, bytes.length⟩

/-- The first `n` bytes, or all of them if there are fewer, in the same storage. -/
def take (s : Slice) (n : Nat) : Slice := { s with size := min n s.size }

/-- What follows the first `n` bytes, in the same storage. -/
def drop (s : Slice) (n : Nat) : Slice :=
  { s with offset := s.offset + min n s.size, size := s.size - min n s.size }

/-- The byte at a position of the window. -/
def get? (s : Slice) (i : Nat) : Option UInt8 :=
  match s.storage with
  | none => none
  | some storage => if i < s.size then storage.content[s.offset + i]? else none

/-- Both slices are windows into one and the same storage. -/
def sharesStorage (s t : Slice) : Bool :=
  match s.storage, t.storage with
  | some a, some b => a.number == b.number
  | _, _ => false

/-- Equality of the bytes, whatever the storage. -/
def sameBytes (s t : Slice) : Bool := s.size == t.size && s.toBytes == t.toBytes

instance : Buffer Slice where
  toBytes := Slice.toBytes
  size := Slice.size
  hasAtLeast s n := n ≤ s.size
  take := Slice.take
  drop := Slice.drop
  absent := Slice.absent
  store counter bytes := (Slice.ofBytes counter bytes, counter + 1)
  counterAbove s := match s.storage with
    | none => 0
    | some storage => storage.number + 1

end Slice

end StreamDecode
