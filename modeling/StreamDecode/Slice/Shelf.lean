import StreamDecode.Registers
import StreamDecode.Rope
import StreamDecode.Slice

set_option autoImplicit false

/-! # A shelf of slices

Slices and ropes of slices in named registers, with one counter of storage numbers for all of them,
so that every new storage gets a number no other storage on the shelf has. -/

namespace StreamDecode

/-- Slices and ropes in registers. -/
structure Shelf where
  slices : Registers Slice
  ropes : Registers (Rope Slice)
  /-- The number that the next new storage gets. -/
  counter : Nat

/-- A step that writes registers of a shelf. -/
inductive ShelfCommand where
  /-- The slice without storage. -/
  | absent (dest : String)
  /-- The given bytes in new storage. -/
  | make (dest : String) (bytes : Bytes)
  /-- The first `n` bytes of a slice. -/
  | take (source : String) (n : Nat) (dest : String)
  /-- What follows the first `n` bytes of a slice. -/
  | drop (source : String) (n : Nat) (dest : String)
  /-- The first `n` bytes of a slice, and what follows them. -/
  | splitAt (source : String) (n : Nat) (dest destRest : String)
  /-- Two slices joined. -/
  | append (source other dest : String)
  /-- The bytes of a slice in storage of their own. -/
  | copy (source dest : String)
  /-- A rope of slices. -/
  | gather (sources : List String) (dest : String)
  /-- A rope as one slice. -/
  | flatten (source dest : String)
deriving Repr, DecidableEq

namespace Shelf

/-- The shelf before its first step. -/
def empty : Shelf := ⟨[], [], 0⟩

/-- Write a slice to a register. -/
def put (shelf : Shelf) (dest : String) (s : Slice) : Shelf :=
  { shelf with slices := shelf.slices.set dest s }

/-- Write a slice that may have taken a storage number to a register. -/
def putNew (shelf : Shelf) (dest : String) (s : Slice × Nat) : Shelf :=
  { shelf with slices := shelf.slices.set dest s.1, counter := s.2 }

/-- Perform a step, if all registers that it reads are written. -/
def perform (shelf : Shelf) : ShelfCommand → Option Shelf
  | .absent dest => some (shelf.put dest Slice.absent)
  | .make dest bytes => some (shelf.putNew dest (Buffer.store shelf.counter bytes))
  | .take source n dest => (shelf.slices.get? source).map fun s => shelf.put dest (s.take n)
  | .drop source n dest => (shelf.slices.get? source).map fun s => shelf.put dest (s.drop n)
  | .splitAt source n dest destRest =>
      (shelf.slices.get? source).map fun s => (shelf.put dest (s.take n)).put destRest (s.drop n)
  | .append source other dest =>
      (shelf.slices.get? source).bind fun s => (shelf.slices.get? other).map fun t =>
        shelf.putNew dest (Buffer.append shelf.counter s t)
  | .copy source dest =>
      (shelf.slices.get? source).map fun s => shelf.putNew dest (Buffer.copy shelf.counter s)
  | .gather sources dest =>
      (sources.mapM shelf.slices.get?).map fun pieces =>
        { shelf with ropes := shelf.ropes.set dest (Rope.ofList pieces) }
  | .flatten source dest =>
      (shelf.ropes.get? source).map fun r => shelf.putNew dest (r.flatten shelf.counter)

end Shelf

end StreamDecode
