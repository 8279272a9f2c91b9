set_option autoImplicit false

/-! # Byte strings as decoders use them

A decoder asks little of the strings it reads from: how long they are, their first bytes and the
rest, and now and then a new string for bytes that have to be joined or kept apart. `Buffer` lists
exactly that. Two types provide it:

* `Bytes`, the plain list of bytes, for which a new string is just its bytes;
* `Slice` (in `StreamDecode.Slice`), a window into numbered storage, for which it shows which
  strings share storage and which do not.

New storage is numbered from a counter that the caller passes on, so making a string stays a
function. Plain lists leave the counter alone. -/

namespace StreamDecode

/-- The bytes of a string, in order. -/
abbrev Bytes := List UInt8

/-- What a decoder asks of the strings it reads from. -/
class Buffer (β : Type) where
  /-- The bytes of the string, in order. -/
  toBytes : β → Bytes
  /-- The number of bytes. -/
  size : β → Nat
  /-- Whether there are at least `n` bytes. -/
  hasAtLeast : β → Nat → Bool
  /-- The first `n` bytes, or all of them if there are fewer. -/
  take : β → Nat → β
  /-- What follows the first `n` bytes. -/
  drop : β → Nat → β
  /-- The empty string that has no storage at all. -/
  absent : β
  /-- A string in new storage, drawn from the counter of storage numbers; and the counter after. -/
  store : Nat → Bytes → β × Nat
  /-- A counter value above the number of the string's own storage. -/
  counterAbove : β → Nat

namespace Buffer

variable {β : Type} [Buffer β]

/-- Whether the string has no bytes. -/
def isEmpty (s : β) : Bool := !hasAtLeast s 1

/-- The concatenation. With an empty operand it is the other operand itself; otherwise the bytes
    are joined in new storage. -/
def append (counter : Nat) (s t : β) : β × Nat :=
  if isEmpty t then (s, counter)
  else if isEmpty s then (t, counter)
  else store counter (toBytes s ++ toBytes t)

/-- The same bytes in storage of their own, also when there are none. -/
def copy (counter : Nat) (s : β) : β × Nat := store counter (toBytes s)

/-- All the strings as one. A single string that is not empty is given back itself; otherwise the
    bytes are joined in new storage, also when there are none. -/
def join (counter : Nat) (pieces : List β) : β × Nat :=
  match pieces.filter (!isEmpty ·) with
  | [piece] => (piece, counter)
  | pieces => store counter (pieces.flatMap toBytes)

end Buffer

/-! ## Plain bytes -/

/-- Whether a list has at least `n` members, looking at no more than `n` of them. -/
def Bytes.hasAtLeast : Bytes → Nat → Bool
  | _, 0 => true
  | [], _ + 1 => false
  | _ :: rest, n + 1 => Bytes.hasAtLeast rest n

theorem Bytes.hasAtLeast_iff (s : Bytes) (n : Nat) : s.hasAtLeast n = true ↔ n ≤ s.length := by
  induction s generalizing n with
  | nil => cases n <;> simp [hasAtLeast]
  | cons b s ih => cases n <;> simp [hasAtLeast, ih]

instance : Buffer Bytes where
  toBytes s := s
  size := List.length
  hasAtLeast := Bytes.hasAtLeast
  take s n := s.take n
  drop s n := s.drop n
  absent := []
  store counter bytes := (bytes, counter)
  counterAbove _ := 0

/-- Joining plain bytes is concatenation, and takes no storage number. -/
theorem Bytes.join_eq (counter : Nat) (pieces : List Bytes) :
    Buffer.join counter pieces = (pieces.flatten, counter) := by
  have drops : (pieces.filter (!Buffer.isEmpty ·)).flatMap Buffer.toBytes = pieces.flatten := by
    induction pieces with
    | nil => rfl
    | cons p ps ih => cases p <;> simp_all [Buffer.isEmpty, Buffer.hasAtLeast, Bytes.hasAtLeast,
        Buffer.toBytes]
  unfold Buffer.join
  rw [← drops]
  split
  · next piece h => simp [h, Buffer.toBytes]
  · rfl

/-- Appending plain bytes is concatenation, and takes no storage number. -/
theorem Bytes.append_eq (counter : Nat) (s t : Bytes) :
    Buffer.append counter s t = (s ++ t, counter) := by
  cases s <;> cases t <;>
    simp [Buffer.append, Buffer.isEmpty, Buffer.hasAtLeast, Bytes.hasAtLeast, Buffer.store,
      Buffer.toBytes]

end StreamDecode
