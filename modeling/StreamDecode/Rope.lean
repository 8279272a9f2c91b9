import StreamDecode.Buffer

set_option autoImplicit false

/-! # Strings kept in pieces

A `Rope` is a string in pieces that were never joined. It is made by `Rope.ofList`, which leaves
out empty pieces, so a rope is empty exactly when it has no piece. -/

namespace StreamDecode

/-- A string in pieces, none of them empty. -/
structure Rope (β : Type) where
  pieces : List β

namespace Rope

variable {β : Type} [Buffer β]

/-- The pieces that are not empty, in order. -/
def ofList (pieces : List β) : Rope β := ⟨pieces.filter (!Buffer.isEmpty ·)⟩

/-- The number of bytes of all pieces. -/
def size (r : Rope β) : Nat := r.pieces.foldl (fun total piece => total + Buffer.size piece) 0

/-- Whether there is no piece. -/
def isEmpty (r : Rope β) : Bool := r.pieces.isEmpty

/-- The rope as one string: its only piece, or all pieces joined in new storage. -/
def flatten (counter : Nat) (r : Rope β) : β × Nat := Buffer.join counter r.pieces

end Rope

end StreamDecode
