import StreamDecode.Buffer

set_option autoImplicit false

/-! # Where a run stands in its input

A `Cursor` holds what is buffered and not yet consumed, whether more may arrive, and, while a
decoder that may be rewound is running, a record of the chunks that have arrived since it was
entered. Rewinding restores the buffer as it was at the entry, followed by the recorded chunks, so
nothing that arrived in between is lost. -/

namespace StreamDecode

/-- Whether more input may still arrive. -/
inductive InputMode where
  /-- The buffer is all the input there will ever be. -/
  | complete
  /-- A demand for input suspends the run until the next chunk. -/
  | incomplete
deriving Repr, DecidableEq

/-- The chunks received since the innermost rewind point, newest first; `none` while there is no
    such point. -/
abbrev Record (β : Type) := Option (List β)

namespace Record

variable {β : Type}

/-- The chunks in the order of their arrival. -/
def chunks (record : Record β) : List β := (record.getD []).reverse

/-- The record with one more chunk. -/
def push (record : Record β) (chunk : β) : Record β := record.map (chunk :: ·)

/-- An outer record extended by what an inner rewind point recorded. It stays off when no outer
    point is recording. -/
def merge (outer inner : Record β) : Record β := outer.map (inner.getD [] ++ ·)

/-- All that was recorded, as one string. -/
def bytes [Buffer β] (counter : Nat) (record : Record β) : β × Nat :=
  match record.chunks with
  | [] => (Buffer.absent, counter)
  | chunks => Buffer.join counter chunks

end Record

/-- Where a run stands. -/
structure Cursor (β : Type) where
  /-- What is buffered and not yet consumed. -/
  input : β
  /-- The chunks received since the innermost rewind point. -/
  record : Record β
  /-- Whether more input may still arrive. -/
  mode : InputMode
  /-- The number that the next new storage gets. -/
  counter : Nat

namespace Cursor

variable {β : Type} [Buffer β]

/-- The cursor at the start of a run. -/
def start (mode : InputMode) (input : β) : Cursor β :=
  ⟨input, none, mode, Buffer.counterAbove input⟩

/-- No more input will arrive. -/
def finish (c : Cursor β) : Cursor β := { c with mode := .complete }

/-- A chunk has arrived. -/
def receive (c : Cursor β) (chunk : β) : Cursor β :=
  let (input, counter) := Buffer.append c.counter c.input chunk
  { input, record := c.record.push chunk, mode := .incomplete, counter }

/-- Start recording at a rewind point. -/
def enter (c : Cursor β) : Cursor β := { c with record := some [] }

/-- Leave the rewind point that was entered at `entry`, and stand where `c` stands. -/
def leave (entry c : Cursor β) : Cursor β := { c with record := entry.record.merge c.record }

/-- Leave the rewind point that was entered at `entry`, and stand again where it was entered, with
    what has arrived since behind it. -/
def rewind (entry c : Cursor β) : Cursor β :=
  let (received, counter) := c.record.bytes c.counter
  let (input, counter) := Buffer.append counter entry.input received
  { input, record := entry.record.merge c.record, mode := c.mode, counter }

end Cursor

end StreamDecode
