import StreamDecode.Cursor
import StreamDecode.Registers

set_option autoImplicit false

/-! # Chunk logs that share growing vectors

A `Log` is a list of chunks kept as the first `count` members of a vector, and several logs may use
one vector. A chunk pushed onto a log whose count is the vector's length extends that vector in
place; any other log first takes its own members to a vector of its own. So copying a log costs
nothing, and no push changes what another log holds. -/

namespace StreamDecode

/-- The vectors in use, numbered by their position. -/
structure LogPool (β : Type) where
  vectors : Array (Array β)

/-- The first `count` members of a vector; a log that never held a chunk has no vector. -/
structure Log where
  vector : Option Nat
  count : Nat
deriving Repr, DecidableEq

/-- The log without chunks. -/
def Log.empty : Log := ⟨none, 0⟩

namespace LogPool

variable {β : Type} [Buffer β]

/-- The pool before any log holds a chunk. -/
def empty : LogPool β := ⟨#[]⟩

/-- The members of a log's vector. -/
def vectorOf (pool : LogPool β) (log : Log) : Array β :=
  match log.vector with
  | some v => pool.vectors[v]?.getD #[]
  | none => #[]

/-- The chunks of a log, in order. -/
def contents (pool : LogPool β) (log : Log) : List β := (pool.vectorOf log).toList.take log.count

/-- Add a chunk to a log, unless the chunk is empty. -/
def push (pool : LogPool β) (log : Log) (chunk : β) : LogPool β × Log :=
  if Buffer.isEmpty chunk then (pool, log)
  else
    match log.vector with
    | some v =>
        if (pool.vectorOf log).size = log.count then
          (⟨pool.vectors.modify v (·.push chunk)⟩, ⟨some v, log.count + 1⟩)
        else pushApart
    | none => pushApart
where
  /-- Add a chunk to a log in a vector of its own. -/
  pushApart : LogPool β × Log :=
    (⟨pool.vectors.push ((pool.contents log).toArray.push chunk)⟩,
      ⟨some pool.vectors.size, log.count + 1⟩)

/-- Add the chunks of `other` from position `i` on, `n` of them, each read when it is added. -/
def pushFrom (other : Log) : Nat → Nat → LogPool β → Log → LogPool β × Log
  | 0, _, pool, log => (pool, log)
  | n + 1, i, pool, log =>
      match (pool.vectorOf other)[i]? with
      | some chunk =>
          let (pool, log) := pool.push log chunk
          pushFrom other n (i + 1) pool log
      | none => pushFrom other n (i + 1) pool log

/-- Add all chunks of another log. -/
def pushAll (pool : LogPool β) (log other : Log) : LogPool β × Log :=
  pushFrom other other.count 0 pool log

/-- An outer log, if there is one, extended by an inner one. Neither of the two changes. -/
def merge (pool : LogPool β) (outer inner : Option Log) : LogPool β × Option Log :=
  match outer, inner with
  | none, _ => (pool, none)
  | some outer, none => (pool, some outer)
  | some outer, some inner =>
      let (pool, merged) := pool.pushAll outer inner
      (pool, some merged)

/-- The chunks of a log as one string. -/
def flatten (pool : LogPool β) (counter : Nat) (log : Log) : β × Nat :=
  match pool.contents log with
  | [] => (Buffer.absent, counter)
  | chunks => Buffer.join counter chunks

end LogPool

/-- Logs in registers, over one pool. A register that was never written holds the empty log. -/
structure LogTable (β : Type) where
  pool : LogPool β
  logs : Registers Log

namespace LogTable

variable {β : Type} [Buffer β]

/-- The table before its first step. -/
def empty : LogTable β := ⟨.empty, []⟩

/-- The log of a register. -/
def get (t : LogTable β) (name : String) : Log := (t.logs.get? name).getD .empty

/-- Add a chunk to the log of a register. -/
def push (t : LogTable β) (name : String) (chunk : β) : LogTable β :=
  let (pool, log) := t.pool.push (t.get name) chunk
  ⟨pool, t.logs.set name log⟩

/-- Copy a register. -/
def copy (t : LogTable β) (name source : String) : LogTable β :=
  { t with logs := t.logs.set name (t.get source) }

/-- Add all chunks of another register, as they are now, to the log of a register. -/
def pushAll (t : LogTable β) (name source : String) : LogTable β :=
  let (pool, log) := t.pool.pushAll (t.get name) (t.get source)
  ⟨pool, t.logs.set name log⟩

/-- The merge of two logs, given by their registers. No register changes. -/
def merge (t : LogTable β) (outer inner : Option String) : LogTable β × Option Log :=
  let (pool, merged) := t.pool.merge (outer.map t.get) (inner.map t.get)
  ({ t with pool }, merged)

end LogTable

end StreamDecode
