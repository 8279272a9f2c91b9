import StreamDecode.Buffer
import StreamDecode.Result

set_option autoImplicit false

/-! # Reading a file record by record

A `RecordReader` decodes one record after the other from a byte source, reading a chunk whenever the
record under way needs one. What a record leaves over is the start of the next one. At the end of
the source the record under way is fed an empty chunk. A failed decode leaves unknown where the next
record starts, so the reader halts and says so at every later read. -/

namespace StreamDecode

/-! ## Sources -/

/-- Where chunks are read from. -/
inductive ByteSource where
  /-- A file with the given bytes still to be read. -/
  | file (rest : Bytes)
  /-- Something that opens but fails with the given error number at every read. -/
  | unreadable (errno : Int)
  /-- Nothing: the file has been handed to another reader. -/
  | closed
deriving Repr, DecidableEq

/-! ## Errors -/

/-- Kinds of input errors. -/
inductive InputErrorKind where
  | readError
  | truncatedRecord
  | streamHalted
  | unknown
deriving Repr, DecidableEq

/-- The text of a kind of input errors. -/
def InputErrorKind.message : InputErrorKind → String
  | readError => "I/O read error"
  | truncatedRecord => "Truncated record"
  | streamHalted => "Stream halted after decode failure"
  | unknown => "Unknown I/O error"

/-- An input error, with the error number of the system if it has one, and the number of bytes of
    the unfinished record. -/
structure InputError where
  kind : InputErrorKind
  errno : Int
  bufferedBytes : Nat
deriving Repr, DecidableEq

/-- Why there is no next record. -/
inductive ReaderError where
  /-- The source ended where a record ended. -/
  | endOfStream
  | input (error : InputError)
  | decode (error : DecodeError)
deriving Repr, DecidableEq

/-- The text of a reader error. -/
def ReaderError.message : ReaderError → String
  | endOfStream => "End of stream"
  | input error => error.kind.message
  | decode error => error.message

/-! ## Readers -/

/-- The state of a reader. -/
structure RecordReader where
  source : ByteSource
  /-- The number of bytes of one chunk. -/
  chunkSize : Nat
  /-- What the records so far have left over. -/
  pending : Bytes
  /-- The source has given its last byte. -/
  atEnd : Bool
  /-- A record has failed to decode. -/
  halted : Bool
  recordsRead : Nat
deriving Repr, DecidableEq

namespace RecordReader

variable {α σ : Type}

/-- A reader that has read nothing yet. -/
def ofSource (source : ByteSource) (chunkSize : Nat) : RecordReader :=
  ⟨source, chunkSize, [], false, false, 0⟩

/-- Whether the reader has a file. -/
def isOpen (r : RecordReader) : Bool := r.source != .closed

/-- The next chunk, empty once the source is exhausted, or the error number of a failed read. A
    chunk of less than full size is the last one. No call reaches a closed source: only `handOver`
    closes one, and of the two readers that it gives, the one without a file is not read from again.
    That nothing is left to read there is said for the function to be total, and is no promise. -/
def readChunk (r : RecordReader) : Except Int Bytes × RecordReader :=
  if r.atEnd then (.ok [], r)
  else match r.source with
    | .file rest =>
        let chunk := rest.take r.chunkSize
        (.ok chunk, { r with
          source := .file (rest.drop r.chunkSize)
          atEnd := !Bytes.hasAtLeast chunk r.chunkSize })
    | .unreadable errno => (.error errno, r)
    | .closed => (.ok [], { r with atEnd := true })

/-- Feed chunks to the record under way until it is done or fails. `buffered` counts its bytes, and
    `fedEnd` says whether the last chunk was empty. -/
def drive (buffered : Nat) (fedEnd : Bool) :
    Result Bytes α → RecordReader → Except ReaderError α × RecordReader
  | .done value leftover, r =>
      (.ok value, { r with pending := leftover, recordsRead := r.recordsRead + 1 })
  | .failed error, r =>
      let failure : ReaderError :=
        if fedEnd && error.endsInDemand then .input ⟨.truncatedRecord, 0, buffered⟩
        else .decode error
      (.error failure, { r with halted := true, pending := [] })
  | .suspended resume, r =>
      match r.readChunk with
      | (.ok chunk, r) => drive (buffered + chunk.length) chunk.isEmpty (resume chunk) r
      | (.error errno, r) =>
          (.error (.input ⟨.readError, errno, buffered⟩), { r with halted := true })

/-- Decode the next record. A record is begun only once there is at least one byte of it. -/
def next (r : RecordReader) (d : Decoder Bytes α) : Except ReaderError α × RecordReader :=
  if r.halted then (.error (.input ⟨.streamHalted, 0, 0⟩), r)
  else match r.pending with
    | _ :: _ => drive r.pending.length false (d.runPartial r.pending) r
    | [] => match r.readChunk with
      | (.error errno, r) => (.error (.input ⟨.readError, errno, 0⟩), r)
      | (.ok [], r) => (.error .endOfStream, r)
      | (.ok chunk, r) =>
          drive chunk.length false (d.runPartial chunk) { r with pending := chunk }

/-- What came of reading several records. -/
structure Visit (σ : Type) where
  /-- The number of records handed to the visitor. -/
  count : Nat
  /-- What the visitor made of them. -/
  state : σ
  reader : RecordReader

/-- Hand one record after the other to a visitor, until it wants no more, there is none, or `limit`
    records have been read. -/
def visit (d : Decoder Bytes α) (visitor : σ → α → σ × Bool) : Nat → Visit σ → Visit σ
  | 0, visited => visited
  | limit + 1, visited =>
      match visited.reader.next d with
      | (.error _, reader) => { visited with reader }
      | (.ok value, reader) =>
          match visitor visited.state value with
          | (state, true) => visit d visitor limit ⟨visited.count + 1, state, reader⟩
          | (state, false) => ⟨visited.count + 1, state, reader⟩

/-- The records up to a number of them, and the reader after them; at least one is asked for. -/
def collect (r : RecordReader) (d : Decoder Bytes α) (limit : Nat) : Visit (Array α) :=
  visit d (fun records value => (records.push value, decide (records.size + 1 < limit)))
    (max limit 1) ⟨0, #[], r⟩

/-- Hand the file over to another reader: what is left of this one, which has no file and is not to
    be read from, and the reader that goes on in its place. -/
def handOver (r : RecordReader) : RecordReader × RecordReader :=
  ({ r with source := .closed }, r)

end RecordReader

end StreamDecode
