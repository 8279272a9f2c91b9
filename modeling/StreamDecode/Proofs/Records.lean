import StreamDecode.Proofs.Chunking
import StreamDecode.RecordReader.Basic

set_option autoImplicit false

/-! # The records of a file do not depend on how it is read

A reader that decodes a file record by record, chunk by chunk, gives the answers of somebody who
holds the whole file, decodes a record from its start, drops what the record has consumed and starts
again (`Backlog.next`). A record may begin in the middle of a chunk and end in a later one; that it
comes out the same is owed to `Composed.seamless`, step by step: the run over the bytes read so far,
fed the next chunk, is the run over the bytes read by then.

Which of two errors a failed record is reported as depends on the bytes alone as well: the file was
too short if the decoder, given all that is left of the file, asked for more. -/

namespace StreamDecode

variable {α : Type}

/-! ## Records of a whole buffer -/

/-- The bytes that are still to be decoded, or nothing once a record has failed. -/
abbrev Backlog := Option Bytes

/-- Whether the decoder, given these bytes, asks for more. -/
def Decoder.asksForMore (d : Decoder Bytes α) (bytes : Bytes) : Bool :=
  match d.runPartial bytes with
  | .suspended _ => true
  | _ => false

namespace Backlog

/-- What is told of a record that fails to decode, being given all these bytes. -/
def failure (d : Decoder Bytes α) (bytes : Bytes) (error : DecodeError) : ReaderError :=
  if d.asksForMore bytes && error.endsInDemand then .input ⟨.truncatedRecord, 0, bytes.length⟩
  else .decode error

/-- Decode a record from the start of the bytes. -/
def record (d : Decoder Bytes α) (bytes : Bytes) : Except ReaderError α × Backlog :=
  match d.runWithRemainder bytes 0 with
  | .ok (value, rest) => (.ok value, some rest)
  | .error error => (.error (failure d bytes error), none)

/-- Decode the next record, if there is one and no record has failed. -/
def next (d : Decoder Bytes α) : Backlog → Except ReaderError α × Backlog
  | none => (.error (.input ⟨.streamHalted, 0, 0⟩), none)
  | some [] => (.error .endOfStream, some [])
  | some (byte :: bytes) => record d (byte :: bytes)

/-- Decode record after record, `n` times. -/
def answers (d : Decoder Bytes α) : Nat → Backlog → List (Except ReaderError α)
  | 0, _ => []
  | n + 1, backlog =>
      match backlog.next d with
      | (answer, backlog) => answer :: answers d n backlog

end Backlog

namespace RecordReader

/-- Ask for record after record, `n` times. -/
def answers (d : Decoder Bytes α) : Nat → RecordReader → List (Except ReaderError α)
  | 0, _ => []
  | n + 1, r => (r.next d).1 :: answers d n (r.next d).2

/-! ## What a reader has still to read -/

/-- The reader goes on, and these bytes of its file are still unread. -/
structure Reads (r : RecordReader) (unread : Bytes) : Prop where
  live : r.halted = false
  size : 1 ≤ r.chunkSize
  source : r.source = .file unread
  ended : r.atEnd = true → unread = []

/-- The reader stands where the backlog does. -/
def Stands (r : RecordReader) : Backlog → Prop
  | none => r.halted = true
  | some bytes => ∃ unread, r.Reads unread ∧ bytes = r.pending ++ unread

/-- A chunk is the next bytes of the file, as many as there are up to the size of a chunk. -/
theorem Reads.readChunk {r : RecordReader} {unread : Bytes} (h : r.Reads unread) :
    ∃ r', r.readChunk = (.ok (unread.take r.chunkSize), r') ∧
      r'.Reads (unread.drop r.chunkSize) ∧ r'.pending = r.pending := by
  unfold RecordReader.readChunk
  by_cases hend : r.atEnd = true
  · obtain rfl := h.ended hend
    refine ⟨r, by simp [hend], ?_, rfl⟩
    rwa [List.drop_nil]
  · rw [if_neg hend, h.source]
    refine ⟨_, rfl, ⟨h.live, h.size, rfl, fun hlast => ?_⟩, rfl⟩
    -- a chunk that is not full has taken all there was
    have hshort : ¬ r.chunkSize ≤ (unread.take r.chunkSize).length := by
      rw [← Bytes.hasAtLeast_iff]
      simpa using hlast
    rw [List.length_take] at hshort
    exact List.drop_eq_nil_of_le (by omega)

/-- The reader is at the end of its file, or it gets the next bytes of it. -/
theorem Reads.readChunk_cases {r : RecordReader} {unread : Bytes} (h : r.Reads unread) :
    ∃ r', r'.pending = r.pending ∧
      ((unread = [] ∧ r.readChunk = (.ok [], r') ∧ r'.Reads []) ∨
        ∃ byte bytes rest, unread = byte :: bytes ++ rest ∧
          r.readChunk = (.ok (byte :: bytes), r') ∧ r'.Reads rest) := by
  obtain ⟨r', hread, hr', hpending⟩ := h.readChunk
  refine ⟨r', hpending, ?_⟩
  cases hchunk : unread.take r.chunkSize with
  | nil =>
      have hsize := h.size
      rcases List.take_eq_nil_iff.1 hchunk with hzero | rfl
      · omega
      · rw [hchunk] at hread
        rw [List.drop_nil] at hr'
        exact .inl ⟨rfl, hread, hr'⟩
  | cons byte bytes =>
      rw [hchunk] at hread
      refine .inr ⟨byte, bytes, unread.drop r.chunkSize, ?_, hread, hr'⟩
      rw [← hchunk, List.take_append_drop]

theorem Reads.with_pending {r : RecordReader} {unread : Bytes} (h : r.Reads unread)
    (pending : Bytes) : { r with pending }.Reads unread :=
  ⟨h.live, h.size, h.source, h.ended⟩

end RecordReader

/-! ## One record -/

section

variable {d : Decoder Bytes α}

/-- A suspended run goes on with a chunk as if the chunk had been there from the start. -/
theorem Composed.resume_eq (h : Composed .stream d) {given : Bytes}
    {resume : Bytes → Result Bytes α} (hrun : d.runPartial given = .suspended resume) :
    (∀ chunk, chunk ≠ [] → resume chunk = d.runPartial (given ++ chunk)) ∧
      resume [] = d.start .complete given := by
  have habsorbs := fun chunk => h.seamless rfl (.start .incomplete given) chunk rfl
  have htracks := h.tracks (.start .incomplete given)
  unfold Decoder.runPartial Decoder.start at hrun
  cases hstep : d.outcome (.start .incomplete given) with
  | answer ending =>
      rw [hstep] at hrun
      cases ending <;> cases hrun
  | await resume' =>
      rw [hstep] at hrun habsorbs
      obtain rfl : (fun chunk => Result.ofStep (resume' chunk)) = resume := by
        simpa only [Result.ofStep, Result.suspended.injEq] using hrun
      refine ⟨fun chunk hchunk => ?_, ?_⟩
      · have hnext : d.outcome ((Cursor.start .incomplete given).arrive chunk) = resume' chunk :=
          habsorbs chunk
        rw [Cursor.arrive_start given hchunk] at hnext
        rw [Decoder.runPartial, Decoder.start, hnext]
      · have hnext : d.outcome ((Cursor.start .incomplete given).arrive []) = resume' [] :=
          habsorbs []
        rw [Cursor.finish_start] at hnext
        rw [Decoder.start, hnext]
  | adrift =>
      rw [hstep] at htracks
      exact htracks.elim

theorem Result.standing_append_nil (r : Result Bytes α) (chunks : List Bytes) :
    standing (r, chunks ++ [[]]) = standing (r, chunks) := by
  cases r <;> simp [standing]

theorem Result.isNone_standing {r : Result Bytes α} (hr : r.IsFinal) (chunks : List Bytes) :
    (standing (r, chunks)).isNone = false := by
  cases r with
  | suspended resume => exact hr.elim
  | failed error => rfl
  | done value leftover => rfl

theorem Result.feedPending_of_isFinal {r : Result Bytes α} (hr : r.IsFinal)
    (chunks : List Bytes) : r.feedPending chunks = (r, chunks) := by
  cases r with
  | suspended resume => exact hr.elim
  | failed error => cases chunks <;> rfl
  | done value leftover => cases chunks <;> rfl

theorem Decoder.asksForMore_eq (d : Decoder Bytes α) (bytes : Bytes) :
    d.asksForMore bytes = (Result.standing (d.runPartial bytes, [])).isNone := by
  unfold asksForMore
  cases d.runPartial bytes <;> rfl

/-- What a run has come to without the rest of the bytes it comes to with them, and without a
    demand for more. -/
theorem Composed.runPartial_of_isFinal (h : Composed .stream d) {given : Bytes}
    (hfinal : (d.runPartial given).IsFinal) {chunks : List Bytes} (hchunks : [] ∉ chunks) :
    Result.standing (d.runPartial given, chunks) =
        some (d.runWithRemainder (given ++ chunks.flatten) 0) ∧
      d.asksForMore (given ++ chunks.flatten) = false := by
  have hd : d.Seamless := h.seamless rfl
  constructor
  · have hend := hd.standing_feedPending given hchunks [[]]
    rwa [Result.feedPending_of_isFinal hfinal, Result.standing_append_nil, h.standing_end hd]
      at hend
  · have hnow := hd.standing_feedPending given hchunks []
    rw [Result.feedPending_of_isFinal hfinal, List.append_nil, Result.feedPending_nil] at hnow
    rw [Decoder.asksForMore_eq, ← hnow]
    exact Result.isNone_standing hfinal _

theorem Bytes.exists_chunks (bytes : Bytes) :
    ∃ chunks : List Bytes, [] ∉ chunks ∧ chunks.flatten = bytes := by
  by_cases hbytes : bytes = []
  · exact ⟨[], by simp, by simp [hbytes]⟩
  · exact ⟨[bytes], by simpa using Ne.symm hbytes, by simp⟩

/-- A record that came to an end early is the record of the whole backlog. -/
theorem Composed.record_of_isFinal (h : Composed .stream d) (given unread : Bytes) :
    (∀ value leftover, d.runPartial given = .done value leftover →
      Backlog.record d (given ++ unread) = (.ok value, some (leftover ++ unread))) ∧
    (∀ error, d.runPartial given = .failed error →
      Backlog.record d (given ++ unread) = (.error (.decode error), none)) := by
  obtain ⟨chunks, hchunks, rfl⟩ := Bytes.exists_chunks unread
  refine ⟨fun value leftover hrun => ?_, fun error hrun => ?_⟩
  · have hfinal : (d.runPartial given).IsFinal := by rw [hrun]; trivial
    obtain ⟨hstanding, _⟩ := h.runPartial_of_isFinal hfinal hchunks
    rw [hrun, Result.standing, Option.some.injEq] at hstanding
    rw [Backlog.record, ← hstanding]
  · have hfinal : (d.runPartial given).IsFinal := by rw [hrun]; trivial
    obtain ⟨hstanding, hasks⟩ := h.runPartial_of_isFinal hfinal hchunks
    rw [hrun, Result.standing, Option.some.injEq] at hstanding
    rw [Backlog.record, ← hstanding]
    simp [Backlog.failure, hasks]

/-- A record that has got all the bytes of the file and asked for more. -/
theorem Composed.drive_end (h : Composed .stream d) {r : RecordReader} (hr : r.Reads [])
    {given : Bytes} (hasks : d.asksForMore given = true) :
    ∃ r', RecordReader.drive given.length true (d.start .complete given) r =
        ((Backlog.record d given).1, r') ∧ r'.Stands (Backlog.record d given).2 := by
  have hrun : d.runWithRemainder given 0 = (d.start .complete given).toExcept := rfl
  have hfinal := h.isFinal_start_complete given
  unfold Backlog.record
  rw [hrun]
  cases hstart : d.start .complete given with
  | suspended resume =>
      rw [hstart] at hfinal
      exact hfinal.elim
  | failed error =>
      refine ⟨{ r with halted := true, pending := [] }, ?_, ?_⟩
      · simp [RecordReader.drive, Backlog.failure, hasks, Result.toExcept]
      · simp [RecordReader.Stands, Result.toExcept]
  | done value leftover =>
      refine ⟨_, rfl, [], ⟨hr.live, hr.size, hr.source, hr.ended⟩, ?_⟩
      simp

/-- However the rest of the file is cut into chunks, the record under way ends as the record of the
    whole backlog. -/
theorem Composed.drive_eq (h : Composed .stream d) {r : RecordReader} {unread : Bytes}
    (hr : r.Reads unread) (given : Bytes) :
    ∃ r', RecordReader.drive given.length false (d.runPartial given) r =
        ((Backlog.record d (given ++ unread)).1, r') ∧
      r'.Stands (Backlog.record d (given ++ unread)).2 := by
  -- every chunk but the last leaves less of the file unread
  induction hn : unread.length using Nat.strongRecOn generalizing r unread given with
  | _ n ih =>
      cases hrun : d.runPartial given with
      | done value leftover =>
          rw [(h.record_of_isFinal given unread).1 value leftover hrun]
          exact ⟨_, rfl, unread, ⟨hr.live, hr.size, hr.source, hr.ended⟩, rfl⟩
      | failed error =>
          rw [(h.record_of_isFinal given unread).2 error hrun]
          refine ⟨{ r with halted := true, pending := [] }, ?_, ?_⟩
          · simp [RecordReader.drive]
          · simp [RecordReader.Stands]
      | suspended resume =>
          obtain ⟨hmore, hend⟩ := h.resume_eq hrun
          rw [RecordReader.drive]
          obtain ⟨r', -, ⟨rfl, hread, hr'⟩ | ⟨byte, bytes, rest, rfl, hread, hr'⟩⟩ :=
            hr.readChunk_cases
          · have hasks : d.asksForMore given = true := by simp [Decoder.asksForMore, hrun]
            have hdrive := h.drive_end hr' hasks
            rw [← hend] at hdrive
            rw [hread, List.append_nil]
            exact hdrive
          · have hless : rest.length < n := by
              rw [← hn, List.length_append, List.length_cons]
              omega
            have hdrive := ih _ hless hr' (given ++ byte :: bytes) rfl
            rw [← hmore (byte :: bytes) (List.cons_ne_nil _ _), List.length_append,
              List.append_assoc] at hdrive
            rw [hread]
            exact hdrive

/-! ## All records -/

/-- The reader and somebody who holds the whole file give the same next answer. -/
theorem Composed.next_eq (h : Composed .stream d) {r : RecordReader} {backlog : Backlog}
    (hr : r.Stands backlog) :
    ∃ r', r.next d = ((backlog.next d).1, r') ∧ r'.Stands (backlog.next d).2 := by
  cases backlog with
  | none =>
      have hhalted : r.halted = true := hr
      exact ⟨r, by simp [RecordReader.next, hhalted, Backlog.next], hr⟩
  | some bytes =>
      obtain ⟨unread, hr, rfl⟩ := hr
      unfold RecordReader.next
      rw [if_neg (by simp [hr.live])]
      cases hpending : r.pending with
      | cons byte bytes => exact h.drive_eq hr (byte :: bytes)
      | nil =>
          obtain ⟨r', hpending', ⟨rfl, hread, hr'⟩ | ⟨byte, bytes, rest, rfl, hread, hr'⟩⟩ :=
            hr.readChunk_cases
          · rw [hread, List.nil_append]
            exact ⟨r', rfl, [], hr', by rw [hpending', hpending]; rfl⟩
          · have hdrive := h.drive_eq (hr'.with_pending (byte :: bytes)) (byte :: bytes)
            rw [hread, List.nil_append]
            exact hdrive

/-- A reader goes on as somebody who holds the whole file. -/
theorem Composed.answers_eq (h : Composed .stream d) (n : Nat) {r : RecordReader}
    {backlog : Backlog} (hr : r.Stands backlog) : r.answers d n = backlog.answers d n := by
  induction n generalizing r backlog with
  | zero => rfl
  | succ n ih =>
      obtain ⟨r', hnext, hr'⟩ := h.next_eq hr
      rw [RecordReader.answers, hnext, ih hr']
      rfl

/-- The records of a file do not depend on how it is read. Whatever the size of a chunk, the answers
    of a reader are those of decoding the whole file record by record: each record, as long as there
    are bytes and the records decode, then the end of the stream or the error of the record that
    failed, which the bytes determine, and from then on that the reader has halted.

    As in `chunking_invariant`, strings are told apart by their bytes: decoders whose functions look
    at where a string is stored are outside of this statement. -/
theorem Composed.file_answers (h : Composed .stream d) (file : Bytes) {chunkSize : Nat}
    (hsize : 1 ≤ chunkSize) (n : Nat) :
    (RecordReader.ofSource (.file file) chunkSize).answers d n = Backlog.answers d n (some file) := by
  refine h.answers_eq n ⟨file, ⟨rfl, hsize, rfl, ?_⟩, rfl⟩
  intro hend
  cases hend

end

/-- A tagged frame, an untagged one that begins and ends inside a chunk, and one that is cut short
    inside its header, read three bytes at a time. -/
theorem frame_file_answers :
    (RecordReader.ofSource (.file [0xAA, 1, 2, 3, 4, 5, 6, 0xAB, 1, 2, 3, 4, 5, 6, 7, 0xAA, 1])
        3).answers Decoder.frame 4 =
      [.ok (258, 772, [1541, 1027]), .ok (50463147, 1029, [1798, 1284]),
        .error (.input ⟨.truncatedRecord, 0, 2⟩), .error (.input ⟨.streamHalted, 0, 0⟩)] := by
  have hframe : Composed .stream Decoder.frame := Composed.frame
  refine (hframe.file_answers _ (by decide) 4).trans ?_
  cbv

end StreamDecode
