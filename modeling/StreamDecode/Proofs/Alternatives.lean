import StreamDecode.Proofs.Seamless

set_option autoImplicit false

/-! # Three alternatives

Of three alternatives, either the first two or the last two may be put together
(`Composed.orElse_assoc`). The two groupings keep their records differently. If the first two are
together, the second one is run inside two rewind points, of which the inner one has been entered
anew after the first decoder failed; if the last two are, it is run inside one that starts where the
choice started with all that had arrived by then. Since no decoder looks at the record, the second
one does the same in both, and what the records hold when they are left is the same as well.

Over strings with storage of their own the third alternative is reached with the same bytes in the
buffer, but they may have been joined in other steps (`Composed.orElse_groupings`). -/

namespace StreamDecode

variable {β α : Type}

/-! ## Rewind points after one another, and inside of one another -/

namespace Cursor

/-- A rewind point entered where another one was entered just before. -/
theorem leave_leave_enter (c after : Cursor β) : c.leave (c.enter.leave after) = c.leave after := by
  show { after with record := c.record.merge (Record.merge (some []) after.record) } =
    ({ after with record := c.record.merge after.record } : Cursor β)
  rw [← Record.merge_merge, Record.merge_empty]

variable [Buffer β]

/-- What a rewound point and one inside of it have received, seen from outside: the one after the
    other. -/
theorem merge_rewind (c failed : Cursor β) (inner : Record β) :
    c.record.merge ((c.enter.rewind failed).record.merge inner) =
      (c.rewind failed).record.merge inner := by
  have hinner : (c.enter.rewind failed).record = some (failed.record.getD [] ++ []) := rfl
  have houter : c.record.merge (some (failed.record.getD [] ++ [])) = (c.rewind failed).record := by
    rw [List.append_nil]
    rfl
  rw [hinner, ← Record.merge_merge, houter]

theorem chunks_rewind (c failed : Cursor β) (inner : Record β) :
    ((c.enter.rewind failed).record.merge inner).chunks = failed.record.chunks ++ inner.chunks := by
  show (inner.getD [] ++ (failed.record.getD [] ++ [])).reverse = _
  rw [List.append_nil, List.reverse_append]
  rfl

theorem leave_leave_rewind (c failed after : Cursor β) :
    c.leave ((c.enter.rewind failed).leave after) = (c.rewind failed).leave after := by
  show { after with record := c.record.merge ((c.enter.rewind failed).record.merge after.record) } =
    ({ after with record := (c.rewind failed).record.merge after.record } : Cursor β)
  rw [merge_rewind]

/-- Rewinding past both points, or to the inner one and then to the outer one: the record and the
    mode are the same. -/
theorem rewind_leave_rewind_agrees (c failed failed' : Cursor β) :
    (c.rewind ((c.enter.rewind failed).leave failed')).Agrees
      ((c.rewind failed).rewind failed') :=
  ⟨merge_rewind c failed failed'.record, rfl⟩

/-- And so are the bytes of the buffer. -/
theorem toBytes_rewind_leave_rewind [LawfulBuffer β] (c failed failed' : Cursor β) :
    Buffer.toBytes (c.rewind ((c.enter.rewind failed).leave failed')).input =
      Buffer.toBytes ((c.rewind failed).rewind failed').input := by
  have hchunks : ((c.enter.rewind failed).leave failed').record.chunks =
      failed.record.chunks ++ failed'.record.chunks := chunks_rewind c failed failed'.record
  rw [toBytes_rewind, toBytes_rewind, toBytes_rewind, hchunks, List.flatMap_append,
    List.append_assoc]

/-- Over plain bytes there is nothing else to a cursor. -/
theorem rewind_leave_rewind (c failed failed' : Cursor Bytes) :
    c.rewind ((c.enter.rewind failed).leave failed') = (c.rewind failed).rewind failed' := by
  have hinput : (c.rewind failed).input = c.input ++ failed.record.chunks.flatten := by
    rw [rewind_eq]
  have hchunks := chunks_rewind c failed failed'.record
  have hrecord := merge_rewind c failed failed'.record
  rw [rewind_eq c, rewind_eq (c.rewind failed), hinput, List.append_assoc, ← List.flatten_append,
    ← hchunks, ← hrecord]
  rfl

end Cursor

/-! ## The two groupings -/

/-- Three alternatives one after the other. The first two start from where the choice is made, with
    what has arrived since behind it; the third one starts from where `restart` says, which is told
    where the choice was made and where the other two have failed. -/
def Decoder.inTurn [Buffer β] (restart : Cursor β → Cursor β → Cursor β → Cursor β)
    (first second third : Decoder β α) : Decoder β α where
  exec c onFailure onSuccess :=
    first.exec c.enter
      (fun failed _ => second.exec (c.rewind failed).enter
        (fun failed' _ => third.exec (restart c failed failed') onFailure onSuccess)
        (fun after value => onSuccess ((c.rewind failed).leave after) value))
      (fun after value => onSuccess (c.leave after) value)

variable [Buffer β] {access : Access}

theorem Decoder.orElse_orElse_eq_inTurn (first second third : Decoder β α) :
    first.orElse (second.orElse third) =
      inTurn (fun c failed failed' => (c.rewind failed).rewind failed') first second third := rfl

/-- With the first two alternatives together, the second one runs as if the choice had been entered
    where the first one failed; only the third one starts from another cursor. -/
theorem Composed.orElse_orElse_eq_inTurn [LawfulBuffer β] {second : Decoder β α}
    (h : Composed access second) (first third : Decoder β α) :
    (first.orElse second).orElse third =
      Decoder.inTurn (fun c failed failed' => c.rewind ((c.enter.rewind failed).leave failed'))
        first second third := by
  refine Decoder.ext_exec fun ρ c onFailure onSuccess => ?_
  have hsecond (failed : Cursor β) (onFailure' : OnFailure β ρ) (onSuccess' : OnSuccess β α ρ) :
      second.exec (c.enter.rewind failed) onFailure' onSuccess' =
        second.exec (c.rewind failed).enter
          (fun inner failure => onFailure' ((c.enter.rewind failed).leave inner) failure)
          (fun inner value => onSuccess' ((c.enter.rewind failed).leave inner) value) := by
    have henter : (c.enter.rewind failed).enter = (c.rewind failed).enter := rfl
    rw [h.linear, h.outcome_enter, henter, Step.settle_map_leave]
    exact (h.linear ρ _ _ _).symm
  show first.exec c.enter (fun failed _ => second.exec (c.enter.rewind failed) _ _)
    (fun after value => onSuccess (c.leave (c.enter.leave after)) value) = _
  simp only [hsecond, Cursor.leave_leave_rewind, Cursor.leave_leave_enter]
  rfl

/-- Over any strings, the two groupings differ in no more than where the third alternative starts
    from: the record, the mode and the bytes of the buffer are the same there, which may have been
    joined in other steps. -/
theorem Composed.orElse_groupings [LawfulBuffer β] :
    ∃ left right : Cursor β → Cursor β → Cursor β → Cursor β,
      (∀ c failed failed', (left c failed failed').Agrees (right c failed failed') ∧
        Buffer.toBytes (left c failed failed').input =
          Buffer.toBytes (right c failed failed').input) ∧
      ∀ first second third : Decoder β α, Composed access second →
        (first.orElse second).orElse third = Decoder.inTurn left first second third ∧
          first.orElse (second.orElse third) = Decoder.inTurn right first second third := by
  refine ⟨fun c failed failed' => c.rewind ((c.enter.rewind failed).leave failed'),
    fun c failed failed' => (c.rewind failed).rewind failed', fun c failed failed' => ?_,
    fun first second third h => ?_⟩
  · exact ⟨Cursor.rewind_leave_rewind_agrees c failed failed',
      Cursor.toBytes_rewind_leave_rewind c failed failed'⟩
  · exact ⟨h.orElse_orElse_eq_inTurn first third,
      Decoder.orElse_orElse_eq_inTurn first second third⟩

/-- Choice is associative: the two groupings are the same decoder. At every cursor, be it inside
    rewind points or not, and with whatever they go on with, they wait for the same chunks and end
    with the same value or failure at the same cursor, whichever of the three the chunks reach and
    the end of the input. -/
theorem Composed.orElse_assoc {second : Decoder Bytes α} (h : Composed access second)
    (first third : Decoder Bytes α) :
    (first.orElse second).orElse third = first.orElse (second.orElse third) := by
  rw [h.orElse_orElse_eq_inTurn, Decoder.orElse_orElse_eq_inTurn]
  simp only [Cursor.rewind_leave_rewind]

/-- A header that is tagged or four bytes long or else two. Inside a rewind point that has received
    a byte before, it is fed three bytes in two chunks, of which the first alternative sees only the
    first one, and then the end of the input, which the second one is waiting for. -/
theorem short_header_orElse_assoc :
    let short : Decoder Bytes UInt32 := Decoder.word16le.map UInt16.toUInt32
    let c : Cursor Bytes := ⟨[], some [[7]], .incomplete, 0⟩
    (Decoder.tagged.orElse Decoder.word32le).orElse short =
        Decoder.tagged.orElse (Decoder.word32le.orElse short) ∧
      (((Decoder.tagged.orElse Decoder.word32le).orElse short).outcome c).after
          [[0xAB], [1, 2], []] =
        some (.answer (.reached ⟨[2], some [[1, 2], [0xAB], [7]], .complete, 0⟩ 0x01AB)) := by
  have hlong : Composed .stream (Decoder.word32le : Decoder Bytes UInt32) := .map _ (.word _ _)
  exact ⟨hlong.orElse_assoc Decoder.tagged _, by cbv⟩

end StreamDecode
