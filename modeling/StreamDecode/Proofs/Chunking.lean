import StreamDecode.Proofs.Results
import StreamDecode.Proofs.Seamless

set_option autoImplicit false

/-! # How the input is cut does not matter

The outcome of a piecewise run is settled by the bytes that it was given: whatever chunks they come
in, the run is suspended in all cases, or it fails alike, or it gives the same value and leaves over
the same bytes, those not fed any more included. With the end of the input it is the outcome of the
run over all of the bytes at once. -/

namespace StreamDecode

variable {α : Type}

namespace Result

/-- What has come of a run, with chunks at hand that were not fed to it: nothing yet, or its final
    outcome, these chunks being left over with the rest of the buffer. -/
def standing : Result Bytes α × List Bytes → Option (Except DecodeError (α × Bytes))
  | (suspended _, _) => none
  | (failed error, _) => some (.error error)
  | (done value leftover, unfed) => some (.ok (value, leftover ++ unfed.flatten))

/-- A chunk may be fed while the run is suspended, or be there from the start. -/
theorem standing_feedPending_cons {step step' : Step Bytes (Ending Bytes α)} {chunk : Bytes}
    (h : step.Absorbs chunk step') (chunks : List Bytes) :
    standing ((ofStep step).feedPending (chunk :: chunks)) =
      standing ((ofStep step').feedPending chunks) := by
  cases step with
  | answer ending =>
      cases ending with
      | failed c failure =>
          -- the buffers may differ, but no failure tells of its buffer
          obtain ⟨rest, rfl⟩ := h
          cases chunks <;> rfl
      | reached c value =>
          have hstep : step' = .answer (.reached (c.arrive chunk) value) := h
          -- the chunk is the first of those not fed, or the end of what was left over
          have hbytes : c.input ++ (chunk :: chunks).flatten =
              (c.arrive chunk).input ++ chunks.flatten := by
            rw [Cursor.arrive_input, List.flatten_cons, List.append_assoc]
          rw [hstep]
          show some (Except.ok (value, c.input ++ (chunk :: chunks).flatten)) = _
          rw [hbytes]
          cases chunks <;> rfl
  | await resume =>
      have hstep : step' = resume chunk := h
      rw [hstep]
      rfl
  | adrift => exact h.elim

/-- Where no chunk is left and the run is final, what has come of it is its final outcome. -/
theorem standing_of_isFinal {r : Result Bytes α} (hr : r.IsFinal) :
    standing (r, []) = some r.toExcept := by
  cases r with
  | failed error => rfl
  | suspended resume => exact hr.elim
  | done value leftover =>
      show some (Except.ok (value, leftover ++ [])) = some (Except.ok (value, leftover))
      rw [List.append_nil]

end Result

/-! ## Chunks that arrive at a start -/

theorem Cursor.arrive_start (input : Bytes) {chunk : Bytes} (hchunk : chunk ≠ []) :
    (Cursor.start .incomplete input).arrive chunk = .start .incomplete (input ++ chunk) := by
  cases chunk with
  | nil => exact (hchunk rfl).elim
  | cons byte bytes => rw [arrive_cons]; rfl

theorem Cursor.finish_start (input : Bytes) :
    (Cursor.start .incomplete input).arrive [] = .start .complete input := rfl

/-! ## Runs that are fed chunks -/

/-- Chunks may be fed while the run is suspended, or be there from the start. -/
theorem Decoder.Seamless.standing_feedPending {d : Decoder Bytes α} (hd : d.Seamless)
    (input : Bytes) {chunks : List Bytes} (hchunks : [] ∉ chunks) (last : List Bytes) :
    Result.standing ((d.runPartial input).feedPending (chunks ++ last)) =
      Result.standing ((d.runPartial (input ++ chunks.flatten)).feedPending last) := by
  induction chunks generalizing input with
  | nil => rw [List.nil_append, List.flatten_nil, List.append_nil]
  | cons chunk chunks ih =>
      rw [List.mem_cons, not_or] at hchunks
      obtain ⟨hchunk, hrest⟩ := hchunks
      have habsorbs := hd (.start .incomplete input) chunk rfl
      rw [Cursor.arrive_start input (Ne.symm hchunk)] at habsorbs
      calc Result.standing ((d.runPartial input).feedPending (chunk :: chunks ++ last))
          = Result.standing ((d.runPartial (input ++ chunk)).feedPending (chunks ++ last)) :=
            Result.standing_feedPending_cons habsorbs (chunks ++ last)
        _ = Result.standing ((d.runPartial (input ++ chunk ++ chunks.flatten)).feedPending last) :=
            ih (input ++ chunk) hrest
        _ = Result.standing
              ((d.runPartial (input ++ (chunk :: chunks).flatten)).feedPending last) := by
            rw [List.flatten_cons, List.append_assoc]

/-- The chunk that ends the input leads to the outcome of the run over a complete input. -/
theorem Composed.standing_end {access : Access} {d : Decoder Bytes α} (h : Composed access d)
    (hd : d.Seamless) (input : Bytes) :
    Result.standing ((d.runPartial input).feedPending [[]]) =
      some (d.runWithRemainder input 0) := by
  have habsorbs := hd (.start .incomplete input) [] rfl
  rw [Cursor.finish_start] at habsorbs
  calc Result.standing ((d.runPartial input).feedPending [[]])
      = Result.standing ((d.start .complete input).feedPending []) :=
        Result.standing_feedPending_cons habsorbs []
    _ = Result.standing (d.start .complete input, []) := by rw [Result.feedPending_nil]
    _ = some (d.runWithRemainder input 0) := Result.standing_of_isFinal (h.isFinal_start_complete input)

/-- How the input is cut does not matter. What has come of a piecewise run once some bytes were
    offered depends on these bytes only, and once the end of the input was offered as well it is the
    outcome of the run over all of the bytes.

    Strings are told apart by their bytes here, and a function that chooses how to go on is given the
    bytes and nothing else. One that looks at where a string is stored, which does depend on how the
    input was cut, is outside of this statement. -/
theorem Composed.chunking_invariant {d : Decoder Bytes α} (h : Composed .stream d) :
    (∀ (first first' : Bytes) (later later' : List Bytes), [] ∉ later → [] ∉ later' →
      first ++ later.flatten = first' ++ later'.flatten →
      Result.standing ((d.runPartial first).feedPending later) =
        Result.standing ((d.runPartial first').feedPending later')) ∧
    (∀ (first : Bytes) (later : List Bytes), [] ∉ later →
      Result.standing ((d.runPartial first).feedPending (later ++ [[]])) =
        some (d.runWithRemainder (first ++ later.flatten) 0)) := by
  have hd : d.Seamless := h.seamless rfl
  have hjoined : ∀ (first : Bytes) (later : List Bytes), [] ∉ later →
      Result.standing ((d.runPartial first).feedPending later) =
        Result.standing ((d.runPartial (first ++ later.flatten)).feedPending []) := by
    intro first later hlater
    have hstanding := hd.standing_feedPending first hlater []
    rwa [List.append_nil] at hstanding
  refine ⟨fun first first' later later' hlater hlater' hsame => ?_, fun first later hlater => ?_⟩
  · rw [hjoined first later hlater, hjoined first' later' hlater', hsame]
  · rw [hd.standing_feedPending first hlater [[]]]
    exact h.standing_end hd _

/-- An untagged frame that is cut inside the header, inside the type and inside the window, and the
    same frame in one piece. -/
theorem frame_chunking_invariant :
    Result.standing ((Decoder.frame.runPartial [0xAB]).feedPending
        [[1], [2, 3, 4], [5, 6, 7], [8], [9]]) =
      Result.standing
        ((Decoder.frame.runPartial [0xAB, 1, 2, 3, 4, 5, 6, 7, 8, 9]).feedPending []) ∧
    Result.standing ((Decoder.frame.runPartial [0xAB]).feedPending
        ([[1], [2, 3, 4], [5, 6, 7], [8], [9]] ++ [[]])) =
      some (.ok ((50463147, 1029, [1798, 1284]), [8, 9])) := by
  have hvalue : Decoder.frame.runWithRemainder [0xAB, 1, 2, 3, 4, 5, 6, 7, 8, 9] 0 =
      .ok ((50463147, 1029, [1798, 1284]), [8, 9]) := by cbv
  have hframe := Composed.chunking_invariant (d := Decoder.frame) Composed.frame
  refine ⟨hframe.1 _ _ _ _ (by decide) (by decide) rfl, ?_⟩
  rw [← hvalue]
  exact hframe.2 _ _ (by decide)

end StreamDecode
