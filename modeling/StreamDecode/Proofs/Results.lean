import StreamDecode.Proofs.Progress
import StreamDecode.Result

set_option autoImplicit false

/-! # Feeding results

`Result.feedPending` is the loop of a caller who has chunks at hand: it feeds them in order as long
as the run is suspended, and keeps those that the run did not ask for. A result and the run it
stands for go through the same suspensions, so what is proved of runs holds of results. -/

namespace StreamDecode

variable {β α : Type}

namespace Result

/-- Feed the chunks in order while the run is suspended; also gives the chunks that were not fed. -/
def feedPending : Result β α → List β → Result β α × List β
  | .suspended resume, chunk :: chunks => (resume chunk).feedPending chunks
  | r, chunks => (r, chunks)

theorem feedPending_nil (r : Result β α) : r.feedPending [] = (r, []) := by
  cases r <;> rfl

/-- Feeding one more chunk to a run that has been fed chunks and waits. -/
theorem feedPending_append {run : Result β α} {later : List β} {resume : β → Result β α}
    (h : run.feedPending later = (.suspended resume, [])) (chunk : β) :
    run.feedPending (later ++ [chunk]) = (resume chunk, []) := by
  induction later generalizing run with
  | nil =>
      rw [feedPending_nil, Prod.mk.injEq] at h
      rw [h.1]
      exact feedPending_nil (resume chunk)
  | cons first later ih =>
      cases run with
      | suspended resume' => exact ih h
      | failed error => cases h
      | done value leftover => cases h

/-- A result is not suspended: it is final. -/
def IsFinal : Result β α → Prop
  | .suspended _ => False
  | _ => True

theorem feedAll_of_isFinal {r : Result β α} (hr : r.IsFinal) (chunks : List β) :
    r.feedAll chunks = r := by
  induction chunks with
  | nil => rfl
  | cons chunk chunks ih =>
      cases r with
      | suspended resume => exact hr.elim
      | failed error => exact ih
      | done value leftover => exact ih

/-- Feeding the chunks that the run asks for is feeding all of them. -/
theorem feedPending_fst (r : Result β α) (chunks : List β) :
    (r.feedPending chunks).1 = r.feedAll chunks := by
  induction chunks generalizing r with
  | nil => rw [feedPending_nil]; rfl
  | cons chunk chunks ih =>
      cases r with
      | suspended resume => exact ih (resume chunk)
      | failed error =>
          have hfinal : (failed error : Result β α).IsFinal := trivial
          exact (feedAll_of_isFinal hfinal (chunk :: chunks)).symm
      | done value leftover =>
          have hfinal : (done value leftover : Result β α).IsFinal := trivial
          exact (feedAll_of_isFinal hfinal (chunk :: chunks)).symm

/-- The chunks that were fed lead the run to where the result stands. -/
theorem feedPending_ofStep (step : Step β (Ending β α)) (chunks : List β) :
    ∃ fed later, chunks = fed ++ ((ofStep step).feedPending chunks).2 ∧
      step.after fed = some later ∧ ((ofStep step).feedPending chunks).1 = ofStep later := by
  induction chunks generalizing step with
  | nil =>
      rw [feedPending_nil]
      exact ⟨[], step, rfl, step.after_nil, rfl⟩
  | cons chunk chunks ih =>
      cases step with
      | answer ending =>
          refine ⟨[], .answer ending, ?_, rfl, ?_⟩ <;> cases ending <;> rfl
      | await resume =>
          obtain ⟨fed, later, hchunks, hafter, hresult⟩ := ih (resume chunk)
          refine ⟨chunk :: fed, later, ?_, hafter, hresult⟩
          rw [List.cons_append]
          exact congrArg (chunk :: ·) hchunks
      | adrift => exact ⟨[], .adrift, rfl, rfl, rfl⟩

/-- A result that is fed the chunks its run asks for stands where the run does then. -/
theorem feedAll_ofStep {step later : Step β (Ending β α)} {chunks : List β}
    (h : step.after chunks = some later) : (ofStep step).feedAll chunks = ofStep later := by
  induction chunks generalizing step with
  | nil =>
      rw [Step.after_nil, Option.some.injEq] at h
      rw [h]
      rfl
  | cons chunk chunks ih =>
      cases step with
      | answer ending => cases h
      | await resume => exact ih h
      | adrift => cases h

/-- Only a run that has answered with a value gives a result that is done. -/
theorem ofStep_eq_done {step : Step β (Ending β α)} {value : α} {leftover : β}
    (h : ofStep step = .done value leftover) :
    ∃ c, step = .answer (.reached c value) ∧ c.input = leftover := by
  cases step with
  | answer ending =>
      cases ending with
      | failed c failure => cases h
      | reached c value' =>
          cases h
          exact ⟨c, rfl, rfl⟩
  | await resume => cases h
  | adrift => cases h

/-- Of the runs that did not break off, only one that has answered with a failure gives a result
    that has failed. -/
theorem ofStep_eq_failed {step : Step β (Ending β α)} {error : DecodeError}
    (hstep : step ≠ .adrift) (h : ofStep step = .failed error) :
    ∃ c f, step = .answer (.failed c f) ∧ error = f.report := by
  cases step with
  | answer ending =>
      cases ending with
      | failed c f =>
          cases h
          exact ⟨c, f, rfl, rfl⟩
      | reached c value => cases h
  | await resume => cases h
  | adrift => exact (hstep rfl).elim

theorem isFinal_ofStep_answer (ending : Ending β α) :
    (ofStep (.answer ending) : Result β α).IsFinal := by
  cases ending <;> trivial

theorem toExcept_eq_error {r : Result β α} (hr : r.IsFinal) {error : DecodeError}
    (h : r.toExcept = .error error) : r = .failed error := by
  cases r with
  | failed error' =>
      cases h
      rfl
  | suspended resume => exact hr.elim
  | done value leftover => cases h

theorem toExcept_eq_ok {r : Result β α} {value : α} {rest : β}
    (h : r.toExcept = .ok (value, rest)) : r = .done value rest := by
  cases r with
  | failed error => cases h
  | suspended resume => cases h
  | done value' leftover =>
      cases h
      rfl

end Result

/-- A run over a complete input is over at once. -/
theorem Composed.isFinal_start_complete [Buffer β] [LawfulBuffer β] {access : Access}
    {d : Decoder β α} (h : Composed access d) (input : β) : (d.start .complete input).IsFinal := by
  obtain ⟨ending, hanswer, _⟩ := (h.tracks (.start .complete input)).eq_answer rfl
  rw [Decoder.start, hanswer]
  exact Result.isFinal_ofStep_answer ending

end StreamDecode
