import StreamDecode.Proofs.Results
import StreamDecode.Proofs.Rounds

set_option autoImplicit false

/-! # The end of the input ends the run

Running a decoder can go wrong in two ways that are no failure of the decoder: a run over a complete
input may be left suspended, and a run may break off. Of a composed decoder neither happens in any
run, so every error is told of a failure that the decoder came to itself. For the same reason a run
that is fed the empty chunk is over, whatever choices, windows and loops were still pending: the
chunk makes the mode complete, and in complete mode nothing suspends.

A run would break off as well if the yield of a round found no loop to go on with. The loops in rounds
are composed decoders, so this does not happen either, and where a yield goes instead is said by
`Decoder.Linear.turn_yields_iff` and `Step.after_reenter`. -/

namespace StreamDecode

/-! ## Which failures there are -/

/-- Whether the cause stands for a run gone wrong, and not for a failure of the decoder. -/
def Cause.isInternal : Cause → Bool
  | unexpectedSuspension | strayYield => true
  | _ => false

theorem Cause.not_isInternal_of_isPlain {cause : Cause} (h : cause.isPlain = true) :
    cause.isInternal = false := by
  cases cause <;> first | rfl | cases h

/-- The error tells of this failure, and the failure is none of the run. A text that reads as if it
    were is one that `fail` was given. -/
structure Failure.Explains (f : Failure) (error : DecodeError) : Prop where
  report : error = f.report
  own : f.cause.isInternal = false
  raised : ∀ cause : Cause, cause.isInternal = true → error.reason = cause.reason →
    ∃ message, f.cause = .raised message

/-- The causes that decoders give have other texts than those of a run gone wrong, except where
    `fail` is free to give any. -/
theorem Cause.raised_of_reason_eq {cause internal : Cause} (hcause : cause.isInternal = false)
    (hinternal : internal.isInternal = true) (h : cause.reason = internal.reason) :
    ∃ message, cause = .raised message := by
  have htexts : ∀ a b : String, failedReading a = failedReading b → a = b := fun a b hab =>
    (String.append_right_inj "Failed reading: ").1 hab
  cases internal with
  | unexpectedSuspension | strayYield =>
      cases cause with
      | raised message => exact ⟨message, rfl⟩
      | unboundName name =>
          have hchars := congrArg String.toList (htexts _ _ h)
          simp at hchars
      | tooFewBytes => exact absurd h (by decide)
      | negativeWindow | unconsumedWindow | unorderedKeys | oversizedTree | nestedTooDeep =>
          exact absurd (htexts _ _ h) (by decide)
      | unexpectedSuspension | strayYield => cases hcause
  | _ => cases hinternal

theorem Failure.explains_report {f : Failure} (h : f.cause.isInternal = false) :
    f.Explains f.report :=
  ⟨rfl, h, fun _ hinternal hreason => Cause.raised_of_reason_eq h hinternal hreason⟩

variable {β α γ : Type}

/-- Wherever the run fails, its failure has the property. -/
def Step.FailsOnly (P : Failure → Prop) (step : Step β (Ending β α)) : Prop :=
  ∀ fed, step.Obeys (fun _ => True)
    (fun _ ending => match ending with
      | .failed _ failure => P failure
      | .reached _ _ => True) fed

theorem Step.FailsOnly.settle {P : Failure → Prop} {step : Step β (Ending β α)}
    {onFailure : OnFailure β (Ending β γ)} {onSuccess : OnSuccess β α (Ending β γ)}
    (h : step.FailsOnly P) (hf : ∀ c failure, P failure → (onFailure c failure).FailsOnly P)
    (hs : ∀ c value, (onSuccess c value).FailsOnly P) :
    (step.settle onFailure onSuccess).FailsOnly P := by
  intro fed
  refine (h fed).bind (fun _ _ => trivial) (fun fed ending he => ?_)
  cases ending with
  | failed c failure => exact hf c failure he fed
  | reached c value => exact hs c value fed

theorem Step.FailsOnly.failed {P : Failure → Prop} {failure : Failure} (h : P failure)
    (c : Cursor β) : (Step.answer (.failed c failure) : Step β (Ending β α)).FailsOnly P :=
  fun _ => h

theorem Step.FailsOnly.reached {P : Failure → Prop} (c : Cursor β) (value : α) :
    (Step.answer (.reached c value) : Step β (Ending β α)).FailsOnly P :=
  fun _ => trivial

variable [Buffer β]

theorem Decoder.demandInput_failsOnly {P : Failure → Prop} (hlack : P .outOfInput) (c : Cursor β) :
    (demandInput.outcome c).FailsOnly P := by
  cases hmode : c.mode with
  | complete =>
      rw [outcome_demandInput_complete hmode]
      exact .failed hlack c
  | incomplete =>
      rw [outcome_demandInput_incomplete hmode]
      refine fun fed => ⟨trivial, fun chunk => ?_⟩
      dsimp only
      split
      · exact hlack
      · trivial

variable [LawfulBuffer β]

theorem Decoder.ensure_failsOnly {P : Failure → Prop} (hlack : P .outOfInput) (n : Nat)
    (c : Cursor β) : ((ensure n).outcome c).FailsOnly P := by
  intro fed
  rw [← List.append_nil fed]
  refine Step.Obeys.shift ((ensure_gathers n c).mono (fun _ _ => trivial) (fun _ ending he => ?_))
  cases ending with
  | failed c failure =>
      obtain ⟨_, _, rfl⟩ := he
      exact hlack
  | reached c value => trivial

/-- A property of the failures that decoders come to themselves, and that labels do not take away,
    is one of all failures of composed decoders. -/
theorem Composed.failsOnly {P : Failure → Prop} {access : Access} {d : Decoder β α}
    (h : Composed access d) (hplain : ∀ cause : Cause, cause.isPlain = true → P ⟨cause, []⟩)
    (hlack : P .outOfInput) (hnegative : P ⟨.negativeWindow, []⟩)
    (hunconsumed : P ⟨.unconsumedWindow, []⟩) (hlabel : ∀ f name, P f → P (f.under name)) :
    ∀ c, (d.outcome c).FailsOnly P := by
  induction h with
  | pure value => exact fun c => .reached c value
  | failFor plain => exact fun c => .failed (hplain _ plain) c
  | bind hd hn ihd ihn =>
      intro c
      rw [Decoder.outcome_bind hd.linear]
      exact (ihd c).settle (fun c _ hp => .failed hp c) (fun c value => ihn value c)
  | label name hd ihd =>
      intro c
      rw [Decoder.outcome_label hd.linear]
      exact (ihd c).settle (fun c f hp => .failed (hlabel f name hp) c)
        (fun c value => .reached c value)
  | orElse hf hs ihf ihs =>
      intro c
      rw [Decoder.outcome_orElse hf.linear]
      -- the failure of the first decoder is dropped, so only the second one can fail the choice
      exact (ihf c.enter).settle (fun failed _ _ => ihs (c.rewind failed))
        (fun after value => .reached _ value)
  | lookAheadIf rewinds hd ihd =>
      intro c
      rw [Decoder.outcome_lookAheadIf hd.linear]
      exact (ihd c.enter).settle (fun _ _ hp => .failed hp _) (fun _ value => .reached _ value)
  | isolate n hd ihd =>
      intro c
      rw [Decoder.outcome_isolate hd.linear]
      split
      · exact .failed hnegative c
      · refine (Decoder.ensure_failsOnly hlack n.toNat c).settle (fun c _ hp => .failed hp c)
          (fun outer input => ?_)
        refine (ihd _).settle (fun _ _ hp => .failed hp _) (fun inner value => ?_)
        split
        · exact .reached _ value
        · exact .failed hunconsumed _
  | getBytes n =>
      intro c
      rw [Decoder.outcome_getBytes]
      exact (Decoder.ensure_failsOnly hlack n c).settle (fun c _ hp => .failed hp c)
        (fun _ _ => .reached _ _)
  | allocate grows => exact fun c => .reached _ _
  | getInput looks => exact fun c => .reached _ _
  | demandInput looks => exact Decoder.demandInput_failsOnly hlack
  | ensure looks n => exact Decoder.ensure_failsOnly hlack n
  | uncheckedSkip looks n => exact fun c => .reached _ _
  | putInput rewrites input => exact fun c => .reached _ _

theorem Composed.failsOnly_own {access : Access} {d : Decoder β α} (h : Composed access d)
    (c : Cursor β) : (d.outcome c).FailsOnly (·.cause.isInternal = false) :=
  h.failsOnly (P := fun f => f.cause.isInternal = false) (fun _ => Cause.not_isInternal_of_isPlain)
    rfl rfl rfl (fun _ _ hf => hf) c

/-! ## Complete mode -/

/-- In complete mode a composed decoder goes on with one of its continuations at once. -/
theorem Composed.exec_complete {access : Access} {d : Decoder β α} (h : Composed access d)
    {c : Cursor β} (hmode : c.mode = .complete) :
    ∃ ending : Ending β α, ∀ (ρ : Type) (onFailure : OnFailure β ρ) (onSuccess : OnSuccess β α ρ),
      d.exec c onFailure onSuccess = ending.elim onFailure onSuccess := by
  obtain ⟨ending, hanswer, _⟩ := (h.tracks c).eq_answer hmode
  refine ⟨ending, fun ρ onFailure onSuccess => ?_⟩
  rw [h.linear, hanswer]
  rfl

/-- Whatever was fed, the run has not broken off. -/
theorem Composed.after_ne_adrift {access : Access} {d : Decoder β α} (h : Composed access d)
    (c : Cursor β) (chunks : List β) : (d.outcome c).after chunks ≠ some .adrift :=
  fun hafter => (h.tracks c).after hafter

/-- What the empty chunk leaves of a run is an answer. -/
theorem Composed.after_isEmpty {access : Access} {d : Decoder β α} (h : Composed access d)
    {c : Cursor β} {fed : List β} {last : β} (hlast : Buffer.isEmpty last = true)
    {later : Step β (Ending β α)} (hafter : (d.outcome c).after (fed ++ [last]) = some later) :
    ∃ ending, later = .answer ending := by
  have htracks : later.Tracks c (fed ++ [last]) := (h.tracks c).after hafter
  cases later with
  | answer ending => exact ⟨ending, rfl⟩
  | await resume =>
      have hwaits : (c.arriveAll (fed ++ [last])).mode = .incomplete := htracks.1
      rw [Cursor.arriveAll_append, Cursor.arriveAll_cons, Cursor.arriveAll_nil,
        Cursor.arrive_mode, if_pos hlast] at hwaits
      cases hwaits
  | adrift => exact htracks.elim

/-! ## Results -/

/-- The run ends with this failure, once it was fed a first part of the chunks. -/
def Decoder.FailsWith (d : Decoder β α) (mode : InputMode) (input : β) (chunks : List β)
    (f : Failure) : Prop :=
  ∃ fed unfed c, chunks = fed ++ unfed ∧
    (d.outcome (.start mode input)).after fed = some (.answer (.failed c f))

/-- A result that has failed tells of the failure that the run ended with. -/
theorem Composed.explains_failed {access : Access} {d : Decoder β α} (h : Composed access d)
    {mode : InputMode} {input : β} {chunks : List β} {error : DecodeError}
    (hfailed : (d.start mode input).feedAll chunks = .failed error) :
    ∃ f, d.FailsWith mode input chunks f ∧ f.Explains error := by
  obtain ⟨fed, later, hchunks, hafter, hresult⟩ :=
    Result.feedPending_ofStep (d.outcome (.start mode input)) chunks
  have hlater : Result.ofStep later = .failed error := by
    rw [← hresult, Result.feedPending_fst]
    exact hfailed
  have hadrift : later ≠ .adrift := by
    rintro rfl
    exact h.after_ne_adrift _ fed hafter
  obtain ⟨c, f, rfl, rfl⟩ := Result.ofStep_eq_failed hadrift hlater
  have hown : f.cause.isInternal = false := (h.failsOnly_own (.start mode input) []).after hafter
  exact ⟨f, ⟨fed, _, c, hchunks, hafter⟩, f.explains_report hown⟩

/-- A run that suspended and was fed the empty chunk is over. -/
theorem Composed.isFinal_feed_isEmpty {access : Access} {d : Decoder β α} (h : Composed access d)
    (mode : InputMode) (input : β) (chunks : List β) {last : β}
    (hlast : Buffer.isEmpty last = true) :
    (((d.start mode input).feedAll chunks).feed last).IsFinal := by
  obtain ⟨fed, later, _, hafter, hresult⟩ :=
    Result.feedPending_ofStep (d.outcome (.start mode input)) chunks
  rw [Result.feedPending_fst] at hresult
  have hfed : (d.start mode input).feedAll chunks = Result.ofStep later := hresult
  rw [hfed]
  cases later with
  | answer ending =>
      cases ending <;> trivial
  | await resume =>
      -- the result is suspended still, so it is the empty chunk that ends it
      have hlater : (d.outcome (.start mode input)).after (fed ++ [last]) =
          some (resume last) := by
        rw [Step.after_append, hafter]
        exact (resume last).after_nil
      obtain ⟨ending, hanswer⟩ := h.after_isEmpty hlast hlater
      show (Result.ofStep (resume last)).IsFinal
      rw [hanswer]
      exact Result.isFinal_ofStep_answer ending
  | adrift => exact (h.after_ne_adrift _ fed hafter).elim

/-- How the end of the input ends every run of the decoder. -/
structure Decoder.EndsWithInput (d : Decoder β α) : Prop where
  /-- In complete mode the decoder goes on with one of its continuations at once. -/
  complete : ∀ c : Cursor β, c.mode = .complete → ∃ ending : Ending β α,
    ∀ (ρ : Type) (onFailure : OnFailure β ρ) (onSuccess : OnSuccess β α ρ),
      d.exec c onFailure onSuccess = ending.elim onFailure onSuccess
  /-- No run breaks off, whatever it is fed. -/
  ne_adrift : ∀ (c : Cursor β) (chunks : List β), (d.outcome c).after chunks ≠ some .adrift
  /-- The errors that are reported are of failures that the decoder came to itself. -/
  run : ∀ input error, d.run input = .error error →
    ∃ f, d.FailsWith .complete input [] f ∧ f.Explains error
  runWithRemainder : ∀ input position error, d.runWithRemainder input position = .error error →
    ∃ f, d.FailsWith .complete (Buffer.drop input position) [] f ∧ f.Explains error
  runPartial : ∀ input chunks error, (d.runPartial input).feedAll chunks = .failed error →
    ∃ f, d.FailsWith .incomplete input chunks f ∧ f.Explains error
  /-- The empty chunk makes every result final. -/
  isFinal : ∀ input chunks last, Buffer.isEmpty last = true →
    (((d.runPartial input).feedAll chunks).feed last).IsFinal

theorem Composed.endsWithInput {access : Access} {d : Decoder β α} (h : Composed access d) :
    d.EndsWithInput := by
  have hcomplete : ∀ input error, (d.start .complete input).toExcept = .error error →
      ∃ f, d.FailsWith .complete input [] f ∧ f.Explains error := by
    intro input error herror
    have hfailed : (d.start .complete input).feedAll [] = .failed error :=
      Result.toExcept_eq_error (h.isFinal_start_complete input) herror
    exact h.explains_failed hfailed
  refine ⟨fun c hmode => h.exec_complete hmode, h.after_ne_adrift, fun input error herror => ?_,
    fun input position error herror => hcomplete _ error herror,
    fun input chunks error hfailed => h.explains_failed hfailed,
    fun input chunks last hlast => h.isFinal_feed_isEmpty .incomplete input chunks hlast⟩
  refine hcomplete input error ?_
  have hmap : (d.start .complete input).toExcept.map Prod.fst = .error error := herror
  cases hresult : (d.start .complete input).toExcept with
  | error error' =>
      rw [hresult] at hmap
      cases hmap
      rfl
  | ok result =>
      rw [hresult] at hmap
      cases hmap

/-- The end of the input ends the run. In complete mode a composed decoder never suspends; no run of
    it ever breaks off; so what is reported of a run that went wrong is a failure that the decoder
    came to itself; and the empty chunk makes every result final. The same holds of the loops that
    repeat it round by round, where a yield might go astray. A round yields where its body has
    succeeded and nowhere else, and at once the loop around it goes on from the state that was
    yielded; what the round leaves the loop with passes through, be it a yield to a loop further
    out. -/
theorem Composed.end_of_input {access : Access} {d : Decoder β α} (h : Composed access d) :
    d.EndsWithInput ∧
    (∀ (γ : Type) (count : Nat) (init : γ) (push : γ → α → γ),
      (Decoder.foldInRounds count d init push).EndsWithInput) ∧
    (Decoder.treeInRounds d).EndsWithInput ∧
    (∀ (σ ρ : Type) (c : Cursor β) (onFailure : OnFailure β ρ) (next : Cursor β → α → σ)
      (loop : σ → Step β ρ) (chunks : List β),
      (∀ state, (d.turn c onFailure next).after chunks = some (.answer (.yield state)) →
        (∃ here value, d.SucceedsAt c chunks here value ∧ state = next here value) ∧
        ((d.turn c onFailure next).reenter loop).after chunks = some (loop state)) ∧
      (∀ result, (d.turn c onFailure next).after chunks = some (.answer (.leave result)) →
        ((d.turn c onFailure next).reenter loop).after chunks = some (.answer result)) ∧
      ∀ here value, d.SucceedsAt c chunks here value →
        (d.turn c onFailure next).after chunks = some (.answer (.yield (next here value)))) := by
  refine ⟨h.endsWithInput, fun γ count init push => (h.foldInRounds count init push).endsWithInput,
    h.treeInRounds.endsWithInput, fun σ ρ c onFailure next loop chunks => ⟨?_, ?_, ?_⟩⟩
  · intro state hyields
    exact ⟨h.linear.turn_yields_iff.1 hyields, Step.after_reenter hyields loop⟩
  · intro result hleaves
    exact Step.after_reenter hleaves loop
  · intro here value hsucceeds
    exact h.linear.turn_yields_iff.2 ⟨here, value, hsucceeds, rfl⟩

open Decoder in
/-- A frame that ends inside its window, which a choice and a look ahead came before; and the same
    frame as the second round of a loop. -/
theorem frame_end_of_input :
    let frames := foldInRounds 2 frame 0 fun count _ => count + 1
    let first : Bytes := [0xAA, 1, 2, 3, 4, 5, 6]
    (¬ ((frame.runPartial [0xAA]).feedAll [[1, 2, 3, 4], [5]]).IsFinal ∧
      (((frame.runPartial [0xAA]).feedAll [[1, 2, 3, 4], [5]]).feed []).IsFinal) ∧
    ¬ ((frames.runPartial first).feedAll [[0xAA], [1, 2, 3, 4], [5]]).IsFinal ∧
      (((frames.runPartial first).feedAll [[0xAA], [1, 2, 3, 4], [5]]).feed []).IsFinal := by
  intro frames first
  have hframe : Composed .stream frame := Composed.frame
  obtain ⟨hone, hloop, -⟩ := hframe.end_of_input
  have hwaits : ((frame.runPartial [0xAA]).feedAll [[1, 2, 3, 4], [5]]).IsFinal = False := by cbv
  have hwaits' :
      ((frames.runPartial first).feedAll [[0xAA], [1, 2, 3, 4], [5]]).IsFinal = False := by
    cbv
  exact ⟨⟨of_eq_false hwaits, hone.isFinal _ _ _ rfl⟩, of_eq_false hwaits',
    (hloop Nat 2 0 _).isFinal _ _ _ rfl⟩

end StreamDecode
