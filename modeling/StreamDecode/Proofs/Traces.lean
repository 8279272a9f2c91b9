import StreamDecode.Proofs.Endings

set_option autoImplicit false

/-! # The trace of a failure is what encloses it

`Decoder.FailsUnder` follows a run to the place where it fails, and notes the labels on the way in
there: those of the decoder that the place stands under, the outermost one first. A label on a part
that has succeeded, or on a first alternative that was given up, is not on the way.

What a failure carries when it gets out is this list, and behind it the mark of a lack of input if
that is what it is (`Composed.failsAt_iff_failsUnder`). The labels get onto the failure one by one on
its way out, in continuations that are put around those of the caller; so the statement is that none
of them is put around too little or too much. -/

namespace StreamDecode

variable {β α γ : Type}

namespace Decoder

/-! ## The place of a failure -/

/-- Run at `c` and fed the chunks, the decoder fails for the cause at a place in it, and `labels` are
    the names of its labels that the place stands under, outermost first. -/
inductive FailsUnder [Buffer β] :
    {α : Type} → Decoder β α → Cursor β → List β → List String → Cause → Prop where
  /-- The decoder is told to fail. -/
  | failFor {α : Type} {cause : Cause} (plain : cause.isPlain = true) (c : Cursor β) :
      FailsUnder (Decoder.failFor cause : Decoder β α) c [] [] cause
  /-- A demand for a chunk fails. -/
  | demandInput {c here : Cursor β} {chunks : List β} {failure : Failure}
      (lacks : demandInput.FailsAt c chunks here failure) :
      FailsUnder Decoder.demandInput c chunks [] .tooFewBytes
  /-- A demand for a number of bytes fails. -/
  | ensure {n : Nat} {c here : Cursor β} {chunks : List β} {failure : Failure}
      (lacks : (ensure n).FailsAt c chunks here failure) :
      FailsUnder (Decoder.ensure n) c chunks [] .tooFewBytes
  /-- The place is in the first part of a sequence. -/
  | bindFirst {α γ : Type} {d : Decoder β α} {next : α → Decoder β γ} {c : Cursor β}
      {chunks : List β} {labels : List String} {cause : Cause}
      (fails : FailsUnder d c chunks labels cause) : FailsUnder (d.bind next) c chunks labels cause
  /-- The first part of a sequence has succeeded, and the place is in what follows it. -/
  | bindNext {α γ : Type} {d : Decoder β α} {next : α → Decoder β γ} {c middle : Cursor β}
      {fed rest : List β} {value : α} {labels : List String} {cause : Cause}
      (succeeds : d.SucceedsAt c fed middle value)
      (fails : FailsUnder (next value) middle rest labels cause) :
      FailsUnder (d.bind next) c (fed ++ rest) labels cause
  /-- The place stands under a label. -/
  | label {α : Type} {d : Decoder β α} {c : Cursor β} {chunks : List β} {labels : List String}
      {cause : Cause} (name : String) (fails : FailsUnder d c chunks labels cause) :
      FailsUnder (d.label name) c chunks (name :: labels) cause
  /-- The first alternative was given up, wherever it failed, and the place is in the second one. -/
  | orElse {α : Type} {first second : Decoder β α} {c failed : Cursor β} {fed rest : List β}
      {abandoned : Failure} {labels : List String} {cause : Cause}
      (givesUp : first.FailsAt c.enter fed failed abandoned)
      (fails : FailsUnder second (c.rewind failed) rest labels cause) :
      FailsUnder (first.orElse second) c (fed ++ rest) labels cause
  | lookAheadIf {α : Type} {d : Decoder β α} {rewinds : α → Bool} {c : Cursor β} {chunks : List β}
      {labels : List String} {cause : Cause} (fails : FailsUnder d c.enter chunks labels cause) :
      FailsUnder (d.lookAheadIf rewinds) c chunks labels cause
  | negativeWindow {α : Type} {d : Decoder β α} {n : Int} (negative : n < 0) (c : Cursor β) :
      FailsUnder (d.isolate n) c [] [] .negativeWindow
  /-- The bytes of a window are not there. -/
  | beforeWindow {α : Type} {d : Decoder β α} {n : Int} {c here : Cursor β} {chunks : List β}
      {failure : Failure} (nonnegative : ¬ n < 0)
      (lacks : (Decoder.ensure n.toNat).FailsAt c chunks here failure) :
      FailsUnder (d.isolate n) c chunks [] .tooFewBytes
  /-- The place is inside the window. -/
  | inWindow {α : Type} {d : Decoder β α} {n : Int} {c outer : Cursor β} {fed rest : List β}
      {input : β} {labels : List String} {cause : Cause} (nonnegative : ¬ n < 0)
      (waited : (Decoder.ensure n.toNat).SucceedsAt c fed outer input)
      (fails : FailsUnder d { outer with input := Buffer.take input n.toNat, mode := .complete } rest
        labels cause) :
      FailsUnder (d.isolate n) c (fed ++ rest) labels cause
  /-- The decoder of the window has succeeded, and left some of it. -/
  | afterWindow {α : Type} {d : Decoder β α} {n : Int} {c outer inner : Cursor β}
      {fed rest : List β} {input : β} {value : α} (nonnegative : ¬ n < 0)
      (waited : (Decoder.ensure n.toNat).SucceedsAt c fed outer input)
      (succeeds : d.SucceedsAt
        { outer with input := Buffer.take input n.toNat, mode := .complete } rest inner value)
      (leaves : ¬ Buffer.isEmpty inner.input = true) :
      FailsUnder (d.isolate n) c (fed ++ rest) [] .unconsumedWindow

end Decoder

/-- What the trace of a failure ends with, behind the labels: the mark of a lack of input. -/
def Cause.mark (cause : Cause) : List String := if cause = .tooFewBytes then [demandLabel] else []

theorem Cause.mark_of_isPlain {cause : Cause} (h : cause.isPlain = true) : cause.mark = [] := by
  refine if_neg ?_
  rintro rfl
  cases h

namespace Decoder

variable [Buffer β] [LawfulBuffer β] {c here : Cursor β} {chunks : List β} {failure : Failure}

/-- The failure of such a place gets out with the labels that the place stands under. -/
theorem FailsUnder.failsAt {d : Decoder β α} {labels : List String} {cause : Cause}
    (h : d.FailsUnder c chunks labels cause) :
    ∃ here, d.FailsAt c chunks here ⟨cause, labels ++ cause.mark⟩ := by
  -- by induction on the way in: a part fails into the continuation that the whole has made of its own
  induction h with
  | @failFor _ cause plain c =>
      refine ⟨c, fun ρ onFailure onSuccess => ?_⟩
      rw [Cause.mark_of_isPlain plain]
      exact Step.after_nil _
  | demandInput lacks =>
      obtain rfl := lacks.eq_outOfInput_of_demandInput
      exact ⟨_, lacks⟩
  | ensure lacks =>
      obtain rfl := lacks.eq_outOfInput_of_ensure
      exact ⟨_, lacks⟩
  | bindFirst fails ih =>
      obtain ⟨here, hfails⟩ := ih
      exact ⟨here, fun ρ onFailure _ => hfails ρ onFailure _⟩
  | bindNext succeeds fails ih =>
      obtain ⟨here, hfails⟩ := ih
      exact ⟨here, fun ρ onFailure onSuccess =>
        (succeeds.followed onFailure _ _).trans (hfails ρ onFailure onSuccess)⟩
  | label name fails ih =>
      obtain ⟨here, hfails⟩ := ih
      exact ⟨here, fun ρ onFailure _ =>
        hfails ρ (fun c failure => onFailure c (failure.under name)) _⟩
  | orElse givesUp fails ih =>
      obtain ⟨here, hfails⟩ := ih
      exact ⟨here, fun ρ onFailure onSuccess =>
        (givesUp.followed _ _ _).trans (hfails ρ onFailure onSuccess)⟩
  | @lookAheadIf _ d rewinds c chunks labels cause fails ih =>
      obtain ⟨failed, hfails⟩ := ih
      exact ⟨c.rewind failed, fun ρ onFailure _ =>
        hfails ρ (fun failed failure => onFailure (c.rewind failed) failure) _⟩
  | negativeWindow negative c =>
      refine ⟨c, fun ρ onFailure onSuccess => ?_⟩
      rw [exec_isolate_negative negative]
      exact Step.after_nil _
  | @beforeWindow _ d n c here chunks failure nonnegative lacks =>
      obtain rfl := lacks.eq_outOfInput_of_ensure
      refine ⟨here, fun ρ onFailure onSuccess => ?_⟩
      rw [exec_isolate nonnegative]
      exact lacks ρ onFailure _
  | @inWindow _ d n c outer fed rest input labels cause nonnegative waited fails ih =>
      obtain ⟨inner, hfails⟩ := ih
      refine ⟨{ inner with mode := outer.mode }, fun ρ onFailure onSuccess => ?_⟩
      rw [exec_isolate nonnegative, waited.followed]
      exact hfails ρ (fun inner failure => onFailure { inner with mode := outer.mode } failure) _
  | @afterWindow _ d n c outer inner fed rest input value nonnegative waited succeeds leaves =>
      refine ⟨{ inner with mode := outer.mode }, fun ρ onFailure onSuccess => ?_⟩
      rw [exec_isolate nonnegative, waited.followed, succeeds, if_neg leaves]
      rfl

end Decoder

namespace Composed

variable [Buffer β] [LawfulBuffer β] {access : Access}

/-- A composed decoder fails at such places only. -/
theorem failsUnder {d : Decoder β α} (h : Composed access d) {c here : Cursor β} {chunks : List β}
    {failure : Failure} (hfails : d.FailsAt c chunks here failure) :
    ∃ labels cause, d.FailsUnder c chunks labels cause ∧ failure = ⟨cause, labels ++ cause.mark⟩ := by
  induction h generalizing c chunks here failure with
  | pure value => exact (hfails.ne_reached rfl).elim
  | @failFor _ _ cause plain =>
      obtain ⟨rfl, rfl⟩ := hfails.of_failed rfl
      refine ⟨[], cause, .failFor plain c, ?_⟩
      rw [Cause.mark_of_isPlain plain]
      rfl
  | bind hd hn ihd ihn =>
      rcases (Decoder.failsAt_bind_iff hd.linear fun value => (hn value).linear).1 hfails with
        hfirst | ⟨fed, rest, middle, value, rfl, hsucceeds, hnext⟩
      · obtain ⟨labels, cause, hunder, rfl⟩ := ihd hfirst
        exact ⟨labels, cause, .bindFirst hunder, rfl⟩
      · obtain ⟨labels, cause, hunder, rfl⟩ := ihn value hnext
        exact ⟨labels, cause, .bindNext hsucceeds hunder, rfl⟩
  | label name hd ihd =>
      obtain ⟨inner, hinner, rfl⟩ := (Decoder.failsAt_label_iff hd.linear name).1 hfails
      obtain ⟨labels, cause, hunder, rfl⟩ := ihd hinner
      exact ⟨name :: labels, cause, .label name hunder, rfl⟩
  | orElse hf hs ihf ihs =>
      obtain ⟨fed, rest, failed, abandoned, rfl, hgivesUp, hsecond⟩ :=
        (Decoder.failsAt_orElse_iff hf.linear hs.linear).1 hfails
      obtain ⟨labels, cause, hunder, rfl⟩ := ihs hsecond
      exact ⟨labels, cause, .orElse hgivesUp hunder, rfl⟩
  | lookAheadIf rewinds hd ihd =>
      obtain ⟨failed, hfailed, rfl⟩ := (Decoder.failsAt_lookAheadIf_iff hd.linear rewinds).1 hfails
      obtain ⟨labels, cause, hunder, rfl⟩ := ihd hfailed
      exact ⟨labels, cause, .lookAheadIf hunder, rfl⟩
  | @isolate _ _ d n hd ihd =>
      by_cases hn : n < 0
      · obtain ⟨rfl, rfl⟩ := hfails.of_failed (if_pos hn)
        exact ⟨[], .negativeWindow, .negativeWindow hn c, rfl⟩
      · rcases Decoder.failsAt_isolate hd.linear hn hfails with
          hlacks | ⟨fed, rest, outer, input, rfl, hwaited, ⟨inner, hinside⟩ |
            ⟨inner, value, hsucceeds, hleaves, rfl⟩⟩
        · obtain rfl := hlacks.eq_outOfInput_of_ensure
          exact ⟨[], .tooFewBytes, .beforeWindow hn hlacks, rfl⟩
        · obtain ⟨labels, cause, hunder, rfl⟩ := ihd hinside
          exact ⟨labels, cause, .inWindow hn hwaited hunder, rfl⟩
        · exact ⟨[], .unconsumedWindow, .afterWindow hn hwaited hsucceeds hleaves, rfl⟩
  | getBytes n =>
      obtain rfl := hfails.of_getBytes.eq_outOfInput_of_ensure
      exact ⟨[], .tooFewBytes, .bindFirst (.ensure hfails.of_getBytes), rfl⟩
  | allocate grows => exact (hfails.ne_reached rfl).elim
  | getInput looks => exact (hfails.ne_reached rfl).elim
  | demandInput looks =>
      obtain rfl := hfails.eq_outOfInput_of_demandInput
      exact ⟨[], .tooFewBytes, .demandInput hfails, rfl⟩
  | ensure looks n =>
      obtain rfl := hfails.eq_outOfInput_of_ensure
      exact ⟨[], .tooFewBytes, .ensure hfails, rfl⟩
  | uncheckedSkip looks n => exact (hfails.ne_reached rfl).elim
  | putInput rewrites input => exact (hfails.ne_reached rfl).elim

/-- What a composed decoder fails with is the labels that the place of the failure stands under,
    with the mark of a lack of input behind them. -/
theorem failsAt_iff_failsUnder {d : Decoder β α} (h : Composed access d) {c : Cursor β}
    {chunks : List β} {failure : Failure} :
    (∃ here, d.FailsAt c chunks here failure) ↔
      ∃ labels cause, d.FailsUnder c chunks labels cause ∧
        failure = ⟨cause, labels ++ cause.mark⟩ := by
  constructor
  · rintro ⟨here, hfails⟩
    exact h.failsUnder hfails
  · rintro ⟨labels, cause, hunder, rfl⟩
    exact hunder.failsAt

end Composed

/-! ## What is told of a failure -/

/-- The text of a lack of input is that of no other cause. -/
theorem Cause.reason_eq_iff {cause : Cause} :
    cause.reason = "too few bytes" ↔ cause = .tooFewBytes := by
  refine ⟨fun h => ?_, fun h => by rw [h]; rfl⟩
  have hreading (message : String) : failedReading message ≠ "too few bytes" := by
    intro heq
    -- the two texts start with different letters
    have hfirst : "Failed reading: ".toList.head? = some 'F' := by decide
    have hfirst' : "too few bytes".toList.head? = some 't' := by decide
    have hchars : ("Failed reading: " ++ message).toList.head? = "too few bytes".toList.head? :=
      congrArg (fun text : String => text.toList.head?) heq
    rw [String.toList_append, List.head?_append, hfirst, hfirst', Option.some_or] at hchars
    exact absurd hchars (by decide)
  cases cause with
  | tooFewBytes => rfl
  | _ => exact (hreading _ h).elim

/-- The error is what is told of a failure for the cause that stands under the labels: the text of
    the cause, and the labels, with the mark of a lack of input behind them if it is one. -/
structure DecodeError.TellsOf (error : DecodeError) (labels : List String) (cause : Cause) : Prop where
  reason : error.reason = cause.reason
  trace : error.trace = labels ++ if error.reason = "too few bytes" then ["demandInput"] else []

theorem DecodeError.tellsOf_iff {error : DecodeError} {labels : List String} {cause : Cause} :
    error.TellsOf labels cause ↔ error = Failure.report ⟨cause, labels ++ cause.mark⟩ := by
  obtain ⟨reason, trace⟩ := error
  have hmark : cause.mark = if cause.reason = "too few bytes" then ["demandInput"] else [] := by
    simp only [Cause.mark, Cause.reason_eq_iff]
    rfl
  rw [hmark]
  constructor
  · rintro ⟨rfl, htrace⟩
    dsimp only at htrace
    rw [htrace]
    rfl
  · intro h
    cases h
    exact ⟨rfl, rfl⟩

namespace Composed

variable [Buffer β] [LawfulBuffer β] {access : Access} {d : Decoder β α}

/-- A run that is fed chunks gives a failure if it fails after the first of them. -/
theorem failed_iff (h : Composed access d) {mode : InputMode} {input : β} {chunks : List β}
    {error : DecodeError} :
    (d.start mode input).feedAll chunks = .failed error ↔
      ∃ fed unfed failure, chunks = fed ++ unfed ∧
        (∃ here, d.FailsAt (.start mode input) fed here failure) ∧ error = failure.report := by
  constructor
  · intro hfailed
    obtain ⟨failure, ⟨fed, unfed, here, hchunks, hafter⟩, hexplains⟩ := h.explains_failed hfailed
    exact ⟨fed, unfed, failure, hchunks, ⟨here, h.linear.failsAt_iff.2 hafter⟩, hexplains.report⟩
  · rintro ⟨fed, unfed, failure, rfl, ⟨here, hfails⟩, rfl⟩
    have hfed : (d.start mode input).feedAll fed = .failed failure.report :=
      Result.feedAll_ofStep (h.linear.failsAt_iff.1 hfails)
    rw [Result.feedAll, List.foldl_append]
    show ((d.start mode input).feedAll fed).feedAll unfed = .failed failure.report
    rw [hfed]
    exact Result.feedAll_of_isFinal (r := .failed failure.report) trivial unfed

theorem failed_iff_failsUnder (h : Composed access d) {mode : InputMode} {input : β}
    {chunks : List β} {error : DecodeError} :
    (d.start mode input).feedAll chunks = .failed error ↔
      ∃ fed unfed labels cause, chunks = fed ++ unfed ∧
        d.FailsUnder (.start mode input) fed labels cause ∧ error.TellsOf labels cause := by
  rw [h.failed_iff]
  constructor
  · rintro ⟨fed, unfed, failure, hchunks, hfails, rfl⟩
    obtain ⟨labels, cause, hunder, rfl⟩ := h.failsAt_iff_failsUnder.1 hfails
    exact ⟨fed, unfed, labels, cause, hchunks, hunder, DecodeError.tellsOf_iff.2 rfl⟩
  · rintro ⟨fed, unfed, labels, cause, hchunks, hunder, htells⟩
    exact ⟨fed, unfed, _, hchunks, hunder.failsAt, DecodeError.tellsOf_iff.1 htells⟩

/-- A run over a complete input is told of like one that is fed nothing. -/
theorem toExcept_start_iff (h : Composed access d) {input : β} {error : DecodeError} :
    (d.start .complete input).toExcept = .error error ↔
      ∃ labels cause, d.FailsUnder (.start .complete input) [] labels cause ∧
        error.TellsOf labels cause := by
  have hfailed : (d.start .complete input).toExcept = .error error ↔
      (d.start .complete input).feedAll [] = .failed error := by
    refine ⟨Result.toExcept_eq_error (h.isFinal_start_complete input), fun hfailed => ?_⟩
    rw [show d.start .complete input = .failed error from hfailed]
    rfl
  rw [hfailed, h.failed_iff_failsUnder]
  constructor
  · rintro ⟨fed, unfed, labels, cause, hnil, hunder, htells⟩
    obtain ⟨rfl, rfl⟩ := List.append_eq_nil_iff.1 hnil.symm
    exact ⟨labels, cause, hunder, htells⟩
  · rintro ⟨labels, cause, hunder, htells⟩
    exact ⟨[], [], labels, cause, rfl, hunder, htells⟩

/-- What a label adds to the trace that is told of a run. -/
theorem label_failed_iff (h : Composed access d) (name : String) {mode : InputMode} {input : β}
    {chunks : List β} {error : DecodeError} :
    ((d.label name).start mode input).feedAll chunks = .failed error ↔
      ∃ inner, (d.start mode input).feedAll chunks = .failed inner ∧
        error = ⟨inner.reason, name :: inner.trace⟩ := by
  simp only [(h.label name).failed_iff, h.failed_iff, Decoder.failsAt_label_iff h.linear]
  constructor
  · rintro ⟨fed, unfed, failure, hchunks, ⟨here, inner, hinner, rfl⟩, rfl⟩
    exact ⟨inner.report, ⟨fed, unfed, inner, hchunks, ⟨here, hinner⟩, rfl⟩, rfl⟩
  · rintro ⟨_, ⟨fed, unfed, inner, hchunks, ⟨here, hinner⟩, rfl⟩, rfl⟩
    exact ⟨fed, unfed, inner.under name, hchunks, ⟨here, inner, hinner, rfl⟩, rfl⟩

/-- The trace of a failure is what encloses it. A label changes nothing about a decoder but that its
    name stands in front of the labels of a failure. What a composed decoder fails with, and what is
    told of its run, is the cause and the labels that the place of the failure stands under,
    outermost first, with the mark of a lack of input behind them if and only if it is one. In lists
    and maps the place is in the count or in one element, which those before it have succeeded
    before; in a tree it is in one node, unless there are too many of them. -/
theorem trace_encloses (h : Composed access d) :
    (∀ (name : String) (c : Cursor β) (chunks : List β),
      ((d.label name).Waits c chunks ↔ d.Waits c chunks) ∧
      (∀ here value,
        (d.label name).SucceedsAt c chunks here value ↔ d.SucceedsAt c chunks here value) ∧
      (∀ here failure, (d.label name).FailsAt c chunks here failure ↔
        ∃ inner, d.FailsAt c chunks here inner ∧ failure = inner.under name)) ∧
    (∀ (name : String) (mode : InputMode) (input : β) (chunks : List β) (error : DecodeError),
      ((d.label name).start mode input).feedAll chunks = .failed error ↔
        ∃ inner, (d.start mode input).feedAll chunks = .failed inner ∧
          error = ⟨inner.reason, name :: inner.trace⟩) ∧
    (∀ (c : Cursor β) (chunks : List β) (failure : Failure),
      (∃ here, d.FailsAt c chunks here failure) ↔
        ∃ labels cause, d.FailsUnder c chunks labels cause ∧
          failure = ⟨cause, labels ++ cause.mark⟩) ∧
    (∀ (mode : InputMode) (input : β) (chunks : List β) (error : DecodeError),
      (d.start mode input).feedAll chunks = .failed error ↔
        ∃ fed unfed labels cause, chunks = fed ++ unfed ∧
          d.FailsUnder (.start mode input) fed labels cause ∧ error.TellsOf labels cause) ∧
    (∀ (input : β) (error : DecodeError), d.run input = .error error ↔
      ∃ labels cause, d.FailsUnder (.start .complete input) [] labels cause ∧
        error.TellsOf labels cause) ∧
    (∀ (input : β) (position : Nat) (error : DecodeError),
      d.runWithRemainder input position = .error error ↔
        ∃ labels cause, d.FailsUnder (.start .complete (Buffer.drop input position)) [] labels cause ∧
          error.TellsOf labels cause) ∧
    (∀ (c : Cursor β) (chunks : List β) (here : Cursor β) (failure : Failure),
      ((Decoder.listOf d).FailsAt c chunks here failure ↔ d.FailsCounted c chunks here failure) ∧
      (∀ (κ : Type) [LT κ] [DecidableLT κ] (key : Decoder β κ), Composed access key →
        ((Decoder.mapOf key d).FailsAt c chunks here failure ↔
          (Decoder.pairOf key d).FailsCounted c chunks here failure)) ∧
      ((Decoder.treeOf d).FailsAt c chunks here failure →
        (Decoder.nodeOf d).FailsAmong Decoder.nodeLimit c chunks here failure ∨
          failure = ⟨.oversizedTree, []⟩)) := by
  refine ⟨fun name c chunks => ⟨Decoder.waits_label_iff h.linear name, fun here value =>
      Decoder.succeedsAt_label_iff h.linear name, fun here failure =>
      Decoder.failsAt_label_iff h.linear name⟩,
    fun name mode input chunks error => h.label_failed_iff name,
    fun c chunks failure => h.failsAt_iff_failsUnder,
    fun mode input chunks error => h.failed_iff_failsUnder, fun input error => ?_,
    fun input position error => h.toExcept_start_iff,
    fun c chunks here failure => ⟨?_, fun κ _ _ key hkey => ?_, fun hfails => ?_⟩⟩
  · rw [← h.toExcept_start_iff, Decoder.run]
    cases (d.start .complete input).toExcept with
    | error error' => rw [Except.map, Except.error.injEq, Except.error.injEq]
    | ok result => exact ⟨nofun, nofun⟩
  · have hcounted : (Decoder.counted d [] fun elements x => x :: elements).Linear :=
      (h.counted [] fun elements x => x :: elements).linear
    exact (Decoder.failsAt_map_iff hcounted List.reverse).trans (Decoder.failsAt_counted_iff h.linear)
  · exact Decoder.failsAt_counted_iff (hkey.pairOf h).linear
  · exact Decoder.failsAt_treeLoop h.nodeOf.linear hfails

/-- A list whose second element is neither tagged nor long enough. The label of the first alternative
    and that of the first element, which was tagged, are not told of. -/
theorem list_trace_encloses :
    ∃ fed unfed, [[7, 8], []] = fed ++ unfed ∧
      ((Decoder.listOf (Decoder.tagged.orElse (Decoder.word32le.label "plain"))).label
        "items").FailsUnder (.start .incomplete [0, 0, 0, 0, 0, 0, 0, 2, 0xAA, 1, 2]) fed
        ["items", "plain"] .tooFewBytes := by
  have hword : Composed .stream (Decoder.word32le : Decoder Bytes UInt32) := .map _ (.word 4 .little)
  have hlist : Composed .stream
      ((Decoder.listOf (Decoder.tagged.orElse (Decoder.word32le.label "plain"))).label "items") :=
    .label "items" (.listOf (.orElse .tagged (.label "plain" hword)))
  have hfailed :
      (((Decoder.listOf (Decoder.tagged.orElse (Decoder.word32le.label "plain"))).label
        "items").start .incomplete [0, 0, 0, 0, 0, 0, 0, 2, 0xAA, 1, 2]).feedAll [[7, 8], []] =
          .failed ⟨"too few bytes", ["items", "plain", "demandInput"]⟩ := by
    cbv
  obtain ⟨fed, unfed, labels, cause, hchunks, hunder, htells⟩ :=
    (hlist.trace_encloses.2.2.2.1 _ _ _ _).1 hfailed
  obtain rfl : cause = .tooFewBytes := Cause.reason_eq_iff.1 htells.reason.symm
  obtain rfl : labels = ["items", "plain"] := (List.append_inj_left' htells.trace rfl).symm
  exact ⟨fed, unfed, hchunks, hunder⟩

end Composed

end StreamDecode
