import StreamDecode.Proofs.EndOfInput
import StreamDecode.Proofs.Records

set_option autoImplicit false

/-! # When a record is reported as cut short

A reader that gets no more bytes cannot tell a file that ends too early from a record that does not
decode. It goes by two signs: the last chunk that it fed was the empty one, and the innermost label
of the failure is that of a lack of input. `Composed.next_conclusion` says what is told of a record,
for every composed decoder and however the file is cut.

Where a decoder makes no choices, the signs are right: the empty chunk fails the demand that was
waiting for it, and with it the record (`Choiceless.failsAtEnd`). A choice takes the demand back and
goes on with another alternative, and a failure of that one may bear the second sign as well, from a
window that was there in full or from a label of that name. -/

namespace StreamDecode

variable {α γ : Type}

/-! ## The record under way -/

namespace RecordReader

/-- What is told of a record of the given size, by the run and the chunks that were not fed to it of
    those that end with the empty one: nothing as long as the run is suspended. -/
def conclusion (size : Nat) : Result Bytes α × List Bytes → Option (Except ReaderError α)
  | (.suspended _, _) => none
  | (.done value _, _) => some (.ok value)
  | (.failed error, unfed) => some (.error (
      if unfed.isEmpty && error.endsInDemand then .input ⟨.truncatedRecord, 0, size⟩
      else .decode error))

/-- However the rest of the file is cut into chunks, what is told of a record is what its run comes
    to, fed these chunks and the empty one. -/
theorem drive_eq_conclusion {r : RecordReader} {unread : Bytes} (hr : r.Reads unread)
    (run : Result Bytes α) (buffered : Nat)
    (hend : ∀ chunks, ((run.feedAll chunks).feed []).IsFinal) :
    ∃ chunks, [] ∉ chunks ∧ chunks.flatten = unread ∧
      conclusion (buffered + unread.length) (run.feedPending (chunks ++ [[]])) =
        some (drive buffered false run r).1 := by
  induction hn : unread.length using Nat.strongRecOn generalizing r unread run buffered with
  | _ n ih =>
      have hover : run.IsFinal → ∃ chunks, [] ∉ chunks ∧ chunks.flatten = unread ∧
          conclusion (buffered + n) (run.feedPending (chunks ++ [[]])) =
            some (drive buffered false run r).1 := by
        intro hfinal
        obtain ⟨chunks, hchunks, hflat⟩ := Bytes.exists_chunks unread
        refine ⟨chunks, hchunks, hflat, ?_⟩
        rw [Result.feedPending_of_isFinal hfinal]
        cases run with
        | done value leftover => rfl
        | failed error => simp [conclusion, drive]
        | suspended resume => exact hfinal.elim
      cases run with
      | done value leftover => exact hover trivial
      | failed error => exact hover trivial
      | suspended resume =>
          rw [drive]
          obtain ⟨r', -, ⟨rfl, hread, hr'⟩ | ⟨byte, bytes, rest, rfl, hread, hr'⟩⟩ :=
            hr.readChunk_cases
          · obtain rfl : n = 0 := hn.symm
            have hfinal : (resume []).IsFinal := hend []
            refine ⟨[], by simp, rfl, ?_⟩
            rw [hread]
            show conclusion buffered ((resume []).feedPending []) =
              some (drive buffered true (resume []) r').1
            rw [Result.feedPending_nil]
            cases hresume : resume [] with
            | done value leftover => rfl
            | failed error => rfl
            | suspended resume' =>
                rw [hresume] at hfinal
                exact hfinal.elim
          · rw [List.length_append] at hn
            have hlater : ∀ chunks, (((resume (byte :: bytes)).feedAll chunks).feed []).IsFinal :=
              fun chunks => hend ((byte :: bytes) :: chunks)
            obtain ⟨chunks, hchunks, hflat, hdrive⟩ :=
              ih rest.length (by simp only [List.length_cons] at hn; omega) hr'
                (resume (byte :: bytes)) (buffered + (byte :: bytes).length) hlater rfl
            refine ⟨(byte :: bytes) :: chunks, by simpa using hchunks, ?_, ?_⟩
            · rw [List.flatten_cons, hflat]
            · rw [hread, ← hn, ← Nat.add_assoc]
              exact hdrive

end RecordReader

/-- What a reader tells of the next record: what its run comes to, started on some first bytes of
    what is left of the file and fed the others, in some chunks, and then the empty one. -/
theorem Composed.next_conclusion {access : Access} {d : Decoder Bytes α} (h : Composed access d)
    {r : RecordReader} {unread : Bytes} (hr : r.Reads unread) (hrest : r.pending ++ unread ≠ []) :
    ∃ first later, [] ∉ later ∧ first ++ later.flatten = r.pending ++ unread ∧
      RecordReader.conclusion (r.pending ++ unread).length
        ((d.runPartial first).feedPending (later ++ [[]])) = some (r.next d).1 := by
  have hend : ∀ first chunks, (((d.runPartial first).feedAll chunks).feed []).IsFinal :=
    fun first chunks => h.isFinal_feed_isEmpty .incomplete first chunks rfl
  unfold RecordReader.next
  rw [if_neg (by simp [hr.live])]
  cases hpending : r.pending with
  | cons byte bytes =>
      obtain ⟨chunks, hchunks, hflat, hdrive⟩ := RecordReader.drive_eq_conclusion hr
        (d.runPartial (byte :: bytes)) (byte :: bytes).length (hend _)
      refine ⟨byte :: bytes, chunks, hchunks, by rw [hflat], ?_⟩
      rw [List.length_append]
      exact hdrive
  | nil =>
      obtain ⟨r', -, ⟨rfl, hread, hr'⟩ | ⟨byte, bytes, rest, rfl, hread, hr'⟩⟩ := hr.readChunk_cases
      · rw [hpending] at hrest
        exact (hrest rfl).elim
      · obtain ⟨chunks, hchunks, hflat, hdrive⟩ :=
          RecordReader.drive_eq_conclusion (hr'.with_pending (byte :: bytes))
            (d.runPartial (byte :: bytes)) (byte :: bytes).length (hend _)
        refine ⟨byte :: bytes, chunks, hchunks, by rw [hflat, List.nil_append], ?_⟩
        rw [hread, List.nil_append, List.length_append]
        exact hdrive

/-- The empty chunk was fed if it was waited for. -/
theorem Result.unfed_eq_nil_iff (run : Result Bytes α) (chunks : List Bytes) (last : Bytes) :
    (run.feedPending (chunks ++ [last])).2 = [] ↔
      ∃ resume, run.feedAll chunks = .suspended resume := by
  induction chunks generalizing run with
  | nil =>
      cases run with
      | suspended resume =>
          show ((resume last).feedPending []).2 = [] ↔ _
          rw [feedPending_nil]
          exact ⟨fun _ => ⟨resume, rfl⟩, fun _ => rfl⟩
      | failed error => simp [feedPending, feedAll]
      | done value leftover => simp [feedPending, feedAll]
  | cons chunk chunks ih =>
      cases run with
      | suspended resume => exact ih (resume chunk)
      | failed error =>
          rw [feedAll_of_isFinal (r := .failed error) trivial]
          simp [feedPending]
      | done value leftover =>
          rw [feedAll_of_isFinal (r := .done value leftover) trivial]
          simp [feedPending]

/-! ## Decoders without choices -/

section

variable {β : Type} [Buffer β]

/-- The decoder is composed without choices, except inside windows: where a part of it fails, it
    fails. -/
inductive Choiceless : Access → {α : Type} → Decoder β α → Prop where
  | pure {access : Access} {α : Type} (value : α) : Choiceless access (Decoder.pure value)
  | failFor {access : Access} {α : Type} {cause : Cause} (plain : cause.isPlain = true) :
      Choiceless access (Decoder.failFor cause : Decoder β α)
  | bind {access : Access} {α γ : Type} {d : Decoder β α} {next : α → Decoder β γ}
      (hd : Choiceless access d) (hn : ∀ value, Choiceless access (next value)) :
      Choiceless access (d.bind next)
  | label {access : Access} {α : Type} {d : Decoder β α} (name : String)
      (hd : Choiceless access d) : Choiceless access (d.label name)
  | lookAheadIf {access : Access} {α : Type} {d : Decoder β α} (rewinds : α → Bool)
      (hd : Choiceless access d) : Choiceless access (d.lookAheadIf rewinds)
  | isolate {access : Access} {α : Type} {d : Decoder β α} (n : Int)
      (hd : Composed access.inside d) : Choiceless access (d.isolate n)
  | getBytes {access : Access} (n : Nat) : Choiceless access (Decoder.getBytes n)
  | allocate {access : Access} {α : Type} {make : Nat → α × Nat}
      (grows : ∀ counter, counter ≤ (make counter).2) : Choiceless access (Decoder.allocate make)
  | getInput {access : Access} (looks : access ≠ .stream) : Choiceless access Decoder.getInput
  | demandInput {access : Access} (looks : access ≠ .stream) :
      Choiceless access Decoder.demandInput
  | ensure {access : Access} (looks : access ≠ .stream) (n : Nat) :
      Choiceless access (Decoder.ensure n)
  | uncheckedSkip {access : Access} (looks : access ≠ .stream) (n : Nat) :
      Choiceless access (Decoder.uncheckedSkip n)
  | putInput {access : Access} (rewrites : access = .rewrite) (input : β) :
      Choiceless access (Decoder.putInput input)

theorem Choiceless.composed {access : Access} {d : Decoder β α} (h : Choiceless access d) :
    Composed access d := by
  induction h with
  | pure value => exact .pure value
  | failFor plain => exact .failFor plain
  | bind hd hn ihd ihn => exact ihd.bind ihn
  | label name hd ihd => exact ihd.label name
  | lookAheadIf rewinds hd ihd => exact ihd.lookAheadIf rewinds
  | isolate n hd => exact hd.isolate n
  | getBytes n => exact .getBytes n
  | allocate grows => exact .allocate grows
  | getInput looks => exact .getInput looks
  | demandInput looks => exact .demandInput looks
  | ensure looks n => exact .ensure looks n
  | uncheckedSkip looks n => exact .uncheckedSkip looks n
  | putInput rewrites input => exact .putInput rewrites input

/-- The failure is that of a demand for input, with the labels that it has passed. -/
structure Failure.IsLack (f : Failure) : Prop where
  cause : f.cause = .tooFewBytes
  labels : f.labels.getLast? = some demandLabel

theorem Failure.IsLack.under {f : Failure} (h : f.IsLack) (name : String) :
    (f.under name).IsLack := by
  refine ⟨h.cause, ?_⟩
  have hlabels := h.labels
  cases hf : f.labels with
  | nil =>
      rw [hf] at hlabels
      cases hlabels
  | cons label labels =>
      rw [hf] at hlabels
      simpa [Failure.under, hf] using hlabels

/-- Wherever the run waits, the empty chunk fails it for lack of input. -/
def Step.FailsAtEnd : Step β (Ending β α) → Prop
  | .await resume =>
      (∀ last, Buffer.isEmpty last = true → ∃ c f, resume last = .answer (.failed c f) ∧ f.IsLack) ∧
        ∀ chunk, (resume chunk).FailsAtEnd
  | _ => True

theorem Step.FailsAtEnd.settle {step : Step β (Ending β α)}
    {onFailure : OnFailure β (Ending β γ)} {onSuccess : OnSuccess β α (Ending β γ)}
    (h : step.FailsAtEnd)
    (hf : ∀ c f, ∃ c' f', onFailure c f = .answer (.failed c' f') ∧ (f.IsLack → f'.IsLack))
    (hs : ∀ c value, (onSuccess c value).FailsAtEnd) :
    (step.settle onFailure onSuccess).FailsAtEnd := by
  induction step with
  | answer ending =>
      cases ending with
      | failed c f =>
          obtain ⟨c', f', hfailed, _⟩ := hf c f
          show (onFailure c f).FailsAtEnd
          rw [hfailed]
          trivial
      | reached c value => exact hs c value
  | await resume ih =>
      refine ⟨fun last hlast => ?_, fun chunk => ih chunk (h.2 chunk)⟩
      obtain ⟨c, f, hresume, hlack⟩ := h.1 last hlast
      obtain ⟨c', f', hfailed, hkeeps⟩ := hf c f
      refine ⟨c', f', ?_, hkeeps hlack⟩
      show (resume last).settle onFailure onSuccess = _
      rw [hresume]
      exact hfailed
  | adrift => trivial

theorem Step.FailsAtEnd.after {step later : Step β (Ending β α)} {chunks : List β}
    (h : step.FailsAtEnd) (hl : step.after chunks = some later) : later.FailsAtEnd := by
  induction chunks generalizing step with
  | nil =>
      rw [after_nil, Option.some.injEq] at hl
      rwa [← hl]
  | cons chunk chunks ih =>
      cases step with
      | answer ending => cases hl
      | await resume => exact ih (h.2 chunk) hl
      | adrift => cases hl

variable [LawfulBuffer β]

theorem Decoder.gathering_failsAtEnd (c : Cursor β) (gathered : List β) (missing : Nat) :
    (gathering c gathered missing).FailsAtEnd := by
  induction missing using Nat.strongRecOn generalizing c gathered with
  | _ missing ih =>
      rw [gathering, gather_eq_await]
      refine ⟨fun last hlast => ?_, fun chunk => ?_⟩ <;> dsimp only
      · rw [if_pos ((Buffer.isEmpty_iff last).1 hlast)]
        exact ⟨_, _, rfl, rfl, rfl⟩
      · by_cases hsize : Buffer.size chunk = 0
        · rw [if_pos hsize]
          trivial
        · rw [if_neg hsize]
          by_cases henough : missing ≤ Buffer.size chunk
          · rw [if_pos henough]
            trivial
          · rw [if_neg henough]
            exact ih _ (by omega) _ _

theorem Decoder.ensure_failsAtEnd (n : Nat) (c : Cursor β) :
    ((ensure n).outcome c).FailsAtEnd := by
  by_cases hn : Buffer.hasAtLeast c.input n = true
  · rw [outcome_ensure_enough hn]
    trivial
  · cases hmode : c.mode with
    | complete =>
        rw [outcome_ensure_complete hn hmode]
        trivial
    | incomplete =>
        rw [outcome_ensure_incomplete hn hmode]
        exact gathering_failsAtEnd _ _ _

/-- Without choices the empty chunk fails the demand that waited for it, and nothing takes that
    back. -/
theorem Choiceless.failsAtEnd {access : Access} {d : Decoder β α} (h : Choiceless access d)
    (c : Cursor β) : (d.outcome c).FailsAtEnd := by
  have hkeep : ∀ {γ : Type} (c : Cursor β) (f : Failure), ∃ c' f',
      (Step.answer (.failed c f) : Step β (Ending β γ)) = .answer (.failed c' f') ∧
        (f.IsLack → f'.IsLack) := fun c f => ⟨c, f, rfl, id⟩
  induction h generalizing c with
  | bind hd hn ihd ihn =>
      rw [Decoder.outcome_bind hd.composed.linear]
      exact (ihd c).settle hkeep fun c value => ihn value c
  | label name hd ihd =>
      rw [Decoder.outcome_label hd.composed.linear]
      exact (ihd c).settle (fun c f => ⟨c, _, rfl, fun hf => hf.under name⟩) fun _ _ => trivial
  | lookAheadIf rewinds hd ihd =>
      rw [Decoder.outcome_lookAheadIf hd.composed.linear]
      exact (ihd c.enter).settle (fun _ f => ⟨_, f, rfl, id⟩) fun _ _ => trivial
  | isolate n hd =>
      rw [Decoder.outcome_isolate hd.linear]
      split
      · trivial
      · refine (Decoder.ensure_failsAtEnd _ c).settle hkeep fun outer input => ?_
        -- a window is through at once, so whatever happens inside never waits
        obtain ⟨ending, hanswer, _⟩ := Decoder.inWindow_eq_answer hd.tracks n.toNat outer input
        rw [hanswer]
        trivial
  | getBytes n =>
      rw [Decoder.outcome_getBytes]
      exact (Decoder.ensure_failsAtEnd n c).settle hkeep fun _ _ => trivial
  | demandInput looks =>
      cases hmode : c.mode with
      | complete =>
          rw [Decoder.outcome_demandInput_complete hmode]
          trivial
      | incomplete =>
          rw [Decoder.outcome_demandInput_incomplete hmode]
          refine ⟨fun last hlast => ⟨_, _, if_pos hlast, rfl, rfl⟩, fun chunk => ?_⟩
          dsimp only
          split <;> trivial
  | ensure looks n => exact Decoder.ensure_failsAtEnd n c
  | pure | failFor | allocate | getInput | uncheckedSkip | putInput => trivial

end

/-! ## Reports -/

/-- The result of feeding the empty chunk to a run that waits for more. -/
theorem Choiceless.feed_end {access : Access} {d : Decoder Bytes α} (h : Choiceless access d)
    {first : Bytes} {later : List Bytes} {resume : Bytes → Result Bytes α}
    (hrun : (d.runPartial first).feedAll later = .suspended resume) :
    ∃ error, resume [] = .failed error ∧ error.reason = Cause.tooFewBytes.reason ∧
      error.endsInDemand = true := by
  obtain ⟨fed, step, _, hafter, hresult⟩ :=
    Result.feedPending_ofStep (d.outcome (.start .incomplete first)) later
  rw [Result.feedPending_fst] at hresult
  have hstep : Result.ofStep step = .suspended resume := hresult.symm.trans hrun
  have hfails : step.FailsAtEnd := (h.failsAtEnd (.start .incomplete first)).after hafter
  cases step with
  | answer ending => cases ending <;> cases hstep
  | await resume' =>
      obtain rfl : (fun chunk => Result.ofStep (resume' chunk)) = resume := by
        simpa only [Result.ofStep, Result.suspended.injEq] using hstep
      obtain ⟨c, f, hfailed, hlack⟩ := hfails.1 [] rfl
      refine ⟨f.report, ?_, ?_, ?_⟩
      · dsimp only
        rw [hfailed]
        rfl
      · simp [Failure.report, hlack.cause]
      · simp [Failure.report, DecodeError.endsInDemand, hlack.labels]
  | adrift => cases hstep

/-- When a record is reported as cut short. Of what is left of the file some first bytes start the
    run and the others are fed to it. If it is over by then, its failure is reported as it is. If it
    still waits, it is fed the empty chunk; and if it fails then, the failure is reported as it is,
    unless its innermost label is that of a lack of input. A decoder without choices that still waits
    always fails with that label; one with choices may come to have it otherwise. -/
theorem Composed.truncated_record {access : Access} {d : Decoder Bytes α} (h : Composed access d)
    {r : RecordReader} {unread : Bytes} (hr : r.Reads unread) (hrest : r.pending ++ unread ≠ []) :
    ∃ (first : Bytes) (later : List Bytes), first ++ later.flatten = r.pending ++ unread ∧
      (∀ value leftover, (d.runPartial first).feedAll later = .done value leftover →
        (r.next d).1 = .ok value) ∧
      (∀ error, (d.runPartial first).feedAll later = .failed error →
        (r.next d).1 = .error (.decode error)) ∧
      (∀ resume, (d.runPartial first).feedAll later = .suspended resume →
        (∀ value leftover, resume [] = .done value leftover → (r.next d).1 = .ok value) ∧
        (∀ error, resume [] = .failed error →
          (r.next d).1 = .error (if error.endsInDemand then
            .input ⟨.truncatedRecord, 0, (r.pending ++ unread).length⟩ else .decode error)) ∧
        (Choiceless access d →
          (r.next d).1 =
            .error (.input ⟨.truncatedRecord, 0, (r.pending ++ unread).length⟩))) := by
  obtain ⟨first, later, _, hbytes, hnext⟩ := h.next_conclusion hr hrest
  have hfed : ((d.runPartial first).feedPending (later ++ [[]])).1 =
      ((d.runPartial first).feedAll later).feed [] := by
    rw [Result.feedPending_fst]
    exact List.foldl_append
  have hunfed := Result.unfed_eq_nil_iff (d.runPartial first) later []
  generalize (d.runPartial first).feedPending (later ++ [[]]) = outcome at hnext hfed hunfed
  obtain ⟨result, unfed⟩ := outcome
  dsimp only at hfed hunfed
  subst hfed
  refine ⟨first, later, hbytes, fun value leftover hrun => ?_, fun error hrun => ?_,
    fun resume hrun => ?_⟩
  · rw [hrun] at hnext
    exact (Option.some.inj hnext).symm
  · have hmore : unfed.isEmpty = false := by
      rw [List.isEmpty_eq_false_iff, ne_eq, hunfed, hrun]
      rintro ⟨resume, hresume⟩
      cases hresume
    rw [hrun] at hnext
    simp [RecordReader.conclusion, Result.feed, hmore] at hnext
    exact hnext.symm
  · obtain rfl : unfed = [] := hunfed.2 ⟨resume, hrun⟩
    have hfailed : ∀ error, resume [] = .failed error →
        (r.next d).1 = .error (if error.endsInDemand then
          .input ⟨.truncatedRecord, 0, (r.pending ++ unread).length⟩ else .decode error) := by
      intro error herror
      rw [hrun, Result.feed, herror] at hnext
      exact (Option.some.inj hnext).symm
    refine ⟨fun value leftover hdone => ?_, hfailed, fun hc => ?_⟩
    · rw [hrun, Result.feed, hdone] at hnext
      exact (Option.some.inj hnext).symm
    · obtain ⟨error, herror, _, hdemand⟩ := hc.feed_end hrun
      rw [hfailed error herror, if_pos hdemand]

/-- A window of one byte in which two are read. -/
def Decoder.overrun : Decoder Bytes UInt16 := isolate 1 word16be

/-- The same behind an alternative that reads eight bytes. -/
def Decoder.lateOverrun : Decoder Bytes UInt16 := (word64be.map UInt64.toUInt16).orElse overrun

/-- A composed decoder that needs nothing but its input as a stream. A file of three bytes is long
    enough for the window, and the demand that fails stands inside it. But the alternative has waited
    for more, and so the record is reported as cut short. -/
theorem lateOverrun_truncated :
    Composed .stream Decoder.lateOverrun ∧
      ((RecordReader.ofSource (.file [1, 2, 3]) 4096).next Decoder.overrun).1 =
        .error (.decode ⟨"too few bytes", ["demandInput"]⟩) ∧
      ((RecordReader.ofSource (.file [1, 2, 3]) 4096).next Decoder.lateOverrun).1 =
        .error (.input ⟨.truncatedRecord, 0, 3⟩) := by
  refine ⟨.orElse (.map _ (.word 8 .big)) (.isolate 1 (.map _ (.word 2 .big))), ?_, ?_⟩
  · cbv
  · cbv

/-- A word of four bytes in a file of three. -/
theorem word_truncated_record :
    ∃ (first : Bytes) (later : List Bytes), first ++ later.flatten = [1, 2, 3] ∧
      ∀ resume, (Decoder.word32be.runPartial first).feedAll later = .suspended resume →
        ((RecordReader.ofSource (.file [1, 2, 3]) 2).next Decoder.word32be).1 =
          .error (.input ⟨.truncatedRecord, 0, 3⟩) := by
  have hword : Choiceless .stream (Decoder.word32be : Decoder Bytes UInt32) :=
    .bind (.bind (.getBytes 4) fun _ => .pure _) fun _ => .pure _
  have hreads : (RecordReader.ofSource (.file [1, 2, 3]) 2).Reads [1, 2, 3] :=
    ⟨rfl, by decide, rfl, nofun⟩
  obtain ⟨first, later, hbytes, _, _, hwaits⟩ :=
    hword.composed.truncated_record hreads (by decide)
  exact ⟨first, later, hbytes, fun resume hrun => (hwaits resume hrun).2.2 hword⟩

end StreamDecode
