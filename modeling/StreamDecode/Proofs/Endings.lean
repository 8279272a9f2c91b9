import StreamDecode.Proofs.EndOfInput
import StreamDecode.Proofs.Repetition

set_option autoImplicit false

/-! # Where the parts of a decoder end

A decoder that is put together from others waits where one of its parts waits, and ends where one of
them ends. Which part that is, is said here combinator by combinator, in terms of `Decoder.Waits`,
`Decoder.SucceedsAt` and `Decoder.FailsAt`: a part is run only after those before it have succeeded,
or, in a choice, after the first alternative has failed. A failure is passed on as it is, unless a
label is put to it. Loops are sequences (`fold_succ`, `treeLoop_succ`), so where they fail it is some
round that fails, after others that have succeeded (`Decoder.FailsAmong`). -/

namespace StreamDecode

variable {β α γ : Type}

/-! ## The parts of a run -/

/-- A run that has answered has done so where the first part failed, or after it has succeeded. -/
theorem Step.after_settle_answer {ρ : Type} {step : Step β (Ending β α)}
    {onFailure : OnFailure β ρ} {onSuccess : OnSuccess β α ρ} {chunks : List β} {result : ρ}
    (h : (step.settle onFailure onSuccess).after chunks = some (.answer result)) :
    (∃ fed rest c failure, chunks = fed ++ rest ∧ step.after fed = some (.answer (.failed c failure)) ∧
      (onFailure c failure).after rest = some (.answer result)) ∨
    (∃ fed rest c value, chunks = fed ++ rest ∧ step.after fed = some (.answer (.reached c value)) ∧
      (onSuccess c value).after rest = some (.answer result)) := by
  obtain ⟨fed, rest, first, rfl, hfirst, hrest⟩ := after_bind_answer h
  cases first with
  | failed c failure => exact .inl ⟨fed, rest, c, failure, rfl, hfirst, hrest⟩
  | reached c value => exact .inr ⟨fed, rest, c, value, rfl, hfirst, hrest⟩

/-- How a decoder that looks ahead from `entry` ends, if the decoder that it runs ends like this
    inside of the rewind point. -/
def Ending.lookBack [Buffer β] (entry : Cursor β) (rewinds : α → Bool) : Ending β α → Ending β α
  | failed inner failure => failed (entry.rewind inner) failure
  | reached inner value =>
      reached (if rewinds value then entry.rewind inner else entry.leave inner) value

/-- The ending of a labelled decoder whose body ends like this. -/
def Ending.label (name : String) : Ending β α → Ending β α
  | failed c failure => failed c (failure.under name)
  | reached c value => reached c value

namespace Decoder

variable {c here : Cursor β} {chunks : List β} {failure : Failure}

theorem SucceedsAt.followed {d : Decoder β α} {value : α} (h : d.SucceedsAt c chunks here value)
    {ρ : Type} (onFailure : OnFailure β ρ) (onSuccess : OnSuccess β α ρ) (rest : List β) :
    (d.exec c onFailure onSuccess).after (chunks ++ rest) = (onSuccess here value).after rest := by
  rw [Step.after_append, h]
  rfl

theorem FailsAt.followed {d : Decoder β α} (h : d.FailsAt c chunks here failure)
    {ρ : Type} (onFailure : OnFailure β ρ) (onSuccess : OnSuccess β α ρ) (rest : List β) :
    (d.exec c onFailure onSuccess).after (chunks ++ rest) = (onFailure here failure).after rest := by
  rw [Step.after_append, h]
  rfl

/-! ## Sequences -/

/-- A sequence waits where its first part does, or where the second one does that follows it. -/
theorem waits_bind_iff {d : Decoder β α} {next : α → Decoder β γ} (hd : d.Linear)
    (hn : ∀ value, (next value).Linear) :
    (d.bind next).Waits c chunks ↔
      d.Waits c chunks ∨
        ∃ fed rest middle value, chunks = fed ++ rest ∧ d.SucceedsAt c fed middle value ∧
          (next value).Waits middle rest := by
  constructor
  · intro h
    obtain ⟨resume, hawait⟩ := (hd.bind hn).waits_iff.1 h
    rw [outcome_bind hd] at hawait
    rcases Step.after_bind_await hawait with hfirst | ⟨fed, rest, ending, rfl, hfirst, hrest⟩
    · exact .inl (hd.waits_iff.2 hfirst)
    · cases ending with
      | failed c' failure => cases (Step.after_answer hrest).2
      | reached middle value =>
          exact .inr ⟨fed, rest, middle, value, rfl, hd.succeedsAt_iff.2 hfirst,
            (hn value).waits_iff.2 ⟨resume, hrest⟩⟩
  · rintro (h | ⟨fed, rest, middle, value, rfl, hfirst, hrest⟩)
    · exact fun ρ onFailure _ => h ρ onFailure _
    · intro ρ onFailure onSuccess
      obtain ⟨resume, hawait⟩ := hrest ρ onFailure onSuccess
      exact ⟨resume, (hfirst.followed onFailure _ rest).trans hawait⟩

/-- A sequence succeeds where its second part does. -/
theorem succeedsAt_bind_iff {d : Decoder β α} {next : α → Decoder β γ} (hd : d.Linear)
    (hn : ∀ value, (next value).Linear) {last : γ} :
    (d.bind next).SucceedsAt c chunks here last ↔
      ∃ fed rest middle value, chunks = fed ++ rest ∧ d.SucceedsAt c fed middle value ∧
        (next value).SucceedsAt middle rest here last := by
  constructor
  · intro h
    rw [(hd.bind hn).succeedsAt_iff, outcome_bind hd] at h
    rcases Step.after_settle_answer h with
      ⟨fed, rest, c', failure, rfl, -, hrest⟩ | ⟨fed, rest, middle, value, rfl, hfirst, hrest⟩
    · cases (Step.after_answer hrest).2
    · exact ⟨fed, rest, middle, value, rfl, hd.succeedsAt_iff.2 hfirst,
        (hn value).succeedsAt_iff.2 hrest⟩
  · rintro ⟨fed, rest, middle, value, rfl, hfirst, hrest⟩
    exact fun ρ onFailure onSuccess =>
      (hfirst.followed onFailure _ rest).trans (hrest ρ onFailure onSuccess)

/-- A decoder that has succeeded at once does not fail. -/
theorem FailsAt.ne_reached {d : Decoder β α} {at' : Cursor β} {value : α}
    (h : d.FailsAt c chunks here failure) : d.outcome c ≠ .answer (.reached at' value) := by
  intro hreached
  have houtcome : (d.outcome c).after chunks = some (.answer (.failed here failure)) := h _ _ _
  rw [hreached] at houtcome
  obtain ⟨-, hfailed⟩ := Step.after_answer houtcome
  cases hfailed

/-- A decoder that has failed at once fails with that. -/
theorem FailsAt.of_failed {d : Decoder β α} {c' : Cursor β} {failure' : Failure}
    (h : d.FailsAt c chunks here failure) (hfailed : d.outcome c = .answer (.failed c' failure')) :
    chunks = [] ∧ failure = failure' := by
  have houtcome : (d.outcome c).after chunks = some (.answer (.failed here failure)) := h _ _ _
  rw [hfailed] at houtcome
  obtain ⟨rfl, hanswer⟩ := Step.after_answer houtcome
  cases hanswer
  exact ⟨rfl, rfl⟩

/-- A sequence fails where its first part does, or where the second one does that follows it. -/
theorem failsAt_bind_iff {d : Decoder β α} {next : α → Decoder β γ} (hd : d.Linear)
    (hn : ∀ value, (next value).Linear) :
    (d.bind next).FailsAt c chunks here failure ↔
      d.FailsAt c chunks here failure ∨
        ∃ fed rest middle value, chunks = fed ++ rest ∧ d.SucceedsAt c fed middle value ∧
          (next value).FailsAt middle rest here failure := by
  constructor
  · intro h
    rw [(hd.bind hn).failsAt_iff, outcome_bind hd] at h
    rcases Step.after_settle_answer h with
      ⟨fed, rest, c', failure', rfl, hfirst, hrest⟩ | ⟨fed, rest, middle, value, rfl, hfirst, hrest⟩
    · obtain ⟨rfl, hfailed⟩ := Step.after_answer hrest
      cases hfailed
      rw [List.append_nil]
      exact .inl (hd.failsAt_iff.2 hfirst)
    · exact .inr ⟨fed, rest, middle, value, rfl, hd.succeedsAt_iff.2 hfirst,
        (hn value).failsAt_iff.2 hrest⟩
  · rintro (h | ⟨fed, rest, middle, value, rfl, hfirst, hrest⟩)
    · exact fun ρ onFailure _ => h ρ onFailure _
    · exact fun ρ onFailure onSuccess =>
        (hfirst.followed onFailure _ rest).trans (hrest ρ onFailure onSuccess)

/-- Changing the value does not change where a decoder fails. -/
theorem failsAt_map_iff {d : Decoder β α} (hd : d.Linear) (f : α → γ) :
    (d.map f).FailsAt c chunks here failure ↔ d.FailsAt c chunks here failure := by
  refine (failsAt_bind_iff hd fun value => Linear.pure (f value)).trans ⟨?_, .inl⟩
  rintro (h | ⟨fed, rest, middle, value, rfl, -, hrest⟩)
  · exact h
  · exact (hrest.ne_reached rfl).elim

/-- Changing the value changes nothing else about a success. -/
theorem succeedsAt_map_iff {d : Decoder β α} (hd : d.Linear) (f : α → γ) {last : γ} :
    (d.map f).SucceedsAt c chunks here last ↔
      ∃ value, d.SucceedsAt c chunks here value ∧ last = f value := by
  refine (succeedsAt_bind_iff hd fun value => Linear.pure (f value)).trans ⟨?_, ?_⟩
  · rintro ⟨fed, rest, middle, value, rfl, hsucceeds, hpure⟩
    rw [(Linear.pure (f value)).succeedsAt_iff] at hpure
    obtain ⟨rfl, hanswer⟩ := Step.after_answer hpure
    cases hanswer
    rw [List.append_nil]
    exact ⟨value, hsucceeds, rfl⟩
  · rintro ⟨value, hsucceeds, rfl⟩
    exact ⟨chunks, [], here, value, (List.append_nil chunks).symm, hsucceeds,
      fun _ _ _ => Step.after_nil _⟩

/-! ## Choices and windows -/

/-- A choice fails where the second alternative does, after the first one has failed. -/
theorem failsAt_orElse_iff [Buffer β] {first second : Decoder β α} (hf : first.Linear)
    (hs : second.Linear) :
    (first.orElse second).FailsAt c chunks here failure ↔
      ∃ fed rest failed abandoned, chunks = fed ++ rest ∧
        first.FailsAt c.enter fed failed abandoned ∧
        second.FailsAt (c.rewind failed) rest here failure := by
  constructor
  · intro h
    rw [(hf.orElse hs).failsAt_iff, outcome_orElse hf] at h
    rcases Step.after_settle_answer h with
      ⟨fed, rest, failed, abandoned, rfl, hfirst, hrest⟩ | ⟨fed, rest, after, value, rfl, -, hrest⟩
    · exact ⟨fed, rest, failed, abandoned, rfl, hf.failsAt_iff.2 hfirst, hs.failsAt_iff.2 hrest⟩
    · obtain ⟨rfl, hreached⟩ := Step.after_answer hrest
      cases hreached
  · rintro ⟨fed, rest, failed, abandoned, rfl, hfirst, hrest⟩
    exact fun ρ onFailure onSuccess => (hfirst.followed _ _ rest).trans (hrest ρ onFailure onSuccess)

theorem outcome_lookAheadIf_eq_map [Buffer β] {d : Decoder β α} (hd : d.Linear) (rewinds : α → Bool)
    (c : Cursor β) :
    (lookAheadIf rewinds d).outcome c = (d.outcome c.enter).map (·.lookBack c rewinds) := by
  rw [outcome_lookAheadIf hd, Step.map, Step.bind_eq_settle]
  rfl

theorem failsAt_lookAheadIf_iff [Buffer β] {d : Decoder β α} (hd : d.Linear) (rewinds : α → Bool) :
    (d.lookAheadIf rewinds).FailsAt c chunks here failure ↔
      ∃ failed, d.FailsAt c.enter chunks failed failure ∧ here = c.rewind failed := by
  rw [(hd.lookAheadIf rewinds).failsAt_iff, outcome_lookAheadIf_eq_map hd, Step.after_map_answer_iff]
  constructor
  · rintro ⟨ending, hending, hback⟩
    cases ending with
    | failed failed failure' =>
        cases hback
        exact ⟨failed, hd.failsAt_iff.2 hending, rfl⟩
    | reached inner value => cases hback
  · rintro ⟨failed, hfailed, rfl⟩
    exact ⟨_, hd.failsAt_iff.1 hfailed, rfl⟩

section

variable [Buffer β] {ρ : Type} {n : Int} {d : Decoder β α} {onFailure : OnFailure β ρ}
  {onSuccess : OnSuccess β α ρ}

theorem exec_isolate_negative (hn : n < 0) :
    (d.isolate n).exec c onFailure onSuccess = onFailure c ⟨.negativeWindow, []⟩ := if_pos hn

theorem exec_isolate (hn : ¬ n < 0) :
    (d.isolate n).exec c onFailure onSuccess =
      (ensure n.toNat).exec c onFailure fun outer input =>
        d.exec { outer with input := Buffer.take input n.toNat, mode := .complete }
          (fun inner failure => onFailure { inner with mode := outer.mode } failure)
          (fun inner value =>
            if Buffer.isEmpty inner.input then
              onSuccess { inner with input := Buffer.drop input n.toNat, mode := outer.mode } value
            else
              onFailure { inner with mode := outer.mode } ⟨.unconsumedWindow, []⟩) := if_neg hn

/-- A window of a number of bytes that is not negative fails where the bytes are missing, or inside
    the window, or because the window is not used up. -/
theorem failsAt_isolate (hd : d.Linear) (hn : ¬ n < 0)
    (h : (d.isolate n).FailsAt c chunks here failure) :
    (ensure n.toNat : Decoder β β).FailsAt c chunks here failure ∨
      ∃ fed rest outer input, chunks = fed ++ rest ∧
        (ensure n.toNat).SucceedsAt c fed outer input ∧
        ((∃ inner, d.FailsAt { outer with input := Buffer.take input n.toNat, mode := .complete }
            rest inner failure) ∨
          ∃ inner value,
            d.SucceedsAt { outer with input := Buffer.take input n.toNat, mode := .complete } rest
              inner value ∧
            ¬ Buffer.isEmpty inner.input = true ∧ failure = ⟨.unconsumedWindow, []⟩) := by
  rw [(hd.isolate n).failsAt_iff, outcome_isolate hd, if_neg hn] at h
  rcases Step.after_settle_answer h with
    ⟨fed, rest, c', failure', rfl, hlacks, hrest⟩ | ⟨fed, rest, outer, input, rfl, hwaited, hrest⟩
  · obtain ⟨rfl, hanswer⟩ := Step.after_answer hrest
    cases hanswer
    rw [List.append_nil]
    exact .inl ((Linear.ensure _).failsAt_iff.2 hlacks)
  refine .inr ⟨fed, rest, outer, input, rfl, (Linear.ensure _).succeedsAt_iff.2 hwaited, ?_⟩
  rcases Step.after_settle_answer hrest with
    ⟨inside, later, inner, failure', rfl, hfails, hlast⟩ |
    ⟨inside, later, inner, value, rfl, hsucceeds, hlast⟩
  · obtain ⟨rfl, hanswer⟩ := Step.after_answer hlast
    cases hanswer
    rw [List.append_nil]
    exact .inl ⟨inner, hd.failsAt_iff.2 hfails⟩
  · split at hlast
    · obtain ⟨rfl, hanswer⟩ := Step.after_answer hlast
      cases hanswer
    · next hleaves =>
        obtain ⟨rfl, hanswer⟩ := Step.after_answer hlast
        cases hanswer
        rw [List.append_nil]
        exact .inr ⟨inner, value, hd.succeedsAt_iff.2 hsucceeds, hleaves, rfl⟩

end

/-! ## Labels -/

/-- A labelled decoder is the decoder, with the name put in front of the labels of its failures. -/
theorem outcome_label_eq_map {d : Decoder β α} (hd : d.Linear) (name : String) (c : Cursor β) :
    (d.label name).outcome c = (d.outcome c).map (·.label name) := by
  rw [outcome_label hd, Step.map, Step.bind_eq_settle]
  rfl

theorem waits_label_iff {d : Decoder β α} (hd : d.Linear) (name : String) :
    (d.label name).Waits c chunks ↔ d.Waits c chunks := by
  rw [(hd.label name).waits_iff, hd.waits_iff, outcome_label_eq_map hd, Step.waits_map_iff]

theorem succeedsAt_label_iff {d : Decoder β α} (hd : d.Linear) (name : String) {value : α} :
    (d.label name).SucceedsAt c chunks here value ↔ d.SucceedsAt c chunks here value := by
  rw [(hd.label name).succeedsAt_iff, hd.succeedsAt_iff, outcome_label_eq_map hd,
    Step.after_map_answer_iff]
  constructor
  · rintro ⟨ending, hending, hlabel⟩
    cases ending with
    | failed c' failure => cases hlabel
    | reached c' value' =>
        cases hlabel
        exact hending
  · exact fun h => ⟨_, h, rfl⟩

theorem failsAt_label_iff {d : Decoder β α} (hd : d.Linear) (name : String) :
    (d.label name).FailsAt c chunks here failure ↔
      ∃ inner, d.FailsAt c chunks here inner ∧ failure = inner.under name := by
  rw [(hd.label name).failsAt_iff, outcome_label_eq_map hd, Step.after_map_answer_iff]
  constructor
  · rintro ⟨ending, hending, hlabel⟩
    cases ending with
    | failed c' inner =>
        cases hlabel
        exact ⟨inner, hd.failsAt_iff.2 hending, rfl⟩
    | reached c' value => cases hlabel
  · rintro ⟨inner, hinner, rfl⟩
    exact ⟨_, hd.failsAt_iff.1 hinner, rfl⟩

/-! ## Loops -/

/-- At most `count` elements are decoded one after the other, and one of them fails where those before
    it have succeeded. -/
inductive FailsAmong (element : Decoder β α) :
    Nat → Cursor β → List β → Cursor β → Failure → Prop where
  | now {n : Nat} {c here : Cursor β} {chunks : List β} {failure : Failure}
      (fails : element.FailsAt c chunks here failure) :
      FailsAmong element (n + 1) c chunks here failure
  | later {n : Nat} {c middle here : Cursor β} {fed rest : List β} {value : α} {failure : Failure}
      (succeeds : element.SucceedsAt c fed middle value)
      (fails : FailsAmong element n middle rest here failure) :
      FailsAmong element (n + 1) c (fed ++ rest) here failure

theorem not_failsAmong_zero {element : Decoder β α} :
    ¬ element.FailsAmong 0 c chunks here failure := nofun

theorem failsAmong_succ_iff {element : Decoder β α} {n : Nat} :
    element.FailsAmong (n + 1) c chunks here failure ↔
      element.FailsAt c chunks here failure ∨
        ∃ fed rest middle value, chunks = fed ++ rest ∧ element.SucceedsAt c fed middle value ∧
          element.FailsAmong n middle rest here failure := by
  constructor
  · intro h
    cases h with
    | now fails => exact .inl fails
    | later succeeds fails => exact .inr ⟨_, _, _, _, rfl, succeeds, fails⟩
  · rintro (fails | ⟨fed, rest, middle, value, rfl, succeeds, fails⟩)
    · exact .now fails
    · exact .later succeeds fails

/-- A counted repetition fails where one of its elements does. -/
theorem failsAt_fold_iff {element : Decoder β α} (he : element.Linear) {count : Nat} {init : γ}
    {push : γ → α → γ} :
    (fold count element init push).FailsAt c chunks here failure ↔
      element.FailsAmong count c chunks here failure := by
  induction count generalizing init c chunks with
  | zero =>
      refine ⟨fun h => ?_, fun h => (not_failsAmong_zero h).elim⟩
      exact (h.ne_reached rfl).elim
  | succ n ih =>
      have hrest (value : α) : (fold n element (push init value) push).Linear :=
        Linear.fold he n (push init value) push
      rw [fold_succ he, failsAt_bind_iff he hrest, failsAmong_succ_iff]
      simp only [ih]

section

variable [Buffer β] {element : Decoder β α}

/-- A count, or one of the elements that it counts, fails. -/
def FailsCounted (element : Decoder β α) (c : Cursor β) (chunks : List β) (here : Cursor β)
    (failure : Failure) : Prop :=
  (word64be.FailsAt c chunks here failure ∧ failure = .outOfInput) ∨
    ∃ fed rest middle count, chunks = fed ++ rest ∧ word64be.SucceedsAt c fed middle count ∧
      element.FailsAmong count.toNat middle rest here failure

/-- Of the loop of `treeOf` a node fails, or it has read too many of them. -/
theorem failsAt_treeLoop (hn : (nodeOf element).Linear) {limit : Nat} {stack : List (OpenNode α)}
    (h : (treeLoop element limit stack).FailsAt c chunks here failure) :
    (nodeOf element).FailsAmong limit c chunks here failure ∨ failure = ⟨.oversizedTree, []⟩ := by
  induction limit generalizing stack c chunks with
  | zero =>
      obtain ⟨-, rfl⟩ := h.of_failed rfl
      exact .inr rfl
  | succ limit ih =>
      rw [treeLoop_succ hn] at h
      rcases (failsAt_bind_iff hn (Linear.treeRest (Linear.treeLoop hn limit) stack)).1 h with
        hnode | ⟨fed, rest, middle, node, rfl, hsucceeds, hfails⟩
      · exact .inl (.now hnode)
      · unfold treeRest at hfails
        split at hfails
        · exact (hfails.ne_reached rfl).elim
        · exact (ih hfails).imp_left (.later hsucceeds)

theorem FailsAt.eq_outOfInput_of_demandInput
    (h : (demandInput : Decoder β Unit).FailsAt c chunks here failure) : failure = .outOfInput := by
  rw [Linear.demandInput.failsAt_iff] at h
  exact (demandInput_failsOnly (P := fun f => f = .outOfInput) rfl c []).after h

/-- Once the bytes are there, they are taken. -/
theorem FailsAt.of_getBytes {n : Nat} (h : (getBytes n : Decoder β β).FailsAt c chunks here failure) :
    (ensure n : Decoder β β).FailsAt c chunks here failure := by
  have hrest (input : β) : ((putInput (Buffer.drop input n)).map
      fun _ => Buffer.take input n).Linear := fun _ _ _ _ => rfl
  rcases (failsAt_bind_iff (Linear.ensure n) hrest).1 h with
    hlacks | ⟨fed, rest, middle, input, rfl, -, hnext⟩
  · exact hlacks
  · exact (hnext.ne_reached rfl).elim

variable [LawfulBuffer β]

theorem FailsAt.eq_outOfInput_of_ensure {n : Nat}
    (h : (ensure n : Decoder β β).FailsAt c chunks here failure) : failure = .outOfInput := by
  rw [(Linear.ensure n).failsAt_iff] at h
  exact (ensure_failsOnly (P := fun f => f = .outOfInput) rfl n c []).after h

/-- A collection fails with its count, or with one of its elements. -/
theorem failsAt_counted_iff (he : element.Linear) {init : γ} {push : γ → α → γ} :
    (counted element init push).FailsAt c chunks here failure ↔
      element.FailsCounted c chunks here failure := by
  have hlack (h : (word64be : Decoder β UInt64).FailsAt c chunks here failure) :
      failure = .outOfInput :=
    ((failsAt_map_iff (Linear.getBytes 8) _).1 h).of_getBytes.eq_outOfInput_of_ensure
  have hfold (count : UInt64) : (fold count.toNat element init push).Linear :=
    Linear.fold he count.toNat init push
  refine (failsAt_bind_iff Linear.word64be hfold).trans ?_
  simp only [failsAt_fold_iff he]
  exact or_congr_left ⟨fun h => ⟨h, hlack h⟩, fun h => h.1⟩

end

end Decoder

end StreamDecode
