import StreamDecode.Proofs.Arrival
import StreamDecode.Proofs.Composed

set_option autoImplicit false

/-! # Composed decoders keep track of their input

`Composed.tracks` is the invariant of all runs. A composed decoder suspends only while more input
may arrive, and wherever it ends, the record and the mode are what the chunks that arrived have made
of those at its start. So a chunk is recorded once and by the point that is active when it arrives,
and once the input has ended no run suspends again: in complete mode a run is over at once
(`Tracks.eq_answer`), whatever choices, windows and loops it goes through. -/

namespace StreamDecode

variable {β α γ : Type} [Buffer β]

/-- The cursor where a decoder ended. -/
def Ending.cursor {β α : Type} : Ending β α → Cursor β
  | failed cursor _ => cursor
  | reached cursor _ => cursor

/-- The run, started at `start` and fed some chunks already, suspends only in incomplete mode and
    ends where the record and the mode are as the chunks have left them. -/
def Step.Tracks (start : Cursor β) (step : Step β (Ending β α)) (fed : List β) : Prop :=
  step.Obeys (fun fed => (start.arriveAll fed).mode = .incomplete)
    (fun fed ending => ending.cursor.Agrees (start.arriveAll fed)) fed

/-- Every run of the decoder keeps track of its input. -/
def Decoder.Tracks (d : Decoder β α) : Prop := ∀ start, (d.outcome start).Tracks start []

namespace Step.Tracks

variable {start : Cursor β} {step : Step β (Ending β α)} {fed : List β}

/-- Going on from the endings of a run that was started at a point with the same mode. -/
theorem settle {start' : Cursor β} {onFailure : OnFailure β (Ending β γ)}
    {onSuccess : OnSuccess β α (Ending β γ)} (h : step.Tracks start fed)
    (hmode : start.mode = start'.mode)
    (hf : ∀ fed c failure, c.Agrees (start.arriveAll fed) →
      (onFailure c failure).Tracks start' fed)
    (hs : ∀ fed c value, c.Agrees (start.arriveAll fed) → (onSuccess c value).Tracks start' fed) :
    (step.settle onFailure onSuccess).Tracks start' fed := by
  refine h.bind (fun fed hw => ?_) (fun fed ending he => ?_)
  · rw [← Cursor.arriveAll_mode hmode]
    exact hw
  · cases ending with
    | failed c failure => exact hf fed c failure he
    | reached c value => exact hs fed c value he

/-- A run in complete mode is over at once. -/
theorem eq_answer (h : step.Tracks start []) (hmode : start.mode = .complete) :
    ∃ ending, step = .answer ending ∧ ending.cursor.Agrees start := by
  cases step with
  | answer ending => exact ⟨ending, rfl, h⟩
  | await resume =>
      have hwaits : start.mode = .incomplete := h.1
      rw [hmode] at hwaits
      cases hwaits
  | adrift => exact h.elim

/-- Having been fed some chunks, the run is in the mode from its start, or in complete mode if one
    of them was empty. -/
theorem mode_after {later : Step β (Ending β α)} {chunks : List β} (h : step.Tracks start fed)
    (hafter : step.after chunks = some later) :
    (start.arriveAll (fed ++ chunks)).mode =
      if chunks.any Buffer.isEmpty then .complete else (start.arriveAll fed).mode := by
  induction chunks generalizing step fed with
  | nil =>
      rw [List.append_nil]
      rfl
  | cons chunk chunks ih =>
      cases step with
      | answer ending => cases hafter
      | await resume =>
          have hnext := ih (h.2 chunk) hafter
          have hwaits : (start.arriveAll fed).mode = .incomplete := h.1
          rw [List.append_assoc, List.singleton_append, Cursor.arriveAll_append start fed [chunk],
            Cursor.arriveAll_cons, Cursor.arriveAll_nil, Cursor.arrive_mode] at hnext
          rw [hnext, hwaits, List.any_cons]
          -- after an empty chunk nothing is asked for, so both sides are `complete` from then on
          cases Buffer.isEmpty chunk <;> simp
      | adrift => cases hafter

end Step.Tracks

/-- A run that goes on where an earlier part has left the record and the mode in order. -/
theorem Decoder.Tracks.onward {d : Decoder β α} (h : d.Tracks) {start c : Cursor β} {fed : List β}
    (hc : c.Agrees (start.arriveAll fed)) : (d.outcome c).Tracks start fed := by
  -- what arrives during this run arrives after `fed`, seen from `start`
  have hshift : (d.outcome c).Tracks start (fed ++ []) := by
    refine Step.Obeys.shift ((h c).mono (fun more hw => ?_) (fun more ending he => ?_))
    · rw [Cursor.arriveAll_append, ← (hc.arriveAll more).mode]
      exact hw
    · rw [Cursor.arriveAll_append]
      exact he.trans (hc.arriveAll more)
  rwa [List.append_nil] at hshift

/-! ## Asking for input -/

theorem Decoder.demandInput_tracks : (demandInput : Decoder β Unit).Tracks := by
  intro start
  cases hmode : start.mode with
  | complete =>
      rw [outcome_demandInput_complete hmode]
      exact .refl start
  | incomplete =>
      rw [outcome_demandInput_incomplete hmode]
      refine ⟨hmode, fun chunk => ?_⟩
      dsimp only
      by_cases hempty : Buffer.isEmpty chunk = true
      · rw [if_pos hempty]
        show start.finish.Agrees (start.arrive chunk)
        rw [Cursor.arrive_of_isEmpty hempty]
        exact .refl _
      · rw [if_neg hempty]
        show (start.receive chunk).Agrees (start.arrive chunk)
        rw [Cursor.arrive_of_not_isEmpty hempty]
        exact .refl _

/-- The run of a demand ends with all that has arrived in the buffer: with the buffer as value, or
    for lack of input. -/
def Step.Gathers [LawfulBuffer β] (start : Cursor β) (step : Step β (Ending β β)) (fed : List β) :
    Prop :=
  step.Obeys (fun fed => (start.arriveAll fed).mode = .incomplete)
    (fun fed ending => ending.cursor.Agrees (start.arriveAll fed) ∧
      Buffer.toBytes ending.cursor.input = Buffer.toBytes (start.arriveAll fed).input ∧
      match ending with
      | .failed _ failure => failure = .outOfInput
      | .reached c value => value = c.input) fed

namespace Decoder

variable [LawfulBuffer β]

theorem gathering_gathers {start c : Cursor β} {fed gathered : List β} (missing : Nat)
    (hrecord : c.record = (start.arriveAll fed).record)
    (hmode : (start.arriveAll fed).mode = .incomplete)
    (hbytes : gathered.reverse.flatMap Buffer.toBytes =
      Buffer.toBytes (start.arriveAll fed).input) :
    (gathering c gathered missing).Gathers start fed := by
  induction missing using Nat.strongRecOn generalizing c fed gathered with
  | _ missing ih =>
      rw [gathering, gather_eq_await]
      refine ⟨hmode, fun chunk => ?_⟩
      dsimp only
      have harrive : start.arriveAll (fed ++ [chunk]) = (start.arriveAll fed).arrive chunk := by
        rw [Cursor.arriveAll_append]
        rfl
      by_cases hempty : Buffer.isEmpty chunk = true
      · -- the empty chunk: the input has ended, and what was gathered is joined
        rw [if_pos ((Buffer.isEmpty_iff chunk).1 hempty)]
        have hfinish : start.arriveAll (fed ++ [chunk]) = (start.arriveAll fed).finish := by
          rw [harrive, Cursor.arrive_of_isEmpty hempty]
        refine ⟨⟨?_, ?_⟩, ?_, rfl⟩
        · rw [hfinish]
          exact hrecord
        · rw [hfinish]
          rfl
        · rw [hfinish]
          exact (Buffer.toBytes_join _ _).trans hbytes
      · have hsize : ¬ Buffer.size chunk = 0 := fun h => hempty ((Buffer.isEmpty_iff chunk).2 h)
        rw [if_neg hsize]
        have hreceive : start.arriveAll (fed ++ [chunk]) = (start.arriveAll fed).receive chunk := by
          rw [harrive, Cursor.arrive_of_not_isEmpty hempty]
        have hrecord' : c.record.push chunk = (start.arriveAll (fed ++ [chunk])).record := by
          rw [hreceive, hrecord]
          rfl
        have hmode' : (start.arriveAll (fed ++ [chunk])).mode = .incomplete := by
          rw [hreceive]
          rfl
        have hbytes' : (chunk :: gathered).reverse.flatMap Buffer.toBytes =
            Buffer.toBytes (start.arriveAll (fed ++ [chunk])).input := by
          rw [harrive, Cursor.toBytes_arrive, List.reverse_cons, List.flatMap_append, hbytes,
            List.flatMap_singleton]
        by_cases henough : missing ≤ Buffer.size chunk
        · rw [if_pos henough]
          exact ⟨⟨hrecord', hmode'.symm⟩, (Buffer.toBytes_join _ _).trans hbytes', rfl⟩
        · rw [if_neg henough]
          exact ih _ (by omega) hrecord' hmode' hbytes'

theorem ensure_gathers (n : Nat) (start : Cursor β) :
    ((ensure n).outcome start).Gathers start [] := by
  by_cases hn : Buffer.hasAtLeast start.input n = true
  · rw [outcome_ensure_enough hn]
    exact ⟨.refl start, rfl, rfl⟩
  · cases hmode : start.mode with
    | complete =>
        rw [outcome_ensure_complete hn hmode]
        exact ⟨.refl start, rfl, rfl⟩
    | incomplete =>
        rw [outcome_ensure_incomplete hn hmode]
        exact gathering_gathers _ rfl hmode (List.flatMap_singleton ..)

theorem ensure_tracks (n : Nat) : (ensure n : Decoder β β).Tracks := fun start =>
  (ensure_gathers n start).mono (fun _ hw => hw) (fun _ _ he => he.1)

/-! ## Windows -/

omit [LawfulBuffer β] in
/-- A decoder in a window is through at once: it fails, or it leaves what follows the window, and in
    both cases with the record and the mode from outside. -/
theorem inWindow_eq_answer {d : Decoder β α} (hd : d.Tracks) (n : Nat) (outer : Cursor β)
    (input : β) :
    ∃ ending, inWindow n d outer input = .answer ending ∧ ending.cursor.Agrees outer ∧
      ∀ c value, ending = .reached c value → c.input = Buffer.drop input n := by
  obtain ⟨ending, hanswer, hagrees⟩ := (hd _).eq_answer
    (show { outer with input := Buffer.take input n, mode := .complete : Cursor β }.mode = .complete
      from rfl)
  rw [inWindow, hanswer]
  cases ending with
  | failed inner failure =>
      refine ⟨_, rfl, ⟨hagrees.record, rfl⟩, fun c value h => ?_⟩
      cases h
  | reached inner value =>
      show ∃ ending, (if Buffer.isEmpty inner.input then Step.answer _ else Step.answer _) = _ ∧ _
      split
      · refine ⟨_, rfl, ⟨hagrees.record, rfl⟩, fun c value h => ?_⟩
        cases h
        rfl
      · refine ⟨_, rfl, ⟨hagrees.record, rfl⟩, fun c value h => ?_⟩
        cases h

theorem isolate_tracks {d : Decoder β α} (hl : d.Linear) (hd : d.Tracks) (n : Int) :
    (isolate n d).Tracks := by
  intro start
  rw [outcome_isolate hl]
  split
  · exact .refl start
  · refine (ensure_tracks n.toNat start).settle rfl (fun _ _ _ hc => hc) (fun fed c input hc => ?_)
    obtain ⟨ending, hanswer, hagrees, _⟩ := inWindow_eq_answer hd n.toNat c input
    rw [hanswer]
    exact hagrees.trans hc

end Decoder

/-! ## All composed decoders -/

variable [LawfulBuffer β]

/-- Composed decoders keep track of their input. -/
theorem Composed.tracks {access : Access} {d : Decoder β α} (h : Composed access d) :
    d.Tracks := by
  induction h with
  | pure value => exact fun start => .refl start
  | failFor plain => exact fun start => .refl start
  | bind hd hn ihd ihn =>
      intro start
      rw [Decoder.outcome_bind hd.linear]
      exact (ihd start).settle rfl (fun _ _ _ hc => hc) (fun _ _ value hc => (ihn value).onward hc)
  | label name hd ihd =>
      intro start
      rw [Decoder.outcome_label hd.linear]
      exact (ihd start).settle rfl (fun _ _ _ hc => hc) (fun _ _ _ hc => hc)
  | orElse hf hs ihf ihs =>
      intro start
      rw [Decoder.outcome_orElse hf.linear]
      -- the first decoder records from the choice on; both ways out merge that into the outer record
      exact (ihf start.enter).settle rfl
        (fun _ _ _ hc => ihs.onward (Cursor.rewind_agrees hc))
        (fun _ _ _ hc => Cursor.leave_agrees hc)
  | lookAheadIf rewinds hd ihd =>
      intro start
      rw [Decoder.outcome_lookAheadIf hd.linear]
      refine (ihd start.enter).settle rfl (fun _ _ _ hc => Cursor.rewind_agrees hc)
        (fun fed c value hc => ?_)
      cases rewinds value with
      | true => exact Cursor.rewind_agrees hc
      | false => exact Cursor.leave_agrees hc
  | isolate n hd ihd => exact Decoder.isolate_tracks hd.linear ihd n
  | getBytes n =>
      intro start
      rw [Decoder.outcome_getBytes]
      exact (Decoder.ensure_tracks n start).settle rfl (fun _ _ _ hc => hc)
        (fun _ _ _ hc => ⟨hc.record, hc.mode⟩)
  | allocate grows => exact fun start => ⟨rfl, rfl⟩
  | getInput looks => exact fun start => .refl start
  | demandInput looks => exact Decoder.demandInput_tracks
  | ensure looks n => exact Decoder.ensure_tracks n
  | uncheckedSkip looks n => exact fun start => ⟨rfl, rfl⟩
  | putInput rewrites input => exact fun start => ⟨rfl, rfl⟩

end StreamDecode
