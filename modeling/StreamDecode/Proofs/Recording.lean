import StreamDecode.Proofs.Progress

set_option autoImplicit false

/-! # What was recorded before does not matter

A decoder adds to the record and never looks at it. So run inside a rewind point it does what it
does outside, and leaving the point turns the one into the other (`Composed.outcome_enter`). Every
combinator that opens a rewind point owes it to this that its body behaves there as it does alone,
and that points can be nested. -/

namespace StreamDecode

variable {β α γ : Type}

/-- Leave the rewind point that was entered at `entry`, wherever the decoder has ended. -/
def Ending.leave (entry : Cursor β) : Ending β α → Ending β α
  | failed inner failure => failed (entry.leave inner) failure
  | reached inner value => reached (entry.leave inner) value

theorem Ending.leave_eq_failed {entry ended : Cursor β} {failure : Failure} {ending : Ending β α}
    (h : ending.leave entry = .failed ended failure) :
    ∃ inner, ending = .failed inner failure ∧ ended = entry.leave inner := by
  cases ending with
  | failed inner failure' =>
      cases h
      exact ⟨inner, rfl, rfl⟩
  | reached inner value => cases h

theorem Ending.leave_eq_reached {entry ended : Cursor β} {value : α} {ending : Ending β α}
    (h : ending.leave entry = .reached ended value) :
    ∃ inner, ending = .reached inner value ∧ ended = entry.leave inner := by
  cases ending with
  | failed inner failure => cases h
  | reached inner value' =>
      cases h
      exact ⟨inner, rfl, rfl⟩

theorem Step.settle_map_leave {ρ : Type} (step : Step β (Ending β α)) (entry : Cursor β)
    (onFailure : OnFailure β ρ) (onSuccess : OnSuccess β α ρ) :
    (step.map (·.leave entry)).settle onFailure onSuccess =
      step.settle (fun inner failure => onFailure (entry.leave inner) failure)
        (fun inner value => onSuccess (entry.leave inner) value) := by
  rw [settle, bind_map, bind_eq_settle]
  rfl

theorem Step.map_settle {ρ σ : Type} (step : Step β (Ending β α)) (f : ρ → σ)
    (onFailure : OnFailure β ρ) (onSuccess : OnSuccess β α ρ) :
    (step.settle onFailure onSuccess).map f =
      step.settle (fun c failure => (onFailure c failure).map f)
        (fun c value => (onSuccess c value).map f) :=
  bind_settle step onFailure onSuccess _

/-! ## Leaving rewind points one after the other -/

namespace Cursor

theorem leave_enter (c : Cursor β) : c.leave c.enter = c := by
  show { c with record := c.record.merge (some []) } = c
  rw [Record.merge_empty]

/-- Of two nested rewind points, the inner one may be left first. -/
theorem leave_leave (c d inner : Cursor β) (hd : d.record.isSome) :
    c.leave (d.leave inner) = (c.leave d).leave inner := by
  obtain ⟨middle, hmiddle⟩ := Option.isSome_iff_exists.1 hd
  show { inner with record := c.record.merge (d.record.merge inner.record) } =
    ({ inner with record := (c.record.merge d.record).merge inner.record } : Cursor β)
  rw [hmiddle, Record.merge_merge]

theorem leave_push (c d : Cursor β) (chunk : β) (hd : d.record.isSome) :
    (c.leave d).record.push chunk = c.record.merge (d.record.push chunk) := by
  obtain ⟨recorded, hrecorded⟩ := Option.isSome_iff_exists.1 hd
  show (c.record.merge d.record).push chunk = _
  rw [hrecorded]
  cases c.record <;> rfl

variable [Buffer β]

theorem leave_receive (c d : Cursor β) (chunk : β) (hd : d.record.isSome) :
    c.leave (d.receive chunk) = (c.leave d).receive chunk := by
  show { d.receive chunk with record := c.record.merge (d.record.push chunk) } =
    ({ d.receive chunk with record := (c.leave d).record.push chunk } : Cursor β)
  rw [leave_push c d chunk hd]

/-- Rewinding to an inner point and leaving an outer one, or rewinding past both. -/
theorem leave_rewind (c d inner : Cursor β) (hd : d.record.isSome) :
    c.leave (d.rewind inner) = (c.leave d).rewind inner := by
  show { d.rewind inner with record := (c.leave (d.leave inner)).record } =
    ({ d.rewind inner with record := ((c.leave d).leave inner).record } : Cursor β)
  rw [leave_leave c d inner hd]

/-- A rewind point stays one, whatever arrives. -/
theorem isSome_record {c d : Cursor β} {chunks : List β} (h : d.Agrees (c.arriveAll chunks))
    (hc : c.record.isSome) : d.record.isSome := by
  rw [h.record, arriveAll_record]
  cases hrecord : c.record with
  | none => rw [hrecord] at hc; cases hc
  | some recorded => rfl

end Cursor

variable [Buffer β]

/-- Going on alike wherever a run may end is going on alike. -/
theorem Step.Tracks.settle_congr {ρ : Type} {step : Step β (Ending β α)} {start : Cursor β}
    {fed : List β} {onFailure onFailure' : OnFailure β ρ} {onSuccess onSuccess' : OnSuccess β α ρ}
    (h : step.Tracks start fed) (hrecord : start.record.isSome)
    (hf : ∀ c failure, c.record.isSome → onFailure c failure = onFailure' c failure)
    (hs : ∀ c value, c.record.isSome → onSuccess c value = onSuccess' c value) :
    step.settle onFailure onSuccess = step.settle onFailure' onSuccess' := by
  refine h.bind_congr fun fed ending he => ?_
  have hsome : ending.cursor.record.isSome := Cursor.isSome_record he hrecord
  cases ending with
  | failed c failure => exact hf c failure hsome
  | reached c value => exact hs c value hsome

/-! ## Decoders that add to the record and do not look at it -/

/-- Leaving a rewind point after the decoder is leaving it before. -/
def Decoder.Oblivious (d : Decoder β α) : Prop :=
  ∀ entry inner : Cursor β, inner.record.isSome →
    d.outcome (entry.leave inner) = (d.outcome inner).map (·.leave entry)

namespace Decoder

theorem demandInput_oblivious : (demandInput : Decoder β Unit).Oblivious := by
  intro entry inner hrecord
  cases hmode : inner.mode with
  | complete =>
      have hmode' : (entry.leave inner).mode = .complete := hmode
      rw [outcome_demandInput_complete hmode, outcome_demandInput_complete hmode']
      rfl
  | incomplete =>
      have hmode' : (entry.leave inner).mode = .incomplete := hmode
      rw [outcome_demandInput_incomplete hmode, outcome_demandInput_incomplete hmode', Step.map,
        Step.bind_await]
      refine Step.await_congr fun chunk => ?_
      split
      · rfl
      · rw [← Cursor.leave_receive entry inner chunk hrecord]
        rfl

theorem gathering_leave (entry inner : Cursor β) (gathered : List β) (missing : Nat)
    (hrecord : inner.record.isSome) :
    gathering (entry.leave inner) gathered missing =
      (gathering inner gathered missing).map (Ending.leave entry) := by
  induction missing using Nat.strongRecOn generalizing inner gathered with
  | _ missing ih =>
      rw [gathering, gather_eq_await, gathering, gather_eq_await, Step.map, Step.bind_await]
      refine Step.await_congr fun chunk => ?_
      rw [Cursor.leave_push entry inner chunk hrecord]
      split
      · rfl
      · split
        · rfl
        · refine ih _ (by omega) { inner with record := inner.record.push chunk } _ ?_
          rw [Record.push, Option.isSome_map]
          exact hrecord

theorem ensure_oblivious (n : Nat) : (ensure n : Decoder β β).Oblivious := by
  intro entry inner hrecord
  by_cases hn : Buffer.hasAtLeast inner.input n = true
  · have hn' : Buffer.hasAtLeast (entry.leave inner).input n = true := hn
    rw [outcome_ensure_enough hn, outcome_ensure_enough hn']
    rfl
  · have hn' : ¬ Buffer.hasAtLeast (entry.leave inner).input n = true := hn
    cases hmode : inner.mode with
    | complete =>
        have hmode' : (entry.leave inner).mode = .complete := hmode
        rw [outcome_ensure_complete hn hmode, outcome_ensure_complete hn' hmode']
        rfl
    | incomplete =>
        have hmode' : (entry.leave inner).mode = .incomplete := hmode
        rw [outcome_ensure_incomplete hn hmode, outcome_ensure_incomplete hn' hmode']
        exact gathering_leave entry inner _ _ hrecord

theorem inWindow_leave {d : Decoder β α} (hd : d.Oblivious) (n : Nat) (entry outer : Cursor β)
    (input : β) (hrecord : outer.record.isSome) :
    inWindow n d (entry.leave outer) input = (inWindow n d outer input).map (·.leave entry) := by
  have hinner : d.outcome
        { entry.leave outer with input := Buffer.take input n, mode := .complete } =
      (d.outcome { outer with input := Buffer.take input n, mode := .complete }).map
        (·.leave entry) :=
    hd entry { outer with input := Buffer.take input n, mode := .complete } hrecord
  rw [inWindow, hinner, Step.settle_map_leave, inWindow, Step.map_settle]
  refine Step.settle_congr _ (fun _ _ => rfl) (fun inner value => ?_)
  show (if Buffer.isEmpty inner.input then _ else _) = _
  split <;> rfl

end Decoder

/-- Composed decoders add to the record and do not look at it. -/
theorem Composed.oblivious {access : Access} {d : Decoder β α} (h : Composed access d)
    [LawfulBuffer β] : d.Oblivious := by
  induction h with
  | pure value => exact fun _ _ _ => rfl
  | failFor plain => exact fun _ _ _ => rfl
  | bind hd hn ihd ihn =>
      intro entry inner hrecord
      rw [Decoder.outcome_bind hd.linear, ihd entry inner hrecord, Step.settle_map_leave,
        Decoder.outcome_bind hd.linear, Step.map_settle]
      exact (hd.tracks inner).settle_congr hrecord (fun _ _ _ => rfl)
        (fun c value hc => ihn value entry c hc)
  | label name hd ihd =>
      intro entry inner hrecord
      rw [Decoder.outcome_label hd.linear, ihd entry inner hrecord, Step.settle_map_leave,
        Decoder.outcome_label hd.linear, Step.map_settle]
      rfl
  | orElse hf hs ihf ihs =>
      intro entry inner hrecord
      -- both runs of the first decoder start with an empty record: they are the same run
      have henter : (entry.leave inner).enter = inner.enter := rfl
      rw [Decoder.outcome_orElse hf.linear, henter, Decoder.outcome_orElse hf.linear,
        Step.map_settle]
      refine (hf.tracks inner.enter).settle_congr rfl (fun failed failure hfailed => ?_)
        (fun after value hafter => ?_)
      · -- the second decoder runs inside the outer point, which may be left before or after it
        rw [← Cursor.leave_rewind entry inner failed hrecord]
        exact ihs entry (inner.rewind failed) (Option.isSome_map.trans hrecord)
      · rw [← Cursor.leave_leave entry inner after hrecord]
        rfl
  | lookAheadIf rewinds hd ihd =>
      intro entry inner hrecord
      have henter : (entry.leave inner).enter = inner.enter := rfl
      rw [Decoder.outcome_lookAheadIf hd.linear, henter, Decoder.outcome_lookAheadIf hd.linear,
        Step.map_settle]
      refine (hd.tracks inner.enter).settle_congr rfl (fun failed failure hfailed => ?_)
        (fun after value hafter => ?_)
      · rw [← Cursor.leave_rewind entry inner failed hrecord]
        rfl
      · rw [← Cursor.leave_rewind entry inner after hrecord,
          ← Cursor.leave_leave entry inner after hrecord]
        cases rewinds value <;> rfl
  | isolate n hd ihd =>
      intro entry inner hrecord
      rw [Decoder.outcome_isolate hd.linear, Decoder.outcome_isolate hd.linear]
      split
      · rfl
      · rw [Decoder.ensure_oblivious n.toNat entry inner hrecord, Step.settle_map_leave,
          Step.map_settle]
        exact (Decoder.ensure_tracks n.toNat inner).settle_congr hrecord (fun _ _ _ => rfl)
          (fun outer input ho => Decoder.inWindow_leave ihd n.toNat entry outer input ho)
  | getBytes n =>
      intro entry inner hrecord
      rw [Decoder.outcome_getBytes, Decoder.outcome_getBytes,
        Decoder.ensure_oblivious n entry inner hrecord, Step.settle_map_leave, Step.map_settle]
      rfl
  | allocate grows => exact fun _ _ _ => rfl
  | getInput looks => exact fun _ _ _ => rfl
  | demandInput looks => exact Decoder.demandInput_oblivious
  | ensure looks n => exact Decoder.ensure_oblivious n
  | uncheckedSkip looks n => exact fun _ _ _ => rfl
  | putInput rewrites input => exact fun _ _ _ => rfl

/-- A decoder run alone does what it does inside a rewind point that is left where it ends. -/
theorem Composed.outcome_enter [LawfulBuffer β] {access : Access} {d : Decoder β α}
    (h : Composed access d) (c : Cursor β) :
    d.outcome c = (d.outcome c.enter).map (·.leave c) := by
  have hleave := h.oblivious c c.enter rfl
  rwa [Cursor.leave_enter] at hleave

end StreamDecode
