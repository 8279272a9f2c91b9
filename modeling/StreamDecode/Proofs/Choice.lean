import StreamDecode.Proofs.Recording

set_option autoImplicit false

/-! # Choice rewinds exactly, and then commits

While the first decoder of a choice is suspended, so is the choice. Where the first one succeeds the
choice has succeeded, and what follows is the same for every second decoder: it is never run any
more. Where the first one fails, the second is run on the buffer from the entry, followed by all
that has arrived; nothing else of the first is left.

On both ways out the records of the rewind points around the choice hold what has arrived, so each
of them can still be rewound to. -/

namespace StreamDecode

variable {β α : Type}

/-! ## Rewind points around a cursor -/

namespace Cursor

/-- The same buffer in the same mode, with no rewind point around it. -/
def alone (c : Cursor β) : Cursor β := { c with record := none }

/-- Leave rewind points one after the other, given the cursors where they were entered, the
    innermost one first. -/
def leaveAll (c : Cursor β) (entries : List (Cursor β)) : Cursor β :=
  entries.foldl (fun c entry => entry.leave c) c

/-- The record at `c` with the chunks that have arrived since, the empty one left out. -/
def received [Buffer β] (c : Cursor β) (chunks : List β) : Record β :=
  c.record.merge (some (chunks.filter (!Buffer.isEmpty ·)).reverse)

/-- Every rewind point around `c` can still be rewound to from `here`. `inner` are the points inside
    of it, and `recorded` is what it had received at `c`, newest first: what it has received at
    `here` is that, followed by the chunks. -/
def Restores [Buffer β] (c here : Cursor β) (chunks : List β) : Prop :=
  ∀ (entry : Cursor β) (inner : List (Cursor β)) (recorded : List β),
    (∀ point ∈ c :: inner, point.record.isSome) → (c.leaveAll inner).record = some recorded →
    Buffer.toBytes (entry.rewind (here.leaveAll inner)).input =
      Buffer.toBytes entry.input ++ (recorded.reverse ++ chunks).flatMap Buffer.toBytes

/-- What was received last is received last as well seen from outside. -/
theorem leaveAll_record {c here : Cursor β} {received : List β}
    (hhere : here.record = c.record.merge (some received)) (inner : List (Cursor β))
    (hpoints : ∀ point ∈ c :: inner, point.record.isSome) :
    (here.leaveAll inner).record = (c.leaveAll inner).record.merge (some received) := by
  induction inner generalizing c here with
  | nil => exact hhere
  | cons entry inner ih =>
      have hc : c.record.isSome := hpoints c List.mem_cons_self
      obtain ⟨recorded, hrecorded⟩ := Option.isSome_iff_exists.1 hc
      have hentry : entry.record.isSome := hpoints entry (by simp)
      refine ih ?_ ?_
      · show entry.record.merge here.record = (entry.record.merge c.record).merge (some received)
        rw [hhere, hrecorded, Record.merge_merge]
      · intro point hpoint
        rcases List.mem_cons.1 hpoint with rfl | hinner
        · exact (Option.isSome_map).trans hentry
        · exact hpoints point (by simp [hinner])

variable [Buffer β]

theorem Agrees.record_eq_received {c here : Cursor β} {chunks : List β}
    (h : here.Agrees (c.arriveAll chunks)) : here.record = c.received chunks := by
  rw [h.record, arriveAll_record]
  rfl

variable [LawfulBuffer β]

/-- Where the record is that of `c` and what has arrived since, everything can be restored. -/
theorem Agrees.restores {c here : Cursor β} {chunks : List β}
    (h : here.Agrees (c.arriveAll chunks)) : c.Restores here chunks := by
  intro entry inner recorded hpoints hrecorded
  have hall := leaveAll_record h.record_eq_received inner hpoints
  rw [hrecorded] at hall
  have hchunks : (here.leaveAll inner).record.chunks =
      recorded.reverse ++ chunks.filter (!Buffer.isEmpty ·) := by
    rw [hall]
    show ((chunks.filter (!Buffer.isEmpty ·)).reverse ++ recorded).reverse = _
    rw [List.reverse_append, List.reverse_reverse]
  rw [toBytes_rewind, hchunks, List.flatMap_append, List.flatMap_append,
    Buffer.flatMap_toBytes_filter]

end Cursor

/-! ## The two ways out of a choice -/

variable [Buffer β] [LawfulBuffer β] {access : Access} {first : Decoder β α}

/-- A run goes through the same suspensions as one inside a rewind point of its own. -/
theorem Composed.after_enter (h : Composed access first) {c : Cursor β} {chunks : List β}
    {later : Step β (Ending β α)} (hlater : (first.outcome c).after chunks = some later) :
    ∃ inside, (first.outcome c.enter).after chunks = some inside ∧
      later = inside.map (·.leave c) ∧ inside.Tracks c.enter chunks := by
  rw [h.outcome_enter c, Step.after_map, Option.map_eq_some_iff] at hlater
  obtain ⟨inside, hinside, hmap⟩ := hlater
  exact ⟨inside, hinside, hmap.symm, (h.tracks c.enter).after hinside⟩

/-- A run alone goes through the same suspensions as one inside a rewind point. -/
theorem Composed.after_alone (h : Composed access first) {c : Cursor β} {chunks : List β}
    {later : Step β (Ending β α)} (hlater : (first.outcome c.alone).after chunks = some later) :
    ∃ inside, (first.outcome c.enter).after chunks = some inside ∧
      later = inside.map (·.leave c.alone) ∧ inside.Tracks c.enter chunks :=
  h.after_enter hlater

omit [LawfulBuffer β] in
/-- While the first decoder goes on, the choice is its run, to be continued on one of two ways. -/
theorem Composed.orElse_after (h : Composed access first) {c : Cursor β} {chunks : List β}
    {inside : Step β (Ending β α)} (hinside : (first.outcome c.enter).after chunks = some inside)
    (second : Decoder β α) {ρ : Type} (onFailure : OnFailure β ρ) (onSuccess : OnSuccess β α ρ) :
    ((first.orElse second).exec c onFailure onSuccess).after chunks =
      some (inside.settle (fun failed _ => second.exec (c.rewind failed) onFailure onSuccess)
        (fun after value => onSuccess (c.leave after) value)) := by
  have hexec : (first.orElse second).exec c onFailure onSuccess = (first.outcome c.enter).settle
      (fun failed _ => second.exec (c.rewind failed) onFailure onSuccess)
      (fun after value => onSuccess (c.leave after) value) :=
    h.linear _ c.enter _ _
  rw [hexec]
  exact Step.after_bind hinside _

/-- Choice rewinds exactly, and then commits. -/
theorem Composed.orElse_rewinds_or_commits (h : Composed access first) (c : Cursor β)
    (chunks : List β) :
    -- while the first decoder waits for a chunk, the choice does
    (∀ resume, (first.outcome c.alone).after chunks = some (.await resume) →
      ∀ (second : Decoder β α) (ρ : Type) (onFailure : OnFailure β ρ) (onSuccess : OnSuccess β α ρ),
        ∃ resume', ((first.orElse second).exec c onFailure onSuccess).after chunks =
          some (.await resume')) ∧
    -- where it succeeds, what is left of the run is what follows the choice
    (∀ ended value, (first.outcome c.alone).after chunks = some (.answer (.reached ended value)) →
      ∃ here : Cursor β, here.alone = ended ∧ here.record = c.received chunks ∧
        c.Restores here chunks ∧
        ∀ (second : Decoder β α) (ρ : Type) (onFailure : OnFailure β ρ)
          (onSuccess : OnSuccess β α ρ),
          ((first.orElse second).exec c onFailure onSuccess).after chunks =
            some (onSuccess here value)) ∧
    -- where it fails, what is left of the run is that of the second decoder
    (∀ ended failure,
      (first.outcome c.alone).after chunks = some (.answer (.failed ended failure)) →
      ∃ restart : Cursor β,
        Buffer.toBytes restart.input =
          Buffer.toBytes c.input ++ chunks.flatMap Buffer.toBytes ∧
        restart.mode = ended.mode ∧
        restart.mode = (if chunks.any Buffer.isEmpty then .complete else c.mode) ∧
        restart.record = c.received chunks ∧ c.Restores restart chunks ∧
        ∀ (second : Decoder β α) (ρ : Type) (onFailure : OnFailure β ρ)
          (onSuccess : OnSuccess β α ρ),
          ((first.orElse second).exec c onFailure onSuccess).after chunks =
            some (second.exec restart onFailure onSuccess)) := by
  refine ⟨fun resume hlater => ?_, fun ended value hlater => ?_, fun ended failure hlater => ?_⟩
  · obtain ⟨inside, hinside, hmap, _⟩ := h.after_alone hlater
    obtain ⟨resume', rfl⟩ := Step.map_eq_await hmap.symm
    intro second ρ onFailure onSuccess
    exact ⟨_, h.orElse_after hinside second onFailure onSuccess⟩
  · obtain ⟨inside, hinside, hmap, htracks⟩ := h.after_alone hlater
    obtain ⟨ending, rfl, hleave⟩ := Step.map_eq_answer hmap.symm
    obtain ⟨inner, rfl, rfl⟩ := Ending.leave_eq_reached hleave
    have hagrees : inner.Agrees (c.enter.arriveAll chunks) := htracks
    have hhere := Cursor.leave_agrees hagrees
    exact ⟨c.leave inner, rfl, hhere.record_eq_received, hhere.restores,
      fun second ρ => h.orElse_after hinside second⟩
  · obtain ⟨inside, hinside, hmap, htracks⟩ := h.after_alone hlater
    obtain ⟨ending, rfl, hleave⟩ := Step.map_eq_answer hmap.symm
    obtain ⟨inner, rfl, rfl⟩ := Ending.leave_eq_failed hleave
    have hagrees : inner.Agrees (c.enter.arriveAll chunks) := htracks
    have hrestart := Cursor.rewind_agrees hagrees
    have hmode := Step.Tracks.mode_after (h.tracks c.enter) hinside
    refine ⟨c.rewind inner, ?_, rfl, hagrees.mode.trans hmode, hrestart.record_eq_received,
      hrestart.restores, fun second ρ => h.orElse_after hinside second⟩
    rw [Cursor.toBytes_rewind_arriveAll hagrees, Cursor.toBytes_arriveAll]

/-- A header without the tag, inside a rewind point that has received another byte before. -/
theorem tagged_rewinds :
    ∃ c restart : Cursor Bytes, c.record = some [[7]] ∧ restart.input = [0xAB, 1] ∧
      restart.mode = .incomplete ∧ c.Restores restart [[0xAB, 1]] ∧
      ((Decoder.tagged.orElse Decoder.word32le).outcome c).after [[0xAB, 1]] =
        some (Decoder.word32le.outcome restart) := by
  let c : Cursor Bytes := ⟨[], some [[7]], .incomplete, 0⟩
  have hfailed : (Decoder.tagged.outcome c.alone).after [[0xAB, 1]] =
      some (.answer (.failed ⟨[1], none, .incomplete, 0⟩ ⟨.raised "untagged", ["header"]⟩)) := by
    cbv
  have htagged : Composed .stream Decoder.tagged := Composed.tagged
  obtain ⟨restart, hinput, hmode, _, _, hrestores, hrun⟩ :=
    (htagged.orElse_rewinds_or_commits c [[0xAB, 1]]).2.2 _ _ hfailed
  exact ⟨c, restart, rfl, hinput, hmode, hrestores, hrun Decoder.word32le _ _ _⟩

end StreamDecode
