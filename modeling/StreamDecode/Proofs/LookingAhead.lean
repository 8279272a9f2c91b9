import StreamDecode.Proofs.Choice
import StreamDecode.Proofs.Endings

set_option autoImplicit false

/-! # Looking ahead rewinds where it should

A decoder that looks ahead runs another one inside a rewind point of its own. It suspends where that
one does and passes on its value or its failure; only the buffer may be another one. Where it rewinds
the buffer is the one from the entry, followed by all that has arrived; where it does not, it stands
where the other decoder left off.

On every way out the records of the rewind points around hold what has arrived, once. So whatever
runs on from there, and whatever arrives until it ends, each of these points can still be rewound to
(`Cursor.KeepsRestoring`). -/

namespace StreamDecode

variable {β α γ : Type} [Buffer β]

/-! ## Rewind points around a run that goes on -/

/-- Whatever composed decoder runs on from `here`, and whatever arrives until it ends, every rewind
    point around `c` can be rewound to where it has ended. The chunks came between `c` and `here`. -/
def Cursor.KeepsRestoring (c here : Cursor β) (chunks : List β) : Prop :=
  ∀ (access : Access) (δ : Type) (next : Decoder β δ), Composed access next →
    ∀ (more : List β) (ending : Ending β δ),
      (next.outcome here).after more = some (.answer ending) →
      c.Restores ending.cursor (chunks ++ more)

theorem Cursor.Agrees.keepsRestoring [LawfulBuffer β] {c here : Cursor β} {chunks : List β}
    (h : here.Agrees (c.arriveAll chunks)) : c.KeepsRestoring here chunks := by
  intro access δ next hnext more ending hending
  have htracks : ending.cursor.Agrees (here.arriveAll more) := (hnext.tracks here).after hending
  have hall : ending.cursor.Agrees (c.arriveAll (chunks ++ more)) := by
    rw [arriveAll_append]
    exact htracks.trans (h.arriveAll more)
  exact hall.restores

/-! ## The ways out -/

namespace Decoder

/-- Run at `c` and fed the chunks, the first decoder looks ahead with the second one: it waits where
    that one waits, and ends where that one ends, with the same value or failure and in the same
    mode. The buffer is that from `c` with all that has arrived after a failure and after a value
    that rewinds, and otherwise the one that the second decoder has left. In all cases the rewind
    points around can be rewound to from then on. -/
structure LooksAhead (ahead d : Decoder β α) (rewinds : α → Bool) (c : Cursor β)
    (chunks : List β) : Prop where
  waits_iff : ahead.Waits c chunks ↔ d.Waits c chunks
  succeeds : ∀ ended value, d.SucceedsAt c chunks ended value →
    ∃ here, ahead.SucceedsAt c chunks here value ∧ here.mode = ended.mode ∧
      here.record = c.received chunks ∧ c.KeepsRestoring here chunks ∧
      if rewinds value then
        Buffer.toBytes here.input = Buffer.toBytes c.input ++ chunks.flatMap Buffer.toBytes
      else here.input = ended.input
  fails : ∀ ended failure, d.FailsAt c chunks ended failure →
    ∃ here, ahead.FailsAt c chunks here failure ∧ here.mode = ended.mode ∧
      here.record = c.received chunks ∧ c.KeepsRestoring here chunks ∧
      Buffer.toBytes here.input = Buffer.toBytes c.input ++ chunks.flatMap Buffer.toBytes

end Decoder

variable [LawfulBuffer β] {access : Access}

/-- Rewinding gives back the buffer of the entry, followed by all that has arrived. -/
theorem Cursor.toBytes_rewind_chunks {c inner : Cursor β} {chunks : List β}
    (h : inner.Agrees (c.enter.arriveAll chunks)) :
    Buffer.toBytes (c.rewind inner).input =
      Buffer.toBytes c.input ++ chunks.flatMap Buffer.toBytes := by
  rw [toBytes_rewind_arriveAll h, toBytes_arriveAll]

theorem Composed.lookAheadIf_waits_iff {d : Decoder β α} (h : Composed access d)
    (rewinds : α → Bool) (c : Cursor β) (chunks : List β) :
    (d.lookAheadIf rewinds).Waits c chunks ↔ d.Waits c chunks := by
  -- both are the run inside the rewind point, with other endings
  rw [(h.linear.lookAheadIf rewinds).waits_iff, h.linear.waits_iff,
    Decoder.outcome_lookAheadIf_eq_map h.linear, h.outcome_enter c, Step.waits_map_iff,
    Step.waits_map_iff]

theorem Composed.lookAheadIf_succeedsAt {d : Decoder β α} (h : Composed access d)
    (rewinds : α → Bool) {c ended : Cursor β} {chunks : List β} {value : α}
    (hd : d.SucceedsAt c chunks ended value) :
    ∃ inner : Cursor β, inner.Agrees (c.enter.arriveAll chunks) ∧ ended = c.leave inner ∧
      (d.lookAheadIf rewinds).SucceedsAt c chunks
        (if rewinds value then c.rewind inner else c.leave inner) value := by
  obtain ⟨inside, hinside, hmap, htracks⟩ := h.after_enter (h.linear.succeedsAt_iff.1 hd)
  obtain ⟨ending, rfl, hleave⟩ := Step.map_eq_answer hmap.symm
  obtain ⟨inner, rfl, rfl⟩ := Ending.leave_eq_reached hleave
  refine ⟨inner, htracks, rfl, ?_⟩
  rw [(h.linear.lookAheadIf rewinds).succeedsAt_iff, Decoder.outcome_lookAheadIf_eq_map h.linear,
    Step.after_map, hinside]
  rfl

theorem Composed.lookAheadIf_failsAt {d : Decoder β α} (h : Composed access d)
    (rewinds : α → Bool) {c ended : Cursor β} {chunks : List β} {failure : Failure}
    (hd : d.FailsAt c chunks ended failure) :
    ∃ inner : Cursor β, inner.Agrees (c.enter.arriveAll chunks) ∧ ended = c.leave inner ∧
      (d.lookAheadIf rewinds).FailsAt c chunks (c.rewind inner) failure := by
  obtain ⟨inside, hinside, hmap, htracks⟩ := h.after_enter (h.linear.failsAt_iff.1 hd)
  obtain ⟨ending, rfl, hleave⟩ := Step.map_eq_answer hmap.symm
  obtain ⟨inner, rfl, rfl⟩ := Ending.leave_eq_failed hleave
  refine ⟨inner, htracks, rfl, ?_⟩
  rw [(h.linear.lookAheadIf rewinds).failsAt_iff, Decoder.outcome_lookAheadIf_eq_map h.linear,
    Step.after_map, hinside]
  rfl

/-- Whatever decides whether to rewind, the body is looked ahead with. -/
theorem Composed.looksAhead {d : Decoder β α} (h : Composed access d) (rewinds : α → Bool)
    (c : Cursor β) (chunks : List β) :
    (d.lookAheadIf rewinds).LooksAhead d rewinds c chunks where
  waits_iff := h.lookAheadIf_waits_iff rewinds c chunks
  succeeds := by
    intro ended value hd
    obtain ⟨inner, hagrees, rfl, hahead⟩ := h.lookAheadIf_succeedsAt rewinds hd
    cases hrewinds : rewinds value with
    | true =>
        have hhere := Cursor.rewind_agrees hagrees
        rw [hrewinds, if_pos rfl] at hahead
        exact ⟨_, hahead, rfl, hhere.record_eq_received, hhere.keepsRestoring,
          Cursor.toBytes_rewind_chunks hagrees⟩
    | false =>
        have hhere := Cursor.leave_agrees hagrees
        rw [hrewinds, if_neg Bool.false_ne_true] at hahead
        exact ⟨_, hahead, rfl, hhere.record_eq_received, hhere.keepsRestoring, rfl⟩
  fails := by
    intro ended failure hd
    obtain ⟨inner, hagrees, rfl, hahead⟩ := h.lookAheadIf_failsAt rewinds hd
    have hhere := Cursor.rewind_agrees hagrees
    exact ⟨_, hahead, rfl, hhere.record_eq_received, hhere.keepsRestoring,
      Cursor.toBytes_rewind_chunks hagrees⟩

/-- Looking ahead rewinds where it should: always, where there is no value, and where the value is a
    left one. -/
theorem Composed.look_ahead_rewinds {d : Decoder β α} {optional : Decoder β (Option α)}
    {choice : Decoder β (α ⊕ γ)} (hd : Composed access d) (ho : Composed access optional)
    (hc : Composed access choice) (c : Cursor β) (chunks : List β) :
    d.lookAhead.LooksAhead d (fun _ => true) c chunks ∧
      optional.lookAheadOption.LooksAhead optional Option.isNone c chunks ∧
      choice.lookAheadSum.LooksAhead choice Sum.isLeft c chunks :=
  ⟨hd.looksAhead _ c chunks, ho.looksAhead _ c chunks, hc.looksAhead _ c chunks⟩

open Decoder in
/-- A tag and what it announces, inside a rewind point that has received a byte before, with the tag
    in the buffer and the rest to come. The left value is not consumed, the right one is. -/
theorem tag_look_ahead_rewinds :
    (∃ here, (lookAheadSum (sumOf word8 word16be) : Decoder Bytes (UInt8 ⊕ UInt16)).SucceedsAt
        ⟨[0], some [[7]], .incomplete, 0⟩ [[5]] here (.inl 5) ∧ here.input = [0, 5] ∧
      here.record = some [[5], [7]] ∧
      Cursor.KeepsRestoring ⟨[0], some [[7]], .incomplete, 0⟩ here [[5]]) ∧
    (∃ here, (lookAheadSum (sumOf word8 word16be) : Decoder Bytes (UInt8 ⊕ UInt16)).SucceedsAt
        ⟨[1], some [[7]], .incomplete, 0⟩ [[2], [3, 4]] here (.inr 515) ∧ here.input = [4] ∧
      here.record = some [[3, 4], [2], [7]] ∧
      Cursor.KeepsRestoring ⟨[1], some [[7]], .incomplete, 0⟩ here [[2], [3, 4]]) := by
  have hword : Composed .stream (word8 : Decoder Bytes UInt8) := .map _ (.word 1 .big)
  have htagged : Composed .stream (sumOf word8 word16be : Decoder Bytes (UInt8 ⊕ UInt16)) :=
    .sumOf hword (.map _ (.word 2 .big))
  have hoption : Composed .stream (optionOf word8 : Decoder Bytes (Option UInt8)) := .optionOf hword
  have hleft : (sumOf word8 word16be : Decoder Bytes (UInt8 ⊕ UInt16)).SucceedsAt
      ⟨[0], some [[7]], .incomplete, 0⟩ [[5]] ⟨[], some [[5], [7]], .incomplete, 0⟩ (.inl 5) := by
    rw [htagged.linear.succeedsAt_iff]
    cbv
  have hright : (sumOf word8 word16be : Decoder Bytes (UInt8 ⊕ UInt16)).SucceedsAt
      ⟨[1], some [[7]], .incomplete, 0⟩ [[2], [3, 4]]
      ⟨[4], some [[3, 4], [2], [7]], .incomplete, 0⟩ (.inr 515) := by
    rw [htagged.linear.succeedsAt_iff]
    cbv
  obtain ⟨-, -, hahead⟩ :=
    hword.look_ahead_rewinds hoption htagged ⟨[0], some [[7]], .incomplete, 0⟩ [[5]]
  obtain ⟨-, -, hahead'⟩ :=
    hword.look_ahead_rewinds hoption htagged ⟨[1], some [[7]], .incomplete, 0⟩ [[2], [3, 4]]
  obtain ⟨here, hsucceeds, -, hrecord, hkeeps, hinput⟩ := hahead.succeeds _ _ hleft
  obtain ⟨here', hsucceeds', -, hrecord', hkeeps', hinput'⟩ := hahead'.succeeds _ _ hright
  exact ⟨⟨here, hsucceeds, hinput, hrecord, hkeeps⟩, ⟨here', hsucceeds', hinput', hrecord', hkeeps'⟩⟩

end StreamDecode
