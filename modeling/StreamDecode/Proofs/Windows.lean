import StreamDecode.Proofs.Choice
import StreamDecode.Proofs.Renumbering
import StreamDecode.Proofs.Rounds

set_option autoImplicit false

/-! # Windows are exact and leak nothing

A window of `n` bytes waits for them as `ensure n` does. Once they are there it is over at once, and
what it comes to is settled by a run over these bytes alone, with no rewind point around it and no
more input to come: the record that the window shares with the outside is not looked at, and since
nothing arrives during the run it is not added to either (`Composed.outcome_alone`). What follows
the window, and how it came there, has no part in this.

Afterwards the outside is as it was: the record has what has arrived, the mode is the one from
before, and behind a window that has succeeded stand the bytes after the first `n`. -/

namespace StreamDecode

variable {β α : Type}

/-! ## A run in complete mode -/

/-- The same ending, with another record. -/
def Ending.withRecord (record : Record β) : Ending β α → Ending β α
  | failed c failure => failed { c with record } failure
  | reached c value => reached { c with record } value

/-- Leaving a rewind point at which nothing has arrived changes nothing about the record outside. -/
theorem Ending.leave_of_record_empty {ending : Ending β α} (h : ending.cursor.record = some [])
    (c : Cursor β) : ending.leave c = (ending.leave c.alone).withRecord c.record := by
  have hmerge : c.record.merge ending.cursor.record = c.record := by
    rw [h, Record.merge_empty]
  cases ending with
  | failed inner failure =>
      have hrecord : c.record.merge inner.record = c.record := hmerge
      simp [leave, withRecord, Cursor.leave, hrecord]
  | reached inner value =>
      have hrecord : c.record.merge inner.record = c.record := hmerge
      simp [leave, withRecord, Cursor.leave, hrecord]

/-- In complete mode a composed decoder does inside of rewind points what it does alone. -/
theorem Composed.outcome_alone [Buffer β] [LawfulBuffer β] {access : Access} {d : Decoder β α}
    (h : Composed access d) {c : Cursor β} (hmode : c.mode = .complete) :
    ∃ ending, d.outcome c.alone = .answer ending ∧
      d.outcome c = .answer (ending.withRecord c.record) := by
  -- both runs are the one inside a rewind point of its own, left where it ends
  obtain ⟨inside, hinside, hagrees⟩ := (h.tracks c.enter).eq_answer hmode
  have henter : c.alone.enter = c.enter := rfl
  refine ⟨inside.leave c.alone, ?_, ?_⟩
  · rw [h.outcome_enter c.alone, henter, hinside]
    rfl
  · rw [h.outcome_enter c, hinside, ← Ending.leave_of_record_empty hagrees.record]
    rfl

/-! ## Waiting for the bytes of a window -/

namespace Cursor

theorem arriveAll_input (c : Cursor Bytes) (chunks : List Bytes) :
    (c.arriveAll chunks).input = c.input ++ chunks.flatten := by
  induction chunks generalizing c with
  | nil => simp
  | cons chunk chunks ih => simp [ih, arrive_input]

theorem arriveAll_counter (c : Cursor Bytes) (chunks : List Bytes) :
    (c.arriveAll chunks).counter = c.counter := by
  induction chunks generalizing c with
  | nil => rfl
  | cons chunk chunks ih => rw [arriveAll_cons, ih, arrive_counter]

end Cursor

/-- Where a demand for bytes is over, everything that has arrived is in the buffer: enough bytes,
    and the end of the input has not come, or too few. -/
theorem Decoder.ensure_after {n : Nat} {c : Cursor Bytes} {chunks : List Bytes}
    {ending : Ending Bytes Bytes}
    (h : ((ensure n).outcome c).after chunks = some (.answer ending)) :
    (ending = .reached (c.arriveAll chunks) (c.arriveAll chunks).input ∧
      n ≤ (c.input ++ chunks.flatten).length ∧ (c.arriveAll chunks).mode = c.mode) ∨
    (ending = .failed (c.arriveAll chunks) .outOfInput ∧
      (c.input ++ chunks.flatten).length < n) := by
  induction chunks generalizing c with
  | nil =>
      rw [Step.after_nil, Option.some.injEq] at h
      by_cases hn : Buffer.hasAtLeast c.input n = true
      · rw [outcome_ensure_enough hn, Step.answer.injEq] at h
        have hsize : n ≤ c.input.length := (LawfulBuffer.hasAtLeast_iff c.input n).1 hn
        exact .inl ⟨h.symm, by simpa using hsize, rfl⟩
      · cases hmode : c.mode with
        | complete =>
            rw [outcome_ensure_complete hn hmode, Step.answer.injEq] at h
            have hsize : ¬ n ≤ c.input.length := fun henough =>
              hn ((LawfulBuffer.hasAtLeast_iff c.input n).2 henough)
            exact .inr ⟨h.symm, by simpa using Nat.lt_of_not_le hsize⟩
        | incomplete =>
            obtain ⟨resume, hawait, _⟩ := ensure_await hn hmode
            rw [hawait] at h
            cases h
  | cons chunk chunks ih =>
      by_cases hn : Buffer.hasAtLeast c.input n = true
      · rw [outcome_ensure_enough hn] at h
        cases h
      · cases hmode : c.mode with
        | complete =>
            rw [outcome_ensure_complete hn hmode] at h
            cases h
        | incomplete =>
            obtain ⟨resume, hawait, hresume⟩ := ensure_await hn hmode
            rw [hawait, Step.after_await, hresume] at h
            have hrest := ih h
            rw [Cursor.arrive_input, List.append_assoc, ← List.flatten_cons] at hrest
            refine hrest.imp (fun ⟨hending, hsize, hlater⟩ => ⟨hending, hsize, ?_⟩) id
            -- the end of the input would have failed the demand
            cases chunk with
            | nil =>
                have hshort : ¬ Buffer.hasAtLeast (c.arrive []).input n = true := hn
                rw [outcome_ensure_complete hshort rfl] at h
                cases chunks with
                | nil => cases hending; cases h
                | cons _ _ => cases h
            | cons byte bytes =>
                rw [Cursor.arriveAll_cons, hlater, Cursor.arrive_cons]

/-! ## What a window comes to -/

/-- The value or the failure that a decoder ended with. -/
def Ending.verdict : Ending β α → Except Failure α
  | failed _ failure => .error failure
  | reached _ value => .ok value

namespace Cursor

variable [Buffer β]

/-- Where a run alone starts over the first `n` bytes of the buffer, as if they were all the input
    there is. -/
def window (c : Cursor β) (n : Nat) : Cursor β :=
  { c with input := Buffer.take c.input n, record := none, mode := .complete }

/-- What is seen from outside of how the decoder of a window of `n` bytes ended. -/
def afterWindow (outer : Cursor β) (n : Nat) : Ending β α → Ending β α
  | .failed inner failure =>
      .failed { inner with record := outer.record, mode := outer.mode } failure
  | .reached inner value =>
      if Buffer.isEmpty inner.input then
        .reached { outer with input := Buffer.drop outer.input n, counter := inner.counter } value
      else
        .failed { inner with record := outer.record, mode := outer.mode } ⟨.unconsumedWindow, []⟩

theorem afterWindow_of_isEmpty (outer : Cursor β) (n : Nat) {inner : Cursor β} (value : α)
    (h : Buffer.isEmpty inner.input = true) :
    outer.afterWindow n (.reached inner value) =
      .reached { outer with input := Buffer.drop outer.input n, counter := inner.counter } value :=
  if_pos h

theorem afterWindow_of_not_isEmpty (outer : Cursor β) (n : Nat) {inner : Cursor β} (value : α)
    (h : ¬ Buffer.isEmpty inner.input = true) :
    outer.afterWindow n (.reached inner value) =
      .failed { inner with record := outer.record, mode := outer.mode } ⟨.unconsumedWindow, []⟩ :=
  if_neg h

theorem afterWindow_agrees (outer : Cursor β) (n : Nat) (ending : Ending β α) :
    (outer.afterWindow n ending).cursor.Agrees outer := by
  cases ending with
  | failed inner failure => exact ⟨rfl, rfl⟩
  | reached inner value =>
      by_cases h : Buffer.isEmpty inner.input = true
      · rw [afterWindow_of_isEmpty outer n value h]
        exact ⟨rfl, rfl⟩
      · rw [afterWindow_of_not_isEmpty outer n value h]
        exact ⟨rfl, rfl⟩

/-- The outside has no part in the verdict on a window. -/
theorem verdict_afterWindow (outer outer' : Cursor β) (n : Nat) (ending : Ending β α) :
    (outer.afterWindow n ending).verdict = (outer'.afterWindow n ending).verdict := by
  cases ending with
  | failed inner failure => rfl
  | reached inner value =>
      by_cases h : Buffer.isEmpty inner.input = true
      · rw [afterWindow_of_isEmpty outer n value h, afterWindow_of_isEmpty outer' n value h]
        rfl
      · rw [afterWindow_of_not_isEmpty outer n value h, afterWindow_of_not_isEmpty outer' n value h]
        rfl

/-- Nor has the storage number that the decoder of the window ended at. -/
theorem verdict_afterWindow_withCounter (outer : Cursor β) (n counter : Nat) (ending : Ending β α) :
    (outer.afterWindow n (ending.withCounter counter)).verdict =
      (outer.afterWindow n ending).verdict := by
  cases ending with
  | failed inner failure => rfl
  | reached inner value =>
      by_cases h : Buffer.isEmpty inner.input = true
      · have h' : Buffer.isEmpty (inner.withCounter counter).input = true := h
        rw [Ending.withCounter, afterWindow_of_isEmpty outer n value h,
          afterWindow_of_isEmpty outer n value h']
        rfl
      · have h' : ¬ Buffer.isEmpty (inner.withCounter counter).input = true := h
        rw [Ending.withCounter, afterWindow_of_not_isEmpty outer n value h,
          afterWindow_of_not_isEmpty outer n value h']
        rfl

end Cursor

section

variable [Buffer β] {access : Access} {d : Decoder β α}

/-- A window is over at once, with what its decoder comes to alone. -/
theorem Composed.inWindow_eq [LawfulBuffer β] (h : Composed access d) (n : Nat) (outer : Cursor β) :
    ∃ ending, d.outcome (outer.window n) = .answer ending ∧
      Decoder.inWindow n d outer outer.input = .answer (outer.afterWindow n ending) := by
  obtain ⟨ending, halone, hinside⟩ := h.outcome_alone
    (c := { outer with input := Buffer.take outer.input n, mode := .complete }) rfl
  refine ⟨ending, halone, ?_⟩
  rw [Decoder.inWindow, hinside]
  cases ending with
  | failed inner failure => rfl
  | reached inner value =>
      show (if Buffer.isEmpty inner.input = true then _ else _) = _
      by_cases hempty : Buffer.isEmpty inner.input = true
      · rw [if_pos hempty, Cursor.afterWindow_of_isEmpty outer n value hempty]
      · rw [if_neg hempty, Cursor.afterWindow_of_not_isEmpty outer n value hempty]

/-- What is left of a window once its bytes were asked for. -/
theorem Composed.isolate_after (h : Composed access d) {n : Int} (hn : ¬ n < 0) {c : Cursor β}
    {chunks : List β} {later : Step β (Ending β β)}
    (hlater : ((Decoder.ensure n.toNat).outcome c).after chunks = some later) :
    ((Decoder.isolate n d).outcome c).after chunks =
      some (later.settle (fun c failure => .answer (.failed c failure))
        (Decoder.inWindow n.toNat d)) := by
  rw [Decoder.outcome_isolate h.linear, if_neg hn]
  exact Step.after_bind hlater _

end

/-! ## Windows of plain bytes -/

/-- The decoder of a window starts on the first of all bytes that have arrived. -/
theorem Cursor.window_arriveAll (c : Cursor Bytes) (chunks : List Bytes) (n : Nat) :
    (c.arriveAll chunks).window n =
      ⟨(c.input ++ chunks.flatten).take n, none, .complete, c.counter⟩ := by
  rw [← arriveAll_input, ← arriveAll_counter c chunks]
  rfl

theorem Bytes.isEmpty_iff (bytes : Bytes) : Buffer.isEmpty bytes = true ↔ bytes = [] := by
  rw [Buffer.isEmpty_iff]
  exact List.length_eq_zero_iff

section

variable {access : Access} {d : Decoder Bytes α}

/-- Once its bytes have arrived, a window of plain bytes is over. -/
theorem Composed.isolate_reached (h : Composed access d) {n : Int} (hn : ¬ n < 0)
    {c : Cursor Bytes} {chunks : List Bytes} {outer : Cursor Bytes} {input : Bytes}
    (hreached : ((Decoder.ensure n.toNat).outcome c).after chunks =
      some (.answer (.reached outer input))) :
    ∃ inside, d.outcome ((c.arriveAll chunks).window n.toNat) = .answer inside ∧
      ((Decoder.isolate n d).outcome c).after chunks =
        some (.answer ((c.arriveAll chunks).afterWindow n.toNat inside)) := by
  obtain ⟨inside, halone, hinside⟩ := h.inWindow_eq n.toNat (c.arriveAll chunks)
  have hwindow := h.isolate_after hn hreached
  rcases Decoder.ensure_after hreached with ⟨hending, -, -⟩ | ⟨hending, -⟩
  · cases hending
    exact ⟨inside, halone, by rw [hwindow, ← hinside]; rfl⟩
  · cases hending

/-- Where a window of plain bytes is over, it has waited for the end of the input in vain, or it has
    come to what its decoder comes to alone on its first bytes. -/
theorem Composed.isolate_ending (h : Composed access d) {n : Int} (hn : ¬ n < 0) {c : Cursor Bytes}
    {chunks : List Bytes} {ending : Ending Bytes α}
    (hending : ((Decoder.isolate n d).outcome c).after chunks = some (.answer ending)) :
    (c.input ++ chunks.flatten).length < n.toNat ∨
    ∃ inside, d.outcome ((c.arriveAll chunks).window n.toNat) = .answer inside ∧
      ending = (c.arriveAll chunks).afterWindow n.toNat inside := by
  rcases (Decoder.ensure_tracks n.toNat c).waits_or_answered chunks with
    ⟨resume, hwaits⟩ | ⟨fed, rest, demanded, rfl, hafter⟩
  · rw [h.isolate_after hn hwaits] at hending
    cases hending
  · -- the window was over when its bytes were there, so nothing was fed to it after that
    have hsame : fed ++ rest = (fed ++ rest) ++ [] := (List.append_nil _).symm
    rcases Decoder.ensure_after hafter with ⟨rfl, -, -⟩ | ⟨rfl, hshort⟩
    · obtain ⟨inside, halone, hover⟩ := h.isolate_reached hn hafter
      obtain ⟨hfed, rfl⟩ := Step.answered_unique hover hending hsame
      rw [← hfed]
      exact .inr ⟨inside, halone, rfl⟩
    · have hover := h.isolate_after hn hafter
      obtain ⟨hfed, -⟩ := Step.answered_unique hover hending hsame
      rw [← hfed]
      exact .inl hshort

/-- A window waits as long as its bytes are waited for. -/
theorem Composed.isolate_waits_iff (h : Composed access d) {n : Int} (hn : ¬ n < 0)
    (c : Cursor Bytes) (chunks : List Bytes) :
    (Decoder.isolate n d).Waits c chunks ↔
      (Decoder.ensure n.toNat : Decoder Bytes Bytes).Waits c chunks := by
  rw [(h.linear.isolate n).waits_iff, (Decoder.Linear.ensure n.toNat).waits_iff]
  constructor
  · rintro ⟨resume, hawait⟩
    rcases (Decoder.ensure_tracks n.toNat c).waits_or_answered chunks with
      hwaits | ⟨fed, rest, demanded, rfl, hafter⟩
    · exact hwaits
    · -- the window would have been over already
      have hover : ∃ ending,
          ((Decoder.isolate n d).outcome c).after fed = some (.answer ending) := by
        cases demanded with
        | failed ended failure => exact ⟨_, h.isolate_after hn hafter⟩
        | reached outer input =>
            obtain ⟨inside, -, hinside⟩ := h.isolate_reached hn hafter
            exact ⟨_, hinside⟩
      obtain ⟨ending, hending⟩ := hover
      rw [Step.after_append, hending] at hawait
      cases rest <;> cases hawait
  · rintro ⟨resume, hawait⟩
    exact ⟨_, h.isolate_after hn hawait⟩

/-- A window that has its bytes is over, as the run of its decoder over these bytes alone has it. -/
theorem Composed.isolate_over (h : Composed access d) {n : Int} (hn : ¬ n < 0) {c : Cursor Bytes}
    {chunks : List Bytes} {outer : Cursor Bytes} {input : Bytes}
    (hsucceeds : (Decoder.ensure n.toNat).SucceedsAt c chunks outer input) :
    n.toNat ≤ (c.input ++ chunks.flatten).length ∧
    ∃ (inside : Ending Bytes α) (here : Cursor Bytes),
      d.outcome ⟨(c.input ++ chunks.flatten).take n.toNat, none, .complete, c.counter⟩ =
        .answer inside ∧
      here.record = c.received chunks ∧ here.mode = c.mode ∧
      match inside with
      | .failed _ failure => (Decoder.isolate n d).FailsAt c chunks here failure
      | .reached inner value =>
          if inner.input = [] then
            here.input = (c.input ++ chunks.flatten).drop n.toNat ∧
            (Decoder.isolate n d).SucceedsAt c chunks here value
          else (Decoder.isolate n d).FailsAt c chunks here ⟨.unconsumedWindow, []⟩ := by
  have hl := h.linear.isolate n
  have hreached := (Decoder.Linear.ensure n.toNat).succeedsAt_iff.1 hsucceeds
  obtain ⟨inside, halone, hover⟩ := h.isolate_reached hn hreached
  have hagrees := (c.arriveAll chunks).afterWindow_agrees n.toNat inside
  rw [Cursor.window_arriveAll] at halone
  rcases Decoder.ensure_after hreached with ⟨-, hsize, hmode⟩ | ⟨hfailed, -⟩
  · refine ⟨hsize, inside, _, halone, hagrees.record_eq_received, hagrees.mode.trans hmode, ?_⟩
    cases inside with
    | failed inner failure => exact hl.failsAt_iff.2 hover
    | reached inner value =>
        dsimp only
        by_cases hempty : inner.input = []
        · have hisEmpty := (Bytes.isEmpty_iff inner.input).2 hempty
          rw [Cursor.afterWindow_of_isEmpty _ _ value hisEmpty] at hover ⊢
          rw [if_pos hempty, ← Cursor.arriveAll_input]
          exact ⟨rfl, hl.succeedsAt_iff.2 hover⟩
        · have hnotEmpty := mt (Bytes.isEmpty_iff inner.input).1 hempty
          rw [Cursor.afterWindow_of_not_isEmpty _ _ value hnotEmpty] at hover ⊢
          rw [if_neg hempty]
          exact hl.failsAt_iff.2 hover
  · cases hfailed

/-- What a window comes to is settled by its first bytes. -/
theorem Composed.isolate_verdict_eq (h : Composed access d) {n : Int} (hn : ¬ n < 0)
    {c c' : Cursor Bytes} {chunks chunks' : List Bytes} {ending ending' : Ending Bytes α}
    (hsize : n.toNat ≤ (c.input ++ chunks.flatten).length)
    (hsize' : n.toNat ≤ (c'.input ++ chunks'.flatten).length)
    (hsame : (c.input ++ chunks.flatten).take n.toNat = (c'.input ++ chunks'.flatten).take n.toNat)
    (hcounter : c.counter = c'.counter ∨ d.IgnoresCounter)
    (hending : ((Decoder.isolate n d).outcome c).after chunks = some (.answer ending))
    (hending' : ((Decoder.isolate n d).outcome c').after chunks' = some (.answer ending')) :
    ending.verdict = ending'.verdict := by
  rcases h.isolate_ending hn hending with hshort | ⟨inside, halone, rfl⟩
  · omega
  rcases h.isolate_ending hn hending' with hshort | ⟨inside', halone', rfl⟩
  · omega
  rw [Cursor.window_arriveAll] at halone halone'
  rcases hcounter with hcounter | hignores
  · rw [hsame, hcounter, halone', Step.answer.injEq] at halone
    rw [halone]
    exact Cursor.verdict_afterWindow _ _ _ _
  · -- from the number of the other run the decoder does the same
    have hrenumbered := hignores.outcome_eq
      ⟨(c.input ++ chunks.flatten).take n.toNat, none, .complete, c.counter⟩ c'.counter
    rw [halone, Cursor.withCounter, hsame, halone'] at hrenumbered
    obtain rfl : inside' = inside.withCounter c'.counter := Step.answer.inj hrenumbered
    rw [Cursor.verdict_afterWindow_withCounter]
    exact Cursor.verdict_afterWindow _ _ _ _

/-- Windows are exact and leak nothing. A window of a negative size fails at once. Any other waits
    and runs out of input where `ensure` does; once its bytes are there it is over, as the run of
    its decoder over these bytes alone has it: failed alike, failed because bytes were left, or done
    with the value. The record and the mode are then those of the outside, and what is left after a
    value are the bytes behind the window. So what a window comes to is settled by its first bytes,
    whatever follows them and in whatever chunks they came. The decoders of this library take no
    notice of the number that new storage gets (`Decoder.CopiesOnly.ignoresCounter`). One that makes
    storage of its own might tell two runs apart by it, so only its runs are compared at the same
    number. -/
theorem Composed.isolate_exact (h : Composed access d) (n : Int) :
    (n < 0 → ∃ failure : Failure,
      failure.report =
        ⟨"Failed reading: Attempted to isolate a negative number of bytes", []⟩ ∧
      ∀ c, (Decoder.isolate n d).FailsAt c [] c failure) ∧
    (0 ≤ n → ∀ (c : Cursor Bytes) (chunks : List Bytes),
      ((Decoder.isolate n d).Waits c chunks ↔
        (Decoder.ensure n.toNat : Decoder Bytes Bytes).Waits c chunks) ∧
      (∀ ended failure, (Decoder.ensure n.toNat).FailsAt c chunks ended failure →
        (Decoder.isolate n d).FailsAt c chunks ended failure) ∧
      (∀ outer input, (Decoder.ensure n.toNat).SucceedsAt c chunks outer input →
        n.toNat ≤ (c.input ++ chunks.flatten).length ∧
        ∃ (inside : Ending Bytes α) (here : Cursor Bytes),
          d.outcome ⟨(c.input ++ chunks.flatten).take n.toNat, none, .complete, c.counter⟩ =
            .answer inside ∧
          here.record = c.received chunks ∧ here.mode = c.mode ∧
          match inside with
          | .failed _ failure => (Decoder.isolate n d).FailsAt c chunks here failure
          | .reached inner value =>
              if inner.input = [] then
                here.input = (c.input ++ chunks.flatten).drop n.toNat ∧
                (Decoder.isolate n d).SucceedsAt c chunks here value
              else (Decoder.isolate n d).FailsAt c chunks here ⟨.unconsumedWindow, []⟩) ∧
      (∀ (c' : Cursor Bytes) (chunks' : List Bytes) (ending ending' : Ending Bytes α),
        n.toNat ≤ (c.input ++ chunks.flatten).length →
        n.toNat ≤ (c'.input ++ chunks'.flatten).length →
        (c.input ++ chunks.flatten).take n.toNat = (c'.input ++ chunks'.flatten).take n.toNat →
        (c.counter = c'.counter ∨ d.IgnoresCounter) →
        ((Decoder.isolate n d).outcome c).after chunks = some (.answer ending) →
        ((Decoder.isolate n d).outcome c').after chunks' = some (.answer ending') →
        ending.verdict = ending'.verdict)) ∧
    Failure.report ⟨.unconsumedWindow, []⟩ =
      ⟨"Failed reading: not all bytes parsed in isolate", []⟩ := by
  refine ⟨fun hn => ⟨⟨.negativeWindow, []⟩, rfl, fun c => ?_⟩, fun hpos c chunks => ?_, rfl⟩
  · rw [(h.linear.isolate n).failsAt_iff, Decoder.outcome_isolate h.linear, if_pos hn]
    exact Step.after_nil _
  · have hn : ¬ n < 0 := by omega
    refine ⟨h.isolate_waits_iff hn c chunks, fun ended failure hfails => ?_,
      fun outer input hsucceeds => h.isolate_over hn hsucceeds,
      fun c' chunks' ending ending' hsize hsize' hsame hcounter =>
        h.isolate_verdict_eq hn hsize hsize' hsame hcounter⟩
    rw [(Decoder.Linear.ensure n.toNat).failsAt_iff] at hfails
    rw [(h.linear.isolate n).failsAt_iff, h.isolate_after hn hfails]
    rfl

end

open Decoder in
/-- A window of two words, with one of its bytes there and three to come, inside a rewind point that
    has received a chunk before; and the same two words out of other chunks, with something else
    behind them and at another storage number. -/
theorem words_isolate_exact :
    let words : Decoder Bytes (List UInt16) := fold 2 word16le [] fun words word => word :: words
    let c : Cursor Bytes := ⟨[6], some [[7]], .incomplete, 0⟩
    let c' : Cursor Bytes := ⟨[6, 5], none, .incomplete, 7⟩
    (∃ here : Cursor Bytes, here.input = [9] ∧ here.mode = .incomplete ∧
      here.record = some [[4, 3, 9], [5], [7]] ∧
      (isolate 4 words).SucceedsAt c [[5], [4, 3, 9]] here [772, 1286]) ∧
    ∀ ending, ((isolate 4 words).outcome c').after [[4], [3, 8, 8]] = some (.answer ending) →
      ending.verdict = .ok [772, 1286] := by
  intro words c c'
  have hwords : Composed .buffer words := .fold (.map _ (.word 2 .little)) 2 [] _
  have hcopies : words.CopiesOnly :=
    .fold 2 [] _ (.bind (.bind (.getBytes 2) fun _ => .pure _) fun _ => .pure _)
  have hensure : (ensure 4 : Decoder Bytes Bytes).SucceedsAt c [[5], [4, 3, 9]]
      ⟨[6, 5, 4, 3, 9], some [[4, 3, 9], [5], [7]], .incomplete, 0⟩ [6, 5, 4, 3, 9] := by
    rw [(Linear.ensure 4).succeedsAt_iff]
    cbv
  have halone : words.outcome ⟨[6, 5, 4, 3], none, .complete, 0⟩ =
      .answer (.reached ⟨[], none, .complete, 0⟩ [772, 1286]) := by cbv
  obtain ⟨-, -, hover, hsettled⟩ := (hwords.isolate_exact 4).2.1 (by decide) c [[5], [4, 3, 9]]
  obtain ⟨-, inside, here, hinside, hrecord, hmode, hsucceeds⟩ := hover _ _ hensure
  obtain rfl : Ending.reached ⟨[], none, .complete, 0⟩ [772, 1286] = inside :=
    Step.answer.inj (halone.symm.trans hinside)
  refine ⟨⟨here, hsucceeds.1, hmode, hrecord, hsucceeds.2⟩, fun ending hending => ?_⟩
  have hreached := (hwords.linear.isolate 4).succeedsAt_iff.1 hsucceeds.2
  exact (hsettled c' [[4], [3, 8, 8]] _ ending (by decide) (by decide) rfl
    (.inr hcopies.ignoresCounter) hreached hending).symm

end StreamDecode
