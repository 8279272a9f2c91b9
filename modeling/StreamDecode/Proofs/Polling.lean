import StreamDecode.Proofs.Windows

set_option autoImplicit false

/-! # Waiting for bytes is polling

What `ensure n` has to do is said by a loop: if the buffer holds `n` bytes give it, and otherwise
demand one more chunk and look again. The loop would join the buffer with every chunk, so `ensure`
keeps the chunks apart and counts the bytes that are missing. It is the loop all the same: it
satisfies the equation of the loop (`Decoder.ensure_eq_pollRound`), and since every round adds a byte
to the buffer, nothing else does (`Decoder.eq_ensure_of_eq_pollRound`).

Where the loop stands after some chunks can be told from their sizes. It waits as long as none of
them was empty and the bytes are too few (`Cursor.Lacks`); the chunk that changes this ends it. -/

namespace StreamDecode

namespace Decoder

/-! ## The loop -/

/-- One round of the loop: give the buffer if it holds `n` bytes, and otherwise demand one more chunk
    and go on with what comes next. -/
def pollRound (n : Nat) (next : Decoder Bytes Bytes) : Decoder Bytes Bytes :=
  getInput.bind fun input =>
    if Buffer.hasAtLeast input n then Decoder.pure input else demandInput.andThen next

section

variable {ρ : Type} {n : Nat} {next : Decoder Bytes Bytes} {c : Cursor Bytes}
  {onFailure : OnFailure Bytes ρ} {onSuccess : OnSuccess Bytes Bytes ρ}

theorem exec_pollRound_enough (hn : Buffer.hasAtLeast c.input n = true) :
    (pollRound n next).exec c onFailure onSuccess = onSuccess c c.input := by
  show (if Buffer.hasAtLeast c.input n then Decoder.pure c.input
    else demandInput.andThen next).exec c onFailure onSuccess = _
  rw [if_pos hn]
  rfl

theorem exec_pollRound_lacking (hn : ¬ Buffer.hasAtLeast c.input n = true) :
    (pollRound n next).exec c onFailure onSuccess =
      demandInput.exec c onFailure fun c _ => next.exec c onFailure onSuccess := by
  show (if Buffer.hasAtLeast c.input n then Decoder.pure c.input
    else demandInput.andThen next).exec c onFailure onSuccess = _
  rw [if_neg hn]
  rfl

theorem exec_demandInput_complete {onSuccess : OnSuccess Bytes Unit ρ} (hmode : c.mode = .complete) :
    demandInput.exec c onFailure onSuccess = onFailure c .outOfInput := by
  rw [Linear.demandInput, outcome_demandInput_complete hmode]
  rfl

theorem exec_demandInput_incomplete {onSuccess : OnSuccess Bytes Unit ρ}
    (hmode : c.mode = .incomplete) :
    demandInput.exec c onFailure onSuccess = .await fun chunk =>
      if Buffer.isEmpty chunk then onFailure c.finish .outOfInput
      else onSuccess (c.receive chunk) () := by
  unfold demandInput
  dsimp only
  rw [hmode]

end

/-- Gathering the chunks and joining them once satisfies the equation of the loop. -/
theorem ensure_eq_pollRound (n : Nat) :
    (ensure n : Decoder Bytes Bytes) = pollRound n (ensure n) := by
  apply ext_exec
  intro ρ c onFailure onSuccess
  by_cases hn : Buffer.hasAtLeast c.input n = true
  · rw [exec_pollRound_enough hn, Linear.ensure, outcome_ensure_enough hn]
    rfl
  · rw [exec_pollRound_lacking hn]
    cases hmode : c.mode with
    | complete =>
        rw [exec_demandInput_complete hmode, Linear.ensure, outcome_ensure_complete hn hmode]
        rfl
    | incomplete =>
        -- the chunk that is gathered may as well have been in the buffer
        obtain ⟨resume, hawait, hresume⟩ := ensure_await hn hmode
        rw [exec_demandInput_incomplete hmode, Linear.ensure, hawait, Step.settle, Step.bind_await]
        refine Step.await_congr fun chunk => ?_
        rw [hresume]
        refine (Linear.ensure n ρ (c.arrive chunk) onFailure onSuccess).symm.trans ?_
        by_cases hempty : Buffer.isEmpty chunk = true
        · have hfinish : ¬ Buffer.hasAtLeast c.finish.input n = true := hn
          rw [if_pos hempty, Cursor.arrive_of_isEmpty hempty, Linear.ensure,
            outcome_ensure_complete hfinish rfl]
          rfl
        · rw [if_neg hempty, Cursor.arrive_of_not_isEmpty hempty]

/-- Every round of the loop adds a byte, so the equation of the loop says what the loop does. -/
theorem eq_ensure_of_eq_pollRound {n : Nat} {loop : Decoder Bytes Bytes}
    (hloop : loop = pollRound n loop) : loop = ensure n := by
  apply ext_exec
  intro ρ c onFailure onSuccess
  induction hlack : n - c.input.length using Nat.strongRecOn generalizing c with
  | _ lack ih =>
      calc loop.exec c onFailure onSuccess
          = (pollRound n loop).exec c onFailure onSuccess := by rw [← hloop]
        _ = (pollRound n (ensure n)).exec c onFailure onSuccess := ?_
        _ = (ensure n).exec c onFailure onSuccess := by rw [← ensure_eq_pollRound]
      by_cases hn : Buffer.hasAtLeast c.input n = true
      · rw [exec_pollRound_enough hn, exec_pollRound_enough hn]
      · rw [exec_pollRound_lacking hn, exec_pollRound_lacking hn]
        cases hmode : c.mode with
        | complete => rw [exec_demandInput_complete hmode, exec_demandInput_complete hmode]
        | incomplete =>
            rw [exec_demandInput_incomplete hmode, exec_demandInput_incomplete hmode]
            refine Step.await_congr fun chunk => ?_
            by_cases hempty : Buffer.isEmpty chunk = true
            · rw [if_pos hempty, if_pos hempty]
            · rw [if_neg hempty, if_neg hempty]
              have hshort : c.input.length < n := by
                rw [LawfulBuffer.hasAtLeast_iff] at hn
                exact Nat.lt_of_not_le hn
              have hgrows : c.input.length < (c.receive chunk).input.length := by
                have hbytes : chunk ≠ [] := mt (Bytes.isEmpty_iff chunk).2 hempty
                have hinput := Cursor.arrive_input c chunk
                rw [Cursor.arrive_of_not_isEmpty hempty] at hinput
                rw [hinput, List.length_append]
                have hlength := List.length_pos_iff.2 hbytes
                omega
              exact ih _ (by omega) (c.receive chunk) rfl

end Decoder

/-! ## Where the loop stands -/

namespace Cursor

/-- After these chunks a demand for `n` bytes has still to wait: more may arrive, and what is there
    is too little. -/
structure Lacks (c : Cursor Bytes) (n : Nat) (chunks : List Bytes) : Prop where
  mode : c.mode = .incomplete
  goesOn : [] ∉ chunks
  short : (c.input ++ chunks.flatten).length < n

/-- A demand for `n` bytes asks for each of these chunks: before each of them it had to wait. -/
def Asks (c : Cursor Bytes) (n : Nat) (chunks : List Bytes) : Prop :=
  chunks = [] ∨ ∃ fed last, chunks = fed ++ [last] ∧ c.Lacks n fed

/-- A demand for `n` bytes meets the end of the input with these chunks: the input was complete
    before, or the demand waited and got the empty chunk. -/
def MeetsEnd (c : Cursor Bytes) (n : Nat) (chunks : List Bytes) : Prop :=
  (chunks = [] ∧ c.mode = .complete) ∨ ∃ fed, chunks = fed ++ [[]] ∧ c.Lacks n fed

variable {c : Cursor Bytes} {n : Nat} {chunk : Bytes} {chunks : List Bytes}

theorem lacks_nil_iff : c.Lacks n [] ↔ c.mode = .incomplete ∧ c.input.length < n := by
  constructor
  · intro h
    exact ⟨h.mode, by simpa using h.short⟩
  · rintro ⟨hmode, hshort⟩
    exact ⟨hmode, List.not_mem_nil, by simpa using hshort⟩

/-- The first chunk may as well have been in the buffer. -/
theorem lacks_cons_iff :
    c.Lacks n (chunk :: chunks) ↔ c.Lacks n [] ∧ (c.arrive chunk).Lacks n chunks := by
  have hbytes : (c.arrive chunk).input ++ chunks.flatten =
      c.input ++ (chunk :: chunks).flatten := by
    rw [arrive_input, List.flatten_cons, List.append_assoc]
  constructor
  · intro h
    have hshort := h.short
    obtain ⟨hchunk, hchunks⟩ := List.ne_and_not_mem_of_not_mem_cons h.goesOn
    have hmode : (c.arrive chunk).mode = .incomplete := by
      rw [arrive_mode, if_neg fun hempty => hchunk ((Bytes.isEmpty_iff chunk).1 hempty).symm]
    refine ⟨lacks_nil_iff.2 ⟨h.mode, ?_⟩, hmode, hchunks, by rwa [hbytes]⟩
    rw [List.length_append] at hshort
    omega
  · rintro ⟨hnow, hlater⟩
    refine ⟨hnow.mode, fun hmem => ?_, by rw [← hbytes]; exact hlater.short⟩
    rcases List.mem_cons.1 hmem with rfl | hmem
    · -- the empty chunk would have ended the input
      cases hlater.mode
    · exact hlater.goesOn hmem

theorem asks_cons_iff :
    c.Asks n (chunk :: chunks) ↔ c.Lacks n [] ∧ (c.arrive chunk).Asks n chunks := by
  constructor
  · rintro (hnil | ⟨fed, last, hchunks, hlacks⟩)
    · cases hnil
    · cases fed with
      | nil =>
          cases hchunks
          exact ⟨hlacks, .inl rfl⟩
      | cons first fed =>
          cases hchunks
          obtain ⟨hnow, hlater⟩ := lacks_cons_iff.1 hlacks
          exact ⟨hnow, .inr ⟨fed, last, rfl, hlater⟩⟩
  · rintro ⟨hnow, rfl | ⟨fed, last, rfl, hlater⟩⟩
    · exact .inr ⟨[], chunk, rfl, hnow⟩
    · exact .inr ⟨chunk :: fed, last, rfl, lacks_cons_iff.2 ⟨hnow, hlater⟩⟩

theorem Lacks.asks (h : c.Lacks n chunks) : c.Asks n chunks := by
  induction chunks generalizing c with
  | nil => exact .inl rfl
  | cons chunk chunks ih =>
      obtain ⟨hnow, hlater⟩ := lacks_cons_iff.1 h
      exact asks_cons_iff.2 ⟨hnow, ih hlater⟩

/-- Having got what it asked for, a demand waits on unless the input has ended or is enough. -/
theorem Asks.lacks_iff (h : c.Asks n chunks) :
    c.Lacks n chunks ↔
      (c.arriveAll chunks).mode = .incomplete ∧ (c.input ++ chunks.flatten).length < n := by
  induction chunks generalizing c with
  | nil => simpa using lacks_nil_iff
  | cons chunk chunks ih =>
      obtain ⟨hnow, hlater⟩ := asks_cons_iff.1 h
      rw [lacks_cons_iff, and_iff_right hnow, ih hlater, arriveAll_cons, arrive_input,
        List.append_assoc, List.flatten_cons]

/-- Having got what it asked for and enough of it, a demand is in the mode from before. -/
theorem Asks.mode_eq (h : c.Asks n chunks) (hn : n ≤ (c.input ++ chunks.flatten).length) :
    (c.arriveAll chunks).mode = c.mode := by
  rcases h with rfl | ⟨fed, last, rfl, hlacks⟩
  · rfl
  · have hlast : last ≠ [] := by
      rintro rfl
      have hshort := hlacks.short
      simp at hn hshort
      omega
    rw [arriveAll_append, arriveAll_cons, arriveAll_nil, arrive_mode, hlacks.mode,
      if_neg (mt (Bytes.isEmpty_iff last).1 hlast)]

/-- With too few bytes a demand waits on, until it meets the end of the input. -/
theorem meetsEnd_iff (hshort : (c.input ++ chunks.flatten).length < n) :
    c.MeetsEnd n chunks ↔ c.Asks n chunks ∧ ¬ c.Lacks n chunks := by
  constructor
  · rintro (⟨rfl, hmode⟩ | ⟨fed, rfl, hlacks⟩)
    · refine ⟨.inl rfl, fun h => ?_⟩
      have hincomplete := h.mode
      rw [hmode] at hincomplete
      cases hincomplete
    · exact ⟨.inr ⟨fed, [], rfl, hlacks⟩, fun h => h.goesOn (by simp)⟩
  · rintro ⟨rfl | ⟨fed, last, rfl, hlacks⟩, hover⟩
    · refine .inl ⟨rfl, ?_⟩
      cases hmode : c.mode with
      | complete => rfl
      | incomplete => exact (hover ⟨hmode, List.not_mem_nil, hshort⟩).elim
    · cases last with
      | nil => exact .inr ⟨fed, rfl, hlacks⟩
      | cons byte bytes =>
          refine (hover ⟨hlacks.mode, fun hmem => ?_, hshort⟩).elim
          rcases List.mem_append.1 hmem with hmem | hmem
          · exact hlacks.goesOn hmem
          · simp at hmem

/-- All that has arrived is in the buffer, and chunk for chunk in the record. -/
theorem arriveAll_eq (c : Cursor Bytes) (chunks : List Bytes) :
    c.arriveAll chunks =
      ⟨c.input ++ chunks.flatten, c.received chunks, (c.arriveAll chunks).mode, c.counter⟩ := by
  have hrecord := (Agrees.refl (c.arriveAll chunks)).record_eq_received
  have hinput := arriveAll_input c chunks
  have hcounter := arriveAll_counter c chunks
  generalize c.arriveAll chunks = later at hrecord hinput hcounter
  obtain ⟨input, record, mode, counter⟩ := later
  cases hrecord
  cases hinput
  cases hcounter
  rfl

end Cursor

namespace Decoder

variable {n : Nat} {c here : Cursor Bytes} {chunks : List Bytes}

/-- Having got the chunks that it asks for, a demand is the demand where it stands then. -/
theorem ensure_after_iff {later : Step Bytes (Ending Bytes Bytes)} :
    ((ensure n).outcome c).after chunks = some later ↔
      c.Asks n chunks ∧ later = (ensure n).outcome (c.arriveAll chunks) := by
  induction chunks generalizing c with
  | nil =>
      rw [Step.after_nil, Option.some.injEq, Cursor.arriveAll_nil, eq_comm]
      exact ⟨fun h => ⟨.inl rfl, h⟩, fun h => h.2⟩
  | cons chunk chunks ih =>
      rw [Cursor.asks_cons_iff, and_assoc, Cursor.arriveAll_cons, ← ih, Cursor.lacks_nil_iff]
      by_cases hn : Buffer.hasAtLeast c.input n = true
      · have henough : ¬ c.input.length < n :=
          Nat.not_lt.2 ((LawfulBuffer.hasAtLeast_iff c.input n).1 hn)
        rw [outcome_ensure_enough hn]
        exact ⟨nofun, fun h => (henough h.1.2).elim⟩
      · have hshort : c.input.length < n :=
          Nat.lt_of_not_le (mt (LawfulBuffer.hasAtLeast_iff c.input n).2 hn)
        cases hmode : c.mode with
        | complete =>
            rw [outcome_ensure_complete hn hmode]
            exact ⟨nofun, nofun⟩
        | incomplete =>
            obtain ⟨resume, hawait, hresume⟩ := ensure_await hn hmode
            rw [hawait, Step.after_await, hresume]
            exact ⟨fun h => ⟨⟨rfl, hshort⟩, h⟩, fun h => h.2⟩

/-- A demand has enough, or the input has ended, or it waits. -/
theorem ensure_outcome_cases (n : Nat) (c : Cursor Bytes) :
    (n ≤ c.input.length ∧ (ensure n).outcome c = .answer (.reached c c.input)) ∨
    (c.input.length < n ∧ c.mode = .complete ∧
      (ensure n).outcome c = .answer (.failed c .outOfInput)) ∨
    (c.input.length < n ∧ c.mode = .incomplete ∧ ∃ resume, (ensure n).outcome c = .await resume) := by
  by_cases hn : Buffer.hasAtLeast c.input n = true
  · exact .inl ⟨(LawfulBuffer.hasAtLeast_iff c.input n).1 hn, outcome_ensure_enough hn⟩
  · have hshort : c.input.length < n :=
      Nat.lt_of_not_le (mt (LawfulBuffer.hasAtLeast_iff c.input n).2 hn)
    refine .inr ?_
    cases hmode : c.mode with
    | complete => exact .inl ⟨hshort, rfl, outcome_ensure_complete hn hmode⟩
    | incomplete =>
        obtain ⟨resume, hawait, -⟩ := ensure_await hn hmode
        exact .inr ⟨hshort, rfl, resume, hawait⟩

theorem ensure_waits_iff : (ensure n : Decoder Bytes Bytes).Waits c chunks ↔ c.Lacks n chunks := by
  have hlook := ensure_outcome_cases n (c.arriveAll chunks)
  rw [Cursor.arriveAll_input] at hlook
  rw [(Linear.ensure n).waits_iff]
  constructor
  · rintro ⟨resume, hawait⟩
    obtain ⟨hasks, hlater⟩ := ensure_after_iff.1 hawait
    rcases hlook with ⟨-, hlook⟩ | ⟨-, -, hlook⟩ | ⟨hshort, hmode, -⟩
    · rw [hlook] at hlater
      cases hlater
    · rw [hlook] at hlater
      cases hlater
    · exact hasks.lacks_iff.2 ⟨hmode, hshort⟩
  · intro h
    obtain ⟨hmode, hshort⟩ := h.asks.lacks_iff.1 h
    rcases hlook with ⟨hn, -⟩ | ⟨-, hcomplete, -⟩ | ⟨-, -, resume, hlook⟩
    · omega
    · rw [hmode] at hcomplete
      cases hcomplete
    · exact ⟨resume, ensure_after_iff.2 ⟨h.asks, hlook.symm⟩⟩

theorem ensure_succeedsAt_iff {value : Bytes} :
    (ensure n).SucceedsAt c chunks here value ↔
      c.Asks n chunks ∧ n ≤ (c.input ++ chunks.flatten).length ∧
      here = ⟨c.input ++ chunks.flatten, c.received chunks, c.mode, c.counter⟩ ∧
      value = here.input := by
  have hlook := ensure_outcome_cases n (c.arriveAll chunks)
  rw [Cursor.arriveAll_input] at hlook
  rw [(Linear.ensure n).succeedsAt_iff, ensure_after_iff]
  refine and_congr_right fun hasks => ?_
  rcases hlook with ⟨hn, hlook⟩ | ⟨hshort, -, hlook⟩ | ⟨hshort, -, resume, hlook⟩
  · rw [hlook, ← hasks.mode_eq hn, ← Cursor.arriveAll_eq, and_iff_right hn]
    constructor
    · intro h
      cases h
      exact ⟨rfl, (Cursor.arriveAll_input c chunks).symm⟩
    · rintro ⟨rfl, rfl⟩
      rw [Cursor.arriveAll_input]
  · rw [hlook]
    exact ⟨nofun, fun h => (Nat.not_lt.2 h.1 hshort).elim⟩
  · rw [hlook]
    exact ⟨nofun, fun h => (Nat.not_lt.2 h.1 hshort).elim⟩

theorem ensure_failsAt_iff {failure : Failure} :
    (ensure n).FailsAt c chunks here failure ↔
      c.MeetsEnd n chunks ∧ (c.input ++ chunks.flatten).length < n ∧
      here = ⟨c.input ++ chunks.flatten, c.received chunks, .complete, c.counter⟩ ∧
      failure = .outOfInput := by
  have hlook := ensure_outcome_cases n (c.arriveAll chunks)
  rw [Cursor.arriveAll_input] at hlook
  rw [(Linear.ensure n).failsAt_iff, ensure_after_iff]
  rcases hlook with ⟨hn, hlook⟩ | ⟨hshort, hmode, hlook⟩ | ⟨hshort, hmode, resume, hlook⟩
  · rw [hlook]
    exact ⟨nofun, fun h => (Nat.not_lt.2 hn h.2.1).elim⟩
  · rw [hlook, and_iff_right hshort, Cursor.meetsEnd_iff hshort, and_assoc]
    refine and_congr_right fun hasks => ?_
    rw [hasks.lacks_iff, ← hmode, ← Cursor.arriveAll_eq, hmode]
    constructor
    · intro h
      cases h
      exact ⟨nofun, rfl, rfl⟩
    · rintro ⟨-, rfl, rfl⟩
      rfl
  · rw [hlook, Cursor.meetsEnd_iff hshort]
    exact ⟨nofun, fun h => (h.1.2 (h.1.1.lacks_iff.2 ⟨hmode, hshort⟩)).elim⟩

/-- Waiting for bytes is polling. The loop that looks at the buffer, demands a chunk if there are too
    few bytes and goes on, is one decoder and no other, and that is `ensure`. It waits as long as no
    chunk was empty and all together are too little. It succeeds with the first chunk that makes them
    enough, and passes on everything that has arrived: as the buffer, and chunk for chunk in the
    record, in the mode from before. It fails where the input has ended with too little, for lack of
    input, with the same buffer and record, and then the mode is complete. -/
theorem ensure_is_polling (n : Nat) :
    (∀ loop : Decoder Bytes Bytes, loop = pollRound n loop ↔ loop = ensure n) ∧
    (∀ (c : Cursor Bytes) (chunks : List Bytes),
      ((ensure n : Decoder Bytes Bytes).Waits c chunks ↔ c.Lacks n chunks) ∧
      (∀ (here : Cursor Bytes) (value : Bytes), (ensure n).SucceedsAt c chunks here value ↔
        c.Asks n chunks ∧ n ≤ (c.input ++ chunks.flatten).length ∧
        here = ⟨c.input ++ chunks.flatten, c.received chunks, c.mode, c.counter⟩ ∧
        value = here.input) ∧
      (∀ (here : Cursor Bytes) (failure : Failure),
        (ensure n : Decoder Bytes Bytes).FailsAt c chunks here failure ↔
          c.MeetsEnd n chunks ∧ (c.input ++ chunks.flatten).length < n ∧
          here = ⟨c.input ++ chunks.flatten, c.received chunks, .complete, c.counter⟩ ∧
          failure = .outOfInput)) ∧
    Failure.outOfInput.report = ⟨"too few bytes", ["demandInput"]⟩ := by
  refine ⟨fun loop => ⟨eq_ensure_of_eq_pollRound, ?_⟩, fun c chunks => ?_, rfl⟩
  · rintro rfl
    exact ensure_eq_pollRound n
  · exact ⟨ensure_waits_iff, fun _ _ => ensure_succeedsAt_iff, fun _ _ => ensure_failsAt_iff⟩

/-- Three bytes are missing, of which the first chunk brings one; the second brings one too many. -/
example :
    ((ensure 4).outcome (⟨[1], some [[9]], .incomplete, 0⟩ : Cursor Bytes)).after
        [[2], [3, 4, 5]] =
      some (.answer (.reached ⟨[1, 2, 3, 4, 5], some [[3, 4, 5], [2], [9]], .incomplete, 0⟩
        [1, 2, 3, 4, 5])) := by
  cbv

end Decoder

end StreamDecode
