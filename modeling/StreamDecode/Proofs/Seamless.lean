import StreamDecode.Proofs.Recording

set_option autoImplicit false

/-! # One chunk more at the start

A decoder that sees its input as a stream cannot tell whether a chunk arrived before it was run or
only when it asked for it: what it does on the longer buffer is what becomes of its run on the
shorter one when the chunk arrives (`Composed.seamless`). If it had ended before it asked, it ends
all the same, and the chunk stays behind what it left.

This is said of plain bytes, where appending is concatenation and draws no storage number. -/

namespace StreamDecode

variable {α γ : Type}

/-! ## Cursors over plain bytes -/

theorem Bytes.isEmpty_cons (byte : UInt8) (bytes : Bytes) :
    ¬ Buffer.isEmpty (byte :: bytes : Bytes) = true := by
  intro h
  cases (Buffer.isEmpty_iff (byte :: bytes : Bytes)).1 h

namespace Cursor

theorem arrive_cons (c : Cursor Bytes) (byte : UInt8) (bytes : Bytes) :
    c.arrive (byte :: bytes) =
      ⟨c.input ++ byte :: bytes, c.record.push (byte :: bytes), .incomplete, c.counter⟩ := by
  rw [arrive_of_not_isEmpty (Bytes.isEmpty_cons byte bytes), receive, Bytes.append_eq]

theorem arrive_input (c : Cursor Bytes) (chunk : Bytes) :
    (c.arrive chunk).input = c.input ++ chunk := by
  cases chunk with
  | nil => exact (List.append_nil c.input).symm
  | cons byte bytes => rw [arrive_cons]

theorem arrive_counter (c : Cursor Bytes) (chunk : Bytes) :
    (c.arrive chunk).counter = c.counter := by
  cases chunk with
  | nil => rfl
  | cons byte bytes => rw [arrive_cons]

/-- A cursor to which a chunk has arrived, but for the buffer. -/
theorem eq_arrive_with {c d : Cursor Bytes} {chunk : Bytes} (h : d.Agrees (c.arrive chunk))
    (hcounter : d.counter = c.counter) : d = { c.arrive chunk with input := d.input } := by
  rw [← arrive_counter c chunk] at hcounter
  obtain ⟨hrecord, hmode⟩ := h
  generalize c.arrive chunk = later at hrecord hmode hcounter ⊢
  obtain ⟨input, record, mode, counter⟩ := d
  cases hrecord
  cases hmode
  cases hcounter
  rfl

/-- A cursor to which a chunk has arrived, the buffer included. -/
theorem eq_arrive {c d : Cursor Bytes} {chunk : Bytes} (h : d.Agrees (c.arrive chunk))
    (hinput : d.input = c.input ++ chunk) (hcounter : d.counter = c.counter) :
    d = c.arrive chunk := by
  rw [eq_arrive_with h hcounter, hinput, ← arrive_input]

/-- Consuming from the buffer and then receiving a chunk, or the other way round. -/
theorem arrive_consume (c : Cursor Bytes) (rest chunk : Bytes) :
    { c.arrive chunk with input := rest ++ chunk } =
      ({ c with input := rest } : Cursor Bytes).arrive chunk := by
  have hagrees : c.Agrees { c with input := rest } := ⟨rfl, rfl⟩
  have hlater := hagrees.arrive chunk
  exact eq_arrive ⟨hlater.record, hlater.mode⟩ rfl (arrive_counter c chunk)

/-- Drawing storage numbers and then receiving a chunk, or the other way round. -/
theorem arrive_draw (c : Cursor Bytes) (counter : Nat) (chunk : Bytes) :
    { c.arrive chunk with counter } = ({ c with counter } : Cursor Bytes).arrive chunk := by
  have hagrees : c.Agrees { c with counter } := ⟨rfl, rfl⟩
  have hlater := hagrees.arrive chunk
  exact eq_arrive ⟨hlater.record, hlater.mode⟩ (arrive_input c chunk) rfl

/-- Rewinding joins the buffer from the entry with what was recorded. -/
theorem rewind_eq (entry c : Cursor Bytes) :
    entry.rewind c =
      ⟨entry.input ++ c.record.chunks.flatten, entry.record.merge c.record, c.mode, c.counter⟩ := by
  have hbytes : c.record.bytes c.counter = (c.record.chunks.flatten, c.counter) := by
    unfold Record.bytes
    split
    · next h => rw [h]; rfl
    · exact Bytes.join_eq _ _
  unfold rewind
  rw [hbytes]
  dsimp only
  rw [Bytes.append_eq]

/-- The record of a rewind point that a chunk has reached, seen from outside. -/
theorem merge_arrive (c : Cursor Bytes) (chunk : Bytes) (inner : Record Bytes) :
    c.record.merge ((c.enter.arrive chunk).record.merge inner) =
      (c.arrive chunk).record.merge inner := by
  cases chunk with
  | nil =>
      show c.record.merge (Record.merge (some []) inner) = c.record.merge inner
      rw [← Record.merge_merge, Record.merge_empty]
  | cons byte bytes =>
      rw [arrive_cons, arrive_cons]
      show c.record.merge (Record.merge (some [byte :: bytes]) inner) =
        (c.record.push (byte :: bytes)).merge inner
      rw [← Record.merge_merge]
      cases c.record <;> rfl

/-- A chunk that arrives after a rewind point was entered and before, the point being left. -/
theorem leave_leave_arrive (c after : Cursor Bytes) (chunk : Bytes) :
    c.leave ((c.enter.arrive chunk).leave after) = (c.arrive chunk).leave after := by
  show { after with record := c.record.merge ((c.enter.arrive chunk).record.merge after.record) } =
    ({ after with record := (c.arrive chunk).record.merge after.record } : Cursor Bytes)
  rw [merge_arrive]

/-- A chunk that arrives after a rewind point was entered and before, the point being rewound to. -/
theorem rewind_leave_arrive (c after : Cursor Bytes) (chunk : Bytes) :
    c.rewind ((c.enter.arrive chunk).leave after) = (c.arrive chunk).rewind after := by
  have hchunks : ((c.enter.arrive chunk).record.merge after.record).chunks.flatten =
      chunk ++ after.record.chunks.flatten := by
    cases chunk with
    | nil =>
        show ((after.record.getD [] ++ []).reverse).flatten = _
        rw [List.append_nil]
        rfl
    | cons byte bytes =>
        rw [arrive_cons]
        show ((after.record.getD [] ++ [byte :: bytes]).reverse).flatten = _
        rw [List.reverse_append]
        rfl
  have hrecord := merge_arrive c chunk after.record
  rw [rewind_eq, rewind_eq, arrive_input, List.append_assoc, ← hchunks, ← hrecord]
  rfl

/-- Leaving a rewind point with a chunk that has arrived at the end. -/
theorem leave_arrive (entry c : Cursor Bytes) (chunk : Bytes) (hc : c.record.isSome) :
    entry.leave (c.arrive chunk) = (entry.leave c).arrive chunk := by
  cases chunk with
  | nil => rfl
  | cons byte bytes =>
      have hempty := Bytes.isEmpty_cons byte bytes
      rw [arrive_of_not_isEmpty hempty, arrive_of_not_isEmpty hempty, leave_receive _ _ _ hc]

/-- Rewinding with a chunk that has arrived at the end; the buffer there does not matter. -/
theorem rewind_arrive (entry c : Cursor Bytes) (chunk rest : Bytes) (hc : c.record.isSome) :
    entry.rewind { c.arrive chunk with input := rest } = (entry.rewind c).arrive chunk := by
  obtain ⟨recorded, hrecorded⟩ := Option.isSome_iff_exists.1 hc
  rw [rewind_eq, rewind_eq]
  cases chunk with
  | nil => rfl
  | cons byte bytes =>
      rw [arrive_cons, arrive_cons, hrecorded]
      have hchunks : ((byte :: bytes) :: recorded).reverse.flatten =
          recorded.reverse.flatten ++ byte :: bytes := by
        rw [List.reverse_cons, List.flatten_append, List.flatten_singleton]
      show (⟨entry.input ++ ((byte :: bytes) :: recorded).reverse.flatten,
          entry.record.merge (some ((byte :: bytes) :: recorded)), .incomplete, c.counter⟩ :
        Cursor Bytes) = _
      rw [hchunks, ← List.append_assoc]
      cases entry.record <;> rfl

end Cursor

/-! ## Runs that absorb a chunk -/

/-- The second run is what becomes of the first when the chunk arrives. A run that has ended already
    ends all the same: with the chunk behind what it left, or, if it failed, with any buffer. -/
def Step.Absorbs (chunk : Bytes) : Step Bytes (Ending Bytes α) → Step Bytes (Ending Bytes α) → Prop
  | .answer (.reached c value), step => step = .answer (.reached (c.arrive chunk) value)
  | .answer (.failed c failure), step =>
      ∃ rest, step = .answer (.failed { c.arrive chunk with input := rest } failure)
  | .await resume, step => step = resume chunk
  | .adrift, _ => False

/-- Run on the buffer with one more chunk, the decoder does what becomes of its run without it. -/
def Decoder.Seamless (d : Decoder Bytes α) : Prop :=
  ∀ (c : Cursor Bytes) (chunk : Bytes), c.mode = .incomplete →
    (d.outcome c).Absorbs chunk (d.outcome (c.arrive chunk))

theorem Step.Absorbs.reached {c c' : Cursor Bytes} {chunk : Bytes} (h : c' = c.arrive chunk)
    (value : α) : (Step.answer (.reached c value)).Absorbs chunk (.answer (.reached c' value)) := by
  rw [h]
  rfl

theorem Step.Absorbs.failed {c c' : Cursor Bytes} {chunk : Bytes} (h : c'.Agrees (c.arrive chunk))
    (hcounter : c'.counter = c.counter) (failure : Failure) :
    (Step.answer (.failed c failure) : Step Bytes (Ending Bytes α)).Absorbs chunk
      (.answer (.failed c' failure)) :=
  ⟨c'.input, by rw [← Cursor.eq_arrive_with h hcounter]⟩

theorem Step.Absorbs.ite {chunk : Bytes} {p : Prop} [Decidable p]
    {step step' other other' : Step Bytes (Ending Bytes α)} (ht : p → step.Absorbs chunk step')
    (he : ¬ p → other.Absorbs chunk other') :
    (if p then step else other).Absorbs chunk (if p then step' else other') := by
  by_cases hp : p
  · rw [if_pos hp, if_pos hp]
    exact ht hp
  · rw [if_neg hp, if_neg hp]
    exact he hp

/-- Going on from a run that absorbs the chunk, with the same continuations. -/
theorem Step.Absorbs.settle {start : Cursor Bytes} {chunk : Bytes}
    {step step' : Step Bytes (Ending Bytes α)} {onFailure : OnFailure Bytes (Ending Bytes γ)}
    {onSuccess : OnSuccess Bytes α (Ending Bytes γ)} (h : step.Absorbs chunk step')
    (ht : step.Tracks start [])
    (hf : ∀ c failure rest, c.Agrees start →
      (onFailure c failure).Absorbs chunk
        (onFailure { c.arrive chunk with input := rest } failure))
    (hs : ∀ c value, c.Agrees start →
      (onSuccess c value).Absorbs chunk (onSuccess (c.arrive chunk) value)) :
    (step.settle onFailure onSuccess).Absorbs chunk (step'.settle onFailure onSuccess) := by
  cases step with
  | answer ending =>
      cases ending with
      | failed c failure =>
          obtain ⟨rest, rfl⟩ := h
          exact hf c failure rest ht
      | reached c value =>
          have hstep : step' = .answer (.reached (c.arrive chunk) value) := h
          rw [hstep]
          exact hs c value ht
  | await resume =>
      have hstep : step' = resume chunk := h
      rw [hstep]
      rfl
  | adrift => exact ht.elim

/-! ## Asking for bytes -/

namespace Decoder

/-- What `gather` does depends on the gathered bytes, not on the pieces that they came in. -/
theorem gathering_congr {c c' : Cursor Bytes} {gathered gathered' : List Bytes} (missing : Nat)
    (hrecord : c.record = c'.record) (hcounter : c.counter = c'.counter)
    (hbytes : gathered.reverse.flatten = gathered'.reverse.flatten) :
    gathering c gathered missing = gathering c' gathered' missing := by
  induction missing using Nat.strongRecOn generalizing c c' gathered gathered' with
  | _ missing ih =>
      have hmore : ∀ chunk : Bytes,
          (chunk :: gathered).reverse.flatten = (chunk :: gathered').reverse.flatten := by
        intro chunk
        rw [List.reverse_cons, List.reverse_cons, List.flatten_append, List.flatten_append, hbytes]
      rw [gathering, gathering, gather_eq_await, gather_eq_await]
      refine Step.await_congr fun chunk => ?_
      simp only [Bytes.join_eq]
      by_cases hsize : Buffer.size chunk = 0
      · rw [if_pos hsize, if_pos hsize, hbytes, hrecord, hcounter]
      · rw [if_neg hsize, if_neg hsize]
        by_cases henough : missing ≤ Buffer.size chunk
        · rw [if_pos henough, if_pos henough, hmore chunk, hrecord, hcounter]
        · rw [if_neg henough, if_neg henough]
          exact ih _ (by omega) (by rw [hrecord]) hcounter (hmore chunk)

/-- The chunk that `gather` waits for may as well have arrived before. -/
theorem ensure_await {n : Nat} {c : Cursor Bytes} (hn : ¬ Buffer.hasAtLeast c.input n = true)
    (hmode : c.mode = .incomplete) :
    ∃ resume, (ensure n).outcome c = .await resume ∧
      ∀ chunk, resume chunk = (ensure n).outcome (c.arrive chunk) := by
  rw [outcome_ensure_incomplete hn hmode, gathering, gather_eq_await]
  refine ⟨_, rfl, fun chunk => ?_⟩
  have hsize : c.input.length < n := by
    rw [LawfulBuffer.hasAtLeast_iff] at hn
    exact Nat.lt_of_not_le hn
  cases chunk with
  | nil =>
      -- the input has ended: both runs fail, with the pieces joined
      have hfinish : ¬ Buffer.hasAtLeast (c.arrive []).input n = true := hn
      rw [outcome_ensure_complete hfinish rfl, Bytes.join_eq]
      have hbytes : [c.input].reverse.flatten = c.input := by simp
      rw [hbytes]
      rfl
  | cons byte bytes =>
      have hbytes : ((byte :: bytes) :: [c.input]).reverse.flatten =
          c.input ++ byte :: bytes := by simp
      rw [Cursor.arrive_cons]
      simp only [Bytes.join_eq, hbytes]
      have hsome : ¬ Buffer.size (byte :: bytes : Bytes) = 0 := Nat.succ_ne_zero bytes.length
      rw [if_neg hsome]
      have hlength : (c.input ++ byte :: bytes).length =
          c.input.length + (byte :: bytes).length := List.length_append
      by_cases henough : n - c.input.length ≤ (byte :: bytes).length
      · have hall : Buffer.hasAtLeast (c.input ++ byte :: bytes) n = true := by
          rw [LawfulBuffer.hasAtLeast_iff]
          show n ≤ (c.input ++ byte :: bytes).length
          omega
        rw [outcome_ensure_enough hall]
        exact if_pos henough
      · -- still too few: `gather` keeps apart the pieces that are one buffer in the other run
        have hall : ¬ Buffer.hasAtLeast (c.input ++ byte :: bytes) n = true := by
          rw [LawfulBuffer.hasAtLeast_iff]
          show ¬ n ≤ (c.input ++ byte :: bytes).length
          omega
        rw [outcome_ensure_incomplete hall rfl]
        refine (if_neg henough).trans ?_
        have hmissing : n - (c.input ++ byte :: bytes).length =
            n - c.input.length - (byte :: bytes).length := by omega
        show gathering _ _ (n - c.input.length - (byte :: bytes).length) =
          gathering _ _ (n - (c.input ++ byte :: bytes).length)
        rw [hmissing]
        refine gathering_congr _ rfl rfl ?_
        rw [hbytes]
        simp

/-- Going on after a demand for bytes, with enough of them in the buffer. -/
theorem ensure_settle_absorbs {n : Nat} {start : Cursor Bytes} {chunk : Bytes}
    {onSuccess : OnSuccess Bytes Bytes (Ending Bytes γ)} (hmode : start.mode = .incomplete)
    (hs : n ≤ start.input.length →
      (onSuccess start start.input).Absorbs chunk
        (onSuccess (start.arrive chunk) (start.input ++ chunk))) :
    (((ensure n).outcome start).settle (fun c failure => .answer (.failed c failure))
      onSuccess).Absorbs chunk
      (((ensure n).outcome (start.arrive chunk)).settle
        (fun c failure => .answer (.failed c failure)) onSuccess) := by
  by_cases hn : Buffer.hasAtLeast start.input n = true
  · have hsize : n ≤ start.input.length := (LawfulBuffer.hasAtLeast_iff start.input n).1 hn
    have hmore : Buffer.hasAtLeast (start.arrive chunk).input n = true := by
      rw [LawfulBuffer.hasAtLeast_iff, Cursor.arrive_input]
      show n ≤ (start.input ++ chunk).length
      rw [List.length_append]
      omega
    rw [outcome_ensure_enough hn, outcome_ensure_enough hmore, Cursor.arrive_input]
    exact hs hsize
  · obtain ⟨resume, hawait, hresume⟩ := ensure_await hn hmode
    rw [hawait, ← hresume]
    rfl

end Decoder

/-! ## Windows -/

/-- Having recorded nothing inside a window, the run agrees outside with the cursor before it. -/
theorem Cursor.agrees_outside (outer : Cursor Bytes) {inner : Cursor Bytes} (rest : Bytes)
    (hinner : inner.record = some []) :
    ({ outer.leave inner with input := rest, mode := outer.mode } : Cursor Bytes).Agrees outer := by
  refine ⟨?_, rfl⟩
  show outer.record.merge inner.record = outer.record
  rw [hinner, Record.merge_empty]

/-- A window that is in the buffer already is the same when a chunk has arrived behind it. -/
theorem Composed.inWindow_absorbs {access : Access} {d : Decoder Bytes α} (h : Composed access d)
    {n : Nat} {outer : Cursor Bytes} (chunk : Bytes) (hn : n ≤ outer.input.length) :
    (Decoder.inWindow n d outer outer.input).Absorbs chunk
      (Decoder.inWindow n d (outer.arrive chunk) (outer.input ++ chunk)) := by
  let window : Cursor Bytes := { outer with input := outer.input.take n, mode := .complete }
  let window' : Cursor Bytes :=
    { outer.arrive chunk with input := (outer.input ++ chunk).take n, mode := .complete }
  have henter : window'.enter = window.enter := by
    show (⟨(outer.input ++ chunk).take n, some [], .complete, (outer.arrive chunk).counter⟩ :
      Cursor Bytes) = ⟨outer.input.take n, some [], .complete, outer.counter⟩
    rw [List.take_append_of_le_length hn, Cursor.arrive_counter]
  -- inside, both runs are the one that starts with an empty record
  obtain ⟨ending, hanswer, hagrees⟩ := (h.tracks window.enter).eq_answer rfl
  have hrun : d.outcome window = .answer (ending.leave window) := by
    rw [h.outcome_enter, hanswer]
    rfl
  have hrun' : d.outcome window' = .answer (ending.leave window') := by
    rw [h.outcome_enter, henter, hanswer]
    rfl
  -- and outside again, their cursors differ by the chunk
  have hback : ∀ (inner : Cursor Bytes) (rest rest' : Bytes), inner.record = some [] →
      ({ window'.leave inner with input := rest', mode := (outer.arrive chunk).mode } :
        Cursor Bytes).Agrees
      (({ window.leave inner with input := rest, mode := outer.mode } :
        Cursor Bytes).arrive chunk) := by
    intro inner rest rest' hrecord
    have houter := Cursor.agrees_outside outer rest hrecord
    have hlater := Cursor.agrees_outside (outer.arrive chunk) rest' hrecord
    exact hlater.trans (houter.arrive chunk).symm
  show ((d.outcome window).settle _ _).Absorbs chunk ((d.outcome window').settle _ _)
  rw [hrun, hrun']
  cases ending with
  | failed inner failure =>
      exact .failed (hback inner inner.input inner.input hagrees.record) rfl failure
  | reached inner value =>
      show Step.Absorbs chunk (if Buffer.isEmpty inner.input = true then _ else _)
        (if Buffer.isEmpty inner.input = true then _ else _)
      refine .ite (fun _ => ?_) (fun _ => ?_)
      · refine .reached (Cursor.eq_arrive (hback inner _ _ hagrees.record) ?_ rfl) value
        exact List.drop_append_of_le_length hn
      · exact .failed (hback inner inner.input inner.input hagrees.record) rfl _

/-! ## All decoders that see a stream -/

/-- What runs in a rewind point does the same whether a chunk arrives just before the point is
    entered or just after. -/
theorem Composed.settle_enter_arrive {access : Access} {d : Decoder Bytes α} (h : Composed access d)
    (c : Cursor Bytes) (chunk : Bytes) {ρ : Type} (onFailure : OnFailure Bytes ρ)
    (onSuccess : OnSuccess Bytes α ρ) :
    (d.outcome (c.enter.arrive chunk)).settle onFailure onSuccess =
      (d.outcome (c.arrive chunk).enter).settle
        (fun inner failure => onFailure ((c.enter.arrive chunk).leave inner) failure)
        (fun inner value => onSuccess ((c.enter.arrive chunk).leave inner) value) := by
  have henter : (c.enter.arrive chunk).enter = (c.arrive chunk).enter := by
    cases chunk with
    | nil => rfl
    | cons byte bytes => rw [Cursor.arrive_cons, Cursor.arrive_cons]; rfl
  rw [h.outcome_enter (c.enter.arrive chunk), henter, Step.settle_map_leave]

theorem Composed.orElse_arrive {access : Access} {first : Decoder Bytes α}
    (h : Composed access first) (second : Decoder Bytes α) (c : Cursor Bytes) (chunk : Bytes) :
    (first.orElse second).outcome (c.arrive chunk) =
      (first.outcome (c.enter.arrive chunk)).settle
        (fun failed _ => second.outcome (c.rewind failed))
        (fun after value => .answer (.reached (c.leave after) value)) := by
  rw [Decoder.outcome_orElse h.linear, h.settle_enter_arrive]
  simp only [Cursor.rewind_leave_arrive, Cursor.leave_leave_arrive]

theorem Composed.lookAheadIf_arrive {access : Access} {d : Decoder Bytes α} (h : Composed access d)
    (rewinds : α → Bool) (c : Cursor Bytes) (chunk : Bytes) :
    (d.lookAheadIf rewinds).outcome (c.arrive chunk) =
      (d.outcome (c.enter.arrive chunk)).settle
        (fun failed failure => .answer (.failed (c.rewind failed) failure))
        (fun after value =>
          .answer (.reached (if rewinds value then c.rewind after else c.leave after) value)) := by
  rw [Decoder.outcome_lookAheadIf h.linear, h.settle_enter_arrive]
  simp only [Cursor.rewind_leave_arrive, Cursor.leave_leave_arrive]

/-- Decoders that see their input as a stream cannot tell when a chunk arrived. -/
theorem Composed.seamless {access : Access} {d : Decoder Bytes α} (h : Composed access d)
    (haccess : access = .stream) : d.Seamless := by
  induction h with
  | pure value => exact fun c chunk hmode => .reached rfl value
  | failFor plain => exact fun c chunk hmode => .failed (.refl _) (Cursor.arrive_counter c chunk) _
  | bind hd hn ihd ihn =>
      intro c chunk hmode
      rw [Decoder.outcome_bind hd.linear, Decoder.outcome_bind hd.linear]
      exact (ihd haccess c chunk hmode).settle (hd.tracks c) (fun c failure rest _ => ⟨rest, rfl⟩)
        (fun c value hc => ihn value haccess c chunk (hc.mode.trans hmode))
  | label name hd ihd =>
      intro c chunk hmode
      rw [Decoder.outcome_label hd.linear, Decoder.outcome_label hd.linear]
      exact (ihd haccess c chunk hmode).settle (hd.tracks c) (fun c failure rest _ => ⟨rest, rfl⟩)
        (fun c value _ => .reached rfl value)
  | orElse hf hs ihf ihs =>
      intro c chunk hmode
      rw [Decoder.outcome_orElse hf.linear, hf.orElse_arrive]
      -- now both runs are of the first decoder inside this choice, without the chunk and with it
      refine (ihf haccess c.enter chunk hmode).settle (hf.tracks c.enter)
        (fun failed failure rest hfailed => ?_) (fun after value hafter => ?_)
      · have hsome : failed.record.isSome := by rw [hfailed.record]; rfl
        rw [Cursor.rewind_arrive c failed chunk rest hsome]
        exact ihs haccess (c.rewind failed) chunk (hfailed.mode.trans hmode)
      · have hsome : after.record.isSome := by rw [hafter.record]; rfl
        exact .reached (Cursor.leave_arrive c after chunk hsome) value
  | lookAheadIf rewinds hd ihd =>
      intro c chunk hmode
      rw [Decoder.outcome_lookAheadIf hd.linear, hd.lookAheadIf_arrive]
      refine (ihd haccess c.enter chunk hmode).settle (hd.tracks c.enter)
        (fun failed failure rest hfailed => ?_) (fun after value hafter => ?_)
      · have hsome : failed.record.isSome := by rw [hfailed.record]; rfl
        rw [Cursor.rewind_arrive c failed chunk rest hsome]
        exact .failed (.refl _) (Cursor.arrive_counter _ chunk) failure
      · have hsome : after.record.isSome := by rw [hafter.record]; rfl
        refine .reached ?_ value
        cases rewinds value with
        | true => exact Cursor.rewind_arrive c after chunk _ hsome
        | false => exact Cursor.leave_arrive c after chunk hsome
  | isolate n hd ihd =>
      intro c chunk hmode
      rw [Decoder.outcome_isolate hd.linear, Decoder.outcome_isolate hd.linear]
      split
      · exact .failed (.refl _) (Cursor.arrive_counter c chunk) _
      · exact Decoder.ensure_settle_absorbs hmode fun hn => hd.inWindow_absorbs chunk hn
  | getBytes n =>
      intro c chunk hmode
      rw [Decoder.outcome_getBytes, Decoder.outcome_getBytes]
      refine Decoder.ensure_settle_absorbs hmode fun hn => ?_
      have htake : Buffer.take (c.input ++ chunk) n = Buffer.take c.input n :=
        List.take_append_of_le_length hn
      have hrest : Buffer.drop (c.input ++ chunk) n = Buffer.drop c.input n ++ chunk :=
        List.drop_append_of_le_length hn
      rw [htake, hrest]
      exact .reached (Cursor.arrive_consume c _ chunk) _
  | @allocate access α make grows =>
      intro c chunk hmode
      show Step.Absorbs chunk (.answer (.reached { c with counter := (make c.counter).2 } _))
        (.answer (.reached { c.arrive chunk with counter := (make (c.arrive chunk).counter).2 }
          (make (c.arrive chunk).counter).1))
      rw [Cursor.arrive_counter]
      exact .reached (Cursor.arrive_draw c _ chunk) _
  | getInput looks => exact (looks haccess).elim
  | demandInput looks => exact (looks haccess).elim
  | ensure looks n => exact (looks haccess).elim
  | uncheckedSkip looks n => exact (looks haccess).elim
  | putInput rewrites input =>
      rw [haccess] at rewrites
      cases rewrites

end StreamDecode
