import Mathlib.Algebra.Ring.Nat
import StreamDecode.Proofs.Results

set_option autoImplicit false

/-! # No byte is lost, invented or duplicated

What a composed decoder leaves in the buffer when it succeeds is a suffix of all that it was given:
the buffer at its start, followed by the chunks that have arrived since. Rewinding is where bytes
could be lost or doubled; that it brings back exactly what has arrived is `Cursor.rewind` together
with the record that `Composed.tracks` keeps track of.

That runs leave a suffix is one thing of several that can be said of what they leave: another is how
much it is by size, which is not the number of bytes where windows stick out of their storage. Such a
relation holds of all runs if the operations of a buffer respect it (`Leftover`, `Composed.leaves`).

A decoder that puts bytes of its own in place of the buffer is the exception. -/

namespace StreamDecode

variable {β α γ : Type} [Buffer β]

/-! ## What may be left -/

/-- The operations of decoders respect the relation: `K s fed t` says that from the buffer `s`, with
    the chunks `fed` having arrived behind it, there may be left `t`. -/
structure Leftover (K : β → List β → β → Prop) : Prop where
  start (s : β) : K s [] s
  onward {s t u : β} {fed more : List β} (first : K s fed t) (later : K t more u) :
    K s (fed ++ more) u
  drop (s : β) (n : Nat) : K s [] (Buffer.drop s n)
  receive (c : Cursor β) (chunk : β) : K c.input [chunk] (c.receive chunk).input
  join (counter : Nat) (s : β) (fed : List β) : K s fed (Buffer.join counter (s :: fed)).1
  rewind {c d : Cursor β} {fed : List β} (h : d.Agrees (c.enter.arriveAll fed)) :
    K c.input fed (c.rewind d).input

variable {K : β → List β → β → Prop} {s : β} {fed : List β}

omit [Buffer β] in
/-- Where the run, begun on the buffer `s` and fed some chunks already, ends with a value, it leaves
    what it may. -/
def Step.Leaves (K : β → List β → β → Prop) (s : β) (step : Step β (Ending β α)) (fed : List β) :
    Prop :=
  step.Obeys (fun _ => True)
    (fun fed ending => match ending with
      | .failed _ _ => True
      | .reached c _ => K s fed c.input) fed

omit [Buffer β] in
/-- Every run of the decoder leaves what it may. -/
def Decoder.Leaves (K : β → List β → β → Prop) (d : Decoder β α) : Prop :=
  ∀ c, (d.outcome c).Leaves K c.input []

/-- A run that goes on with what an earlier part has left. -/
theorem Decoder.Leaves.onward {d : Decoder β α} (h : d.Leaves K) (hK : Leftover K) {c : Cursor β}
    (hc : K s fed c.input) : (d.outcome c).Leaves K s fed := by
  have hshift : (d.outcome c).Leaves K s (fed ++ []) := by
    refine Step.Obeys.shift ((h c).mono (fun _ _ => trivial) (fun more ending he => ?_))
    cases ending with
    | failed c' failure => trivial
    | reached c' value => exact hK.onward hc he
  rwa [List.append_nil] at hshift

omit [Buffer β] in
/-- Going on from the endings of a run: only where it succeeded does the buffer matter, and there it
    is what may be left. -/
theorem Step.Leaves.settle {step : Step β (Ending β α)} {onFailure : OnFailure β (Ending β γ)}
    {onSuccess : OnSuccess β α (Ending β γ)} (h : step.Leaves K s fed)
    (hf : ∀ fed c failure, (onFailure c failure).Leaves K s fed)
    (hs : ∀ fed c value, K s fed c.input → (onSuccess c value).Leaves K s fed) :
    (step.settle onFailure onSuccess).Leaves K s fed := by
  refine h.bind (fun _ _ => trivial) (fun fed ending he => ?_)
  cases ending with
  | failed c failure => exact hf fed c failure
  | reached c value => exact hs fed c value he

/-- A body that is run inside a rewind point: what holds where it ends, seen from outside. -/
theorem Step.Leaves.settle_enter {start : Cursor β} {step : Step β (Ending β α)}
    {onFailure : OnFailure β (Ending β γ)} {onSuccess : OnSuccess β α (Ending β γ)}
    (h : step.Leaves K start.input []) (ht : step.Tracks start.enter [])
    (hf : ∀ fed c failure, c.Agrees (start.enter.arriveAll fed) →
      (onFailure c failure).Leaves K start.input fed)
    (hs : ∀ fed c value, c.Agrees (start.enter.arriveAll fed) → K start.input fed c.input →
      (onSuccess c value).Leaves K start.input fed) :
    (step.settle onFailure onSuccess).Leaves K start.input [] := by
  refine (ht.and h).bind (fun _ _ => trivial) (fun fed ending he => ?_)
  cases ending with
  | failed c failure => exact hf fed c failure he.1
  | reached c value => exact hs fed c value he.1 he.2

namespace Decoder

/-- What was gathered may be left, once it is joined. -/
theorem gathering_leaves (hK : Leftover K) {c : Cursor β} {gathered : List β} {missing : Nat}
    (hgathered : gathered.reverse = s :: fed) : (gathering c gathered missing).Leaves K s fed := by
  induction missing using Nat.strongRecOn generalizing c fed gathered with
  | _ missing ih =>
      rw [gathering, gather_eq_await]
      refine ⟨trivial, fun chunk => ?_⟩
      have hmore : (chunk :: gathered).reverse = s :: (fed ++ [chunk]) := by
        rw [List.reverse_cons, hgathered, List.cons_append]
      dsimp only
      split
      · trivial
      · split
        · show K s (fed ++ [chunk]) (Buffer.join c.counter (chunk :: gathered).reverse).1
          rw [hmore]
          exact hK.join c.counter s (fed ++ [chunk])
        · exact ih _ (by omega) hmore

theorem ensure_leaves (hK : Leftover K) (n : Nat) : (ensure n : Decoder β β).Leaves K := by
  intro start
  by_cases hn : Buffer.hasAtLeast start.input n = true
  · rw [outcome_ensure_enough hn]
    exact hK.start start.input
  · cases hmode : start.mode with
    | complete =>
        rw [outcome_ensure_complete hn hmode]
        trivial
    | incomplete =>
        rw [outcome_ensure_incomplete hn hmode]
        exact gathering_leaves hK rfl

/-- Going on after a demand for bytes, with what the demand may leave. -/
theorem ensure_settle_leaves [LawfulBuffer β] (hK : Leftover K) {n : Nat} {start : Cursor β}
    {onSuccess : OnSuccess β β (Ending β γ)}
    (hs : ∀ fed c, K start.input fed c.input → (onSuccess c c.input).Leaves K start.input fed) :
    (((ensure n).outcome start).settle (fun c failure => .answer (.failed c failure))
      onSuccess).Leaves K start.input [] := by
  refine ((ensure_gathers n start).and (ensure_leaves hK n start)).bind (fun _ _ => trivial)
    (fun fed ending he => ?_)
  cases ending with
  | failed c failure => trivial
  | reached c input =>
      obtain ⟨⟨_, _, rfl⟩, hleft⟩ := he
      exact hs fed c hleft

end Decoder

/-! ## All composed decoders -/

variable [LawfulBuffer β]

/-- Composed decoders that do not replace the buffer leave what the operations of a buffer may. -/
theorem Composed.leaves {access : Access} {d : Decoder β α} (h : Composed access d)
    (haccess : access ≠ .rewrite) (hK : Leftover K) : d.Leaves K := by
  have hdropped {s : β} {fed : List β} {c : Cursor β} (hc : K s fed c.input) (n : Nat) :
      K s fed (Buffer.drop c.input n) := by
    have hlater := hK.onward hc (hK.drop c.input n)
    rwa [List.append_nil] at hlater
  induction h with
  | pure value => exact fun start => hK.start start.input
  | failFor plain => exact fun start => trivial
  | bind hd hn ihd ihn =>
      intro start
      rw [Decoder.outcome_bind hd.linear]
      -- what arrives later comes behind what was left
      exact (ihd haccess start).settle (fun _ _ _ => trivial)
        (fun _ _ value hc => (ihn value haccess).onward hK hc)
  | label name hd ihd =>
      intro start
      rw [Decoder.outcome_label hd.linear]
      exact (ihd haccess start).settle (fun _ _ _ => trivial) (fun _ _ _ hc => hc)
  | orElse hf hs ihf ihs =>
      intro start
      rw [Decoder.outcome_orElse hf.linear]
      refine Step.Leaves.settle_enter (ihf haccess start.enter) (hf.tracks start.enter)
        (fun fed failed failure hfailed => ?_) (fun _ _ _ _ hc => hc)
      -- the second decoder starts on all that has arrived, whatever the first one consumed
      exact (ihs haccess).onward hK (hK.rewind hfailed)
  | lookAheadIf rewinds hd ihd =>
      intro start
      rw [Decoder.outcome_lookAheadIf hd.linear]
      refine Step.Leaves.settle_enter (ihd haccess start.enter) (hd.tracks start.enter)
        (fun _ _ _ _ => trivial) (fun fed c value hagrees hc => ?_)
      cases rewinds value with
      | true => exact hK.rewind hagrees
      | false => exact hc
  | isolate n hd ihd =>
      intro start
      rw [Decoder.outcome_isolate hd.linear]
      split
      · trivial
      · -- whatever the window does to the buffer, the rest behind it takes its place
        refine Decoder.ensure_settle_leaves hK fun fed c hc => ?_
        obtain ⟨ending, hanswer, _, hrest⟩ :=
          Decoder.inWindow_eq_answer hd.tracks n.toNat c c.input
        rw [hanswer]
        cases ending with
        | failed c' failure => trivial
        | reached c' value =>
            show K start.input fed c'.input
            rw [hrest c' value rfl]
            exact hdropped hc n.toNat
  | getBytes n =>
      intro start
      rw [Decoder.outcome_getBytes]
      exact Decoder.ensure_settle_leaves hK fun fed c hc => hdropped hc n
  | allocate grows => exact fun start => hK.start start.input
  | getInput looks => exact fun start => hK.start start.input
  | demandInput looks =>
      intro start
      cases hmode : start.mode with
      | complete =>
          rw [Decoder.outcome_demandInput_complete hmode]
          trivial
      | incomplete =>
          rw [Decoder.outcome_demandInput_incomplete hmode]
          refine ⟨trivial, fun chunk => ?_⟩
          dsimp only
          split
          · trivial
          · exact hK.receive start chunk
  | ensure looks n => exact Decoder.ensure_leaves hK n
  | uncheckedSkip looks n => exact fun start => hK.drop start.input n
  | putInput rewrites input => exact (haccess rewrites).elim

/-! ## A suffix of what was given -/

omit [Buffer β] [LawfulBuffer β] in
theorem suffix_of_eq {s t : List β} (h : s = t) : s <:+ t := h ▸ List.suffix_rfl

/-- A suffix of the bytes of a buffer and of the chunks behind it may be left. -/
theorem Leftover.suffix : Leftover fun (s : β) fed t =>
    Buffer.toBytes t <:+ Buffer.toBytes s ++ fed.flatMap Buffer.toBytes where
  start s := by
    refine suffix_of_eq ?_
    rw [List.flatMap_nil, List.append_nil]
  onward first later := by
    rw [List.flatMap_append, ← List.append_assoc]
    exact later.trans ((List.suffix_append_inj_of_length_eq rfl).2 ⟨first, rfl⟩)
  drop s n := by
    rw [List.flatMap_nil, List.append_nil, LawfulBuffer.toBytes_drop]
    exact List.drop_suffix _ _
  receive c chunk := by
    refine suffix_of_eq ?_
    rw [List.flatMap_singleton]
    exact Buffer.toBytes_append c.counter c.input chunk
  join counter s fed := by
    refine suffix_of_eq ?_
    rw [Buffer.toBytes_join, List.flatMap_cons]
  rewind h := by
    refine suffix_of_eq ?_
    rw [Cursor.toBytes_rewind_arriveAll h, Cursor.toBytes_arriveAll]

/-- Where the run, started at `start` and fed some chunks already, ends with a value, it leaves a
    suffix of all that has arrived. -/
def Step.Conserves (start : Cursor β) (step : Step β (Ending β α)) (fed : List β) : Prop :=
  step.Obeys (fun _ => True)
    (fun fed ending => match ending with
      | .failed _ _ => True
      | .reached c _ => Buffer.toBytes c.input <:+ Buffer.toBytes (start.arriveAll fed).input) fed

/-- Every run of the decoder leaves a suffix of all that it was given. -/
def Decoder.Conserves (d : Decoder β α) : Prop := ∀ start, (d.outcome start).Conserves start []

/-- Composed decoders that do not replace the buffer leave a suffix of all that they were given. -/
theorem Composed.conserves {access : Access} {d : Decoder β α} (h : Composed access d)
    (haccess : access ≠ .rewrite) : d.Conserves := by
  intro start
  refine (h.leaves haccess Leftover.suffix start).mono (fun _ _ => trivial) (fun fed ending he => ?_)
  cases ending with
  | failed c failure => trivial
  | reached c value =>
      show Buffer.toBytes c.input <:+ Buffer.toBytes (start.arriveAll fed).input
      rw [Cursor.toBytes_arriveAll]
      exact he

/-! ## No more than was given -/

section

omit [LawfulBuffer β]

variable [SizedBuffer β]

namespace Buffer

theorem size_append_le (counter : Nat) (s t : β) :
    size (append counter s t).1 ≤ size s + size t := by
  unfold append
  split
  · exact Nat.le_add_right _ _
  · split
    · exact Nat.le_add_left _ _
    · have hs := SizedBuffer.length_toBytes_le s
      have ht := SizedBuffer.length_toBytes_le t
      rw [SizedBuffer.size_store, List.length_append]
      omega

theorem length_flatMap_toBytes_le (pieces : List β) :
    (pieces.flatMap toBytes).length ≤ (pieces.map size).sum := by
  induction pieces with
  | nil => exact Nat.le_refl 0
  | cons piece pieces ih =>
      have hpiece := SizedBuffer.length_toBytes_le piece
      rw [List.flatMap_cons, List.length_append, List.map_cons, List.sum_cons]
      omega

omit [SizedBuffer β] in
theorem sum_size_filter_le (p : β → Bool) (pieces : List β) :
    ((pieces.filter p).map size).sum ≤ (pieces.map size).sum := by
  induction pieces with
  | nil => exact Nat.le_refl 0
  | cons piece pieces ih =>
      rw [List.filter_cons, List.map_cons, List.sum_cons]
      split
      · rw [List.map_cons, List.sum_cons]
        exact Nat.add_le_add_left ih _
      · omega

theorem size_join_le (counter : Nat) (pieces : List β) :
    size (join counter pieces).1 ≤ (pieces.map size).sum := by
  refine Nat.le_trans ?_ (sum_size_filter_le (!isEmpty ·) pieces)
  unfold join
  split
  · next piece h =>
      have hsum : ((pieces.filter (!isEmpty ·)).map size).sum = size piece := by
        rw [h, List.map_singleton, List.sum_singleton]
      exact Nat.le_of_eq hsum.symm
  · rw [SizedBuffer.size_store]
    exact length_flatMap_toBytes_le _

end Buffer

theorem Record.size_bytes_le (counter : Nat) (record : Record β) :
    Buffer.size (record.bytes counter).1 ≤ (record.chunks.map Buffer.size).sum := by
  unfold bytes
  split
  · rw [SizedBuffer.size_absent]
    exact Nat.zero_le _
  · exact Buffer.size_join_le counter _

/-- What is left is not larger than the buffer and the chunks behind it are together. -/
theorem Leftover.size : Leftover fun (s : β) fed t =>
    Buffer.size t ≤ Buffer.size s + (fed.map Buffer.size).sum where
  start s := Nat.le_add_right _ _
  onward first later := by
    rw [List.map_append, List.sum_append_nat]
    omega
  drop s n := by
    rw [SizedBuffer.size_drop]
    exact Nat.le_trans (Nat.sub_le _ _) (Nat.le_add_right _ _)
  receive c chunk := by
    rw [List.map_singleton, List.sum_singleton]
    exact Buffer.size_append_le c.counter c.input chunk
  join counter s fed := by
    have hjoin := Buffer.size_join_le counter (s :: fed)
    rwa [List.map_cons, List.sum_cons] at hjoin
  rewind {c d fed} h := by
    have hchunks : d.record.chunks = fed.filter (!Buffer.isEmpty ·) := by
      rw [Cursor.enter_record h, Record.chunks, Option.getD_some, List.reverse_reverse]
    have hrecorded : (d.record.chunks.map Buffer.size).sum ≤ (fed.map Buffer.size).sum := by
      rw [hchunks]
      exact Buffer.sum_size_filter_le _ fed
    have hbytes := Record.size_bytes_le d.counter d.record
    have happend := Buffer.size_append_le (d.record.bytes d.counter).2 c.input
      (d.record.bytes d.counter).1
    exact Nat.le_trans happend (Nat.add_le_add_left (Nat.le_trans hbytes hrecorded) _)

end

/-! ## Results -/

theorem Composed.start_conserves {access : Access} {d : Decoder β α} (h : Composed access d)
    (haccess : access ≠ .rewrite) {mode : InputMode} {input leftover : β} {chunks unfed : List β}
    {value : α} (hdone : (d.start mode input).feedPending chunks = (.done value leftover, unfed)) :
    ∃ fed consumed, chunks = fed ++ unfed ∧
      consumed ++ Buffer.toBytes leftover =
        Buffer.toBytes input ++ fed.flatMap Buffer.toBytes := by
  obtain ⟨fed, later, hchunks, hafter, hresult⟩ :=
    Result.feedPending_ofStep (d.outcome (.start mode input)) chunks
  have hrun : (Result.ofStep (d.outcome (.start mode input))).feedPending chunks =
      (.done value leftover, unfed) := hdone
  rw [hrun] at hchunks hresult
  obtain ⟨c, hanswer, rfl⟩ := Result.ofStep_eq_done hresult.symm
  rw [hanswer] at hafter
  have hsuffix : Buffer.toBytes c.input <:+
      Buffer.toBytes ((Cursor.start mode input).arriveAll fed).input :=
    (h.conserves haccess (.start mode input)).after hafter
  obtain ⟨consumed, hconsumed⟩ := hsuffix
  rw [Cursor.toBytes_arriveAll] at hconsumed
  exact ⟨fed, consumed, hchunks, hconsumed⟩

/-- No byte is lost, invented or duplicated: where a run is done, piecewise or over a complete
    input, what it leaves over is what follows a consumed part in all the bytes that it was given.
    The chunks that were offered when it was done already are `unfed`. -/
theorem Composed.leftover_suffix {access : Access} {d : Decoder β α} (h : Composed access d)
    (haccess : access ≠ .rewrite) :
    (∀ mode input chunks value leftover unfed,
      (d.start mode input).feedPending chunks = (.done value leftover, unfed) →
      ∃ fed consumed, chunks = fed ++ unfed ∧
        consumed ++ Buffer.toBytes leftover =
          Buffer.toBytes input ++ fed.flatMap Buffer.toBytes) ∧
    (∀ input position value rest, d.runWithRemainder input position = .ok (value, rest) →
      ∃ consumed, consumed ++ Buffer.toBytes rest = (Buffer.toBytes input).drop position) := by
  refine ⟨fun mode input chunks value leftover unfed hdone => h.start_conserves haccess hdone,
    fun input position value rest hrun => ?_⟩
  have hstart : d.start .complete (Buffer.drop input position) = .done value rest :=
    Result.toExcept_eq_ok hrun
  -- a complete run is a piecewise one that is fed nothing
  have hdone : (d.start .complete (Buffer.drop input position)).feedPending [] =
      (.done value rest, []) := by
    rw [Result.feedPending_nil, hstart]
  obtain ⟨fed, consumed, hchunks, hbytes⟩ := h.start_conserves haccess hdone
  obtain ⟨rfl, -⟩ := List.append_eq_nil_iff.1 hchunks.symm
  rw [List.flatMap_nil, List.append_nil, LawfulBuffer.toBytes_drop] at hbytes
  exact ⟨consumed, hbytes⟩

/-- An untagged frame in five chunks: the first four bytes are read twice, the next two as well, and
    the last chunk is not asked for. -/
theorem frame_leftover_suffix :
    (Decoder.frame.start .incomplete [0xAB]).feedPending [[1], [2, 3], [4, 5, 6, 7, 8], [9]] =
        (.done (50463147, 1029, [1798, 1284]) [8], [[9]]) ∧
      ∃ fed consumed, [[1], [2, 3], [4, 5, 6, 7, 8], [9]] = fed ++ [[9]] ∧
        consumed ++ [8] = [0xAB] ++ fed.flatMap (Buffer.toBytes (β := Bytes)) := by
  have hdone : (Decoder.frame.start .incomplete [0xAB]).feedPending
      [[1], [2, 3], [4, 5, 6, 7, 8], [9]] = (.done (50463147, 1029, [1798, 1284]) [8], [[9]]) := by
    cbv
  have haccess : Access.buffer ≠ .rewrite := by decide
  exact ⟨hdone, (Composed.frame.leftover_suffix haccess).1 _ _ _ _ _ _ hdone⟩

end StreamDecode
