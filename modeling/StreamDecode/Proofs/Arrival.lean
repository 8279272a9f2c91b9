import StreamDecode.Cursor
import StreamDecode.Proofs.LawfulBuffer

set_option autoImplicit false

/-! # What the chunks that arrive make of a cursor

While a run goes on, chunks arrive; the empty one ends the input. `Cursor.arriveAll` is what they
make of the cursor where the run started, if nothing is consumed. The record and the mode of every
cursor that the run reaches are those of this cursor, whatever was consumed in between: it is said
by `Cursor.Agrees`.

Leaving a rewind point restores this agreement for the point around it, and rewinding restores the
bytes as well. -/

namespace StreamDecode

variable {β : Type}

/-! ## Records -/

namespace Record

theorem merge_push (outer : Record β) (chunk : β) (inner : List β) :
    (outer.push chunk).merge (some inner) = outer.merge (some (inner ++ [chunk])) := by
  cases outer with
  | none => rfl
  | some chunks => simp [push, merge]

theorem merge_merge (outer : Record β) (middle : List β) (inner : Record β) :
    (outer.merge (some middle)).merge inner = outer.merge (merge (some middle) inner) := by
  cases outer with
  | none => rfl
  | some chunks => simp [merge]

theorem merge_empty (outer : Record β) : outer.merge (some []) = outer := by
  cases outer <;> rfl

theorem toBytes_bytes [Buffer β] [LawfulBuffer β] (counter : Nat) (record : Record β) :
    Buffer.toBytes (record.bytes counter).1 = record.chunks.flatMap Buffer.toBytes := by
  unfold bytes
  split
  · next h => rw [h, List.flatMap_nil, LawfulBuffer.toBytes_absent]
  · exact Buffer.toBytes_join counter _

end Record

variable [Buffer β]

/-! ## Arrival -/

namespace Cursor

/-- A chunk has arrived; an empty one says that no more will. -/
def arrive (c : Cursor β) (chunk : β) : Cursor β :=
  if Buffer.isEmpty chunk then c.finish else c.receive chunk

/-- Chunks have arrived one after the other. -/
def arriveAll (c : Cursor β) (chunks : List β) : Cursor β := chunks.foldl arrive c

@[simp] theorem arriveAll_nil (c : Cursor β) : c.arriveAll [] = c := rfl

@[simp] theorem arriveAll_cons (c : Cursor β) (chunk : β) (chunks : List β) :
    c.arriveAll (chunk :: chunks) = (c.arrive chunk).arriveAll chunks := rfl

theorem arriveAll_append (c : Cursor β) (first second : List β) :
    c.arriveAll (first ++ second) = (c.arriveAll first).arriveAll second :=
  List.foldl_append

theorem arrive_of_isEmpty {chunk : β} (h : Buffer.isEmpty chunk = true) (c : Cursor β) :
    c.arrive chunk = c.finish := if_pos h

theorem arrive_of_not_isEmpty {chunk : β} (h : ¬ Buffer.isEmpty chunk = true) (c : Cursor β) :
    c.arrive chunk = c.receive chunk := if_neg h

/-- After the chunk that ends the input the mode is complete, after another one it is not. -/
theorem arrive_mode (c : Cursor β) (chunk : β) :
    (c.arrive chunk).mode = if Buffer.isEmpty chunk then .complete else .incomplete := by
  unfold arrive
  split <;> rfl

theorem arrive_record (c : Cursor β) (chunk : β) :
    (c.arrive chunk).record = if Buffer.isEmpty chunk then c.record else c.record.push chunk := by
  unfold arrive
  split <;> rfl

theorem toBytes_arrive [LawfulBuffer β] (c : Cursor β) (chunk : β) :
    Buffer.toBytes (c.arrive chunk).input =
      Buffer.toBytes c.input ++ Buffer.toBytes chunk := by
  unfold arrive
  split
  · next h =>
      rw [Buffer.toBytes_of_isEmpty h, List.append_nil]
      rfl
  · exact Buffer.toBytes_append c.counter c.input chunk

/-- The buffer is the one from the start, followed by all that has arrived. -/
theorem toBytes_arriveAll [LawfulBuffer β] (c : Cursor β) (chunks : List β) :
    Buffer.toBytes (c.arriveAll chunks).input =
      Buffer.toBytes c.input ++ chunks.flatMap Buffer.toBytes := by
  induction chunks generalizing c with
  | nil => simp
  | cons chunk chunks ih =>
      rw [arriveAll_cons, ih, toBytes_arrive, List.flatMap_cons, List.append_assoc]

/-- The record is the one from the start, followed by the chunks that are not empty. -/
theorem arriveAll_record (c : Cursor β) (chunks : List β) :
    (c.arriveAll chunks).record =
      c.record.merge (some (chunks.filter (!Buffer.isEmpty ·)).reverse) := by
  induction chunks generalizing c with
  | nil => exact (Record.merge_empty c.record).symm
  | cons chunk chunks ih =>
      rw [arriveAll_cons, ih, arrive_record, List.filter_cons]
      cases Buffer.isEmpty chunk with
      | true => rfl
      | false => simp [Record.merge_push]

/-! ## Agreement -/

/-- Both cursors have received the same chunks since the innermost rewind point, and the same may be
    expected of their input. -/
structure Agrees (c c' : Cursor β) : Prop where
  record : c.record = c'.record
  mode : c.mode = c'.mode

omit [Buffer β] in
theorem Agrees.refl (c : Cursor β) : c.Agrees c := ⟨rfl, rfl⟩

omit [Buffer β] in
theorem Agrees.trans {c c' c'' : Cursor β} (h : c.Agrees c') (h' : c'.Agrees c'') :
    c.Agrees c'' :=
  ⟨h.record.trans h'.record, h.mode.trans h'.mode⟩

omit [Buffer β] in
theorem Agrees.symm {c c' : Cursor β} (h : c.Agrees c') : c'.Agrees c :=
  ⟨h.record.symm, h.mode.symm⟩

theorem Agrees.arrive {c c' : Cursor β} (h : c.Agrees c') (chunk : β) :
    (c.arrive chunk).Agrees (c'.arrive chunk) :=
  ⟨by rw [arrive_record, arrive_record, h.record], by rw [arrive_mode, arrive_mode]⟩

theorem Agrees.arriveAll {c c' : Cursor β} (h : c.Agrees c') (chunks : List β) :
    (c.arriveAll chunks).Agrees (c'.arriveAll chunks) := by
  induction chunks generalizing c c' with
  | nil => exact h
  | cons chunk chunks ih => exact ih (h.arrive chunk)

/-- Which mode arriving chunks lead to depends on the mode alone. -/
theorem arriveAll_mode {c c' : Cursor β} (h : c.mode = c'.mode) (chunks : List β) :
    (c.arriveAll chunks).mode = (c'.arriveAll chunks).mode := by
  induction chunks generalizing c c' with
  | nil => exact h
  | cons chunk chunks ih => exact ih (by rw [arrive_mode, arrive_mode])

/-! ## Rewind points -/

/-- What a rewind point has recorded once the chunks have arrived. -/
theorem enter_record {c d : Cursor β} {chunks : List β} (h : d.Agrees (c.enter.arriveAll chunks)) :
    d.record = some (chunks.filter (!Buffer.isEmpty ·)).reverse := by
  rw [h.record, arriveAll_record]
  show some ((chunks.filter (!Buffer.isEmpty ·)).reverse ++ []) = _
  rw [List.append_nil]

/-- Leaving a rewind point, the point around it has recorded all that arrived. -/
theorem leave_agrees {c d : Cursor β} {chunks : List β}
    (h : d.Agrees (c.enter.arriveAll chunks)) : (c.leave d).Agrees (c.arriveAll chunks) := by
  refine ⟨?_, ?_⟩
  · show c.record.merge d.record = _
    rw [enter_record h, arriveAll_record]
  · have hmode : c.enter.mode = c.mode := rfl
    exact h.mode.trans (arriveAll_mode hmode chunks)

theorem rewind_agrees {c d : Cursor β} {chunks : List β}
    (h : d.Agrees (c.enter.arriveAll chunks)) : (c.rewind d).Agrees (c.arriveAll chunks) :=
  ⟨(leave_agrees h).record, (leave_agrees h).mode⟩

/-- Rewinding gives back the buffer of the entry, followed by all that was recorded. -/
theorem toBytes_rewind [LawfulBuffer β] (c d : Cursor β) :
    Buffer.toBytes (c.rewind d).input =
      Buffer.toBytes c.input ++ d.record.chunks.flatMap Buffer.toBytes := by
  show Buffer.toBytes
    (Buffer.append (d.record.bytes d.counter).2 c.input (d.record.bytes d.counter).1).1 = _
  rw [Buffer.toBytes_append, Record.toBytes_bytes]

/-- Rewinding gives back all that had arrived. -/
theorem toBytes_rewind_arriveAll [LawfulBuffer β] {c d : Cursor β} {chunks : List β}
    (h : d.Agrees (c.enter.arriveAll chunks)) :
    Buffer.toBytes (c.rewind d).input = Buffer.toBytes (c.arriveAll chunks).input := by
  rw [toBytes_rewind, toBytes_arriveAll, enter_record h, Record.chunks, Option.getD_some,
    List.reverse_reverse, Buffer.flatMap_toBytes_filter]

end Cursor

end StreamDecode
