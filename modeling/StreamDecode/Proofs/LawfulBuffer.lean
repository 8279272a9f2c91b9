import StreamDecode.Slice

set_option autoImplicit false

/-! # What decoders may rely on in a byte string

`LawfulBuffer` says of each operation of `Buffer` what it does to the bytes of a string. Both types
of strings are lawful: plain lists by definition, and slices even where a window sticks out of its
storage, because the bytes of such a window are those of the part inside. What is proved of decoders
from these laws holds of runs over either type. `SizedBuffer` says of the operations what they do to
the size, which for such a window is not the number of its bytes. -/

namespace StreamDecode

/-- The operations of a byte string do to its bytes what their names say. -/
class LawfulBuffer (β : Type) [Buffer β] : Prop where
  hasAtLeast_iff (s : β) (n : Nat) : Buffer.hasAtLeast s n = true ↔ n ≤ Buffer.size s
  toBytes_eq_nil {s : β} (h : Buffer.size s = 0) : Buffer.toBytes s = []
  toBytes_take (s : β) (n : Nat) : Buffer.toBytes (Buffer.take s n) = (Buffer.toBytes s).take n
  toBytes_drop (s : β) (n : Nat) : Buffer.toBytes (Buffer.drop s n) = (Buffer.toBytes s).drop n
  toBytes_absent : Buffer.toBytes (Buffer.absent : β) = []
  toBytes_store (counter : Nat) (bytes : Bytes) :
    Buffer.toBytes (Buffer.store counter bytes : β × Nat).1 = bytes
  /-- A storage number that was given out is not given out again. -/
  counter_le_store (counter : Nat) (bytes : Bytes) :
    counter ≤ (Buffer.store counter bytes : β × Nat).2

instance : LawfulBuffer Bytes where
  hasAtLeast_iff := Bytes.hasAtLeast_iff
  toBytes_eq_nil := List.eq_nil_of_length_eq_zero
  toBytes_take _ _ := rfl
  toBytes_drop _ _ := rfl
  toBytes_absent := rfl
  toBytes_store _ _ := rfl
  counter_le_store counter _ := Nat.le_refl counter

/-! ## Slices -/

namespace Slice

/-- The bytes of a window, by positions of its storage. -/
theorem toBytes_eq (storage : Storage) (offset size : Nat) :
    toBytes ⟨some storage, offset, size⟩ = (storage.content.toList.drop offset).take size := by
  simp [toBytes, Array.toList_extract, List.extract_eq_take_drop]

theorem toBytes_take (s : Slice) (n : Nat) : (s.take n).toBytes = s.toBytes.take n := by
  obtain ⟨storage, offset, size⟩ := s
  cases storage with
  | none => simp [take, toBytes]
  | some storage => simp only [take, toBytes_eq, List.take_take]

theorem toBytes_drop (s : Slice) (n : Nat) : (s.drop n).toBytes = s.toBytes.drop n := by
  obtain ⟨storage, offset, size⟩ := s
  cases storage with
  | none => simp [drop, toBytes]
  | some storage =>
      simp only [drop, toBytes_eq, List.drop_take, List.drop_drop]
      by_cases hn : n ≤ size
      · rw [Nat.min_eq_left hn]
      · -- both windows are empty: one has no size, the other starts behind the end
        rw [Nat.min_eq_right (by omega), Nat.sub_self, Nat.sub_eq_zero_of_le (by omega),
          List.take_zero, List.take_zero]

end Slice

instance : LawfulBuffer Slice where
  hasAtLeast_iff s n := decide_eq_true_iff
  toBytes_eq_nil {s} h := by
    obtain ⟨storage, offset, size⟩ := s
    cases storage with
    | none => rfl
    | some storage =>
        have hsize : size = 0 := h
        show Slice.toBytes ⟨some storage, offset, size⟩ = []
        rw [Slice.toBytes_eq, hsize, List.take_zero]
  toBytes_take := Slice.toBytes_take
  toBytes_drop := Slice.toBytes_drop
  toBytes_absent := rfl
  toBytes_store counter bytes := by
    show Slice.toBytes (Slice.ofBytes counter bytes) = bytes
    rw [Slice.ofBytes, Slice.toBytes_eq, List.drop_zero]
    exact List.take_of_length_le (Nat.le_refl _)
  counter_le_store counter _ := Nat.le_succ counter

/-! ## What follows from the laws -/

namespace Buffer

variable {β : Type} [Buffer β] [LawfulBuffer β]

theorem isEmpty_iff (s : β) : isEmpty s = true ↔ size s = 0 := by
  rw [isEmpty, Bool.not_eq_true', ← Bool.not_eq_true, LawfulBuffer.hasAtLeast_iff]
  omega

theorem toBytes_of_isEmpty {s : β} (h : isEmpty s = true) : toBytes s = [] :=
  LawfulBuffer.toBytes_eq_nil ((isEmpty_iff s).1 h)

theorem toBytes_append (counter : Nat) (s t : β) :
    toBytes (append counter s t).1 = toBytes s ++ toBytes t := by
  unfold append
  split
  · next ht => rw [toBytes_of_isEmpty ht, List.append_nil]
  · split
    · next hs => rw [toBytes_of_isEmpty hs, List.nil_append]
    · exact LawfulBuffer.toBytes_store counter _

/-- Leaving out the empty ones of some strings leaves out none of their bytes. -/
theorem flatMap_toBytes_filter (pieces : List β) :
    (pieces.filter (!isEmpty ·)).flatMap toBytes = pieces.flatMap toBytes := by
  induction pieces with
  | nil => rfl
  | cons piece pieces ih =>
      rw [List.filter_cons, List.flatMap_cons, ← ih]
      split
      · rw [List.flatMap_cons]
      · next h =>
          have hempty : isEmpty piece = true := by simpa using h
          rw [toBytes_of_isEmpty hempty, List.nil_append]

theorem toBytes_join (counter : Nat) (pieces : List β) :
    toBytes (join counter pieces).1 = pieces.flatMap toBytes := by
  rw [← flatMap_toBytes_filter pieces]
  unfold join
  split
  · next piece h => rw [h, List.flatMap_cons, List.flatMap_nil, List.append_nil]
  · exact LawfulBuffer.toBytes_store counter _

theorem counter_le_copy (counter : Nat) (s : β) : counter ≤ (copy counter s).2 :=
  LawfulBuffer.counter_le_store counter _

end Buffer

/-! ## Sizes -/

/-- The operations of a byte string do to its size what they do to its bytes, and a string has no
    more bytes than its size says. It may have fewer: a window that sticks out of its storage has. -/
class SizedBuffer (β : Type) [Buffer β] : Prop where
  size_drop (s : β) (n : Nat) : Buffer.size (Buffer.drop s n) = Buffer.size s - n
  size_absent : Buffer.size (Buffer.absent : β) = 0
  size_store (counter : Nat) (bytes : Bytes) :
    Buffer.size (Buffer.store counter bytes : β × Nat).1 = bytes.length
  length_toBytes_le (s : β) : (Buffer.toBytes s).length ≤ Buffer.size s

instance : SizedBuffer Bytes where
  size_drop _ _ := List.length_drop
  size_absent := rfl
  size_store _ _ := rfl
  length_toBytes_le s := Nat.le_refl s.length

instance : SizedBuffer Slice where
  size_drop s n := by
    show s.size - min n s.size = s.size - n
    omega
  size_absent := rfl
  size_store _ _ := rfl
  length_toBytes_le s := by
    obtain ⟨storage, offset, size⟩ := s
    cases storage with
    | none => exact Nat.zero_le size
    | some storage =>
        show (Slice.toBytes ⟨some storage, offset, size⟩).length ≤ size
        rw [Slice.toBytes_eq]
        exact List.length_take_le size _

end StreamDecode
