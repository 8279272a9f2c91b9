import Mathlib.Data.List.Forall2
import StreamDecode.Proofs.LawfulBuffer
import StreamDecode.Proofs.Lineage
import StreamDecode.Slice.Shelf

set_option autoImplicit false

/-! # Slices are the byte lists that they show

`ByteShelf` performs the steps of a shelf on plain lists of bytes, which share nothing and have no
windows. A shelf follows it register by register (`Shelf.Shows.perform`): each slice shows the bytes
of the list, its window is inside of its storage, and the storage is the one that lies in memory at
its number. What a step does to memory is to put new storage behind what there is; nothing is
written to storage that was made before, so whoever holds a slice sees the same bytes forever.

A machine keeps windows in words of 64 bits. As long as storage has no more bytes than such a word
can count, moving a window overflows for no count, however large (`MachineWindow.Is`). -/

namespace StreamDecode

/-! ## The bytes of a window -/

namespace Slice

variable {s t : Slice}

/-- A byte is read at each position of a window that is inside of its storage. -/
theorem WellFormed.length_toBytes (h : s.WellFormed) : s.toBytes.length = s.size := by
  obtain ⟨storage, offset, size⟩ := s
  cases storage with
  | none =>
      have hsize : size = 0 := h
      exact hsize.symm
  | some storage =>
      have hstop : offset + size ≤ storage.content.size := h
      rw [toBytes_eq, List.length_take, List.length_drop, Array.length_toList]
      show min size (storage.content.size - offset) = size
      omega

theorem get?_eq (s : Slice) (i : Nat) : s.get? i = s.toBytes[i]? := by
  obtain ⟨storage, offset, size⟩ := s
  cases storage with
  | none => rfl
  | some storage =>
      rw [toBytes_eq, List.getElem?_take, List.getElem?_drop, Array.getElem?_toList]
      rfl

theorem WellFormed.isEmpty_iff (h : s.WellFormed) : Buffer.isEmpty s = true ↔ s.toBytes = [] := by
  have hsize : Buffer.size s = s.toBytes.length := h.length_toBytes.symm
  rw [Buffer.isEmpty_iff, hsize, List.length_eq_zero_iff]

/-- Equal sizes are no condition of their own where the windows are inside of their storage. -/
theorem WellFormed.sameBytes_iff (hs : s.WellFormed) (ht : t.WellFormed) :
    s.sameBytes t = true ↔ s.toBytes = t.toBytes := by
  rw [sameBytes, Bool.and_eq_true, beq_iff_eq, beq_iff_eq]
  refine ⟨fun h => h.2, fun h => ⟨?_, h⟩⟩
  rw [← hs.length_toBytes, ← ht.length_toBytes, h]

theorem WellFormed.take (h : s.WellFormed) (n : Nat) : (s.take n).WellFormed := by
  obtain ⟨storage, offset, size⟩ := s
  cases storage with
  | none =>
      have hsize : size = 0 := h
      show min n size = 0
      omega
  | some storage =>
      have hstop : offset + size ≤ storage.content.size := h
      show offset + min n size ≤ storage.content.size
      omega

theorem WellFormed.drop (h : s.WellFormed) (n : Nat) : (s.drop n).WellFormed := by
  obtain ⟨storage, offset, size⟩ := s
  cases storage with
  | none =>
      have hsize : size = 0 := h
      show size - min n size = 0
      omega
  | some storage =>
      have hstop : offset + size ≤ storage.content.size := h
      show offset + min n size + (size - min n size) ≤ storage.content.size
      omega

end Slice

/-! ## Windows in machine words -/

/-- A window as a machine keeps it, in words of 64 bits. -/
structure MachineWindow where
  offset : UInt64
  size : UInt64

namespace MachineWindow

/-- The window of the first `n` bytes. -/
def take (w : MachineWindow) (n : UInt64) : MachineWindow := { w with size := min n w.size }

/-- The window of what follows the first `n` bytes. -/
def drop (w : MachineWindow) (n : UInt64) : MachineWindow :=
  ⟨w.offset + min n w.size, w.size - min n w.size⟩

/-- The words are the position and the size of the window of a slice. -/
structure Is (w : MachineWindow) (s : Slice) : Prop where
  offset_eq : w.offset.toNat = s.offset
  size_eq : w.size.toNat = s.size

theorem toNat_min (n size : UInt64) : (min n size).toNat = min n.toNat size.toNat := by
  show (if n ≤ size then n else size).toNat = _
  split
  · next hle => rw [Nat.min_eq_left (UInt64.le_iff_toNat_le.1 hle)]
  · next hlt =>
      rw [UInt64.le_iff_toNat_le] at hlt
      rw [Nat.min_eq_right (by omega)]

variable {w : MachineWindow} {s : Slice}

theorem Is.take (h : w.Is s) (n : UInt64) : (w.take n).Is (s.take n.toNat) where
  offset_eq := h.offset_eq
  size_eq := by
    show (min n w.size).toNat = min n.toNat s.size
    rw [toNat_min, h.size_eq]

theorem Is.stop_lt (h : w.Is s) (hs : s.WellFormed)
    (hfits : ∀ storage, s.storage = some storage → storage.content.size < UInt64.size) :
    s.offset + s.size < UInt64.size := by
  obtain ⟨storage, offset, size⟩ := s
  cases storage with
  | none =>
      have hsize : size = 0 := hs
      have hoffset : w.offset.toNat = offset := h.offset_eq
      have hlt := w.offset.toNat_lt_size
      show offset + size < UInt64.size
      omega
  | some storage =>
      have hstop : offset + size ≤ storage.content.size := hs
      exact Nat.lt_of_le_of_lt hstop (hfits storage rfl)

/-- The sum is not above the size of the storage, and what is subtracted is not above the size of the
    window, whatever the count. -/
theorem Is.drop (h : w.Is s) (hstop : s.offset + s.size < UInt64.size) (n : UInt64) :
    (w.drop n).Is (s.drop n.toNat) where
  offset_eq := by
    show (w.offset + min n w.size).toNat = s.offset + min n.toNat s.size
    rw [UInt64.toNat_add, toNat_min, h.offset_eq, h.size_eq]
    exact Nat.mod_eq_of_lt (by simp only [UInt64.size] at hstop; omega)
  size_eq := by
    have hle : min n w.size ≤ w.size := by
      rw [UInt64.le_iff_toNat_le, toNat_min]
      exact Nat.min_le_right _ _
    show (w.size - min n w.size).toNat = s.size - min n.toNat s.size
    rw [UInt64.toNat_sub_of_le _ _ hle, toNat_min, h.size_eq]

end MachineWindow

/-! ## Slices in memory -/

/-- What lies in memory: the content of each storage that was made, at its number. -/
abbrev Memory := List (Array UInt8)

namespace Slice

variable {memory later : Memory} {s t : Slice} {bytes bytes' : Bytes}

/-- The bytes that the window shows of what lies in memory. -/
def bytesIn (memory : Memory) (s : Slice) : Bytes :=
  match s.storage with
  | none => []
  | some storage =>
      ((memory[storage.number]?.getD #[]).extract s.offset (s.offset + s.size)).toList

/-- The slice shows the bytes: its window is inside of its storage, and its storage is the one that
    lies in memory at its number. -/
structure Shows (memory : Memory) (s : Slice) (bytes : Bytes) : Prop where
  wellFormed : s.WellFormed
  stored : ∀ storage, s.storage = some storage → memory[storage.number]? = some storage.content
  toBytes_eq : s.toBytes = bytes

/-- What is read from memory are the bytes of the slice. -/
theorem Shows.bytesIn_eq (h : s.Shows memory bytes) : s.bytesIn memory = s.toBytes := by
  obtain ⟨storage, offset, size⟩ := s
  cases storage with
  | none => rfl
  | some storage =>
      show ((memory[storage.number]?.getD #[]).extract offset (offset + size)).toList = _
      rw [h.stored storage rfl]
      rfl

/-- New storage behind what there is changes nothing about a slice. -/
theorem Shows.grows (h : s.Shows memory bytes) (hgrows : memory <+: later) :
    s.Shows later bytes where
  wellFormed := h.wellFormed
  stored := by
    intro storage hstorage
    obtain ⟨more, rfl⟩ := hgrows
    have hcontent := h.stored storage hstorage
    rw [List.getElem?_append_left (List.getElem?_eq_some_iff.1 hcontent).1, hcontent]
  toBytes_eq := h.toBytes_eq

theorem Shows.take (h : s.Shows memory bytes) (n : Nat) :
    (s.take n).Shows memory (bytes.take n) where
  wellFormed := h.wellFormed.take n
  stored := h.stored
  toBytes_eq := by rw [Slice.toBytes_take, h.toBytes_eq]

theorem Shows.drop (h : s.Shows memory bytes) (n : Nat) :
    (s.drop n).Shows memory (bytes.drop n) where
  wellFormed := h.wellFormed.drop n
  stored := h.stored
  toBytes_eq := by rw [Slice.toBytes_drop, h.toBytes_eq]

theorem shows_absent (memory : Memory) : absent.Shows memory [] where
  wellFormed := rfl
  stored := nofun
  toBytes_eq := rfl

/-! ### Slices that are made -/

/-- A slice was made that shows the bytes, and the counter after it has the number of the next
    storage: memory is as before, or has new storage behind. -/
def Made (memory : Memory) (made : Slice × Nat) (bytes : Bytes) : Prop :=
  ∃ later, memory <+: later ∧ made.2 = later.length ∧ made.1.Shows later bytes

theorem Shows.made (h : s.Shows memory bytes) : Made memory (s, memory.length) bytes :=
  ⟨memory, List.prefix_rfl, rfl, h⟩

theorem made_store (memory : Memory) (bytes : Bytes) :
    Made memory (Buffer.store memory.length bytes) bytes := by
  refine ⟨memory ++ [bytes.toArray], List.prefix_append _ _, ?_, ?_, ?_, ?_⟩
  · rw [List.length_append, List.length_singleton]
    rfl
  · show 0 + bytes.length ≤ bytes.toArray.size
    exact Nat.le_of_eq (Nat.zero_add _)
  · intro storage hstorage
    obtain rfl : (⟨memory.length, bytes.toArray⟩ : Storage) = storage := Option.some.inj hstorage
    exact List.getElem?_concat_length
  · exact LawfulBuffer.toBytes_store (β := Slice) memory.length bytes

theorem Shows.append (h : s.Shows memory bytes) (h' : t.Shows memory bytes') :
    Made memory (Buffer.append memory.length s t) (bytes ++ bytes') := by
  unfold Buffer.append
  split
  · next hempty =>
      rw [← h'.toBytes_eq, h'.wellFormed.isEmpty_iff.1 hempty, List.append_nil]
      exact h.made
  · split
    · next hempty =>
        rw [← h.toBytes_eq, h.wellFormed.isEmpty_iff.1 hempty, List.nil_append]
        exact h'.made
    · rw [← h.toBytes_eq, ← h'.toBytes_eq]
      exact made_store memory _

theorem Shows.copy (h : s.Shows memory bytes) :
    Made memory (Buffer.copy memory.length s) bytes := by
  rw [← h.toBytes_eq]
  exact made_store memory _

end Slice

/-! ## Ropes -/

namespace Rope

variable {memory later : Memory} {rope : Rope Slice} {pieces : List Bytes}

/-- Each piece of the rope shows the bytes of a piece of the list, none of which is empty. -/
def Shows (memory : Memory) (rope : Rope Slice) (pieces : List Bytes) : Prop :=
  List.Forall₂ (fun s bytes => s.Shows memory bytes ∧ bytes ≠ []) rope.pieces pieces

theorem Shows.grows (h : rope.Shows memory pieces) (hgrows : memory <+: later) :
    rope.Shows later pieces :=
  h.imp fun _ _ hpiece => ⟨hpiece.1.grows hgrows, hpiece.2⟩

theorem Shows.map_toBytes (h : rope.Shows memory pieces) :
    rope.pieces.map Slice.toBytes = pieces := by
  have heq : List.Forall₂ (fun s bytes => s.toBytes = bytes) rope.pieces pieces :=
    h.imp fun _ _ hpiece => hpiece.1.toBytes_eq
  rwa [← List.forall₂_map_left_iff, List.forall₂_eq_eq_eq] at heq

theorem Shows.exists_bytes (h : rope.Shows memory pieces) {s : Slice} (hs : s ∈ rope.pieces) :
    ∃ bytes, s.Shows memory bytes ∧ bytes ≠ [] := by
  obtain ⟨strings⟩ := rope
  have hpieces : List.Forall₂ (fun s bytes => s.Shows memory bytes ∧ bytes ≠ []) strings pieces := h
  have hmem : s ∈ strings := hs
  induction hpieces with
  | nil => cases hmem
  | @cons first bytes strings pieces hfirst hrest ih =>
      rcases List.mem_cons.1 hmem with rfl | hmem
      · exact ⟨bytes, hfirst⟩
      · exact ih hrest hmem hmem

/-- The pieces that a rope is made of, without the empty ones. -/
theorem shows_ofList {strings : List Slice}
    (h : List.Forall₂ (Slice.Shows memory) strings pieces) :
    (Rope.ofList strings).Shows memory (pieces.filter (!·.isEmpty)) := by
  induction h with
  | nil => exact .nil
  | @cons s bytes strings pieces hhead _ ih =>
      have hempty := hhead.wellFormed.isEmpty_iff
      rw [hhead.toBytes_eq] at hempty
      show List.Forall₂ _ ((s :: strings).filter (!Buffer.isEmpty ·)) _
      cases bytes with
      | nil =>
          rw [List.filter_cons, List.filter_cons, hempty.2 rfl]
          exact ih
      | cons byte bytes =>
          have hsolid : Buffer.isEmpty s = false := by
            rw [← Bool.not_eq_true, hempty]
            exact List.cons_ne_nil byte bytes
          rw [List.filter_cons, List.filter_cons, hsolid]
          exact .cons ⟨hhead, List.cons_ne_nil byte bytes⟩ ih

/-- The rope as one string: its only piece itself, or all the bytes in new storage. -/
theorem Shows.flatten (h : rope.Shows memory pieces) :
    Slice.Made memory (rope.flatten memory.length) pieces.flatten := by
  have hsolid : rope.pieces.filter (!Buffer.isEmpty ·) = rope.pieces := by
    refine List.filter_eq_self.2 fun s hs => ?_
    obtain ⟨bytes, hshows, hne⟩ := h.exists_bytes hs
    rw [Bool.not_eq_true', ← Bool.not_eq_true, hshows.wellFormed.isEmpty_iff, hshows.toBytes_eq]
    exact hne
  have hbytes : rope.pieces.flatMap Buffer.toBytes = pieces.flatten := by
    rw [← h.map_toBytes]
    rfl
  unfold Rope.flatten Buffer.join
  rw [hsolid]
  split
  · next piece hpiece =>
      obtain ⟨bytes, hshows, -⟩ := h.exists_bytes (hpiece ▸ List.mem_singleton_self piece)
      rw [hpiece, List.flatMap_singleton] at hbytes
      have hpiece' : Buffer.toBytes piece = bytes := hshows.toBytes_eq
      rw [← hbytes, hpiece']
      exact hshows.made
  · rw [hbytes]
    exact Slice.made_store memory _

end Rope

/-! ## The same steps on lists -/

/-- Byte strings, and lists of them, in registers. -/
structure ByteShelf where
  strings : Registers Bytes
  ropes : Registers (List Bytes)

namespace ByteShelf

/-- The shelf before its first step. -/
def empty : ByteShelf := ⟨[], []⟩

/-- Write a string to a register. -/
def put (lists : ByteShelf) (dest : String) (bytes : Bytes) : ByteShelf :=
  { lists with strings := lists.strings.set dest bytes }

/-- Perform a step by the operations of lists, if all registers that it reads are written. -/
def perform (lists : ByteShelf) : ShelfCommand → Option ByteShelf
  | .absent dest => some (lists.put dest [])
  | .make dest bytes => some (lists.put dest bytes)
  | .take source n dest =>
      (lists.strings.get? source).map fun bytes => lists.put dest (bytes.take n)
  | .drop source n dest =>
      (lists.strings.get? source).map fun bytes => lists.put dest (bytes.drop n)
  | .splitAt source n dest destRest =>
      (lists.strings.get? source).map fun bytes =>
        (lists.put dest (bytes.take n)).put destRest (bytes.drop n)
  | .append source other dest =>
      (lists.strings.get? source).bind fun bytes => (lists.strings.get? other).map fun bytes' =>
        lists.put dest (bytes ++ bytes')
  | .copy source dest => (lists.strings.get? source).map fun bytes => lists.put dest bytes
  | .gather sources dest =>
      (sources.mapM lists.strings.get?).map fun pieces =>
        { lists with ropes := lists.ropes.set dest (pieces.filter (!·.isEmpty)) }
  | .flatten source dest =>
      (lists.ropes.get? source).map fun pieces => lists.put dest pieces.flatten

/-- Perform steps one after the other, as long as they can be. -/
def performAll (lists : ByteShelf) (commands : List ShelfCommand) : Option ByteShelf :=
  commands.foldlM perform lists

end ByteShelf

/-! ## Shelves -/

section

variable {ν ν' δ δ' : Type} {related : ν → ν' → Prop} {related' : δ → δ' → Prop} {found : Option ν}
  {found' : Option ν'}

theorem rel_bind (h : Option.Rel related found found') {next : ν → Option δ} {next' : ν' → Option δ'}
    (hn : ∀ value value', related value value' → Option.Rel related' (next value) (next' value')) :
    Option.Rel related' (found.bind next) (found'.bind next') := by
  cases h with
  | some hvalue => exact hn _ _ hvalue
  | none => exact .none

theorem rel_map (h : Option.Rel related found found') {f : ν → δ} {f' : ν' → δ'}
    (hf : ∀ value value', related value value' → related' (f value) (f' value')) :
    Option.Rel related' (found.map f) (found'.map f') := by
  cases h with
  | some hvalue => exact .some (hf _ _ hvalue)
  | none => exact .none

theorem rel_mono {related' : ν → ν' → Prop} (h : Option.Rel related found found')
    (hr : ∀ value value', related value value' → related' value value') :
    Option.Rel related' found found' := by
  cases h with
  | some hvalue => exact .some (hr _ _ hvalue)
  | none => exact .none

/-- Registers that are looked up one after the other hold related values, or one of them is empty on
    both sides. -/
theorem Registers.Related.mapM {registers : Registers ν} {registers' : Registers ν'}
    (h : Registers.Related related registers registers') (names : List String) :
    Option.Rel (List.Forall₂ related) (names.mapM registers.get?) (names.mapM registers'.get?) := by
  induction names with
  | nil => exact .some .nil
  | cons name names ih =>
      rw [List.mapM_cons, List.mapM_cons]
      exact rel_bind (h name) fun _ _ hvalue => rel_bind ih fun _ _ hvalues =>
        .some (.cons hvalue hvalues)

end

namespace Shelf

variable {shelf shelf' : Shelf} {memory : Memory} {lists : ByteShelf} {s : Slice} {bytes : Bytes}

/-- Perform steps one after the other, as long as they can be. -/
def performAll (shelf : Shelf) (commands : List ShelfCommand) : Option Shelf :=
  commands.foldlM perform shelf

/-- The slice is in a register, or a piece of a rope that is. -/
def Holds (shelf : Shelf) (s : Slice) : Prop :=
  (∃ name, shelf.slices.get? name = some s) ∨
    ∃ name rope, shelf.ropes.get? name = some rope ∧ s ∈ rope.pieces

/-- Register by register the shelf shows the strings of the lists, and the next storage gets the
    number that memory has not. -/
structure Shows (shelf : Shelf) (memory : Memory) (lists : ByteShelf) : Prop where
  counter_eq : shelf.counter = memory.length
  slices : Registers.Related (Slice.Shows memory) shelf.slices lists.strings
  ropes : Registers.Related (Rope.Shows memory) shelf.ropes lists.ropes

theorem shows_empty : empty.Shows [] .empty where
  counter_eq := rfl
  slices := fun _ => .none
  ropes := fun _ => .none

theorem Shows.exists_bytes (h : shelf.Shows memory lists) (hs : shelf.Holds s) :
    ∃ bytes, s.Shows memory bytes := by
  rcases hs with ⟨name, hget⟩ | ⟨name, rope, hget, hs⟩
  · obtain ⟨bytes, -, hshows⟩ := h.slices.exists_right hget
    exact ⟨bytes, hshows⟩
  · obtain ⟨pieces, -, hshows⟩ := h.ropes.exists_right hget
    obtain ⟨bytes, hpiece, -⟩ := hshows.exists_bytes hs
    exact ⟨bytes, hpiece⟩

theorem Shows.put (h : shelf.Shows memory lists) (dest : String) (hs : s.Shows memory bytes) :
    (shelf.put dest s).Shows memory (lists.put dest bytes) where
  counter_eq := h.counter_eq
  slices := h.slices.set dest hs
  ropes := h.ropes

/-- What was made is written to a register, after new storage may have come behind in memory. -/
theorem Shows.putNew (h : shelf.Shows memory lists) (dest : String) {made : Slice × Nat}
    (hm : Slice.Made memory made bytes) :
    ∃ later, memory <+: later ∧ (shelf.putNew dest made).Shows later (lists.put dest bytes) := by
  obtain ⟨later, hgrows, hcounter, hmade⟩ := hm
  have hslices := h.slices.mono fun _ _ hs => Slice.Shows.grows hs hgrows
  have hropes := h.ropes.mono fun _ _ hr => Rope.Shows.grows hr hgrows
  exact ⟨later, hgrows, hcounter, hslices.set dest hmade, hropes⟩

/-- A step does to the strings what it does to the lists, and puts at most new storage into memory.
    Both can be performed, or neither. -/
theorem Shows.perform (h : shelf.Shows memory lists) (command : ShelfCommand) :
    Option.Rel (fun shelf' lists' => ∃ later, memory <+: later ∧ shelf'.Shows later lists')
      (shelf.perform command) (lists.perform command) := by
  have hcounter := h.counter_eq
  cases command with
  | absent dest => exact .some ⟨memory, List.prefix_rfl, h.put dest (Slice.shows_absent memory)⟩
  | make dest bytes =>
      have hmade := Slice.made_store memory bytes
      rw [← hcounter] at hmade
      exact .some (h.putNew dest hmade)
  | take source n dest =>
      exact rel_map (h.slices source) fun s bytes hs =>
        ⟨memory, List.prefix_rfl, h.put dest (hs.take n)⟩
  | drop source n dest =>
      exact rel_map (h.slices source) fun s bytes hs =>
        ⟨memory, List.prefix_rfl, h.put dest (hs.drop n)⟩
  | splitAt source n dest destRest =>
      exact rel_map (h.slices source) fun s bytes hs =>
        ⟨memory, List.prefix_rfl, (h.put dest (hs.take n)).put destRest (hs.drop n)⟩
  | append source other dest =>
      refine rel_bind (h.slices source) fun s bytes hs => ?_
      refine rel_map (h.slices other) fun t bytes' ht => ?_
      have hmade := hs.append ht
      rw [← hcounter] at hmade
      exact h.putNew dest hmade
  | copy source dest =>
      refine rel_map (h.slices source) fun s bytes hs => ?_
      have hmade := hs.copy
      rw [← hcounter] at hmade
      exact h.putNew dest hmade
  | gather sources dest =>
      exact rel_map (h.slices.mapM sources) fun strings pieces hpieces =>
        ⟨memory, List.prefix_rfl, h.counter_eq, h.slices,
          h.ropes.set dest (Rope.shows_ofList hpieces)⟩
  | flatten source dest =>
      refine rel_map (h.ropes source) fun rope pieces hrope => ?_
      have hmade := hrope.flatten
      rw [← hcounter] at hmade
      exact h.putNew dest hmade

/-- So do steps one after the other. -/
theorem Shows.performAll (h : shelf.Shows memory lists) (commands : List ShelfCommand) :
    Option.Rel (fun shelf' lists' => ∃ later, memory <+: later ∧ shelf'.Shows later lists')
      (shelf.performAll commands) (lists.performAll commands) := by
  induction commands generalizing shelf memory lists with
  | nil => exact .some ⟨memory, List.prefix_rfl, h⟩
  | cons command commands ih =>
      refine rel_bind (h.perform command) fun shelf' lists' hstep => ?_
      obtain ⟨later, hgrows, hshows⟩ := hstep
      refine rel_mono (ih hshows) fun shelf'' lists'' hrest => ?_
      obtain ⟨last, hlater, hlast⟩ := hrest
      exact ⟨last, hgrows.trans hlater, hlast⟩

/-! ## All that can be done with slices -/

/-- The strings of the shelf are the byte lists that they show, which are those of the lists. -/
structure Faithful (shelf : Shelf) (lists : ByteShelf) : Prop where
  strings_eq : ∀ name, (shelf.slices.get? name).map Slice.toBytes = lists.strings.get? name
  ropes_eq : ∀ name, (shelf.ropes.get? name).map (fun rope => rope.pieces.map Slice.toBytes) =
    lists.ropes.get? name
  /-- The window is inside of the storage, and without storage it has no size. -/
  wellFormed : ∀ s, shelf.Holds s → s.WellFormed
  /-- There is a byte to be read at each position of the window, and no byte is beyond. -/
  reads : ∀ s, shelf.Holds s → s.toBytes.length = s.size ∧
    ∀ i, i < s.size → ∃ byte, s.get? i = some byte ∧ s.toBytes[i]? = some byte
  /-- Words of 64 bits are enough for windows into storage of no more bytes, and for all counts. -/
  fits : ∀ s, shelf.Holds s →
    (∀ storage, s.storage = some storage → storage.content.size < UInt64.size) →
    ∀ (w : MachineWindow) (n : UInt64), w.Is s →
      (w.take n).Is (s.take n.toNat) ∧ (w.drop n).Is (s.drop n.toNat)
  /-- What is taken and what is dropped make the string again, wherever it is cut. -/
  append_take_drop : ∀ s, shelf.Holds s → ∀ n,
    (Buffer.append shelf.counter (s.take n) (s.drop n)).1.sameBytes s = true
  sameBytes_iff : ∀ s t, shelf.Holds s → shelf.Holds t →
    (s.sameBytes t = true ↔ s.toBytes = t.toBytes)
  /-- The strings are read from one memory, which keeps what it has: after any further steps the
      same bytes are read for the strings from before, next to those that have come since. -/
  keeps : ∃ memory : Memory, (∀ s, shelf.Holds s → s.bytesIn memory = s.toBytes) ∧
    ∀ later shelf', shelf.performAll later = some shelf' →
      ∃ memory', memory <+: memory' ∧
        ∀ s, shelf.Holds s ∨ shelf'.Holds s → s.bytesIn memory' = s.toBytes

theorem Shows.keeps (h : shelf.Shows memory lists) :
    ∃ memory : Memory, (∀ s, shelf.Holds s → s.bytesIn memory = s.toBytes) ∧
      ∀ later shelf', shelf.performAll later = some shelf' →
        ∃ memory', memory <+: memory' ∧
          ∀ s, shelf.Holds s ∨ shelf'.Holds s → s.bytesIn memory' = s.toBytes := by
  refine ⟨memory, fun s hs => ?_, fun later shelf' hperform => ?_⟩
  · obtain ⟨bytes, hshows⟩ := h.exists_bytes hs
    exact hshows.bytesIn_eq
  · have hlater := h.performAll later
    rw [hperform] at hlater
    generalize lists.performAll later = found at hlater
    cases hlater with
    | some hshows' =>
        obtain ⟨memory', hgrows, hshows'⟩ := hshows'
        refine ⟨memory', hgrows, ?_⟩
        rintro s (hs | hs)
        · obtain ⟨bytes, hshows⟩ := h.exists_bytes hs
          exact (hshows.grows hgrows).bytesIn_eq
        · obtain ⟨bytes, hshows⟩ := hshows'.exists_bytes hs
          exact hshows.bytesIn_eq

theorem Shows.wellFormed (h : shelf.Shows memory lists) (hs : shelf.Holds s) : s.WellFormed := by
  obtain ⟨bytes, hshows⟩ := h.exists_bytes hs
  exact hshows.wellFormed

theorem Shows.faithful (h : shelf.Shows memory lists) : shelf.Faithful lists where
  strings_eq := by
    intro name
    rw [h.slices.map_eq (g := id) (fun _ _ hs => hs.toBytes_eq) name, Option.map_id_apply]
  ropes_eq := by
    intro name
    rw [h.ropes.map_eq (g := id) (fun _ _ hr => hr.map_toBytes) name, Option.map_id_apply]
  wellFormed := fun s => h.wellFormed
  reads := by
    intro s hs
    have hlength := (h.wellFormed hs).length_toBytes
    refine ⟨hlength, fun i hi => ?_⟩
    rw [← hlength] at hi
    have hbyte : s.toBytes[i]? = some s.toBytes[i] := List.getElem?_eq_getElem hi
    exact ⟨s.toBytes[i], (s.get?_eq i).trans hbyte, hbyte⟩
  fits := by
    intro s hs hfits w n hw
    exact ⟨hw.take n, hw.drop (hw.stop_lt (h.wellFormed hs) hfits) n⟩
  append_take_drop := by
    intro s hs n
    obtain ⟨bytes, hshows⟩ := h.exists_bytes hs
    obtain ⟨later, -, -, hmade⟩ := (hshows.take n).append (hshows.drop n)
    rw [h.counter_eq, hmade.wellFormed.sameBytes_iff hshows.wellFormed, hmade.toBytes_eq,
      hshows.toBytes_eq, List.take_append_drop]
  sameBytes_iff := fun s t hs ht => (h.wellFormed hs).sameBytes_iff (h.wellFormed ht)
  keeps := h.keeps

/-- Slices are faithful to byte lists, whatever is done with them. Steps can be performed on slices
    just when they can be performed on lists, which is when the registers that they read are written.
    Then all strings show the bytes that the lists have there; they are equal just when these are;
    their windows are inside of their storage and can be read and moved as in exact numbers; and no
    later step changes what they show. -/
theorem slices_are_lists (commands : List ShelfCommand) :
    Option.Rel Faithful (performAll empty commands) (ByteShelf.performAll .empty commands) := by
  refine rel_mono (shows_empty.performAll commands) fun shelf lists hshows => ?_
  obtain ⟨memory, -, hmemory⟩ := hshows
  exact hmemory.faithful

/-- A slice of a slice, cut with counts that are far too large, is joined with another slice of the
    same storage, and what comes out with itself by way of a rope that has an empty piece. -/
theorem overlapping_slices_are_lists :
    let commands : List ShelfCommand :=
      [.make "all" [1, 2, 3, 4], .drop "all" 1 "tail", .take "tail" 2 "middle",
        .drop "tail" (UInt64.size - 1) "none", .take "all" (UInt64.size - 1) "all",
        .copy "middle" "copy", .append "middle" "all" "joined",
        .gather ["joined", "none", "joined"] "rope", .flatten "rope" "twice"]
    ∃ shelf middle copy, performAll empty commands = some shelf ∧
      shelf.slices.get? "middle" = some middle ∧ shelf.slices.get? "copy" = some copy ∧
      middle.sharesStorage copy = false ∧ middle.sameBytes copy = true ∧
      (shelf.slices.get? "twice").map Slice.toBytes =
        some [2, 3, 1, 2, 3, 4, 2, 3, 1, 2, 3, 4] ∧
      ∀ later shelf', shelf.performAll later = some shelf' →
        ∃ memory, middle.bytesIn memory = [2, 3] ∧
          ∀ s, shelf'.Holds s → s.bytesIn memory = s.toBytes := by
  intro commands
  let middle : Slice := ⟨some ⟨0, #[1, 2, 3, 4]⟩, 1, 2⟩
  let copy : Slice := ⟨some ⟨1, #[2, 3]⟩, 0, 2⟩
  obtain ⟨shelf, hshelf, hmiddle, hcopy⟩ : ∃ shelf, performAll empty commands = some shelf ∧
      shelf.slices.get? "middle" = some middle ∧ shelf.slices.get? "copy" = some copy :=
    ⟨_, rfl, by decide, by decide⟩
  obtain ⟨lists, hlists, htwice⟩ : ∃ lists, ByteShelf.performAll .empty commands = some lists ∧
      lists.strings.get? "twice" = some [2, 3, 1, 2, 3, 4, 2, 3, 1, 2, 3, 4] :=
    ⟨_, rfl, by decide⟩
  have hrel := slices_are_lists commands
  rw [hshelf, hlists] at hrel
  cases hrel with
  | some hfaithful =>
      have hholds : shelf.Holds middle := .inl ⟨"middle", hmiddle⟩
      have hsame := hfaithful.sameBytes_iff middle copy hholds (.inl ⟨"copy", hcopy⟩)
      obtain ⟨memory, -, hkeeps⟩ := hfaithful.keeps
      refine ⟨shelf, middle, copy, hshelf, hmiddle, hcopy, rfl, hsame.2 (by decide), ?_, ?_⟩
      · rw [hfaithful.strings_eq "twice", htwice]
      · intro later shelf' hlater
        obtain ⟨memory', -, hbytes⟩ := hkeeps later shelf' hlater
        have hread : middle.bytesIn memory' = middle.toBytes := hbytes middle (.inl hholds)
        exact ⟨memory', hread, fun s hs => hbytes s (.inr hs)⟩

end Shelf

end StreamDecode
