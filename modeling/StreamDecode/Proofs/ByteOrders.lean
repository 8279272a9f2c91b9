import Mathlib.Algebra.BigOperators.Fin
import Mathlib.Data.List.FinRange
import Mathlib.Data.Nat.Digits.Lemmas
import StreamDecode.Proofs.Chunking
import StreamDecode.Proofs.Polling
import StreamDecode.Proofs.Reading
import StreamDecode.Proofs.SlicesAsLists

set_option autoImplicit false

/-! # The two byte orders

Up to eight bytes are the digits, to the base 256, of a number that fits in as many bytes. In the
one order the first byte is the most significant digit, in the other the least significant one, so
each order reads what the other one reads backwards. A number is written by its lowest digits
(`Word.encode`). Since the digits of a number are unique, reading what was written gives the number
back, and writing what was read gives the bytes.

A loop that keeps no more bits than the word has in the end, and throws away the others after every
round, throws nothing away (`Word.toNat_inRounds`): after some bytes it holds the number that these
are the digits of, which leaves room for as many digits as there are bytes to come. -/

namespace StreamDecode

namespace Word

variable {m n v : Nat} {order : ByteOrder} {bytes : Bytes}

/-! ## Positional values -/

theorem number_big_cons (byte : UInt8) (bytes : Bytes) :
    number .big (byte :: bytes) = byte.toNat * 256 ^ bytes.length + number .big bytes := by
  rw [number, number, List.map_reverse, List.map_reverse, List.map_cons, Nat.ofDigits_reverse_cons,
    List.length_map, Nat.mul_comm, Nat.add_comm]

theorem number_little_eq_sum (bytes : Bytes) :
    number .little bytes = ∑ i : Fin bytes.length, (bytes.get i).toNat * 256 ^ i.val := by
  induction bytes with
  | nil => rfl
  | cons byte bytes ih =>
      refine Eq.trans ?_ (Fin.sum_univ_succ _).symm
      rw [number_little_cons, ih, Finset.mul_sum]
      simp [Nat.pow_succ', Nat.mul_left_comm]

theorem number_big_eq_sum (bytes : Bytes) :
    number .big bytes =
      ∑ i : Fin bytes.length, (bytes.get i).toNat * 256 ^ (bytes.length - 1 - i.val) := by
  induction bytes with
  | nil => rfl
  | cons byte bytes ih =>
      refine Eq.trans ?_ (Fin.sum_univ_succ _).symm
      rw [number_big_cons, ih]
      simp [Nat.sub_sub, Nat.add_comm]

/-- Digits are unique: so many bytes are the digits of one number only. -/
theorem number_injective (order : ByteOrder) {bytes' : Bytes}
    (hlength : bytes.length = bytes'.length) (h : number order bytes = number order bytes') :
    bytes = bytes' := by
  have hinj : Function.Injective (List.map UInt8.toNat) :=
    List.map_injective_iff.2 fun _ _ => UInt8.toNat_inj.1
  have hlittle {bytes bytes' : Bytes} (hlength : bytes.length = bytes'.length)
      (h : number .little bytes = number .little bytes') : bytes = bytes' :=
    hinj (Nat.ofDigits_inj_of_len_eq (by decide) (by simpa using hlength) (fun _ => digit_lt)
      (fun _ => digit_lt) h)
  cases order with
  | big =>
      refine List.reverse_injective (hlittle ?_ h)
      rw [List.length_reverse, List.length_reverse, hlength]
  | little => exact hlittle hlength h

end Word

/-! ## The loop that keeps no more bits than the word has -/

/-- Which byte is read in round `i`. The most significant one is read in the first round. -/
def ByteOrder.index {n : Nat} : ByteOrder → Fin n → Fin n
  | big, i => i
  | little, i => i.rev

namespace Word

variable {m n v : Nat} {order : ByteOrder} {bytes : Bytes}

/-- Shift one more byte into a word of `m` bytes, in 64 bits, and keep the bits of the word. -/
def shiftWithin (word : BitVec (8 * m)) (byte : UInt8) : BitVec (8 * m) :=
  (shiftIn (.ofBitVec (word.setWidth 64)) byte).toBitVec.setWidth (8 * m)

/-- The word that has as many bytes as there are, read in as many rounds. -/
def inRounds (order : ByteOrder) (bytes : Bytes) : BitVec (8 * bytes.length) :=
  (List.finRange bytes.length).foldl (fun word i => shiftWithin word (bytes.get (order.index i))) 0

/-- One round. While there is room for another digit no bit is lost, neither to the 64 bits nor to
    those of the word. -/
theorem toNat_shiftWithin {word : BitVec (8 * m)} (byte : UInt8) (hm : m ≤ 8) (hn : n < m)
    (h : word.toNat < 256 ^ n) :
    (shiftWithin word byte).toNat = byte.toNat + 256 * word.toNat := by
  have hbyte := byte.toNat_lt
  have hwide : (UInt64.ofBitVec (word.setWidth 64)).toNat = word.toNat := by
    show (word.setWidth 64).toNat = word.toNat
    rw [BitVec.toNat_setWidth]
    refine Nat.mod_eq_of_lt (word.isLt.trans_le (Nat.pow_le_pow_right (by decide) ?_))
    omega
  have hroom : (UInt64.ofBitVec (word.setWidth 64)).toNat < 256 ^ 7 := by
    rw [hwide]
    exact h.trans_le (Nat.pow_le_pow_right (by decide) (by omega))
  have hkept : byte.toNat + 256 * word.toNat < 2 ^ (8 * m) := by
    calc byte.toNat + 256 * word.toNat < 256 * 256 ^ n := by omega
      _ = 256 ^ (n + 1) := (Nat.pow_succ' ..).symm
      _ ≤ 256 ^ m := Nat.pow_le_pow_right (by decide) hn
      _ = 2 ^ (8 * m) := by rw [Nat.pow_mul]
  rw [shiftWithin, BitVec.toNat_setWidth, UInt64.toNat_toBitVec, toNat_shiftIn _ _ hroom, hwide,
    Nat.mod_eq_of_lt hkept]

/-- The rounds so far. The word is the number that the bytes so far are the digits of. -/
theorem toNat_foldl_shiftWithin (hm : m ≤ 8) (h : bytes.length ≤ m) :
    (bytes.foldl shiftWithin (0 : BitVec (8 * m))).toNat = number .big bytes := by
  induction bytes using List.reverseRecOn with
  | nil => exact BitVec.toNat_zero
  | append_singleton bytes byte ih =>
      rw [List.length_append, List.length_singleton] at h
      have hlt := number_lt .big bytes
      rw [← ih (by omega)] at hlt
      rw [List.foldl_append, List.foldl_cons, List.foldl_nil, toNat_shiftWithin byte hm h hlt,
        ih (by omega), number_big_concat]

/-- The bytes in the order of the rounds. -/
theorem map_get_index (order : ByteOrder) (bytes : Bytes) :
    (List.finRange bytes.length).map (fun i => bytes.get (order.index i)) =
      match order with
      | .big => bytes
      | .little => bytes.reverse := by
  cases order with
  | big => exact List.map_get_finRange bytes
  | little =>
      show (List.finRange bytes.length).map (bytes.get ∘ Fin.rev) = bytes.reverse
      rw [← List.map_map, ← List.finRange_reverse, List.map_reverse, List.map_get_finRange]

theorem toNat_inRounds (order : ByteOrder) (h : bytes.length ≤ 8) :
    (inRounds order bytes).toNat = number order bytes := by
  rw [inRounds, ← List.foldl_map, map_get_index]
  cases order with
  | big => exact toNat_foldl_shiftWithin h (Nat.le_refl _)
  | little =>
      have hlength : bytes.reverse.length ≤ bytes.length := Nat.le_of_eq List.length_reverse
      rw [toNat_foldl_shiftWithin h hlength, number_big, List.reverse_reverse]

/-! ## Encodings -/

/-- The lowest `n` digits of a number to the base 256, in the given order. -/
def encode (n : Nat) (order : ByteOrder) (v : Nat) : Bytes :=
  let digits := (List.range n).map fun i => UInt8.ofNat (v >>> (8 * i))
  match order with
  | .big => digits.reverse
  | .little => digits

theorem encode_big (n v : Nat) : encode n .big v = (encode n .little v).reverse := rfl

theorem length_encode (n : Nat) (order : ByteOrder) (v : Nat) : (encode n order v).length = n := by
  cases order with
  | big => rw [encode_big, List.length_reverse, encode, List.length_map, List.length_range]
  | little => rw [encode, List.length_map, List.length_range]

/-- One more digit comes behind the others. -/
theorem encode_little_succ (n v : Nat) :
    encode (n + 1) .little v = encode n .little v ++ [UInt8.ofNat (v >>> (8 * n))] := by
  rw [encode, encode, List.range_succ, List.map_append, List.map_singleton]

theorem number_encode_little (n v : Nat) : number .little (encode n .little v) = v % 256 ^ n := by
  induction n with
  | zero => exact (Nat.mod_one v).symm
  | succ n ih =>
      have hdigit : (UInt8.ofNat (v >>> (8 * n))).toNat = v / 256 ^ n % 256 := by
        rw [UInt8.toNat_ofNat', Nat.shiftRight_eq_div_pow, Nat.pow_mul]
      rw [number] at ih
      rw [number, encode_little_succ, List.map_append, Nat.ofDigits_append, ih, List.length_map,
        length_encode, List.map_singleton, Nat.ofDigits_singleton, hdigit, Nat.mod_pow_succ]

theorem number_encode (n : Nat) (order : ByteOrder) (v : Nat) :
    number order (encode n order v) = v % 256 ^ n := by
  cases order with
  | big => rw [number_big, encode_big, List.reverse_reverse, number_encode_little]
  | little => exact number_encode_little n v

theorem encode_number (order : ByteOrder) (bytes : Bytes) :
    encode bytes.length order (number order bytes) = bytes := by
  refine number_injective order (length_encode _ _ _) ?_
  rw [number_encode, Nat.mod_eq_of_lt (number_lt order bytes)]

/-! ## Words -/

theorem combine_little (bytes : Bytes) : combine .little bytes = combine .big bytes.reverse := rfl

/-- What lies in memory has its least significant byte first. -/
theorem inMemory_eq_combine (bytes : Bytes) : inMemory bytes = combine .little bytes := by
  induction bytes with
  | nil => rfl
  | cons byte bytes ih =>
      rw [combine_little, combine, List.reverse_cons, List.foldl_append, inMemory, ih,
        UInt64.or_comm]
      rfl

theorem encode_combine (order : ByteOrder) (h : bytes.length ≤ 8) :
    encode bytes.length order (combine order bytes).toNat = bytes := by
  rw [toNat_combine order h, encode_number]

theorem combine_encode (order : ByteOrder) (hn : n ≤ 8) (hv : v < 256 ^ n) :
    (combine order (encode n order v)).toNat = v := by
  have hlength : (encode n order v).length ≤ 8 := by rwa [length_encode]
  rw [toNat_combine order hlength, number_encode, Nat.mod_eq_of_lt hv]

end Word

/-! ## Decoders -/

namespace WordFormat

/-- The number of bytes of a word. -/
def width : WordFormat → Nat
  | word8 => 1
  | word16be | word16le | word16host => 2
  | word32be | word32le | word32host => 4
  | word64be | word64le | word64host | wordHost => 8

/-- Which byte of a word comes first. In memory it is the least significant one. -/
def order : WordFormat → ByteOrder
  | word8 | word16be | word32be | word64be => .big
  | word16le | word16host | word32le | word32host | word64le | word64host | wordHost => .little

/-- How a number is written. -/
def encode (format : WordFormat) (v : Nat) : Bytes := Word.encode format.width format.order v

theorem width_le (format : WordFormat) : format.width ≤ 8 := by cases format <;> decide

theorem length_encode (format : WordFormat) (v : Nat) : (format.encode v).length = format.width :=
  Word.length_encode _ _ _

variable {β : Type} [Buffer β] {format : WordFormat} {v : Nat} {rest : Bytes}

/-- Each decoder takes the bytes of a word, and gives the low end of the 64 bits that they are
    shifted into. -/
theorem decoder_eq (format : WordFormat) :
    (format.decoder : Decoder β Nat) = (Decoder.getBytes format.width).map fun bytes =>
      (Word.combine format.order (Buffer.toBytes bytes)).toNat % 256 ^ format.width := by
  have hmap {f g : β → Nat} (h : ∀ bytes, f bytes = g bytes) (n : Nat) :
      (Decoder.getBytes n).map f = (Decoder.getBytes n).map g := by rw [funext h]
  have hmemory (n : Nat) : (Decoder.wordInMemory n : Decoder β UInt64) = .word n .little := by
    simp only [Decoder.wordInMemory, Decoder.word, Word.inMemory_eq_combine]
  cases format with
  | word8 => exact hmap (fun bytes => UInt64.toNat_toUInt8 _) 1
  | word16be | word16le => exact hmap (fun bytes => UInt64.toNat_toUInt16 _) 2
  | word32be | word32le => exact hmap (fun bytes => UInt64.toNat_toUInt32 _) 4
  | word64be | word64le => exact hmap (fun bytes => (Nat.mod_eq_of_lt (UInt64.toNat_lt _)).symm) 8
  | word16host =>
      rw [decoder, Decoder.word16host, hmemory]
      exact hmap (fun bytes => UInt64.toNat_toUInt16 _) 2
  | word32host =>
      rw [decoder, Decoder.word32host, hmemory]
      exact hmap (fun bytes => UInt64.toNat_toUInt32 _) 4
  | word64host =>
      rw [decoder, Decoder.word64host, hmemory]
      exact hmap (fun bytes => (Nat.mod_eq_of_lt (UInt64.toNat_lt _)).symm) 8
  | wordHost =>
      rw [decoder, Decoder.wordHost, hmemory]
      exact hmap (fun bytes => (Nat.mod_eq_of_lt (UInt64.toNat_lt _)).symm) 8

/-- Once enough bytes are there, and they begin with a number as it is written, that is the value. -/
theorem succeedsAt [LawfulBuffer β] {c here : Cursor β} {chunks : List β}
    (hv : v < 256 ^ format.width)
    (hensure : (Decoder.ensure format.width).SucceedsAt c chunks here here.input)
    (hbytes : Buffer.toBytes here.input = format.encode v ++ rest) :
    format.decoder.SucceedsAt c chunks
      { here with input := Buffer.drop here.input format.width } v := by
  have hcombined : (Word.combine format.order
      (Buffer.toBytes (Buffer.take here.input format.width))).toNat % 256 ^ format.width = v := by
    rw [LawfulBuffer.toBytes_take, hbytes, List.take_left' (format.length_encode v), encode,
      Word.combine_encode format.order format.width_le hv, Nat.mod_eq_of_lt hv]
  intro ρ onFailure onSuccess
  rw [decoder_eq]
  exact hcombined ▸ hensure ρ onFailure _

theorem succeedsAt_bytes (hv : v < 256 ^ format.width) {c : Cursor Bytes} {chunks : List Bytes}
    (hasks : c.Asks format.width chunks)
    (hinput : c.input ++ chunks.flatten = format.encode v ++ rest) :
    format.decoder.SucceedsAt c chunks ⟨rest, c.received chunks, c.mode, c.counter⟩ v := by
  have hlength := format.length_encode v
  have henough : format.width ≤ (c.input ++ chunks.flatten).length := by
    rw [hinput, List.length_append, hlength]
    exact Nat.le_add_right _ _
  have hdrop : (c.input ++ chunks.flatten).drop format.width = rest := by
    rw [hinput, List.drop_left' hlength]
  have hensure := Decoder.ensure_succeedsAt_iff.2 ⟨hasks, henough, rfl, rfl⟩
  exact hdrop ▸ succeedsAt hv hensure hinput

theorem succeedsAt_slice (hv : v < 256 ^ format.width) {c : Cursor Slice}
    (hc : c.input.WellFormed) (hinput : c.input.toBytes = format.encode v ++ rest) :
    format.decoder.SucceedsAt c [] { c with input := c.input.drop format.width } v := by
  have henough : Buffer.hasAtLeast c.input format.width = true := by
    rw [LawfulBuffer.hasAtLeast_iff]
    show format.width ≤ c.input.size
    rw [← hc.length_toBytes, hinput, List.length_append, format.length_encode]
    exact Nat.le_add_right _ _
  refine succeedsAt hv ?_ hinput
  rw [(Decoder.Linear.ensure format.width).succeedsAt_iff, Step.after_nil,
    Decoder.outcome_ensure_enough henough]

theorem start_eq_done (hv : v < 256 ^ format.width) (mode : InputMode) (rest : Bytes) :
    format.decoder.start mode (format.encode v ++ rest) = .done v rest := by
  have hcomposed : Composed .stream (format.decoder : Decoder Bytes Nat) := .wordFormat format
  have hsucceeds := succeedsAt_bytes (c := .start mode (format.encode v ++ rest)) hv (.inl rfl)
    (List.append_nil _)
  rw [hcomposed.linear.succeedsAt_iff, Step.after_nil, Option.some.injEq] at hsucceeds
  rw [Decoder.start, hsucceeds]
  rfl

/-- The decoder gives the number for an input that begins with it as it is written, and leaves the
    rest of the input. -/
structure Decodes (format : WordFormat) (v : Nat) (rest : Bytes) : Prop where
  /-- Wherever a run stands, in either mode, having got the chunks that it asks for. -/
  bytes : ∀ (c : Cursor Bytes) (chunks : List Bytes), c.Asks format.width chunks →
    c.input ++ chunks.flatten = format.encode v ++ rest →
    format.decoder.SucceedsAt c chunks ⟨rest, c.received chunks, c.mode, c.counter⟩ v
  /-- Wherever a run over slices stands, in either mode. -/
  slices : ∀ c : Cursor Slice, c.input.WellFormed → c.input.toBytes = format.encode v ++ rest →
    format.decoder.SucceedsAt c [] { c with input := c.input.drop format.width } v ∧
      (c.input.drop format.width).toBytes = rest
  /-- However the input is cut. -/
  pieces : ∀ (first : Bytes) (later : List Bytes), [] ∉ later →
    first ++ later.flatten = format.encode v ++ rest →
    Result.standing ((format.decoder.runPartial first).feedPending later) = some (.ok (v, rest))
  /-- With all of the input at once. -/
  whole : format.decoder.runWithRemainder (format.encode v ++ rest) 0 = .ok (v, rest)

theorem decodes (hv : v < 256 ^ format.width) (rest : Bytes) : format.Decodes v rest where
  bytes := fun c chunks hasks hinput => succeedsAt_bytes hv hasks hinput
  slices := by
    intro c hc hinput
    refine ⟨succeedsAt_slice hv hc hinput, ?_⟩
    rw [Slice.toBytes_drop, hinput, List.drop_left' (format.length_encode v)]
  pieces := by
    intro first later hlater hinput
    have hjoined := ((Composed.wordFormat format).seamless rfl).standing_feedPending first hlater []
    rw [List.append_nil, hinput, Result.feedPending_nil] at hjoined
    rw [hjoined, Decoder.runPartial, start_eq_done hv]
    exact Result.standing_of_isFinal trivial
  whole := congrArg Result.toExcept (start_eq_done hv .complete rest)

end WordFormat

/-! ## Bytes and numbers -/

namespace Word

/-- Up to eight bytes and the numbers that fit in as many bytes correspond to each other, in either
    order. The bytes are the digits of a number, which is what all ways to read them give: into 64
    bits, round after round into no more bits than the word has, and from memory. Writing what was
    read gives the bytes, and reading what was written gives the number. So every decoder of a word
    gives the number for an input that begins with it as it is written, and leaves the rest of the
    input. -/
theorem bytes_and_numbers_correspond :
    (∀ bytes : Bytes, bytes.length ≤ 8 →
      (combine .big bytes).toNat =
        ∑ i : Fin bytes.length, (bytes.get i).toNat * 256 ^ (bytes.length - 1 - i.val) ∧
      (combine .little bytes).toNat = ∑ i : Fin bytes.length, (bytes.get i).toNat * 256 ^ i.val ∧
      combine .little bytes = combine .big bytes.reverse ∧
      inMemory bytes = combine .little bytes ∧
      ∀ order, (combine order bytes).toNat < 2 ^ (8 * bytes.length) ∧
        (inRounds order bytes).toNat = (combine order bytes).toNat ∧
        encode bytes.length order (combine order bytes).toNat = bytes) ∧
    (∀ (n : Nat) (order : ByteOrder) (v : Nat), n ≤ 8 → v < 2 ^ (8 * n) →
      (encode n order v).length = n ∧ (combine order (encode n order v)).toNat = v) ∧
    (∀ (format : WordFormat) (v : Nat) (rest : Bytes), v < 2 ^ (8 * format.width) →
      format.Decodes v rest) := by
  have hpow (n : Nat) : 2 ^ (8 * n) = 256 ^ n := Nat.pow_mul 2 8 n
  refine ⟨fun bytes hbytes => ⟨?_, ?_, combine_little bytes, inMemory_eq_combine bytes,
    fun order => ⟨?_, ?_, encode_combine order hbytes⟩⟩, fun n order v hn hv => ⟨?_, ?_⟩,
    fun format v rest hv => ?_⟩
  · rw [toNat_combine .big hbytes, number_big_eq_sum]
  · rw [toNat_combine .little hbytes, number_little_eq_sum]
  · rw [toNat_combine order hbytes, hpow]
    exact number_lt order bytes
  · rw [toNat_inRounds order hbytes, toNat_combine order hbytes]
  · exact length_encode n order v
  · rw [hpow] at hv
    exact combine_encode order hn hv
  · rw [hpow] at hv
    exact WordFormat.decodes hv rest

/-- Four bytes as they are read in either order, and an input that begins with them and is cut inside
    of the word. -/
theorem four_bytes_correspond :
    (combine .big [0xCA, 0xFE, 0xF0, 0x0D]).toNat = 0xCAFEF00D ∧
    (inRounds .little [0xCA, 0xFE, 0xF0, 0x0D]).toNat = 0x0DF0FECA ∧
    encode 4 .big 0xCAFEF00D = [0xCA, 0xFE, 0xF0, 0x0D] ∧
    Result.standing ((WordFormat.word32host.decoder.runPartial [0xCA]).feedPending
      [[0xFE, 0xF0], [0x0D, 1, 2]]) = some (.ok (0x0DF0FECA, [1, 2])) := by
  obtain ⟨hbytes, hnumbers, hdecodes⟩ := bytes_and_numbers_correspond
  obtain ⟨hbig, hlittle, -, -, horders⟩ := hbytes [0xCA, 0xFE, 0xF0, 0x0D] (by decide)
  have hnumber : (combine .big [0xCA, 0xFE, 0xF0, 0x0D]).toNat = 0xCAFEF00D := hbig.trans rfl
  have hwritten := (horders .big).2.2
  rw [hnumber] at hwritten
  refine ⟨hnumber, (horders .little).2.1.trans (hlittle.trans rfl), hwritten, ?_⟩
  exact (hdecodes .word32host 0x0DF0FECA [1, 2] (by decide)).pieces _ _ (by decide) (by decide)

end Word

end StreamDecode
