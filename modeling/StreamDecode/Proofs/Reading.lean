import StreamDecode.Proofs.Composed
import StreamDecode.Proofs.Wire

set_option autoImplicit false

/-! # Decoders that read a format

A decoder `Reads` a wire format if it consumes exactly the encodings of the format, giving their
values, and fails on all input that does not begin with one. A bound on the length of the input is
carried along, and the sequence of two decoders needs the second only for what the first has left
over: a loop that consumes input in each round may stop at a limit. -/

namespace StreamDecode

variable {α γ δ : Type} {n : Nat}

/-! ## Words -/

namespace Word

theorem toNat_shiftIn (word : UInt64) (byte : UInt8) (h : word.toNat < 256 ^ 7) :
    (shiftIn word byte).toNat = byte.toNat + 256 * word.toNat := by
  have hbyte : byte.toNat < 2 ^ 8 := byte.toNat_lt
  have hshift : (word <<< 8).toNat = word.toNat <<< 8 := by
    rw [UInt64.toNat_shiftLeft]
    have hsmall : word.toNat <<< 8 < 2 ^ 64 := by
      rw [Nat.shiftLeft_eq]
      omega
    exact Nat.mod_eq_of_lt hsmall
  rw [shiftIn, UInt64.toNat_or, hshift, UInt8.toNat_toUInt64,
    ← Nat.shiftLeft_add_eq_or_of_lt hbyte, Nat.shiftLeft_eq]
  omega

theorem digit_lt {bytes : Bytes} {digit : Nat} (h : digit ∈ bytes.map UInt8.toNat) :
    digit < 256 := by
  obtain ⟨byte, -, rfl⟩ := List.mem_map.1 h
  exact byte.toNat_lt

theorem number_lt (order : ByteOrder) (bytes : Bytes) :
    number order bytes < 256 ^ bytes.length := by
  have hdigits (digits : Bytes) :
      Nat.ofDigits 256 (digits.map UInt8.toNat) < 256 ^ digits.length := by
    rw [← List.length_map UInt8.toNat]
    exact Nat.ofDigits_lt_base_pow_length (by decide) fun _ => digit_lt
  cases order with
  | big => simpa [number] using hdigits bytes.reverse
  | little => exact hdigits bytes

theorem number_big (bytes : Bytes) : number .big bytes = number .little bytes.reverse := rfl

theorem number_little_cons (byte : UInt8) (bytes : Bytes) :
    number .little (byte :: bytes) = byte.toNat + 256 * number .little bytes :=
  Nat.ofDigits_cons

theorem number_big_concat (bytes : Bytes) (byte : UInt8) :
    number .big (bytes ++ [byte]) = byte.toNat + 256 * number .big bytes := by
  rw [number_big, List.reverse_concat, number_little_cons, ← number_big]

theorem toNat_foldl_shiftIn {bytes : Bytes} (h : bytes.length ≤ 8) :
    (bytes.foldl shiftIn 0).toNat = number .big bytes := by
  induction bytes using List.reverseRecOn with
  | nil => rfl
  | append_singleton bytes byte ih =>
      rw [List.length_append, List.length_singleton] at h
      have hlt : (bytes.foldl shiftIn 0).toNat < 256 ^ 7 := by
        rw [ih (by omega)]
        exact (number_lt .big bytes).trans_le (Nat.pow_le_pow_right (by decide) (by omega))
      rw [List.foldl_append, List.foldl_cons, List.foldl_nil, toNat_shiftIn _ _ hlt, ih (by omega),
        number_big_concat]

/-- Shifting byte after byte into a word gives the number that the bytes are the digits of. -/
theorem toNat_combine (order : ByteOrder) {bytes : Bytes} (h : bytes.length ≤ 8) :
    (combine order bytes).toNat = number order bytes := by
  cases order with
  | big => exact toNat_foldl_shiftIn h
  | little =>
      refine (toNat_foldl_shiftIn ?_).trans ?_
      · rwa [List.length_reverse]
      · rw [number_big, List.reverse_reverse]

end Word

theorem Wire.WordOf.lt {m v : Nat} {order : ByteOrder} {p : Bytes} (h : WordOf m order v p) :
    v < 256 ^ m := by
  obtain ⟨rfl, rfl⟩ := h
  exact Word.number_lt order p

theorem Wire.WordOf.exists_word {m v : Nat} {order : ByteOrder} {p : Bytes}
    (h : WordOf m order v p) (hm : m ≤ 8) : ∃ u : UInt64, u.toNat = v := by
  refine ⟨UInt64.ofNat v, UInt64.toNat_ofNat_of_lt' (h.lt.trans_le ?_)⟩
  exact Nat.pow_le_pow_right (by decide : 0 < 256) hm

/-! ## The judgment -/

/-- The failure is a lack of input, or one of keys that do not ascend. -/
def Failure.IsMalformed (f : Failure) : Prop := f = .outOfInput ∨ f = ⟨.unorderedKeys, []⟩

namespace Wire

/-- One value, which is written with no bytes. -/
def Only (value : α) : Wire α := fun v p => v = value ∧ p = []

/-- One encoding, then another one that depends on the value of the first. -/
def Then (w : Wire α) (next : α → Wire γ) : Wire γ := fun v p =>
  ∃ u q r, p = q ++ r ∧ w u q ∧ next u v r

theorem only_then (value : α) (next : α → Wire γ) : (Only value).Then next = next value := by
  funext v p
  refine propext ⟨?_, fun h => ⟨value, [], p, rfl, ⟨rfl, rfl⟩, h⟩⟩
  rintro ⟨_, _, r, rfl, ⟨rfl, rfl⟩, h⟩
  exact h

theorem then_only (w : Wire α) : w.Then Only = w := by
  funext v p
  refine propext ⟨?_, fun h => ⟨v, p, [], (List.append_nil p).symm, h, rfl, rfl⟩⟩
  rintro ⟨u, q, _, rfl, h, rfl, rfl⟩
  rwa [List.append_nil]

theorem then_assoc (w : Wire α) (next : α → Wire γ) (last : γ → Wire δ) :
    (w.Then next).Then last = w.Then fun u => (next u).Then last := by
  funext v p
  refine propext ⟨?_, ?_⟩
  · rintro ⟨b, _, s, rfl, ⟨a, q, r, rfl, ha, hb⟩, hv⟩
    exact ⟨a, q, r ++ s, List.append_assoc q r s, ha, b, r, s, rfl, hb, hv⟩
  · rintro ⟨a, q, _, rfl, ha, b, r, s, rfl, hb, hv⟩
    exact ⟨b, q ++ r, s, (List.append_assoc q r s).symm, ⟨a, q, r, rfl, ha, hb⟩, hv⟩

end Wire

/-- With less than `n` bytes of input and no more to come, the decoder consumes an encoding of the
    format if the input begins with one, and fails otherwise. -/
structure Decoder.Reads (d : Decoder Bytes α) (n : Nat) (w : Wire α) : Prop where
  composed : Composed .stream d
  reads : ∀ {c : Cursor Bytes} {v : α} {p rest : Bytes}, c.mode = .complete → c.input.length < n →
    w v p → c.input = p ++ rest → d.outcome c = .answer (.reached { c with input := rest } v)
  reads_or_fails : ∀ {c : Cursor Bytes}, c.mode = .complete → c.input.length < n →
    (∃ v p rest, w v p ∧ c.input = p ++ rest) ∨
      ∃ c' failure, failure.IsMalformed ∧ d.outcome c = .answer (.failed c' failure)

namespace Decoder.Reads

theorem mono {d : Decoder Bytes α} {w : Wire α} {m : Nat} (h : d.Reads n w) (hm : m ≤ n) :
    d.Reads m w :=
  ⟨h.composed, fun hmode hlt => h.reads hmode (hlt.trans_le hm),
    fun hmode hlt => h.reads_or_fails hmode (hlt.trans_le hm)⟩

theorem congr {d : Decoder Bytes α} {w w' : Wire α} (h : d.Reads n w)
    (hw : ∀ v p, w v p ↔ w' v p) : d.Reads n w' := by
  have hwires : w = w' := by
    funext v p
    exact propext (hw v p)
  exact hwires ▸ h

theorem pure (value : α) : (Decoder.pure value : Decoder Bytes α).Reads n (Wire.Only value) where
  composed := .pure value
  reads := by
    rintro c v p rest _ _ ⟨rfl, rfl⟩ hinput
    rw [List.nil_append] at hinput
    exact hinput ▸ rfl
  reads_or_fails := fun {c} _ _ => .inl ⟨value, [], c.input, ⟨rfl, rfl⟩, rfl⟩

theorem failFor : (failFor .unorderedKeys : Decoder Bytes α).Reads n fun _ _ => False where
  composed := .failFor rfl
  reads := fun _ _ h _ => h.elim
  reads_or_fails := fun {c} _ _ => .inr ⟨c, _, .inr rfl, rfl⟩

/-- A sequence reads one encoding after the other. The second decoder has less input to read. -/
theorem bind {d : Decoder Bytes α} {next : α → Decoder Bytes γ} {w : Wire α} {w' : α → Wire γ}
    (hd : d.Reads n w) (hcomposed : ∀ u, Composed .stream (next u))
    (hnext : ∀ u q, w u q → (next u).Reads (n - q.length) (w' u)) :
    (d.bind next).Reads n (w.Then w') where
  composed := hd.composed.bind hcomposed
  reads := by
    rintro c v _ rest hmode hlt ⟨u, q, r, rfl, hu, hv⟩ hinput
    rw [List.append_assoc] at hinput
    have hshort : (r ++ rest).length < n - q.length := by
      rw [hinput, List.length_append] at hlt
      omega
    rw [outcome_bind hd.composed.linear, hd.reads hmode hlt hu hinput]
    exact (hnext u q hu).reads (c := { c with input := r ++ rest }) hmode hshort hv rfl
  reads_or_fails := by
    intro c hmode hlt
    rw [outcome_bind hd.composed.linear]
    rcases hd.reads_or_fails hmode hlt with ⟨u, q, rest, hu, hinput⟩ | ⟨c', failure, hf, hfailed⟩
    · rw [hd.reads hmode hlt hu hinput]
      have hshort : rest.length < n - q.length := by
        rw [hinput, List.length_append] at hlt
        omega
      rcases (hnext u q hu).reads_or_fails (c := { c with input := rest }) hmode hshort with
        ⟨v, r, rest', hv, hrest⟩ | hfails
      · refine .inl ⟨v, q ++ r, rest', ⟨u, q, r, rfl, hu, hv⟩, ?_⟩
        rw [hinput, List.append_assoc]
        exact congrArg (q ++ ·) hrest
      · exact .inr hfails
    · refine .inr ⟨c', failure, hf, ?_⟩
      rw [hfailed]
      rfl

theorem followedBy {d : Decoder Bytes α} {next : α → Decoder Bytes γ} {w : Wire α}
    {w' : α → Wire γ} (hd : d.Reads n w) (hnext : ∀ u, (next u).Reads n (w' u)) :
    (d.bind next).Reads n (w.Then w') :=
  hd.bind (fun u => (hnext u).composed) fun u _ _ => (hnext u).mono (Nat.sub_le _ _)

theorem map {d : Decoder Bytes α} {w : Wire α} (hd : d.Reads n w) (f : α → γ) :
    (d.map f).Reads n fun v p => ∃ u, f u = v ∧ w u p := by
  refine (hd.followedBy fun u => pure (f u)).congr fun v p => ?_
  constructor
  · rintro ⟨u, q, r, rfl, hu, rfl, rfl⟩
    exact ⟨u, rfl, by rwa [List.append_nil]⟩
  · rintro ⟨u, rfl, hu⟩
    exact ⟨u, p, [], (List.append_nil p).symm, hu, rfl, rfl⟩

theorem ite {d e : Decoder Bytes α} {w w' : Wire α} (hd : d.Reads n w) (he : e.Reads n w')
    (condition : Prop) [Decidable condition] :
    (if condition then d else e).Reads n fun v p => if condition then w v p else w' v p := by
  split
  · exact hd
  · exact he

/-! ## Bytes and words -/

theorem getBytes (m : Nat) : (Decoder.getBytes m : Decoder Bytes Bytes).Reads n fun v p =>
    p.length = m ∧ v = p where
  composed := .getBytes m
  reads := by
    rintro c v p rest _ _ ⟨rfl, rfl⟩ hinput
    have henough : Buffer.hasAtLeast c.input v.length = true := by
      refine (Bytes.hasAtLeast_iff c.input v.length).2 ?_
      simp [hinput]
    rw [outcome_getBytes, outcome_ensure_enough henough]
    simp [Step.settle, Ending.elim, Step.bind, Buffer.take, Buffer.drop, hinput]
  reads_or_fails := by
    intro c hmode _
    by_cases henough : Buffer.hasAtLeast c.input m = true
    · have hlength : m ≤ c.input.length := (Bytes.hasAtLeast_iff c.input m).1 henough
      refine .inl ⟨c.input.take m, c.input.take m, c.input.drop m, ⟨?_, rfl⟩, ?_⟩
      · simpa using hlength
      · exact (List.take_append_drop m c.input).symm
    · refine .inr ⟨c, .outOfInput, .inl rfl, ?_⟩
      rw [outcome_getBytes, outcome_ensure_complete henough hmode]
      rfl

/-- A word of up to eight bytes is read as the number that its bytes are the digits of. -/
theorem word {m : Nat} (hm : m ≤ 8) (order : ByteOrder) :
    (Decoder.word m order : Decoder Bytes UInt64).Reads n fun v p =>
      Wire.WordOf m order v.toNat p := by
  refine ((getBytes m).map _).congr fun v p => ?_
  constructor
  · rintro ⟨_, rfl, rfl, rfl⟩
    exact ⟨rfl, (Word.toNat_combine order hm).symm⟩
  · rintro ⟨rfl, hv⟩
    refine ⟨p, ?_, rfl, rfl⟩
    rw [← UInt64.toNat_inj, ← hv]
    exact Word.toNat_combine order hm

/-- A narrower word is the low end of a word that its bytes fit in. -/
theorem narrow {m : Nat} (hm : m ≤ 8) (order : ByteOrder) {toNat : α → Nat} {f : UInt64 → α}
    (hf : ∀ u, u.toNat < 256 ^ m → toNat (f u) = u.toNat)
    (hinj : ∀ a b, toNat a = toNat b → a = b) :
    ((Decoder.word m order).map f : Decoder Bytes α).Reads n fun v p =>
      Wire.WordOf m order (toNat v) p := by
  refine ((word hm order).map f).congr fun v p => ?_
  constructor
  · rintro ⟨u, rfl, hu⟩
    rwa [hf u hu.lt]
  · intro hv
    obtain ⟨u, hu⟩ := hv.exists_word hm
    refine ⟨u, hinj _ _ ?_, by rwa [hu]⟩
    rw [hf u (hu ▸ hv.lt), hu]

end Decoder.Reads

end StreamDecode
