import StreamDecode.Proofs.Reading

set_option autoImplicit false

/-! # Containers are read as they are written

Each container decoder reads the wire format of its container, if its parts read theirs. The counted
loop reads one element after the other (`Reads.fold`), and all containers but the trees are made of
it. -/

namespace StreamDecode

variable {α γ : Type} {n : Nat}

/-! ## Ranges of indices -/

namespace IndexType

theorem lt_iff (t : IndexType) (i j : t.Index) : t.lt i j = true ↔ t.value i < t.value j := by
  unfold lt value
  split
  · exact BitVec.slt_iff_toInt_lt
  · rw [BitVec.ult_eq_decide, decide_eq_true_iff, Int.ofNat_lt]

/-- The distance in the width of the type is the true one, if the first index is not the greater. -/
theorem distance_eq (t : IndexType) {low high : t.Index} (h : t.value low ≤ t.value high) :
    (t.distance low high : Int) = t.value high - t.value low := by
  have hlow : low.toNat < 2 ^ t.width := low.isLt
  have hhigh : high.toNat < 2 ^ t.width := high.isLt
  unfold value at h ⊢
  unfold distance
  split
  next hsigned =>
    simp only [hsigned, if_true, BitVec.toInt_eq_toNat_cond] at h ⊢
    -- the difference wraps around if the lower index alone is negative
    rcases Nat.lt_or_ge high.toNat low.toNat with hwraps | hle
    · rw [BitVec.toNat_sub_of_lt hwraps]
      split at h <;> split at h <;> split <;> omega
    · rw [BitVec.toNat_sub_of_le hle]
      split at h <;> split at h <;> split <;> omega
  next hunsigned =>
    simp only [hunsigned, Bool.false_eq_true, if_false, Int.ofNat_le] at h
    rw [BitVec.toNat_sub_of_le h, Int.ofNat_sub h]

/-- The size of a range is the number of its indices, up to the greatest size. -/
theorem rangeSize_eq (t : IndexType) (lower upper : t.Index) :
    t.rangeSize lower upper = min maxSize (t.count lower upper) := by
  unfold rangeSize count
  split
  next hlt =>
    have hvalue := (t.lt_iff upper lower).1 hlt
    omega
  next hle =>
    have hvalue : t.value lower ≤ t.value upper := by
      rw [lt_iff] at hle
      omega
    have hdistance := t.distance_eq hvalue
    split <;> omega

end IndexType

/-- A list on the wire has no more elements than the greatest size. -/
theorem Wire.ListOf.take_rangeSize {w : Wire α} {vs : List α} {p : Bytes} (h : ListOf w vs p)
    {t : IndexType} (lower upper : t.Index) :
    vs.take (t.rangeSize lower upper) = vs.take (t.count lower upper) := by
  obtain ⟨hcount, -⟩ := h
  have hlt : vs.length < 256 ^ 8 := hcount.lt
  have hmax : vs.length ≤ maxSize := Nat.le_of_lt_succ hlt
  rw [t.rangeSize_eq, List.take_eq_take_iff]
  omega

namespace Decoder.Reads

/-! ## Counted repetition -/

theorem fold {element : Decoder Bytes α} {w : Wire α} (he : element.Reads n w) (count : Nat)
    (init : γ) (push : γ → α → γ) :
    (Decoder.fold count element init push).Reads n fun collected p =>
      ∃ vs : List α, vs.length = count ∧ Wire.EachOf w vs p ∧ vs.foldl push init = collected := by
  induction count generalizing init with
  | zero =>
      refine (pure init).congr fun collected p => ?_
      constructor
      · rintro ⟨rfl, rfl⟩
        exact ⟨[], rfl, .nil, rfl⟩
      · rintro ⟨vs, hlength, heach, rfl⟩
        obtain rfl := List.eq_nil_of_length_eq_zero hlength
        cases heach
        exact ⟨rfl, rfl⟩
  | succ count ih =>
      rw [fold_succ he.composed.linear]
      refine (he.followedBy fun v => ih (push init v)).congr fun collected p => ?_
      constructor
      · rintro ⟨v, q, r, rfl, hv, vs, rfl, heach, rfl⟩
        exact ⟨v :: vs, rfl, .cons hv heach, rfl⟩
      · rintro ⟨vs, hlength, heach, rfl⟩
        cases heach with
        | nil => cases hlength
        | cons hv heach =>
            rw [List.length_cons, Nat.add_right_cancel_iff] at hlength
            exact ⟨_, _, _, rfl, hv, _, hlength, heach, rfl⟩

theorem word64be : (Decoder.word64be : Decoder Bytes UInt64).Reads n fun v p =>
    Wire.WordOf 8 .big v.toNat p :=
  word (by decide) .big

theorem counted {element : Decoder Bytes α} {w : Wire α} (he : element.Reads n w) (init : γ)
    (push : γ → α → γ) :
    (Decoder.counted element init push).Reads n fun collected p =>
      ∃ vs : List α, Wire.ListOf w vs p ∧ vs.foldl push init = collected := by
  refine (word64be.followedBy fun count => he.fold count.toNat init push).congr fun collected p => ?_
  constructor
  · rintro ⟨count, q, r, rfl, hcount, vs, hlength, heach, rfl⟩
    simp only [← hlength] at hcount
    exact ⟨vs, .counted hcount heach, rfl⟩
  · rintro ⟨vs, ⟨hcount, heach⟩, rfl⟩
    obtain ⟨count, hlength⟩ := hcount.exists_word (by decide)
    rw [← hlength] at hcount
    exact ⟨count, _, _, rfl, hcount, vs, hlength.symm, heach, rfl⟩

theorem listOf {element : Decoder Bytes α} {w : Wire α} (he : element.Reads n w) :
    (Decoder.listOf element).Reads n (Wire.ListOf w) := by
  refine ((he.counted _ _).map List.reverse).congr fun vs p => ?_
  constructor
  · rintro ⟨_, rfl, vs, hvs, rfl⟩
    simpa using hvs
  · intro hvs
    exact ⟨_, by simp, vs, hvs, rfl⟩

theorem arrayOf {element : Decoder Bytes α} {w : Wire α} (he : element.Reads n w) :
    (Decoder.arrayOf element).Reads n (Wire.ArrayOf w) := by
  refine (he.counted #[] Array.push).congr fun vs p => ?_
  constructor
  · rintro ⟨vs, hvs, rfl⟩
    simpa [Wire.ArrayOf] using hvs
  · intro hvs
    refine ⟨vs.toList, hvs, ?_⟩
    rw [List.foldl_push_eq_append, List.map_id', Array.toArray_toList, Array.empty_append]

/-! ## Fixed shapes -/

theorem pairOf {first : Decoder Bytes α} {second : Decoder Bytes γ} {w : Wire α} {w' : Wire γ}
    (hf : first.Reads n w) (hs : second.Reads n w') :
    (Decoder.pairOf first second).Reads n (Wire.PairOf w w') := by
  refine (hf.followedBy fun a => hs.map fun b => (a, b)).congr fun v p => ?_
  constructor
  · rintro ⟨a, q, r, rfl, ha, b, rfl, hb⟩
    exact ⟨q, r, rfl, ha, hb⟩
  · rintro ⟨q, r, rfl, ha, hb⟩
    exact ⟨v.1, q, r, rfl, ha, v.2, rfl, hb⟩

theorem word8 : (Decoder.word8 : Decoder Bytes UInt8).Reads n fun v p => p = [v] := by
  refine (narrow (by decide) .big (fun u hu => ?_) fun a b => UInt8.toNat_inj.1).congr
    fun v p => ?_
  · rw [UInt64.toNat_toUInt8]
    exact Nat.mod_eq_of_lt hu
  · constructor
    · rintro ⟨hlength, hv⟩
      obtain ⟨byte, rfl⟩ := List.length_eq_one_iff.1 hlength
      have hbyte : byte.toNat = v.toNat := by simpa [Word.number] using hv
      rw [UInt8.toNat_inj.1 hbyte]
    · rintro rfl
      exact ⟨rfl, by simp [Word.number]⟩

theorem optionOf {element : Decoder Bytes α} {w : Wire α} (he : element.Reads n w) :
    (Decoder.optionOf element).Reads n (Wire.OptionOf w) := by
  refine (word8.followedBy fun tag => (pure none).ite (he.map some) (tag = 0)).congr fun v p => ?_
  constructor
  · rintro ⟨tag, q, r, rfl, rfl, hv⟩
    split at hv
    next hzero =>
      obtain ⟨rfl, rfl⟩ := hv
      exact hzero ▸ .none
    next hpresent =>
      obtain ⟨u, rfl, hu⟩ := hv
      exact .some hpresent hu
  · intro hv
    cases hv with
    | none => exact ⟨0, [0], [], rfl, rfl, rfl, rfl⟩
    | @some tag u q hpresent hu =>
        refine ⟨tag, [tag], q, rfl, rfl, ?_⟩
        dsimp only
        rw [if_neg hpresent]
        exact ⟨u, rfl, hu⟩

theorem sumOf {left : Decoder Bytes α} {right : Decoder Bytes γ} {w : Wire α} {w' : Wire γ}
    (hl : left.Reads n w) (hr : right.Reads n w') :
    (Decoder.sumOf left right).Reads n (Wire.SumOf w w') := by
  refine (word8.followedBy fun tag => (hl.map Sum.inl).ite (hr.map Sum.inr) (tag = 0)).congr
    fun v p => ?_
  constructor
  · rintro ⟨tag, q, r, rfl, rfl, hv⟩
    split at hv
    next hzero =>
      obtain ⟨u, rfl, hu⟩ := hv
      exact hzero ▸ .inl hu
    next hpresent =>
      obtain ⟨u, rfl, hu⟩ := hv
      exact .inr hpresent hu
  · intro hv
    cases hv with
    | @inl u q hu => exact ⟨0, [0], q, rfl, rfl, u, rfl, hu⟩
    | @inr tag u q hpresent hu =>
        refine ⟨tag, [tag], q, rfl, rfl, ?_⟩
        dsimp only
        rw [if_neg hpresent]
        exact ⟨u, rfl, hu⟩

/-! ## Ordered containers -/

section Ordered

variable [LT α] [DecidableLT α] [IsStrictWeakOrder α (· < ·)]

theorem mapOf {key : Decoder Bytes α} {value : Decoder Bytes γ} {w : Wire α} {w' : Wire γ}
    (hk : key.Reads n w) (hv : value.Reads n w') :
    (Decoder.mapOf key value).Reads n (Wire.MapOf w w') := by
  refine ((hk.pairOf hv).counted _ _).congr fun m p => ?_
  constructor
  · rintro ⟨entries, hentries, hm⟩
    exact ⟨entries, SortedMap.ofList_eq_iff.1 hm, hentries⟩
  · rintro ⟨entries, hm, hentries⟩
    exact ⟨entries, hentries, SortedMap.ofList_eq_iff.2 hm⟩

theorem setOf {element : Decoder Bytes α} {w : Wire α} (he : element.Reads n w) :
    (Decoder.setOf element).Reads n (Wire.SetOf w) := by
  refine (he.counted SortedMap.empty SortedSet.insert).congr fun s p => ?_
  have hset (members : List α) : members.foldl SortedSet.insert SortedMap.empty = s ↔
      KeepsFirst (members.map fun member => (member, ())) s := by
    rw [← SortedMap.ofList_eq_iff, ← SortedSet.ofList_eq]
    rfl
  constructor
  · rintro ⟨members, hmembers, hs⟩
    exact ⟨members, (hset members).1 hs, hmembers⟩
  · rintro ⟨members, hs, hmembers⟩
    exact ⟨members, hmembers, (hset members).2 hs⟩

theorem checkedMapOf {key : Decoder Bytes α} {value : Decoder Bytes γ} {w : Wire α} {w' : Wire γ}
    (hk : key.Reads n w) (hv : value.Reads n w') :
    (Decoder.checkedMapOf key value).Reads n (Wire.CheckedMapOf w w') := by
  refine ((hk.pairOf hv).listOf.followedBy fun entries =>
    (pure (SortedMap.ofList entries)).ite failFor _).congr fun m p => ?_
  constructor
  · rintro ⟨entries, q, r, rfl, hentries, hm⟩
    split at hm
    next hascends =>
      obtain ⟨rfl, rfl⟩ := hm
      rw [List.append_nil, Wire.CheckedMapOf, SortedMap.keys,
        SortedMap.toList_ofList (ascends_iff.1 hascends)]
      exact ⟨ascends_iff.1 hascends, hentries⟩
    next => exact hm.elim
  · rintro ⟨hascends, hentries⟩
    have hkeys : ascends (m.toList.map Prod.fst) = true := ascends_iff.2 hascends
    refine ⟨m.toList, p, [], by simp, hentries, ?_⟩
    dsimp only
    rw [if_pos hkeys, SortedMap.ofList_toList hascends]
    exact ⟨rfl, rfl⟩

theorem checkedSetOf {element : Decoder Bytes α} {w : Wire α} (he : element.Reads n w) :
    (Decoder.checkedSetOf element).Reads n (Wire.CheckedSetOf w) := by
  refine (he.listOf.followedBy fun members =>
    (pure (SortedSet.ofList members)).ite failFor _).congr fun s p => ?_
  constructor
  · rintro ⟨members, q, r, rfl, hmembers, hs⟩
    split at hs
    next hascends =>
      obtain ⟨rfl, rfl⟩ := hs
      rw [List.append_nil, Wire.CheckedSetOf, SortedSet.members_ofList (ascends_iff.1 hascends)]
      exact ⟨ascends_iff.1 hascends, hmembers⟩
    next => exact hs.elim
  · rintro ⟨hascends, hmembers⟩
    refine ⟨s.members, p, [], by simp, hmembers, ?_⟩
    dsimp only
    rw [if_pos (ascends_iff.2 hascends), SortedSet.ofList_members hascends]
    exact ⟨rfl, rfl⟩

end Ordered

theorem indexedArrayOf {t : IndexType} {index : Decoder Bytes t.Index} {element : Decoder Bytes α}
    {w : Wire t.Index} {w' : Wire α} (hi : index.Reads n w) (he : element.Reads n w') :
    (Decoder.indexedArrayOf index element).Reads n (Wire.IndexedArrayOf w w') := by
  refine ((hi.pairOf hi).followedBy fun bounds => he.listOf.map _).congr fun a p => ?_
  constructor
  · rintro ⟨bounds, q, r, rfl, hbounds, elements, rfl, helements⟩
    exact ⟨elements, helements.take_rangeSize bounds.1 bounds.2, q, r, rfl, hbounds, helements⟩
  · rintro ⟨elements, hkept, q, r, rfl, hbounds, helements⟩
    refine ⟨(a.lower, a.upper), q, r, rfl, hbounds, elements, ?_, helements⟩
    rw [IndexedArray.ofList, helements.take_rangeSize, ← hkept]

end Decoder.Reads

end StreamDecode
