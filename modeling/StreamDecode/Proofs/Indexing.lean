import StreamDecode.Proofs.OrderedContainers
import StreamDecode.Proofs.ReadingContainers

set_option autoImplicit false

/-! # Indexing is exact over the whole range of indices

Two things about an array are computed in machine integers. The distance between two indices is
taken in the width of their type, where it may wrap around, and the size of a range stops at the
greatest 64-bit size, of which a range of all 64-bit integers falls short by one. Neither shows in
what an array answers, if it was made of fewer than `2 ^ 64` elements: `IndexedArray.Indexes` says
it in exact integers, and `indexing_exact` that it holds for all bounds, and of every array that is
decoded. -/

namespace StreamDecode

variable {α β : Type} {t : IndexType}

namespace IndexedArray

/-- The array answers for the range from `lower` to `upper` and for the elements, of which those
    that the range has no index for are left out. -/
structure Indexes (a : IndexedArray t α) (lower upper : t.Index) (elements : List α) : Prop where
  lower_eq : a.lower = lower
  upper_eq : a.upper = upper
  rangeSize_eq : (a.rangeSize : Int) =
    if t.value upper < t.value lower then 0
    else min (t.value upper - t.value lower + 1) (2 ^ 64 - 1)
  elements_eq : a.elements = elements.take (min elements.length a.rangeSize)
  /-- At an index of the range stands the element that is as far from the first one as the index is
      from the lower bound, if there are so many elements. -/
  get_eq_ok : ∀ (i : t.Index) (n : Nat) (element : α),
    t.value lower ≤ t.value i → t.value i ≤ t.value upper → t.value i - t.value lower = n →
    elements[n]? = some element → a.get i = .ok element
  /-- At any other index there is an error, which tells whether the index is one of the range. -/
  get_eq_error : ∀ i : t.Index,
    ¬ (t.value lower ≤ t.value i ∧ t.value i ≤ t.value upper ∧
      t.value i - t.value lower < elements.length) →
    ∃ error, a.get i = .error error ∧
      (error.message = "IndexedArray index outside bounds" ↔
        ¬ (t.value lower ≤ t.value i ∧ t.value i ≤ t.value upper))

/-! ## An array of given elements -/

variable {lower upper : t.Index} {elements : List α}

/-- An index that the range has is closer to the lower bound than the range is long, or so far from
    it that no list of elements reaches there. -/
theorem getElem?_distance {i : t.Index} (hlower : t.value lower ≤ t.value i)
    (hupper : t.value i ≤ t.value upper) (hlength : elements.length < 2 ^ 64) :
    (ofList lower upper elements).elements[t.distance lower i]? =
      elements[t.distance lower i]? := by
  have hdistance := t.distance_eq hlower
  have hmax : maxSize = 2 ^ 64 - 1 := rfl
  show (elements.take (t.rangeSize lower upper))[t.distance lower i]? = _
  rw [List.getElem?_take, t.rangeSize_eq, IndexType.count]
  split
  · rfl
  · rw [List.getElem?_eq_none]
    omega

theorem get_of_mem {i : t.Index} (hlower : t.value lower ≤ t.value i)
    (hupper : t.value i ≤ t.value upper) (hlength : elements.length < 2 ^ 64) :
    (ofList lower upper elements).get i =
      match elements[t.distance lower i]? with
      | some element => .ok element
      | none => .error .undefinedElement := by
  have hinside : (t.lt i lower || t.lt upper i) = false := by
    rw [Bool.or_eq_false_iff, ← Bool.not_eq_true, ← Bool.not_eq_true, t.lt_iff, t.lt_iff]
    omega
  rw [← getElem?_distance hlower hupper hlength]
  show (if (t.lt i lower || t.lt upper i) = true then _ else _) = _
  rw [hinside, if_neg Bool.false_ne_true]
  rfl

theorem get_of_not_mem (a : IndexedArray t α) {i : t.Index}
    (h : ¬ (t.value a.lower ≤ t.value i ∧ t.value i ≤ t.value a.upper)) :
    a.get i = .error .outsideBounds := by
  have houtside : (t.lt i a.lower || t.lt a.upper i) = true := by
    rw [Bool.or_eq_true, t.lt_iff, t.lt_iff]
    omega
  exact if_pos houtside

theorem rangeSize_ofList (lower upper : t.Index) (elements : List α) :
    ((ofList lower upper elements).rangeSize : Int) =
      if t.value upper < t.value lower then 0
      else min (t.value upper - t.value lower + 1) (2 ^ 64 - 1) := by
  have hmax : maxSize = 2 ^ 64 - 1 := rfl
  show (t.rangeSize lower upper : Int) = _
  rw [t.rangeSize_eq, IndexType.count]
  split <;> omega

/-- Two ways to leave out what is beyond the range: by its size, or by what there is at most. -/
theorem elements_ofList (lower upper : t.Index) (elements : List α) :
    (ofList lower upper elements).elements =
      elements.take (min elements.length (ofList lower upper elements).rangeSize) := by
  show elements.take (t.rangeSize lower upper) =
    elements.take (min elements.length (t.rangeSize lower upper))
  rw [List.take_eq_take_iff]
  omega

theorem ofList_indexes (lower upper : t.Index) (hlength : elements.length < 2 ^ 64) :
    (ofList lower upper elements).Indexes lower upper elements where
  lower_eq := rfl
  upper_eq := rfl
  rangeSize_eq := rangeSize_ofList lower upper elements
  elements_eq := elements_ofList lower upper elements
  get_eq_ok := by
    intro i n element hlower hupper hn helement
    have hdistance : t.distance lower i = n := by
      have h := t.distance_eq hlower
      omega
    rw [get_of_mem hlower hupper hlength, hdistance, helement]
  get_eq_error := by
    intro i hi
    by_cases hrange : t.value lower ≤ t.value i ∧ t.value i ≤ t.value upper
    · have hdistance := t.distance_eq hrange.1
      have hmissing : elements[t.distance lower i]? = none := by
        rw [List.getElem?_eq_none_iff]
        omega
      refine ⟨.undefinedElement, ?_, ?_⟩
      · rw [get_of_mem hrange.1 hrange.2 hlength, hmissing]
      · simp only [hrange, and_self, not_true_eq_false, iff_false]
        decide
    · refine ⟨.outsideBounds, get_of_not_mem _ hrange, ?_⟩
      simp only [hrange, not_false_eq_true, iff_true]
      rfl

end IndexedArray

/-! ## A decoded array -/

namespace Decoder

variable [Buffer β] {c here : Cursor β} {chunks : List β}

/-- An indexed array is decoded by decoding its bounds and then the list of its elements. -/
theorem succeedsAt_indexedArrayOf_iff {index : Decoder β t.Index} {element : Decoder β α}
    (hi : index.Linear) (he : element.Linear) {a : IndexedArray t α} :
    (indexedArrayOf index element).SucceedsAt c chunks here a ↔
      ∃ lower upper elements,
        (pairOf (pairOf index index) (listOf element)).SucceedsAt c chunks here
          ((lower, upper), elements) ∧
        a = .ofList lower upper elements := by
  have hpair : (pairOf (pairOf index index) (listOf element)).Linear :=
    (hi.bind fun _ => hi.map _).bind fun _ => he.listOf.map _
  have hmap : indexedArrayOf index element =
      (pairOf (pairOf index index) (listOf element)).map
        fun decoded => .ofList decoded.1.1 decoded.1.2 decoded.2 := rfl
  rw [hmap, succeedsAt_map_iff hpair]
  constructor
  · rintro ⟨⟨⟨lower, upper⟩, elements⟩, hdecoded, rfl⟩
    exact ⟨lower, upper, elements, hdecoded, rfl⟩
  · rintro ⟨lower, upper, elements, hdecoded, rfl⟩
    exact ⟨_, hdecoded, rfl⟩

/-- The elements of a decoded list are fewer than its count can say. -/
theorem length_lt_of_pairOf {δ : Type} {first : Decoder β δ} {element : Decoder β α}
    (hf : first.Linear) (he : element.Linear) {value : δ} {elements : List α}
    (h : (pairOf first (listOf element)).SucceedsAt c chunks here (value, elements)) :
    elements.length < 2 ^ 64 := by
  obtain ⟨fed, rest, middle, value', rfl, -, hrest⟩ :=
    (succeedsAt_bind_iff hf fun _ => he.listOf.map _).1 h
  obtain ⟨elements', helements, hpair⟩ := (succeedsAt_map_iff he.listOf _).1 hrest
  obtain ⟨rfl, rfl⟩ := Prod.mk.inj hpair
  obtain ⟨_, _, _, count, _, _, hcount⟩ := helements.length_listOf he
  rw [hcount]
  exact count.toNat_lt

end Decoder

namespace IndexedArray

/-- Indexing is exact over the whole range of indices, whatever machine integers they are, of any
    width, with or without a sign: in an array that is made of fewer than `2 ^ 64` elements, and in
    one that is decoded, where the elements are those of the list that was decoded. -/
theorem indexing_exact [Buffer β] (t : IndexType) :
    (∀ (lower upper : t.Index) (elements : List α), elements.length < 2 ^ 64 →
      (ofList lower upper elements).Indexes lower upper elements) ∧
    (∀ (index : Decoder β t.Index) (element : Decoder β α), index.Linear → element.Linear →
      ∀ (c here : Cursor β) (chunks : List β) (a : IndexedArray t α),
        (Decoder.indexedArrayOf index element).SucceedsAt c chunks here a ↔
          ∃ lower upper elements,
            (Decoder.pairOf (Decoder.pairOf index index) (Decoder.listOf element)).SucceedsAt c
              chunks here ((lower, upper), elements) ∧
            a = .ofList lower upper elements ∧ a.Indexes lower upper elements) := by
  refine ⟨fun lower upper elements => ofList_indexes lower upper, ?_⟩
  intro index element hi he c here chunks a
  rw [Decoder.succeedsAt_indexedArrayOf_iff hi he]
  constructor
  · rintro ⟨lower, upper, elements, hdecoded, rfl⟩
    have hlength := Decoder.length_lt_of_pairOf (hi.bind fun _ => hi.map _) he hdecoded
    exact ⟨lower, upper, elements, hdecoded, rfl, ofList_indexes lower upper hlength⟩
  · rintro ⟨lower, upper, elements, hdecoded, ha, -⟩
    exact ⟨lower, upper, elements, hdecoded, ha⟩

/-- All indices of eight bits with a sign, of which the first three have an element. Of all indices
    of 64 bits the greatest size tells one less than there are. -/
theorem extreme_bounds_indexing_exact :
    let bytes : IndexType := ⟨8, true⟩
    let words : IndexType := ⟨64, false⟩
    (∃ a : IndexedArray bytes UInt8,
      (Decoder.indexedArrayOf (Decoder.word8.map UInt8.toBitVec) Decoder.word8).SucceedsAt
        (.start .complete [0x80, 0x7F, 0, 0, 0, 0, 0, 0, 0, 3, 10, 20, 30, 42]) []
        (⟨[42], none, .complete, 0⟩ : Cursor Bytes) a ∧
      a.rangeSize = 256 ∧ a.get (-126) = .ok 30 ∧
      a.get 127 = .error .undefinedElement) ∧
    (ofList (t := words) 0 (-1) [(7 : UInt8)]).rangeSize = 2 ^ 64 - 1 := by
  intro bytes words
  let index : Decoder Bytes (BitVec 8) := Decoder.word8.map UInt8.toBitVec
  have hword : (Decoder.word8 : Decoder Bytes UInt8).Linear :=
    ((Decoder.Linear.getBytes 1).map _).map _
  have hindex : index.Linear := hword.map _
  have hdecoded : (Decoder.pairOf (Decoder.pairOf index index)
      (Decoder.listOf Decoder.word8)).SucceedsAt
      (.start .complete [0x80, 0x7F, 0, 0, 0, 0, 0, 0, 0, 3, 10, 20, 30, 42]) []
      ⟨[42], none, .complete, 0⟩ ((0x80, 0x7F), [(10 : UInt8), 20, 30]) := by
    have hpair : (Decoder.pairOf (Decoder.pairOf index index)
        (Decoder.listOf (Decoder.word8 : Decoder Bytes UInt8))).Linear :=
      (hindex.bind fun _ => hindex.map _).bind fun _ => hword.listOf.map _
    rw [hpair.succeedsAt_iff]
    cbv
  have hbytes :=
    (indexing_exact (α := UInt8) (β := Bytes) bytes).1 0x80 0x7F [10, 20, 30] (by decide)
  have hwords := (indexing_exact (α := UInt8) (β := Bytes) words).1 0 (-1) [7] (by decide)
  refine ⟨⟨ofList (t := bytes) 0x80 0x7F [10, 20, 30], ?_, ?_, ?_, ?_⟩, ?_⟩
  · exact ((indexing_exact bytes).2 index Decoder.word8 hindex hword _ _ [] _).2
      ⟨_, _, _, hdecoded, rfl, hbytes⟩
  · have hsize := hbytes.rangeSize_eq
    have hvalues : bytes.value 0x80 = -128 ∧ bytes.value 0x7F = 127 := by decide
    rw [hvalues.1, hvalues.2] at hsize
    omega
  · exact hbytes.get_eq_ok (-126) 2 30 (by decide) (by decide) (by decide) rfl
  · obtain ⟨error, herror, hmessage⟩ := hbytes.get_eq_error 127 (by decide)
    cases error with
    | outsideBounds => exact absurd (hmessage.1 rfl) (by decide)
    | undefinedElement => exact herror
  · have hsize := hwords.rangeSize_eq
    have hvalues : words.value 0 = 0 ∧ words.value (-1) = 2 ^ 64 - 1 := by decide
    rw [hvalues.1, hvalues.2] at hsize
    omega

end IndexedArray

end StreamDecode
