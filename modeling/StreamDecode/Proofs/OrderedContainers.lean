import StreamDecode.Proofs.Endings
import StreamDecode.Proofs.KeyOrder
import StreamDecode.Proofs.Mapping

set_option autoImplicit false

/-! # Maps and sets are sorted lists

The decoders of maps and sets read what the decoder of a list reads, and make their container of it.
The trusting ones insert whatever comes (`Decoder.counted_eq_map_listOf`), so they succeed and fail
just as the list does. The checking ones look at the whole list first and fail if a key is not less
than the next one. `Decoder.OrderedBy` says both at once, of maps and of sets.

Keys are in a strict total order here, where only a key itself counts as equal to it: a map then has
the keys of the list, each with the value that comes first under it (`SortedMap.Sorts`). -/

namespace StreamDecode

variable {β α γ δ κ ν : Type}

/-! ## Keys in a total order -/

section

variable [LT κ] [IsStrictTotalOrder κ (· < ·)]

theorem apart_iff_ne {a b : κ} : Apart a b ↔ a ≠ b := by
  constructor
  · rintro hapart rfl
    rcases hapart with h | h <;> exact irrefl_of (· < ·) a h
  · intro hne
    rcases trichotomous_of (· < ·) a b with h | h | h
    · exact .inl h
    · exact (hne h).elim
    · exact .inr h

theorem not_apart_iff {a b : κ} : ¬ Apart a b ↔ a = b := by
  rw [apart_iff_ne, Classical.not_not]

/-- Counting as equal is being equal, which is transitive. -/
instance isStrictWeakOrder_of_total : IsStrictWeakOrder κ (· < ·) where
  incomp_trans a b c hab hbc := by
    obtain rfl : a = b := not_apart_iff.1 (not_or.2 hab)
    exact hbc

end

/-- The map has the keys of the entries, in ascending order, and under each of them the value that
    comes first. -/
structure SortedMap.Sorts [LT κ] (m : SortedMap κ ν) (entries : List (κ × ν)) : Prop where
  keys_ascend : m.keys.Pairwise (· < ·)
  mem_keys_iff : ∀ key, key ∈ m.keys ↔ key ∈ entries.map Prod.fst
  mem_iff : ∀ key value, (key, value) ∈ m.toList ↔
    ∃ before after, entries = before ++ (key, value) :: after ∧ key ∉ before.map Prod.fst

section

variable [LT κ] [IsStrictTotalOrder κ (· < ·)]

theorem isFirst_iff {entries : List (κ × ν)} {key : κ} {value : ν} :
    IsFirst entries (key, value) ↔
      ∃ before after, entries = before ++ (key, value) :: after ∧ key ∉ before.map Prod.fst := by
  have hbefore (before : List (κ × ν)) :
      (∀ other ∈ before, Apart other.1 key) ↔ key ∉ before.map Prod.fst := by
    simp only [apart_iff_ne, List.mem_map, not_exists, not_and, ne_eq]
  simp only [IsFirst, hbefore]

/-- The map that keeps the first of equal keys has all the keys. -/
theorem KeepsFirst.sorts {entries : List (κ × ν)} {m : SortedMap κ ν} (h : KeepsFirst entries m) :
    m.Sorts entries := by
  refine ⟨h.keys_ascend, fun key => ?_, fun key value => (h.mem_iff _).trans isFirst_iff⟩
  rw [SortedMap.keys, List.mem_map, List.mem_map]
  constructor
  · rintro ⟨entry, hentry, rfl⟩
    exact ⟨entry, ((h.mem_iff entry).1 hentry).mem, rfl⟩
  · rintro ⟨entry, hentry, rfl⟩
    obtain ⟨first, hfirst, hequal⟩ := exists_isFirst entries hentry
    exact ⟨first, (h.mem_iff first).2 hfirst, not_apart_iff.1 hequal⟩

omit [LT κ] [IsStrictTotalOrder κ (· < ·)] in
/-- A map is its entries. -/
theorem SortedMap.toList_injective {m m' : SortedMap κ ν} (h : m.toList = m'.toList) : m = m' := by
  obtain ⟨descending⟩ := m
  obtain ⟨descending'⟩ := m'
  exact congrArg SortedMap.mk (List.reverse_inj.1 h)

theorem SortedMap.ofList_eq_iff_sorts [DecidableLT κ] {entries : List (κ × ν)} {m : SortedMap κ ν} :
    ofList entries = m ↔ m.Sorts entries := by
  refine ofList_eq_iff.trans ⟨KeepsFirst.sorts, fun h => ⟨h.keys_ascend, ?_⟩⟩
  rintro ⟨key, value⟩
  exact (h.mem_iff key value).trans isFirst_iff.symm

end

/-- Keys do not ascend if one of them is not less than the next. -/
theorem ascends_map_eq_false_iff [LT κ] [DecidableLT κ] (key : α → κ) {elements : List α} :
    ascends (elements.map key) = false ↔
      ∃ before a b after, elements = before ++ a :: b :: after ∧ ¬ key a < key b := by
  induction elements with
  | nil => simp [ascends]
  | cons first elements ih =>
      cases elements with
      | nil =>
          simp only [List.map_cons, List.map_nil, ascends, Bool.true_eq_false, false_iff]
          rintro ⟨_ | ⟨_, _ | _⟩, _, _, _, hsplit, -⟩ <;> simp at hsplit
      | cons next elements =>
          rw [List.map_cons, List.map_cons, ascends, Bool.and_eq_false_iff,
            decide_eq_false_iff_not, ← List.map_cons, ih]
          constructor
          · rintro (hnot | ⟨before, a, b, after, hsplit, hnot⟩)
            · exact ⟨[], first, next, elements, rfl, hnot⟩
            · exact ⟨first :: before, a, b, after, by rw [hsplit]; rfl, hnot⟩
          · rintro ⟨before, a, b, after, hsplit, hnot⟩
            cases before with
            | nil =>
                obtain ⟨rfl, rfl, -⟩ : first = a ∧ next = b ∧ elements = after := by
                  simpa using hsplit
                exact .inl hnot
            | cons head before =>
                obtain ⟨-, htail⟩ := List.cons.inj hsplit
                exact .inr ⟨before, a, b, after, htail, hnot⟩

theorem ascends_map_iff [LT κ] [DecidableLT κ] [IsStrictWeakOrder κ (· < ·)] (key : α → κ)
    {elements : List α} :
    ascends (elements.map key) = true ↔ elements.Pairwise fun a b => key a < key b := by
  rw [ascends_iff, List.pairwise_map]

/-! ## Values that are looked at before they are changed -/

/-- The same ending, with the value changed if it is accepted, and a failure otherwise. -/
def Ending.mapIf (accepts : α → Bool) (f : α → γ) (cause : Cause) : Ending β α → Ending β γ
  | failed c failure => failed c failure
  | reached c value => if accepts value then reached c (f value) else failed c ⟨cause, []⟩

namespace Decoder

/-- Change the value if it is accepted, and fail otherwise. -/
def mapIf (accepts : α → Bool) (f : α → γ) (cause : Cause) (d : Decoder β α) : Decoder β γ :=
  d.bind fun value => if accepts value then Decoder.pure (f value) else failFor cause

section

variable {d : Decoder β α} {accepts : α → Bool} {f : α → γ} {cause : Cause} {c here : Cursor β}
  {chunks : List β}

theorem outcome_mapIf (hd : d.Linear) (accepts : α → Bool) (f : α → γ) (cause : Cause)
    (c : Cursor β) :
    (d.mapIf accepts f cause).outcome c = (d.outcome c).map (·.mapIf accepts f cause) := by
  rw [mapIf, outcome_bind hd, Step.map, Step.bind_eq_settle]
  refine Step.settle_congr _ (fun _ _ => rfl) fun c value => ?_
  simp only [Ending.mapIf]
  split <;> rfl

theorem Linear.mapIf (hd : d.Linear) : (d.mapIf accepts f cause).Linear := by
  refine hd.bind fun value => ?_
  split <;> exact fun _ _ _ _ => rfl

theorem waits_mapIf_iff (hd : d.Linear) :
    (d.mapIf accepts f cause).Waits c chunks ↔ d.Waits c chunks := by
  rw [hd.mapIf.waits_iff, hd.waits_iff, outcome_mapIf hd, Step.waits_map_iff]

theorem failsAt_mapIf_iff (hd : d.Linear) {failure : Failure} :
    (d.mapIf accepts f cause).FailsAt c chunks here failure ↔
      d.FailsAt c chunks here failure ∨
        ∃ value, d.SucceedsAt c chunks here value ∧ accepts value = false ∧
          failure = ⟨cause, []⟩ := by
  simp only [hd.mapIf.failsAt_iff, hd.failsAt_iff, hd.succeedsAt_iff, outcome_mapIf hd,
    Step.after_map_answer_iff]
  constructor
  · rintro ⟨ending, hending, hfailed⟩
    cases ending with
    | failed c' failure' =>
        cases hfailed
        exact .inl hending
    | reached c' value =>
        rw [Ending.mapIf] at hfailed
        split at hfailed
        · cases hfailed
        · next hrejects =>
            cases hfailed
            exact .inr ⟨value, hending, Bool.not_eq_true _ ▸ hrejects, rfl⟩
  · rintro (hfails | ⟨value, hsucceeds, hrejects, rfl⟩)
    · exact ⟨_, hfails, rfl⟩
    · refine ⟨_, hsucceeds, ?_⟩
      rw [Ending.mapIf, hrejects]
      rfl

theorem succeedsAt_mapIf_iff (hd : d.Linear) {changed : γ} :
    (d.mapIf accepts f cause).SucceedsAt c chunks here changed ↔
      ∃ value, d.SucceedsAt c chunks here value ∧ accepts value = true ∧ f value = changed := by
  simp only [hd.mapIf.succeedsAt_iff, hd.succeedsAt_iff, outcome_mapIf hd,
    Step.after_map_answer_iff]
  constructor
  · rintro ⟨ending, hending, hreached⟩
    cases ending with
    | failed c' failure => cases hreached
    | reached c' value =>
        rw [Ending.mapIf] at hreached
        split at hreached
        · next haccepts =>
            cases hreached
            exact ⟨value, hending, haccepts, rfl⟩
        · cases hreached
  · rintro ⟨value, hsucceeds, haccepts, rfl⟩
    refine ⟨_, hsucceeds, ?_⟩
    rw [Ending.mapIf, haccepts]
    rfl

theorem waits_map_iff (hd : d.Linear) : (d.map f).Waits c chunks ↔ d.Waits c chunks := by
  rw [(hd.map f).waits_iff, hd.waits_iff, outcome_map hd, Step.waits_map_iff]

end

/-! ## Collections are made of lists -/

variable [Buffer β] {element : Decoder β α} {c here : Cursor β} {chunks : List β}

theorem listOf_eq (he : element.Linear) :
    listOf element = word64be.bind fun count => valuesOf element count.toNat := by
  rw [listOf, counted, map_bind]
  congr 1
  funext count
  rw [fold_eq_inSequence he, inSequence_eq_map_valuesOf, map_map]
  simp only [List.foldl_flip_cons_eq_append', List.append_nil, List.reverse_reverse]
  rfl

/-- To push the elements one by one is to push those of the list. -/
theorem counted_eq_map_listOf (he : element.Linear) (init : γ) (push : γ → α → γ) :
    counted element init push = (listOf element).map fun elements => elements.foldl push init := by
  rw [listOf_eq he, map_bind, counted]
  congr 1
  funext count
  rw [fold_eq_inSequence he, inSequence_eq_map_valuesOf]

omit [Buffer β] in
theorem Linear.valuesOf (he : element.Linear) (count : Nat) :
    (Decoder.valuesOf element count).Linear := by
  induction count with
  | zero => exact Linear.pure []
  | succ n ih => exact he.bind fun value => ih.map (value :: ·)

theorem Linear.listOf (he : element.Linear) : (Decoder.listOf element).Linear := by
  rw [listOf_eq he]
  exact Linear.word64be.bind fun count => Linear.valuesOf he count.toNat

omit [Buffer β] in
theorem SucceedsAt.length_valuesOf (he : element.Linear) {count : Nat} {values : List α}
    (h : (Decoder.valuesOf element count).SucceedsAt c chunks here values) :
    values.length = count := by
  induction count generalizing c chunks values with
  | zero =>
      have hpure := (Linear.pure []).succeedsAt_iff.1 h
      cases (Step.after_answer hpure).2
      rfl
  | succ n ih =>
      have hn (value : α) : ((Decoder.valuesOf element n).map (value :: ·)).Linear :=
        (Linear.valuesOf he n).map _
      obtain ⟨fed, rest, middle, value, -, -, hrest⟩ := (succeedsAt_bind_iff he hn).1 h
      obtain ⟨values, hvalues, rfl⟩ := (succeedsAt_map_iff (Linear.valuesOf he n) _).1 hrest
      rw [List.length_cons, ih hvalues]

/-- A list has as many elements as its count says. -/
theorem SucceedsAt.length_listOf (he : element.Linear) {elements : List α}
    (h : (Decoder.listOf element).SucceedsAt c chunks here elements) :
    ∃ fed rest middle count, chunks = fed ++ rest ∧ word64be.SucceedsAt c fed middle count ∧
      elements.length = count.toNat := by
  rw [listOf_eq he] at h
  obtain ⟨fed, rest, middle, count, rfl, hcount, hrest⟩ :=
    (succeedsAt_bind_iff Linear.word64be fun count => Linear.valuesOf he count.toNat).1 h
  exact ⟨fed, rest, middle, count, rfl, hcount, hrest.length_valuesOf he⟩

/-! ## Trusting and checking -/

/-- Two decoders of ordered containers go by the decoder of a list, each element of which is an
    entry: a trusting one, and a checking one. -/
structure OrderedBy [LT κ] (list : Decoder β (List δ)) (entry : δ → κ × ν)
    (trusting checking : Decoder β (SortedMap κ ν)) : Prop where
  trusting_waits_iff : ∀ c chunks, trusting.Waits c chunks ↔ list.Waits c chunks
  trusting_failsAt_iff : ∀ c chunks here failure,
    trusting.FailsAt c chunks here failure ↔ list.FailsAt c chunks here failure
  trusting_succeeds_iff : ∀ c chunks here,
    (∃ m, trusting.SucceedsAt c chunks here m) ↔ ∃ elements, list.SucceedsAt c chunks here elements
  trusting_succeedsAt_iff : ∀ c chunks here m, trusting.SucceedsAt c chunks here m ↔
    ∃ elements, list.SucceedsAt c chunks here elements ∧ m.Sorts (elements.map entry)
  checking_waits_iff : ∀ c chunks, checking.Waits c chunks ↔ list.Waits c chunks
  checking_failsAt_iff : ∀ c chunks here failure, checking.FailsAt c chunks here failure ↔
    list.FailsAt c chunks here failure ∨
      ∃ elements, list.SucceedsAt c chunks here elements ∧
        (∃ before a b after, elements = before ++ a :: b :: after ∧ ¬ (entry a).1 < (entry b).1) ∧
        failure = ⟨.unorderedKeys, []⟩
  checking_succeeds_iff : ∀ c chunks here, (∃ m, checking.SucceedsAt c chunks here m) ↔
    ∃ elements, list.SucceedsAt c chunks here elements ∧
      elements.Pairwise fun a b => (entry a).1 < (entry b).1
  checking_succeedsAt_iff : ∀ c chunks here m, checking.SucceedsAt c chunks here m ↔
    trusting.SucceedsAt c chunks here m ∧
      ∃ elements, list.SucceedsAt c chunks here elements ∧
        (elements.Pairwise fun a b => (entry a).1 < (entry b).1) ∧ m.toList = elements.map entry
  checking_keeps_all : ∀ c chunks here m, checking.SucceedsAt c chunks here m →
    ∃ fed rest middle count, chunks = fed ++ rest ∧ word64be.SucceedsAt c fed middle count ∧
      m.toList.length = count.toNat

section

variable [LT κ] [DecidableLT κ] [IsStrictTotalOrder κ (· < ·)]

theorem Linear.orderedBy (he : element.Linear) (entry : α → κ × ν) :
    (Decoder.listOf element).OrderedBy entry
      ((Decoder.listOf element).map fun elements => .ofList (elements.map entry))
      ((Decoder.listOf element).mapIf (fun elements => ascends (elements.map fun a => (entry a).1))
        (fun elements => .ofList (elements.map entry)) .unorderedKeys) := by
  have hlist : (Decoder.listOf element).Linear := he.listOf
  -- of elements with ascending keys none is left out
  have hall {elements : List α} (h : elements.Pairwise fun a b => (entry a).1 < (entry b).1) :
      (SortedMap.ofList (elements.map entry)).toList = elements.map entry := by
    refine SortedMap.toList_ofList ?_
    rwa [List.map_map, List.pairwise_map]
  refine ⟨fun c chunks => waits_map_iff hlist, fun c chunks here failure => failsAt_map_iff hlist _,
    fun c chunks here => ?_, fun c chunks here m => ?_, fun c chunks => waits_mapIf_iff hlist,
    fun c chunks here failure => ?_, fun c chunks here => ?_, fun c chunks here m => ?_,
    fun c chunks here m hchecks => ?_⟩
  · simp only [succeedsAt_map_iff hlist]
    constructor
    · rintro ⟨m, elements, h, -⟩
      exact ⟨elements, h⟩
    · rintro ⟨elements, h⟩
      exact ⟨_, elements, h, rfl⟩
  · simp only [succeedsAt_map_iff hlist, ← SortedMap.ofList_eq_iff_sorts, eq_comm (a := m)]
  · simp only [failsAt_mapIf_iff hlist, ascends_map_eq_false_iff]
  · simp only [succeedsAt_mapIf_iff hlist, ascends_map_iff]
    constructor
    · rintro ⟨m, elements, h, hascend, -⟩
      exact ⟨elements, h, hascend⟩
    · rintro ⟨elements, h, hascend⟩
      exact ⟨_, elements, h, hascend, rfl⟩
  · simp only [succeedsAt_mapIf_iff hlist, succeedsAt_map_iff hlist, ascends_map_iff]
    constructor
    · rintro ⟨elements, h, hascend, rfl⟩
      exact ⟨⟨elements, h, rfl⟩, elements, h, hascend, hall hascend⟩
    · rintro ⟨-, elements, h, hascend, hm⟩
      refine ⟨elements, h, hascend, ?_⟩
      rw [← hall hascend] at hm
      exact (SortedMap.toList_injective hm).symm
  · obtain ⟨elements, h, hascend, rfl⟩ := (succeedsAt_mapIf_iff hlist).1 hchecks
    obtain ⟨fed, rest, middle, count, hchunks, hcount, hlength⟩ := h.length_listOf he
    refine ⟨fed, rest, middle, count, hchunks, hcount, ?_⟩
    rw [hall ((ascends_map_iff _).1 hascend), List.length_map, hlength]

/-- Trusted and checked ordered containers go by the list of their entries. The trusting decoders
    wait, fail and succeed as that of the list does, at the same cursors, with what its entries are
    sorted to. The checking ones succeed if the keys of the list ascend as well, with the same
    container, which then has all the entries, as many as the count said; and if a key is not less
    than the next one, they fail for just that. -/
theorem Linear.ordered_containers {key : Decoder β κ} {value : Decoder β ν} {element : Decoder β κ}
    (hk : key.Linear) (hv : value.Linear) (he : element.Linear) :
    (Decoder.listOf (pairOf key value)).OrderedBy id (mapOf key value) (checkedMapOf key value) ∧
    (Decoder.listOf element).OrderedBy (fun member => (member, ())) (setOf element)
      (checkedSetOf element) ∧
    (Failure.mk .unorderedKeys []).report =
      ⟨"Failed reading: keys not in strictly ascending order", []⟩ := by
  have hp : (pairOf key value).Linear := hk.bind fun a => hv.map fun b => (a, b)
  have hpairs := hp.orderedBy (id : κ × ν → κ × ν)
  have hmembers := he.orderedBy fun member => (member, ())
  simp only [List.map_id] at hpairs
  simp only [← SortedSet.ofList_eq] at hmembers
  refine ⟨?_, ?_, rfl⟩
  · rw [mapOf, counted_eq_map_listOf hp]
    exact hpairs
  · rw [setOf, counted_eq_map_listOf he]
    have hkeys (members : List κ) : members.map (fun member => (member, ()).1) = members :=
      List.map_id _
    simp only [hkeys] at hmembers
    exact hmembers

end

end Decoder

/-! ## An example -/

theorem isStrictTotalOrder_of_toNat {κ : Type} [LT κ] (toNat : κ → Nat)
    (h : ∀ a b, a < b ↔ toNat a < toNat b) (injective : ∀ a b, toNat a = toNat b → a = b) :
    IsStrictTotalOrder κ (· < ·) where
  irrefl a := by rw [h]; omega
  trans a b c := by simp only [h]; omega
  trichotomous a b := by
    simp only [h]
    intro hab hba
    exact injective a b (by omega)

instance isStrictTotalOrderUInt8 : IsStrictTotalOrder UInt8 (· < ·) :=
  isStrictTotalOrder_of_toNat UInt8.toNat (fun _ _ => UInt8.lt_iff_toNat_lt)
    fun _ _ => UInt8.toNat_inj.1

open Decoder in
/-- Three entries, the keys neither in order nor distinct: the map is sorted and has the first value
    for the key 2, and the checking decoder fails. The members of the set are in order. -/
theorem bytes_ordered_containers :
    let entries : Cursor Bytes := .start .complete [0, 0, 0, 0, 0, 0, 0, 3, 2, 20, 1, 10, 2, 30, 42]
    let members : Cursor Bytes := .start .complete [0, 0, 0, 0, 0, 0, 0, 3, 1, 5, 9, 42]
    let after : Cursor Bytes := ⟨[42], none, .complete, 0⟩
    (mapOf word8 word8).SucceedsAt entries [] after ⟨[((2 : UInt8), (20 : UInt8)), (1, 10)]⟩ ∧
      (checkedMapOf word8 word8 : Decoder Bytes (SortedMap UInt8 UInt8)).FailsAt entries [] after
        ⟨.unorderedKeys, []⟩ ∧
      (checkedSetOf word8).SucceedsAt members [] after ⟨[((9 : UInt8), ()), (5, ()), (1, ())]⟩ := by
  intro entries members after
  have hword : (word8 : Decoder Bytes UInt8).Linear := ((Linear.getBytes 1).map _).map _
  obtain ⟨hmap, hset, -⟩ := Linear.ordered_containers hword hword hword
  have hpairs : (listOf (pairOf word8 word8)).SucceedsAt entries [] after
      [((2 : UInt8), (20 : UInt8)), (1, 10), (2, 30)] :=
    (Linear.listOf (hword.bind fun a => hword.map fun b => (a, b))).succeedsAt_iff.2 (by cbv)
  have hbytes : (listOf word8).SucceedsAt members [] after [(1 : UInt8), 5, 9] :=
    (Linear.listOf hword).succeedsAt_iff.2 (by cbv)
  refine ⟨(hmap.trusting_succeedsAt_iff entries [] after _).2 ⟨_, hpairs, ?_⟩,
    (hmap.checking_failsAt_iff entries [] after _).2 (.inr ⟨_, hpairs, ?_, rfl⟩),
    (hset.checking_succeedsAt_iff members [] after _).2 ⟨?_, _, hbytes, by decide, rfl⟩⟩
  · exact SortedMap.ofList_eq_iff_sorts.1 (by decide)
  · exact ⟨[], (2, 20), (1, 10), [(2, 30)], rfl, by decide⟩
  · exact (hset.trusting_succeedsAt_iff members [] after _).2
      ⟨_, hbytes, SortedMap.ofList_eq_iff_sorts.1 (by decide)⟩

end StreamDecode
