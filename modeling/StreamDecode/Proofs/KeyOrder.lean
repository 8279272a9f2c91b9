import Mathlib.Data.List.Induction
import Mathlib.Order.Defs.Unbundled
import StreamDecode.SortedMap

set_option autoImplicit false

/-! # Which entries a map keeps

Keys are compared by a strict weak order: two keys of which neither is less than the other count as
equal. `KeepsFirst` says what a map makes of a sequence of entries without saying how it is built:
its keys ascend strictly, and it has exactly those entries of the sequence that no entry with an
equal key comes before. There is one such map, and `SortedMap.ofList` gives it
(`SortedMap.ofList_eq_iff`). -/

namespace StreamDecode

variable {κ ν : Type} [LT κ]

/-- The keys are not equal, that is, one of them is less than the other. -/
def Apart (a b : κ) : Prop := a < b ∨ b < a

/-- The entry is in the sequence, and no entry with an equal key comes before it. -/
def IsFirst (entries : List (κ × ν)) (entry : κ × ν) : Prop :=
  ∃ before after, entries = before ++ entry :: after ∧ ∀ other ∈ before, Apart other.1 entry.1

/-- The map has the entries of the sequence, of several with equal keys the first. -/
structure KeepsFirst (entries : List (κ × ν)) (m : SortedMap κ ν) : Prop where
  keys_ascend : m.keys.Pairwise (· < ·)
  mem_iff : ∀ entry, entry ∈ m.toList ↔ IsFirst entries entry

theorem IsFirst.mem {entries : List (κ × ν)} {entry : κ × ν} (h : IsFirst entries entry) :
    entry ∈ entries := by
  obtain ⟨before, after, rfl, -⟩ := h
  simp

theorem isFirst_append_singleton {entries : List (κ × ν)} {last entry : κ × ν} :
    IsFirst (entries ++ [last]) entry ↔
      IsFirst entries entry ∨ (entry = last ∧ ∀ other ∈ entries, Apart other.1 last.1) := by
  constructor
  · rintro ⟨before, after, hsplit, hbefore⟩
    rcases after.eq_nil_or_concat with rfl | ⟨after, x, rfl⟩
    · obtain ⟨rfl, hlast⟩ := List.append_inj' hsplit rfl
      obtain rfl : last = entry := by simpa using hlast
      exact .inr ⟨rfl, hbefore⟩
    · refine .inl ⟨before, after, ?_, hbefore⟩
      rw [List.concat_eq_append, ← List.cons_append, ← List.append_assoc] at hsplit
      exact (List.append_inj' hsplit rfl).1
  · rintro (⟨before, after, rfl, hbefore⟩ | ⟨rfl, hall⟩)
    · exact ⟨before, after ++ [last], by simp, hbefore⟩
    · exact ⟨entries, [], rfl, hall⟩

variable [IsStrictWeakOrder κ (· < ·)]

theorem Apart.of_equal {a b k : κ} (h : Apart a k) (hab : ¬ Apart a b) : Apart b k := by
  -- were `b` equal to `k` as well, so would be `a`
  by_contra hbk
  simp only [Apart, not_or] at hab hbk
  have hak : ¬ a < k ∧ ¬ k < a := IsStrictWeakOrder.incomp_trans a b k hab hbk
  rcases h with h | h
  · exact hak.1 h
  · exact hak.2 h

theorem not_apart_self (a : κ) : ¬ Apart a a := by
  rintro (h | h) <;> exact irrefl_of (· < ·) a h

/-- A sequence has a first entry for each of its keys. -/
theorem exists_isFirst (entries : List (κ × ν)) {entry : κ × ν} (h : entry ∈ entries) :
    ∃ first, IsFirst entries first ∧ ¬ Apart first.1 entry.1 := by
  induction entries using List.reverseRecOn generalizing entry with
  | nil => cases h
  | append_singleton entries last ih =>
      simp only [isFirst_append_singleton]
      rcases List.mem_append.1 h with hmem | hmem
      · obtain ⟨first, hfirst, hequal⟩ := ih hmem
        exact ⟨first, .inl hfirst, hequal⟩
      · obtain rfl : entry = last := by simpa using hmem
        by_cases hall : ∀ other ∈ entries, Apart other.1 entry.1
        · exact ⟨entry, .inr ⟨rfl, hall⟩, not_apart_self entry.1⟩
        · push Not at hall
          obtain ⟨other, hother, hequal⟩ := hall
          obtain ⟨first, hfirst, hfirst_equal⟩ := ih hother
          refine ⟨first, .inl hfirst, fun hapart => hequal ?_⟩
          exact hapart.of_equal hfirst_equal

/-! ## Insertion -/

/-- The entries are held from the greatest key down. -/
def Descends (entries : List (κ × ν)) : Prop := entries.Pairwise fun entry next => next.1 < entry.1

namespace SortedMap

variable [DecidableLT κ]

theorem mem_insertDescending {entries : List (κ × ν)} (h : Descends entries) (key : κ) (value : ν)
    (entry : κ × ν) :
    entry ∈ insertDescending key value entries ↔
      entry ∈ entries ∨ (entry = (key, value) ∧ ∀ other ∈ entries, Apart other.1 key) := by
  induction entries with
  | nil => simp [insertDescending]
  | cons greatest entries ih =>
      obtain ⟨hgreatest, htail⟩ := List.pairwise_cons.1 h
      simp only [insertDescending]
      split
      next hlt =>
        have hall : ∀ other ∈ greatest :: entries, Apart other.1 key := by
          intro other hother
          rcases List.mem_cons.1 hother with rfl | hother
          · exact .inl hlt
          · exact .inl (trans_of (· < ·) (hgreatest other hother) hlt)
        rw [List.mem_cons, or_comm, and_iff_left hall]
      next hle =>
        split
        next hgt =>
          have hall : (∀ other ∈ greatest :: entries, Apart other.1 key) ↔
              ∀ other ∈ entries, Apart other.1 key :=
            List.forall_mem_cons.trans (and_iff_right (.inr hgt))
          rw [hall, List.mem_cons, List.mem_cons, ih htail, or_assoc]
        next hge =>
          have hequal : ¬ Apart greatest.1 key := fun happ => happ.elim hle hge
          simp [hequal]

theorem descends_insertDescending {entries : List (κ × ν)} (h : Descends entries) (key : κ)
    (value : ν) : Descends (insertDescending key value entries) := by
  induction entries with
  | nil => simp [insertDescending, Descends]
  | cons greatest entries ih =>
      obtain ⟨hgreatest, htail⟩ := List.pairwise_cons.1 h
      simp only [insertDescending]
      split
      next hlt =>
        refine List.pairwise_cons.2 ⟨fun other hother => ?_, h⟩
        rcases List.mem_cons.1 hother with rfl | hother
        · exact hlt
        · exact trans_of (· < ·) (hgreatest other hother) hlt
      next hle =>
        split
        next hgt =>
          refine List.pairwise_cons.2 ⟨fun other hother => ?_, ih htail⟩
          rcases (mem_insertDescending htail key value other).1 hother with hmem | ⟨rfl, -⟩
          · exact hgreatest other hmem
          · exact hgt
        next hge => exact h

omit [IsStrictWeakOrder κ (· < ·)] in
theorem ofList_append_singleton (entries : List (κ × ν)) (last : κ × ν) :
    ofList (entries ++ [last]) = (ofList entries).insert last.1 last.2 := by
  simp [ofList, List.foldl_append]

theorem descends_ofList (entries : List (κ × ν)) : Descends (ofList entries).descending := by
  induction entries using List.reverseRecOn with
  | nil => exact .nil
  | append_singleton entries last ih =>
      rw [ofList_append_singleton]
      exact descends_insertDescending ih last.1 last.2

theorem mem_ofList (entries : List (κ × ν)) (entry : κ × ν) :
    entry ∈ (ofList entries).descending ↔ IsFirst entries entry := by
  induction entries using List.reverseRecOn generalizing entry with
  | nil => simp [ofList, empty, IsFirst]
  | append_singleton entries last ih =>
      rw [ofList_append_singleton, insert, mem_insertDescending (descends_ofList entries),
        isFirst_append_singleton, ih]
      -- a key is new to the map if and only if it is new to the sequence
      have hnew : (∀ other ∈ (ofList entries).descending, Apart other.1 last.1) ↔
          ∀ other ∈ entries, Apart other.1 last.1 := by
        constructor
        · intro hall other hother
          obtain ⟨first, hfirst, hequal⟩ := exists_isFirst entries hother
          exact (hall first ((ih first).2 hfirst)).of_equal hequal
        · intro hall other hother
          exact hall other ((ih other).1 hother).mem
      rw [hnew]

end SortedMap

/-! ## The map of a sequence -/

omit [IsStrictWeakOrder κ (· < ·)] in
theorem Descends.keys_ascend {m : SortedMap κ ν} (h : Descends m.descending) :
    m.keys.Pairwise (· < ·) := by
  rw [SortedMap.keys, SortedMap.toList, List.pairwise_map, List.pairwise_reverse]
  exact h

theorem KeepsFirst.unique {entries : List (κ × ν)} {m m' : SortedMap κ ν}
    (h : KeepsFirst entries m) (h' : KeepsFirst entries m') : m = m' := by
  have hpair := List.pairwise_map.1 h.keys_ascend
  have hpair' := List.pairwise_map.1 h'.keys_ascend
  have hnodup {l : List (κ × ν)} (hl : l.Pairwise fun e f => e.1 < f.1) : l.Nodup := by
    refine hl.imp ?_
    rintro e f hlt rfl
    exact irrefl_of (· < ·) e.1 hlt
  have hperm : m.toList.Perm m'.toList := by
    rw [List.perm_ext_iff_of_nodup (hnodup hpair) (hnodup hpair')]
    intro entry
    rw [h.mem_iff, h'.mem_iff]
  have hlists : m.toList = m'.toList := by
    refine hperm.eq_of_pairwise (fun e f _ _ hlt hgt => ?_) hpair hpair'
    exact (irrefl_of (· < ·) e.1 (trans_of (· < ·) hlt hgt)).elim
  obtain ⟨descending⟩ := m
  obtain ⟨descending'⟩ := m'
  exact congrArg SortedMap.mk (List.reverse_inj.1 hlists)

namespace SortedMap

variable [DecidableLT κ]

theorem keepsFirst_ofList (entries : List (κ × ν)) : KeepsFirst entries (ofList entries) := by
  refine ⟨(descends_ofList entries).keys_ascend, fun entry => ?_⟩
  rw [toList, List.mem_reverse, mem_ofList]

/-- Inserting entry after entry gives the one map that keeps the first of equal keys. -/
theorem ofList_eq_iff {entries : List (κ × ν)} {m : SortedMap κ ν} :
    ofList entries = m ↔ KeepsFirst entries m := by
  constructor
  · rintro rfl
    exact keepsFirst_ofList entries
  · exact (keepsFirst_ofList entries).unique

/-- A map whose keys ascend is the map of its own entries. -/
theorem ofList_toList {m : SortedMap κ ν} (h : m.keys.Pairwise (· < ·)) : ofList m.toList = m := by
  refine ofList_eq_iff.2 ⟨h, fun entry => ⟨fun hmem => ?_, IsFirst.mem⟩⟩
  obtain ⟨before, after, hsplit⟩ := List.append_of_mem hmem
  refine ⟨before, after, hsplit, fun other hother => .inl ?_⟩
  rw [keys, hsplit, List.pairwise_map] at h
  exact (List.pairwise_append.1 h).2.2 other hother entry (by simp)

/-- Of entries whose keys ascend already, none is left out or moved. -/
theorem toList_ofList {entries : List (κ × ν)} (h : (entries.map Prod.fst).Pairwise (· < ·)) :
    (ofList entries).toList = entries := by
  have hreverse : (⟨entries.reverse⟩ : SortedMap κ ν).toList = entries := List.reverse_reverse entries
  have hmap := ofList_toList (m := ⟨entries.reverse⟩) (by rwa [keys, hreverse])
  rw [hreverse] at hmap
  rw [hmap, hreverse]

end SortedMap

namespace SortedSet

variable [DecidableLT κ]

omit [IsStrictWeakOrder κ (· < ·)] in
theorem ofList_eq (members : List κ) :
    ofList members = SortedMap.ofList (members.map fun member => (member, ())) := by
  rw [ofList, SortedMap.ofList, List.foldl_map]
  rfl

omit [LT κ] [DecidableLT κ] [IsStrictWeakOrder κ (· < ·)] in
theorem map_members (s : SortedSet κ) : (s.members.map fun member => (member, ())) = s.toList := by
  simp [members, SortedMap.keys, Function.comp_def]

theorem ofList_members {s : SortedSet κ} (h : s.members.Pairwise (· < ·)) :
    ofList s.members = s := by
  rw [ofList_eq, map_members, SortedMap.ofList_toList h]

theorem members_ofList {members : List κ} (h : members.Pairwise (· < ·)) :
    (ofList members).members = members := by
  have hkeys : (members.map fun member => (member, ())).map Prod.fst = members := by
    simp [Function.comp_def]
  rw [ofList_eq, SortedSet.members, SortedMap.keys, SortedMap.toList_ofList (by rwa [hkeys]), hkeys]

end SortedSet

/-- Members that ascend from one to the next ascend strictly all along. -/
theorem ascends_iff [DecidableLT κ] {members : List κ} :
    ascends members = true ↔ members.Pairwise (· < ·) := by
  induction members with
  | nil => simp [ascends]
  | cons least members ih =>
      cases members with
      | nil => simp [ascends]
      | cons next members =>
          rw [ascends, Bool.and_eq_true, decide_eq_true_iff, ih, List.pairwise_cons (a := least)]
          refine and_congr_left fun htail => ?_
          constructor
          · intro hlt other hother
            rcases List.mem_cons.1 hother with rfl | hother
            · exact hlt
            · exact trans_of (· < ·) hlt ((List.pairwise_cons.1 htail).1 other hother)
          · intro hall
            exact hall next (by simp)

end StreamDecode
