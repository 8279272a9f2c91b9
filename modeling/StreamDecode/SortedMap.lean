set_option autoImplicit false

/-! # Maps and sets in key order

A `SortedMap` keeps one value a key, the keys in strictly ascending order. Of several values for one
key it keeps the first. Entries are held with the greatest key in front, so a run of ascending keys
is inserted in constant time each. -/

namespace StreamDecode

/-- Values under keys, at most one a key. -/
structure SortedMap (κ ν : Type) where
  /-- The entries from the greatest key down. -/
  descending : List (κ × ν)
deriving Repr, DecidableEq

namespace SortedMap

variable {κ ν : Type} [LT κ] [DecidableLT κ]

/-- The map without entries. -/
def empty : SortedMap κ ν := ⟨[]⟩

/-- The entries in ascending order of their keys. -/
def toList (m : SortedMap κ ν) : List (κ × ν) := m.descending.reverse

/-- The keys in ascending order. -/
def keys (m : SortedMap κ ν) : List κ := m.toList.map Prod.fst

/-- Add an entry to entries that are held from the greatest key down, unless its key is there. -/
def insertDescending (key : κ) (value : ν) : List (κ × ν) → List (κ × ν)
  | [] => [(key, value)]
  | entry :: entries =>
      if entry.1 < key then (key, value) :: entry :: entries
      else if key < entry.1 then entry :: insertDescending key value entries
      else entry :: entries

/-- Add an entry, unless there is one for its key. -/
def insert (m : SortedMap κ ν) (key : κ) (value : ν) : SortedMap κ ν :=
  ⟨insertDescending key value m.descending⟩

/-- The map of the given entries; of several for one key, the first. -/
def ofList (entries : List (κ × ν)) : SortedMap κ ν :=
  entries.foldl (fun m entry => m.insert entry.1 entry.2) empty

end SortedMap

/-- Members in strictly ascending order. -/
abbrev SortedSet (α : Type) := SortedMap α Unit

namespace SortedSet

variable {α : Type} [LT α] [DecidableLT α]

/-- The set without members. -/
def empty : SortedSet α := SortedMap.empty

/-- Add a member, unless an equal one is there. -/
def insert (s : SortedSet α) (member : α) : SortedSet α := SortedMap.insert s member ()

/-- The set of the given members; of several equal ones, the first. -/
def ofList (members : List α) : SortedSet α := members.foldl insert empty

/-- The members in ascending order. -/
def members (s : SortedSet α) : List α := SortedMap.keys s

end SortedSet

/-- Whether each member is less than the next. -/
def ascends {α : Type} [LT α] [DecidableLT α] : List α → Bool
  | a :: b :: rest => decide (a < b) && ascends (b :: rest)
  | _ => true

end StreamDecode
