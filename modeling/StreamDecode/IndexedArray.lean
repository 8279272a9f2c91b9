set_option autoImplicit false

/-! # Arrays over a range of indices

An `IndexedArray` holds elements for the indices from `lower` to `upper`, both included. Its indices
are words of a fixed width, with or without a sign, and distances between them are taken in that
width. It never holds more elements than the range has indices; it may hold fewer, and then the last
indices have no element. -/

namespace StreamDecode

/-- A type of machine integers used as indices. -/
structure IndexType where
  width : Nat
  signed : Bool
deriving Repr, DecidableEq

namespace IndexType

/-- An index: a word of the type's width. -/
abbrev Index (t : IndexType) := BitVec t.width

/-- The integer that an index stands for. -/
def value (t : IndexType) (i : t.Index) : Int := if t.signed then i.toInt else i.toNat

/-- The low bits of an integer. -/
def ofInt (t : IndexType) (n : Int) : t.Index := BitVec.ofInt t.width n

/-- Whether one index is less than another. -/
def lt (t : IndexType) (i j : t.Index) : Bool := if t.signed then i.slt j else i.ult j

/-- The distance from one index up to another, in the width of the type. -/
def distance (t : IndexType) (low high : t.Index) : Nat := (high - low).toNat

end IndexType

/-- The greatest number of elements that any range has: the greatest 64-bit size. -/
def maxSize : Nat := UInt64.size - 1

/-- Why an index has no element. -/
inductive IndexError where
  | outsideBounds
  | undefinedElement
deriving Repr, DecidableEq

/-- The text of an index error. -/
def IndexError.message : IndexError → String
  | outsideBounds => "IndexedArray index outside bounds"
  | undefinedElement => "IndexedArray element undefined"

/-- The number of indices from `lower` to `upper`, both included, up to the greatest size. -/
def IndexType.rangeSize (t : IndexType) (lower upper : t.Index) : Nat :=
  if t.lt upper lower then 0
  else if maxSize ≤ t.distance lower upper then maxSize
  else t.distance lower upper + 1

/-- Elements for the indices from `lower` to `upper`. -/
structure IndexedArray (t : IndexType) (α : Type) where
  lower : t.Index
  upper : t.Index
  elements : List α

namespace IndexedArray

variable {t : IndexType} {α : Type}

/-- The array of the given elements, without those beyond the range. -/
def ofList (lower upper : t.Index) (elements : List α) : IndexedArray t α :=
  ⟨lower, upper, elements.take (t.rangeSize lower upper)⟩

/-- The number of indices in the range. -/
def rangeSize (a : IndexedArray t α) : Nat := t.rangeSize a.lower a.upper

/-- The element at an index. -/
def get (a : IndexedArray t α) (i : t.Index) : Except IndexError α :=
  if t.lt i a.lower || t.lt a.upper i then .error .outsideBounds
  else match a.elements[t.distance a.lower i]? with
    | some element => .ok element
    | none => .error .undefinedElement

end IndexedArray

end StreamDecode
