import Mathlib.Data.Nat.Digits.Defs
import StreamDecode.Buffer
import StreamDecode.IndexedArray
import StreamDecode.Proofs.KeyOrder
import StreamDecode.Tree
import StreamDecode.Word

set_option autoImplicit false

/-! # How values are written

A `Wire α` says which bytes are an encoding of which value. There is one for every kind of value
that the container decoders know, built from those of the parts. None of them says how an encoding
is read. -/

namespace StreamDecode

/-- Which bytes are an encoding of which value. -/
abbrev Wire (α : Type) := α → Bytes → Prop

/-- The number that the bytes are the digits of, to the base 256. -/
def Word.number (order : ByteOrder) (bytes : Bytes) : Nat :=
  match order with
  | .big => Nat.ofDigits 256 (bytes.reverse.map UInt8.toNat)
  | .little => Nat.ofDigits 256 (bytes.map UInt8.toNat)

/-- The number of indices from `lower` to `upper`, both included. -/
def IndexType.count (t : IndexType) (lower upper : t.Index) : Nat :=
  (t.value upper - t.value lower + 1).toNat

namespace Wire

variable {α γ : Type}

/-- A number in `n` bytes. -/
def WordOf (n : Nat) (order : ByteOrder) : Wire Nat := fun v p =>
  p.length = n ∧ Word.number order p = v

/-- A pair: the first, then the second. -/
def PairOf (first : Wire α) (second : Wire γ) : Wire (α × γ) := fun v p =>
  ∃ q r, p = q ++ r ∧ first v.1 q ∧ second v.2 r

/-- Elements one after the other. -/
inductive EachOf (element : Wire α) : Wire (List α)
  | nil : EachOf element [] []
  | cons {v : α} {vs : List α} {p q : Bytes} (head : element v p) (tail : EachOf element vs q) :
      EachOf element (v :: vs) (p ++ q)

/-- A list: the number of its elements in eight bytes, then the elements. -/
inductive ListOf (element : Wire α) : Wire (List α)
  | counted {vs : List α} {p q : Bytes} (count : WordOf 8 .big vs.length p)
      (elements : EachOf element vs q) : ListOf element vs (p ++ q)

/-- An array, written like a list. -/
def ArrayOf (element : Wire α) : Wire (Array α) := fun vs p => ListOf element vs.toList p

/-- An option: a zero byte if there is no value, any other byte in front of the value. -/
inductive OptionOf (element : Wire α) : Wire (Option α)
  | none : OptionOf element .none [0]
  | some {tag : UInt8} {v : α} {p : Bytes} (present : tag ≠ 0) (value : element v p) :
      OptionOf element (.some v) (tag :: p)

/-- A sum: a zero byte in front of a left value, any other byte in front of a right value. -/
inductive SumOf (left : Wire α) (right : Wire γ) : Wire (α ⊕ γ)
  | inl {v : α} {p : Bytes} (value : left v p) : SumOf left right (.inl v) (0 :: p)
  | inr {tag : UInt8} {v : γ} {p : Bytes} (present : tag ≠ 0) (value : right v p) :
      SumOf left right (.inr v) (tag :: p)

/-- A tree: its root, then the list of its subtrees. -/
inductive TreeOf (element : Wire α) : Wire (Tree α)
  | node {root : α} {subtrees : List (Tree α)} {p q : Bytes} (value : element root p)
      (below : ListOf (TreeOf element) subtrees q) : TreeOf element (.node root subtrees) (p ++ q)

/-- A map: any list of entries, of which it keeps the first of equal keys. -/
def MapOf [LT α] (key : Wire α) (value : Wire γ) : Wire (SortedMap α γ) := fun m p =>
  ∃ entries, KeepsFirst entries m ∧ ListOf (PairOf key value) entries p

/-- A set: any list of members, of which it keeps the first of equal ones. -/
def SetOf [LT α] (element : Wire α) : Wire (SortedSet α) := fun s p =>
  ∃ members, KeepsFirst (members.map fun member => (member, ())) s ∧ ListOf element members p

/-- A map whose entries come in the strictly ascending order of their keys. -/
def CheckedMapOf [LT α] (key : Wire α) (value : Wire γ) : Wire (SortedMap α γ) := fun m p =>
  m.keys.Pairwise (· < ·) ∧ ListOf (PairOf key value) m.toList p

/-- A set whose members come in strictly ascending order. -/
def CheckedSetOf [LT α] (element : Wire α) : Wire (SortedSet α) := fun s p =>
  s.members.Pairwise (· < ·) ∧ ListOf element s.members p

/-- An indexed array: the lower bound, the upper bound, then a list of elements, of which it has as
    many as there are indices. -/
def IndexedArrayOf {t : IndexType} (index : Wire t.Index) (element : Wire α) :
    Wire (IndexedArray t α) := fun a p =>
  ∃ elements, a.elements = elements.take (t.count a.lower a.upper) ∧
    PairOf (PairOf index index) (ListOf element) ((a.lower, a.upper), elements) p

end Wire

end StreamDecode
