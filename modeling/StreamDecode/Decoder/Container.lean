import StreamDecode.Decoder.Fold
import StreamDecode.Decoder.Word
import StreamDecode.IndexedArray
import StreamDecode.SortedMap
import StreamDecode.Tree

set_option autoImplicit false

/-! # Decoders of containers

Every collection is written as the number of its elements, a 64-bit word with its most significant
byte first, and then the elements:

* list, sequence, set: the count, then each element;
* map: the count, then each key followed by its value;
* pair: the first, then the second;
* tree: the root, then the list of its subtrees;
* option: a byte, zero for none, then the value if there is one;
* sum: a byte, zero for left, then the value of that side;
* indexed array: the lower bound, the upper bound, then the list of the elements.

`treeOf` reads a tree in the order of its roots and keeps the nodes that miss subtrees on a stack of
its own, so the depth of a tree costs memory and not call stack. -/

namespace StreamDecode.Decoder

variable {β α γ : Type} [Buffer β]

/-! ## Fixed shapes -/

/-- Two values, one after the other. -/
def pairOf (first : Decoder β α) (second : Decoder β γ) : Decoder β (α × γ) :=
  first.bind fun a => second.map fun b => (a, b)

/-- A byte, then a value unless the byte is zero. -/
def optionOf (element : Decoder β α) : Decoder β (Option α) :=
  word8.bind fun tag => if tag = 0 then Decoder.pure none else element.map some

/-- A byte, then a left value if the byte is zero and a right value otherwise. -/
def sumOf (left : Decoder β α) (right : Decoder β γ) : Decoder β (α ⊕ γ) :=
  word8.bind fun tag => if tag = 0 then left.map .inl else right.map .inr

/-! ## Counted collections -/

/-- A count, then as many elements, each pushed onto what was collected before. -/
def counted (element : Decoder β α) (init : γ) (push : γ → α → γ) : Decoder β γ :=
  word64be.bind fun count => fold count.toNat element init push

/-- A count, then as many elements. -/
def listOf (element : Decoder β α) : Decoder β (List α) :=
  (counted element [] fun elements x => x :: elements).map List.reverse

/-- A count, then as many elements, as an array. -/
def arrayOf (element : Decoder β α) : Decoder β (Array α) := counted element #[] Array.push

/-- A count, then as many keys with their values. The keys are expected to ascend strictly, but that
    is not checked: they are sorted, and of several values for one key the first is kept. -/
def mapOf [LT α] [DecidableLT α] (key : Decoder β α) (value : Decoder β γ) :
    Decoder β (SortedMap α γ) :=
  counted (pairOf key value) .empty fun m entry => m.insert entry.1 entry.2

/-- A count, then as many members. They are expected to ascend strictly, but that is not checked:
    they are sorted, and of several equal ones the first is kept. -/
def setOf [LT α] [DecidableLT α] (element : Decoder β α) : Decoder β (SortedSet α) :=
  counted element .empty SortedSet.insert

/-- A count, then as many keys with their values, the keys strictly ascending. -/
def checkedMapOf [LT α] [DecidableLT α] (key : Decoder β α) (value : Decoder β γ) :
    Decoder β (SortedMap α γ) :=
  (listOf (pairOf key value)).bind fun entries =>
    if ascends (entries.map Prod.fst) then Decoder.pure (.ofList entries) else failFor .unorderedKeys

/-- A count, then as many members, strictly ascending. -/
def checkedSetOf [LT α] [DecidableLT α] (element : Decoder β α) : Decoder β (SortedSet α) :=
  (listOf element).bind fun members =>
    if ascends members then Decoder.pure (.ofList members) else failFor .unorderedKeys

/-- Two bounds, then a count and as many elements, of which those beyond the bounds are left out. -/
def indexedArrayOf {t : IndexType} (index : Decoder β t.Index) (element : Decoder β α) :
    Decoder β (IndexedArray t α) :=
  (pairOf index index).bind fun bounds =>
    (listOf element).map fun elements => .ofList bounds.1 bounds.2 elements

/-! ## Trees -/

/-- The greatest number of nodes a tree can have: each is followed by a count of eight bytes, and no
    stream has more than `2 ^ 64` bytes. -/
def nodeLimit : Nat := UInt64.size / 8

/-- One node: its root, and the number of its subtrees. -/
def nodeOf (element : Decoder β α) : Decoder β (α × UInt64) := pairOf element word64be

/-- The loop of `treeOf`: read one more node, then close those open nodes that are complete.
    `limit` is the number of nodes that may still come. -/
def treeFrom {ρ : Type} (element : Decoder β α) (onFailure : OnFailure β ρ)
    (onSuccess : OnSuccess β (Tree α) ρ) : Nat → List (OpenNode α) → Cursor β → Step β ρ
  | 0, _, c => onFailure c ⟨.oversizedTree, []⟩
  | limit + 1, stack, c =>
      match (nodeOf element).outcome c with
      | .answer (.reached c (root, count)) =>
          match OpenNode.close ⟨root, [], count.toNat⟩ stack with
          | .inl tree => onSuccess c tree
          | .inr stack => treeFrom element onFailure onSuccess limit stack c
      | step => step.settle onFailure fun c (root, count) =>
          match OpenNode.close ⟨root, [], count.toNat⟩ stack with
          | .inl tree => onSuccess c tree
          | .inr stack => treeFrom element onFailure onSuccess limit stack c

/-- A root, then a count and as many subtrees. -/
def treeOf (element : Decoder β α) : Decoder β (Tree α) where
  exec c onFailure onSuccess := treeFrom element onFailure onSuccess nodeLimit [] c

end StreamDecode.Decoder
