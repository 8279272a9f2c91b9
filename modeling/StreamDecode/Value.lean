import StreamDecode.Buffer
import StreamDecode.IndexedArray
import StreamDecode.Rope
import StreamDecode.SortedMap
import StreamDecode.Tree

set_option autoImplicit false

/-! # Values of any kind

A decoder that is described as data (`Schema`) gives values of one type, `Value`, which has a form
for every kind of thing that the decoders of this library give. Values are ordered, so that they can
be keys: integers by size, bytes lexicographically, and composed values by their parts in turn. -/

namespace StreamDecode

/-- A decoded value, with strings of type `β`. -/
inductive Value (β : Type) where
  | unit
  | int (n : Int)
  | bool (b : Bool)
  | bytes (s : β)
  | rope (r : Rope β)
  | list (members : List (Value β))
  | seq (members : List (Value β))
  | set (members : List (Value β))
  /-- Entries in key order, each a pair. -/
  | map (entries : List (Value β))
  | pair (first second : Value β)
  | none
  | some (value : Value β)
  | left (value : Value β)
  | right (value : Value β)
  /-- A root with its subtrees, each a tree again. -/
  | tree (root : Value β) (subtrees : List (Value β))
  | array (lower upper : Int) (rangeSize : Nat) (elements : List (Value β))
  | extent (nodes depth : Nat)

namespace Value

variable {β : Type}

/-! ## Order -/

/-- The place of a value's kind among the kinds. -/
def rank : Value β → Nat
  | unit => 0
  | bool _ => 1
  | int _ => 2
  | bytes _ => 3
  | rope _ => 4
  | list _ => 5
  | seq _ => 6
  | set _ => 7
  | map _ => 8
  | pair _ _ => 9
  | none => 10
  | some _ => 11
  | left _ => 12
  | right _ => 13
  | tree _ _ => 14
  | array _ _ _ _ => 15
  | extent _ _ => 16

/-- Lexicographic order of byte strings; one that begins another is the smaller. -/
def compareBytes : Bytes → Bytes → Ordering
  | [], [] => .eq
  | [], _ :: _ => .lt
  | _ :: _, [] => .gt
  | a :: as, b :: bs => (compare a b).then (compareBytes as bs)

mutual
/-- The order of values: by kind, then by content, composed values by their parts in turn. -/
def order [Buffer β] (v w : Value β) : Ordering :=
  match v, w with
  | bool a, bool b => compare a.toNat b.toNat
  | int a, int b => compare a b
  | bytes a, bytes b => compareBytes (Buffer.toBytes a) (Buffer.toBytes b)
  | list as, list bs => orderList as bs
  | seq as, seq bs => orderList as bs
  | set as, set bs => orderList as bs
  | map as, map bs => orderList as bs
  | pair a b, pair c d => (order a c).then (order b d)
  | some a, some b => order a b
  | left a, left b => order a b
  | right a, right b => order a b
  | tree a as, tree b bs => (order a b).then (orderList as bs)
  | array _ _ _ as, array _ _ _ bs => orderList as bs
  | v, w => compare v.rank w.rank

/-- The order of lists of values: member by member, then by length. -/
def orderList [Buffer β] (vs ws : List (Value β)) : Ordering :=
  match vs, ws with
  | [], [] => .eq
  | [], _ :: _ => .lt
  | _ :: _, [] => .gt
  | v :: vs, w :: ws => (order v w).then (orderList vs ws)
end

instance [Buffer β] : LT (Value β) := ⟨fun v w => order v w = .lt⟩

instance [Buffer β] : DecidableLT (Value β) :=
  fun v w => inferInstanceAs (Decidable (order v w = .lt))

/-- Whether two values have the same kind and content. -/
def same [Buffer β] (v w : Value β) : Bool := order v w == .eq

/-- Whether two values lie on the same side and agree there. -/
def sameSum [Buffer β] : Value β ⊕ Value β → Value β ⊕ Value β → Bool
  | .inl v, .inl w => v.same w
  | .inr v, .inr w => v.same w
  | _, _ => false

/-! ## Values of the library's types -/

/-- The integer that a value is, or zero. -/
def toInt : Value β → Int
  | int n => n
  | _ => 0

/-- The value that a value of option form wraps. -/
def toOption : Value β → Option (Value β)
  | some v => .some v
  | _ => .none

/-- A value that may be missing. -/
def ofOption : Option (Value β) → Value β
  | .none => none
  | .some v => some v

/-- The value that a value of sum form wraps; what has no side counts as right. -/
def toSum : Value β → Value β ⊕ Value β
  | left v => .inl v
  | right v => .inr v
  | v => .inr v

/-- A value of one of two sides. -/
def ofSum : Value β ⊕ Value β → Value β
  | .inl v => left v
  | .inr v => right v

/-- A pair of values. -/
def ofPair (entry : Value β × Value β) : Value β := pair entry.1 entry.2

mutual
/-- A tree of values. -/
def ofTree : Tree (Value β) → Value β
  | .node root subtrees => tree root (ofTrees subtrees)

/-- Trees of values. -/
def ofTrees : List (Tree (Value β)) → List (Value β)
  | [] => []
  | t :: ts => ofTree t :: ofTrees ts
end

/-- The measures of a tree. -/
def ofExtent (e : Tree.Extent) : Value β := extent e.nodes e.depth

/-- A map of values. -/
def ofMap (m : SortedMap (Value β) (Value β)) : Value β := map (m.toList.map ofPair)

/-- A map of values under 64-bit integers. -/
def ofIntMap (m : SortedMap Int64 (Value β)) : Value β :=
  map (m.toList.map fun entry => pair (int entry.1.toInt) entry.2)

/-- A set of values. -/
def ofSet (s : SortedSet (Value β)) : Value β := set s.members

/-- A set of 64-bit integers. -/
def ofIntSet (s : SortedSet Int64) : Value β := set (s.members.map fun n => int n.toInt)

/-- An array over a range of indices. -/
def ofIndexedArray {t : IndexType} (a : IndexedArray t (Value β)) : Value β :=
  array (t.value a.lower) (t.value a.upper) a.rangeSize a.elements

end Value

end StreamDecode
