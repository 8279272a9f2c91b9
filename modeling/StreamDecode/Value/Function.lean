import StreamDecode.Value

set_option autoImplicit false

/-! # Functions on values

The functions that a described decoder can apply to its value. A value of a form that a function is
not made for is given back unchanged. -/

namespace StreamDecode.Value

/-- A function on values. -/
inductive Function where
  | some
  | left
  | right
  | first
  | second
  /-- The number of members, entries or bytes. -/
  | length
  /-- The sum of the members or bytes, as a 64-bit word. -/
  | sum
  /-- The rope as one string. -/
  | flatten
  /-- One more, as a 64-bit word. -/
  | increment
  /-- Twice as much, as a 64-bit word. -/
  | double
  /-- The low bits, of the given number, in two's complement. -/
  | signed (bits : Nat)
deriving Repr, DecidableEq

variable {β : Type} [Buffer β]

/-- An integer as a 64-bit word. -/
def word64 (n : Int) : Int := n % UInt64.size

/-- What a value counts for in a sum. -/
def summand : Value β → Int
  | .int n => n
  | .bool b => b.toNat
  | _ => 0

/-- The sum of members as a 64-bit word. -/
def sumOf (members : List (Value β)) : Value β :=
  .int (members.foldl (fun total v => word64 (total + v.summand)) 0)

/-- Apply a function. Only `flatten` may take a storage number from the counter. -/
def Function.apply (f : Function) (counter : Nat) (v : Value β) : Value β × Nat :=
  match f, v with
  | .some, v => (.some v, counter)
  | .left, v => (.left v, counter)
  | .right, v => (.right v, counter)
  | .first, .pair a _ => (a, counter)
  | .second, .pair _ b => (b, counter)
  | .length, .list vs | .length, .seq vs | .length, .set vs | .length, .map vs =>
      (.int vs.length, counter)
  | .length, .bytes s => (.int (Buffer.size s), counter)
  | .length, .rope r => (.int r.size, counter)
  | .sum, .list vs | .sum, .seq vs | .sum, .set vs => (sumOf vs, counter)
  | .sum, .bytes s => (sumOf ((Buffer.toBytes s).map fun b => .int b.toNat), counter)
  | .flatten, .rope r =>
      let (s, counter) := r.flatten counter
      (.bytes s, counter)
  | .increment, .int n => (.int (word64 (n + 1)), counter)
  | .double, .int n => (.int (word64 (2 * n)), counter)
  | .signed bits, .int n => (.int (Int.bmod n (1 <<< bits)), counter)
  | _, v => (v, counter)

end StreamDecode.Value
