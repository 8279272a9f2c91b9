import StreamDecode.Result

set_option autoImplicit false

/-! # Feeding an input in portions

An input is cut into portions whose sizes recur in a cycle. The first portion starts a run and the
others are fed to it, one by one, as long as it is suspended. -/

namespace StreamDecode

/-- An input that is still to be cut into portions. -/
structure Portions where
  /-- The sizes of one cycle. -/
  cycle : List Nat
  /-- What is left of the current cycle. -/
  upcoming : List Nat
  rest : Bytes

namespace Portions

/-- The next portion, shorter or empty at the end of the input. -/
def next (p : Portions) : Bytes × Portions :=
  match p.upcoming, p.cycle with
  | n :: sizes, _ => (p.rest.take n, { p with upcoming := sizes, rest := p.rest.drop n })
  | [], n :: sizes => (p.rest.take n, { p with upcoming := sizes, rest := p.rest.drop n })
  | [], [] => ([], p)

end Portions

/-- What has come of a run that is fed in portions. -/
structure Feeding (α : Type) where
  /-- How many portions were fed after the first. -/
  feeds : Nat
  /-- How many bytes all portions had. -/
  taken : Nat
  result : Result Bytes α

namespace Feeding

variable {α : Type}

/-- Feed up to `limit` more portions while the run is suspended. -/
def feedPortions : Nat → Portions → Feeding α → Feeding α
  | 0, _, feeding => feeding
  | limit + 1, portions, feeding =>
      match feeding.result with
      | .suspended resume =>
          let (portion, portions) := portions.next
          feedPortions limit portions
            ⟨feeding.feeds + 1, feeding.taken + portion.length, resume portion⟩
      | _ => feeding

/-- Run a decoder over an input cut into portions of the given sizes. -/
def run (d : Decoder Bytes α) (input : Bytes) (sizes : List Nat) (limit : Nat) : Feeding α :=
  let (portion, portions) := (Portions.mk sizes sizes input).next
  feedPortions limit portions ⟨0, portion.length, d.runPartial portion⟩

end Feeding

end StreamDecode
