import StreamDecode.Decoder.Demand

set_option autoImplicit false

/-! # Decoding inside a window

`isolate n d` gives `d` exactly the next `n` bytes as if they were all the input there is. -/

namespace StreamDecode.Decoder

variable {β α : Type} [Buffer β]

/-- Run a decoder on exactly the next `n` bytes, in complete mode; it has to consume all of them.
    What follows the window is then the input again, in the mode from before. After a failure the
    mode is restored as well, and the buffer stays what was left of the window. -/
def isolate (n : Int) (d : Decoder β α) : Decoder β α where
  exec c onFailure onSuccess :=
    if n < 0 then onFailure c ⟨.negativeWindow, []⟩
    else (ensure n.toNat).exec c onFailure fun outer input =>
      d.exec { outer with input := Buffer.take input n.toNat, mode := .complete }
        (fun inner failure => onFailure { inner with mode := outer.mode } failure)
        (fun inner value =>
          if Buffer.isEmpty inner.input then
            onSuccess { inner with input := Buffer.drop input n.toNat, mode := outer.mode } value
          else
            onFailure { inner with mode := outer.mode } ⟨.unconsumedWindow, []⟩)

end StreamDecode.Decoder
