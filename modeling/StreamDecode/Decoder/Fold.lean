import StreamDecode.Decoder.Basic

set_option autoImplicit false

/-! # Counted repetition

`fold count element init push` decodes an element `count` times and pushes each value onto what has
been collected. Every element is run on its own up to its outcome before the next one starts, so
neither the call stack nor the continuations grow with the count. -/

namespace StreamDecode.Decoder

variable {β α γ : Type}

/-- The loop of `fold`, with `n` elements to go. -/
def foldFrom {ρ : Type} (element : Decoder β α) (push : γ → α → γ) (onFailure : OnFailure β ρ)
    (onSuccess : OnSuccess β γ ρ) : Nat → γ → Cursor β → Step β ρ
  | 0, collected, c => onSuccess c collected
  | n + 1, collected, c =>
      match element.outcome c with
      | .answer (.reached c value) =>
          foldFrom element push onFailure onSuccess n (push collected value) c
      | step => step.settle onFailure fun c value =>
          foldFrom element push onFailure onSuccess n (push collected value) c

/-- Decode an element `count` times, pushing each value onto what was collected before. -/
def fold (count : Nat) (element : Decoder β α) (init : γ) (push : γ → α → γ) : Decoder β γ where
  exec c onFailure onSuccess := foldFrom element push onFailure onSuccess count init c

end StreamDecode.Decoder
