import StreamDecode.Decoder.Basic

set_option autoImplicit false

/-! # Looking ahead

A decoder that looks ahead runs another and may then stand again where it started, with whatever
arrived in between added to the buffer. -/

namespace StreamDecode.Decoder

variable {β α γ : Type} [Buffer β]

/-- Run a decoder and stand again where it started if it failed, or if its value says so. -/
def lookAheadIf (rewinds : α → Bool) (d : Decoder β α) : Decoder β α where
  exec c onFailure onSuccess :=
    d.exec c.enter
      (fun failed failure => onFailure (c.rewind failed) failure)
      (fun after value => onSuccess (if rewinds value then c.rewind after else c.leave after) value)

/-- The value of a decoder, without consuming anything. -/
def lookAhead (d : Decoder β α) : Decoder β α := lookAheadIf (fun _ => true) d

/-- The value of a decoder, consuming only if there is one. -/
def lookAheadOption (d : Decoder β (Option α)) : Decoder β (Option α) :=
  lookAheadIf Option.isNone d

/-- The value of a decoder, consuming only if it is a right one. -/
def lookAheadSum (d : Decoder β (α ⊕ γ)) : Decoder β (α ⊕ γ) := lookAheadIf Sum.isLeft d

end StreamDecode.Decoder
