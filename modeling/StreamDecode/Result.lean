import StreamDecode.Decoder.Basic

set_option autoImplicit false

/-! # Running a decoder

A decoder is run in one shot over a complete input (`run`, `runWithRemainder`), or piece by piece
(`runPartial`). The piecewise run gives a `Result`: a failure, a value with what was left over, or a
suspension, to which the next chunk is fed. An empty chunk says that no more will come. -/

namespace StreamDecode

/-- What has come of a run so far. -/
inductive Result (β α : Type) where
  /-- The decoder failed. -/
  | failed (error : DecodeError)
  /-- The decoder waits for the next chunk. -/
  | suspended (resume : β → Result β α)
  /-- The decoder succeeded, and left over what it did not consume. -/
  | done (value : α) (leftover : β)

namespace Result

variable {β α γ : Type}

/-- What has come of a run, seen from outside. -/
def ofStep : Step β (Ending β α) → Result β α
  | .answer (.failed _ failure) => failed failure.report
  | .answer (.reached c value) => done value c.input
  | .await resume => suspended fun chunk => ofStep (resume chunk)
  | .adrift => failed (Failure.report ⟨.strayYield, []⟩)

/-- Go on with the next chunk. A failure or a value stays what it is. -/
def feed (r : Result β α) (chunk : β) : Result β α :=
  match r with
  | suspended resume => resume chunk
  | final => final

/-- Go on with each of the chunks in turn. -/
def feedAll (r : Result β α) (chunks : List β) : Result β α := chunks.foldl feed r

/-- Change the value, now or once there is one. -/
def map (f : α → γ) : Result β α → Result β γ
  | failed error => failed error
  | suspended resume => suspended fun chunk => (resume chunk).map f
  | done value leftover => done (f value) leftover

/-- The outcome of a run that had all its input: the value and what was not consumed, or what went
    wrong. -/
def toExcept : Result β α → Except DecodeError (α × β)
  | done value leftover => .ok (value, leftover)
  | failed error => .error error
  | suspended _ => .error (Failure.report ⟨.unexpectedSuspension, []⟩)

end Result

namespace Decoder

variable {β α : Type} [Buffer β]

/-- Run over the given input, of which more may come or not. -/
def start (d : Decoder β α) (mode : InputMode) (input : β) : Result β α :=
  .ofStep (d.outcome (.start mode input))

/-- Start a run over a first chunk, which may be empty. -/
def runPartial (d : Decoder β α) (input : β) : Result β α := d.start .incomplete input

/-- Run over a complete input. -/
def run (d : Decoder β α) (input : β) : Except DecodeError α :=
  (d.start .complete input).toExcept.map Prod.fst

/-- Run over a complete input from a position on; also gives what was not consumed. -/
def runWithRemainder (d : Decoder β α) (input : β) (position : Nat) : Except DecodeError (α × β) :=
  (d.start .complete (Buffer.drop input position)).toExcept

end Decoder

end StreamDecode
