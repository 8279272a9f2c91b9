import StreamDecode.Cursor
import StreamDecode.Failure
import StreamDecode.Step

set_option autoImplicit false

/-! # Decoders

A `Decoder` is run with a cursor and two continuations: where to go when it fails, and where to go
with its value. It works for every type of final answer, so it can do nothing with an answer but
pass it on. Sequencing is then plain composition of continuations, and costs nothing when a
suspended run is resumed.

`Decoder.outcome` runs a decoder with continuations that only report what happened. The result is
the whole behaviour of the decoder at that cursor as one tree: where it suspends, where it fails and
where it succeeds. -/

namespace StreamDecode

/-- Where a run goes on after a failure. -/
abbrev OnFailure (β ρ : Type) := Cursor β → Failure → Step β ρ

/-- Where a run goes on with a value. -/
abbrev OnSuccess (β α ρ : Type) := Cursor β → α → Step β ρ

/-- A decoder of values of type `α`, reading from strings of type `β`. -/
structure Decoder (β α : Type) where
  /-- Run from a cursor, going on with one of the two continuations. -/
  exec : {ρ : Type} → Cursor β → OnFailure β ρ → OnSuccess β α ρ → Step β ρ

/-- How a decoder ended, and where. -/
inductive Ending (β α : Type) where
  | failed (cursor : Cursor β) (failure : Failure)
  | reached (cursor : Cursor β) (value : α)

/-- Go on from an ending. -/
def Ending.elim {β α ρ : Type} (onFailure : OnFailure β ρ) (onSuccess : OnSuccess β α ρ) :
    Ending β α → Step β ρ
  | failed cursor failure => onFailure cursor failure
  | reached cursor value => onSuccess cursor value

/-- Go on from every ending of a run. -/
def Step.settle {β α ρ : Type} (step : Step β (Ending β α)) (onFailure : OnFailure β ρ)
    (onSuccess : OnSuccess β α ρ) : Step β ρ :=
  step.bind (Ending.elim onFailure onSuccess)

namespace Decoder

variable {β α γ : Type}

/-- The whole behaviour of a decoder at a cursor, as one tree. -/
def outcome (d : Decoder β α) (c : Cursor β) : Step β (Ending β α) :=
  d.exec c (fun c failure => .answer (.failed c failure)) (fun c value => .answer (.reached c value))

/-! ## Values, failures and sequences -/

/-- Succeed with a value and consume nothing. -/
protected def pure (value : α) : Decoder β α where
  exec c _ onSuccess := onSuccess c value

/-- Fail for the given cause. -/
def failFor (cause : Cause) : Decoder β α where
  exec c onFailure _ := onFailure c ⟨cause, []⟩

/-- Fail with a message. -/
def fail (message : String) : Decoder β α := failFor (.raised message)

/-- Run a decoder, then the one chosen by its value. -/
protected def bind (d : Decoder β α) (next : α → Decoder β γ) : Decoder β γ where
  exec c onFailure onSuccess :=
    d.exec c onFailure fun c value => (next value).exec c onFailure onSuccess

/-- Change the value and leave the input alone. -/
protected def map (f : α → γ) (d : Decoder β α) : Decoder β γ where
  exec c onFailure onSuccess := d.exec c onFailure fun c value => onSuccess c (f value)

/-- Run two decoders one after the other, for the value of the second. -/
def andThen (d : Decoder β α) (next : Decoder β γ) : Decoder β γ := d.bind fun _ => next

instance : Monad (Decoder β) where
  pure := Decoder.pure
  bind := Decoder.bind
  map := Decoder.map

/-! ## The buffer as a value -/

/-- What is buffered, without consuming it. -/
def getInput : Decoder β β where
  exec c _ onSuccess := onSuccess c c.input

/-- Read on in the given string instead of what is buffered. -/
def putInput (input : β) : Decoder β Unit where
  exec c _ onSuccess := onSuccess { c with input } ()

/-- Make a value that needs new storage. -/
def allocate (make : Nat → α × Nat) : Decoder β α where
  exec c _ onSuccess :=
    let (value, counter) := make c.counter
    onSuccess { c with counter } value

/-! ## Labels and choice -/

/-- Put a name to the failures of a decoder. -/
def label (name : String) (d : Decoder β α) : Decoder β α where
  exec c onFailure onSuccess := d.exec c (fun c failure => onFailure c (failure.under name)) onSuccess

/-- Run the first decoder; if it fails, run the second from where the first was entered, with what
    arrived in between added to the buffer. Of the first nothing is left then, neither what it
    consumed nor its failure. Once the first has succeeded the second is never run. -/
def orElse [Buffer β] (first second : Decoder β α) : Decoder β α where
  exec c onFailure onSuccess :=
    first.exec c.enter
      (fun failed _ => second.exec (c.rewind failed) onFailure onSuccess)
      (fun after value => onSuccess (c.leave after) value)

/-! ## Runs that no decoder of this library asks for -/

/-- Suspend whatever the input mode, and add the next chunk to the buffer, be it empty or not,
    without recording it. -/
def awaitAlways [Buffer β] : Decoder β Unit where
  exec c _ onSuccess := .await fun chunk =>
    let (input, counter) := Buffer.append c.counter c.input chunk
    onSuccess { c with input, counter } ()

/-- Break the run off without an answer. -/
def breakOff : Decoder β Unit where
  exec _ _ _ := .adrift

end Decoder

end StreamDecode
