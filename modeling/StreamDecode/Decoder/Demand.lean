import StreamDecode.Decoder.Basic
import StreamDecode.Rope

set_option autoImplicit false

/-! # Asking for input, and consuming it

`demandInput` asks for one more chunk. `ensure n` asks until `n` bytes are buffered: instead of
joining the buffer with every chunk it keeps the chunks apart and joins them once, when there are
enough bytes or the input has ended. Everything that consumes bytes is built on `ensure`. -/

namespace StreamDecode.Decoder

variable {β : Type} [Buffer β]

/-- Ask for the next chunk and add it to the buffer. An empty chunk ends the input. -/
def demandInput : Decoder β Unit where
  exec c onFailure onSuccess :=
    match c.mode with
    | .complete => onFailure c .outOfInput
    | .incomplete => .await fun chunk =>
        if Buffer.isEmpty chunk then onFailure c.finish .outOfInput
        else onSuccess (c.receive chunk) ()

/-- Collect chunks until no byte is `missing`. `gathered` holds the buffer and the chunks so far,
    newest first; the buffer of the cursor is out of date until they are joined. -/
def gather {ρ : Type} (onFailure : OnFailure β ρ) (onSuccess : OnSuccess β β ρ) (c : Cursor β)
    (gathered : List β) (missing : Nat) : Step β ρ :=
  .await fun chunk =>
    if _ended : Buffer.size chunk = 0 then
      let (input, counter) := Buffer.join c.counter gathered.reverse
      onFailure { c with input, counter, mode := .complete } .outOfInput
    else
      let record := c.record.push chunk
      if _enough : missing ≤ Buffer.size chunk then
        let (input, counter) := Buffer.join c.counter (chunk :: gathered).reverse
        onSuccess { input, record, mode := .incomplete, counter } input
      else
        gather onFailure onSuccess { c with record } (chunk :: gathered)
          (missing - Buffer.size chunk)
termination_by missing

/-- Wait until at least `n` bytes are buffered, and give the buffer. Nothing is consumed. -/
def ensure (n : Nat) : Decoder β β where
  exec c onFailure onSuccess :=
    if Buffer.hasAtLeast c.input n then onSuccess c c.input
    else match c.mode with
      | .complete => onFailure c .outOfInput
      | .incomplete => gather onFailure onSuccess c [c.input] (n - Buffer.size c.input)

/-! ## Consuming -/

/-- Consume exactly `n` bytes and give them, as a part of the buffer. -/
def getBytes (n : Nat) : Decoder β β :=
  (ensure n).bind fun input => (putInput (Buffer.drop input n)).map fun _ => Buffer.take input n

/-- Consume exactly `n` bytes and give them in storage of their own. -/
def getByteString (n : Nat) : Decoder β β :=
  (getBytes n).bind fun bytes => allocate fun counter => Buffer.copy counter bytes

/-- Consume exactly `n` bytes and give them as a rope of at most one piece. -/
def getRope (n : Nat) : Decoder β (Rope β) := (getByteString n).map fun bytes => Rope.ofList [bytes]

/-- Consume exactly `n` bytes. -/
def skip (n : Nat) : Decoder β Unit :=
  (ensure n).bind fun input => putInput (Buffer.drop input n)

/-! ## What is buffered already -/

/-- Consume `n` bytes, or all that are buffered if there are fewer. -/
def uncheckedSkip (n : Nat) : Decoder β Unit :=
  getInput.bind fun input => putInput (Buffer.drop input n)

/-- The next `n` bytes, or all that are buffered if there are fewer, without consuming them. -/
def uncheckedLookAhead (n : Nat) : Decoder β β := getInput.map fun input => Buffer.take input n

/-- The number of bytes that are buffered. -/
def remaining : Decoder β Nat := getInput.map Buffer.size

/-- Whether nothing is buffered. -/
def isEmpty : Decoder β Bool := getInput.map Buffer.isEmpty

end StreamDecode.Decoder
