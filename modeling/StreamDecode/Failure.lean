set_option autoImplicit false

/-! # Why a decoder fails, and how that is told

Inside a run a failure is a `Cause` with the labels that enclose its site, outermost first. What a
caller gets to see is a `DecodeError`: the text of the cause and the same labels as its trace. -/

namespace StreamDecode

/-- Why a decoder fails. -/
inductive Cause where
  /-- More bytes were needed than will ever arrive. -/
  | tooFewBytes
  /-- A decoder was told to fail with this message. -/
  | raised (message : String)
  /-- A window of a negative number of bytes was asked for. -/
  | negativeWindow
  /-- A window was left with bytes that were not decoded. -/
  | unconsumedWindow
  /-- The keys of an ordered container did not ascend strictly. -/
  | unorderedKeys
  /-- A tree had more nodes than a stream of 64-bit size can hold. -/
  | oversizedTree
  /-- Named decoders called each other deeper than is allowed. -/
  | nestedTooDeep
  /-- A name stood for no decoder and no value. -/
  | unboundName (name : String)
  /-- A decoder suspended although all input was there. -/
  | unexpectedSuspension
  /-- A run ended without an answer. -/
  | strayYield
deriving Repr, DecidableEq

/-- The text put before every message of a failure that is not a lack of input. -/
def failedReading (message : String) : String := "Failed reading: " ++ message

/-- The text of a cause. -/
def Cause.reason : Cause → String
  | tooFewBytes => "too few bytes"
  | raised message => failedReading message
  | negativeWindow => failedReading "Attempted to isolate a negative number of bytes"
  | unconsumedWindow => failedReading "not all bytes parsed in isolate"
  | unorderedKeys => failedReading "keys not in strictly ascending order"
  | oversizedTree => failedReading "tree has too many nodes"
  | nestedTooDeep => failedReading "decoders nested too deep"
  | unboundName name => failedReading ("unbound name " ++ name)
  | unexpectedSuspension => failedReading "Internal error: unexpected Partial."
  | strayYield => failedReading "Internal error: stray yield."

/-- A failure on its way out: its cause, and the labels passed so far, outermost first. -/
structure Failure where
  cause : Cause
  labels : List String
deriving Repr, DecidableEq

/-- The failure seen from outside one more label. -/
def Failure.under (f : Failure) (label : String) : Failure :=
  { f with labels := label :: f.labels }

/-- The label that marks a lack of input. -/
def demandLabel : String := "demandInput"

/-- The failure of a demand for input that will never arrive. -/
def Failure.outOfInput : Failure := ⟨.tooFewBytes, [demandLabel]⟩

/-- What is told of a failed decode: the reason, and the enclosing labels, outermost first. -/
structure DecodeError where
  reason : String
  trace : List String
deriving Repr, DecidableEq

/-- What is told of a failure. -/
def Failure.report (f : Failure) : DecodeError := ⟨f.cause.reason, f.labels⟩

/-- The text of a trace: a heading, then one indented line a label. -/
def renderTrace : List String → String
  | [] => "Empty call stack"
  | labels => "From:\t" ++ "\n\t".intercalate labels ++ "\n"

/-- The reason, a newline, the text of the trace and a newline. -/
def DecodeError.message (e : DecodeError) : String :=
  e.reason ++ "\n" ++ renderTrace e.trace ++ "\n"

/-- Whether the innermost label of the trace is the one that marks a lack of input. -/
def DecodeError.endsInDemand (e : DecodeError) : Bool :=
  e.trace.getLast? == some demandLabel

end StreamDecode
