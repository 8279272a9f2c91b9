import StreamDecode.Proofs.LawfulBuffer
import StreamDecode.Proofs.Linear
import StreamDecode.Schema

set_option autoImplicit false

/-! # Composed decoders

`Composed access d` says that `d` is built, in finitely many steps, from decoders of this library,
with arbitrary functions to choose how to go on after a value. The constructors name only what the
others are built from; that words, loops and containers are composed as well is proved below.

What such a decoder can do with its buffer beyond consuming from it is its `Access`. A decoder with
access `stream` sees its input only as a stream, except inside windows, where the buffer is all the
input there is. -/

namespace StreamDecode

/-- What a decoder may do with its buffer beyond consuming from it. -/
inductive Access where
  /-- Nothing more. -/
  | stream
  /-- Look at what is buffered already, and ask for more without need. -/
  | buffer
  /-- Also put other bytes in place of the buffer. -/
  | rewrite
deriving Repr, DecidableEq

/-- What a decoder may do inside a window that is opened by a decoder with the given access. -/
def Access.inside : Access → Access
  | stream => buffer
  | access => access

/-- Whether a decoder can give the cause of its own accord, not for lack of input or on account of
    a window, and not because the run itself went wrong. -/
def Cause.isPlain : Cause → Bool
  | raised _ | unorderedKeys | oversizedTree | nestedTooDeep | unboundName _ => true
  | _ => false

/-- The decoder is built from decoders of this library, none of which does more with the buffer
    than the access allows. -/
inductive Composed {β : Type} [Buffer β] : Access → {α : Type} → Decoder β α → Prop where
  | pure {access : Access} {α : Type} (value : α) : Composed access (Decoder.pure value)
  | failFor {access : Access} {α : Type} {cause : Cause} (plain : cause.isPlain = true) :
      Composed access (Decoder.failFor cause : Decoder β α)
  | bind {access : Access} {α γ : Type} {d : Decoder β α} {next : α → Decoder β γ}
      (hd : Composed access d) (hn : ∀ value, Composed access (next value)) :
      Composed access (d.bind next)
  | label {access : Access} {α : Type} {d : Decoder β α} (name : String) (hd : Composed access d) :
      Composed access (d.label name)
  | orElse {access : Access} {α : Type} {first second : Decoder β α}
      (hf : Composed access first) (hs : Composed access second) :
      Composed access (first.orElse second)
  | lookAheadIf {access : Access} {α : Type} {d : Decoder β α} (rewinds : α → Bool)
      (hd : Composed access d) : Composed access (d.lookAheadIf rewinds)
  | isolate {access : Access} {α : Type} {d : Decoder β α} (n : Int)
      (hd : Composed access.inside d) : Composed access (d.isolate n)
  | getBytes {access : Access} (n : Nat) : Composed access (Decoder.getBytes n)
  | allocate {access : Access} {α : Type} {make : Nat → α × Nat}
      (grows : ∀ counter, counter ≤ (make counter).2) : Composed access (Decoder.allocate make)
  | getInput {access : Access} (looks : access ≠ .stream) : Composed access Decoder.getInput
  | demandInput {access : Access} (looks : access ≠ .stream) : Composed access Decoder.demandInput
  | ensure {access : Access} (looks : access ≠ .stream) (n : Nat) :
      Composed access (Decoder.ensure n)
  | uncheckedSkip {access : Access} (looks : access ≠ .stream) (n : Nat) :
      Composed access (Decoder.uncheckedSkip n)
  | putInput {access : Access} (rewrites : access = .rewrite) (input : β) :
      Composed access (Decoder.putInput input)

namespace Composed

variable {β α γ : Type} [Buffer β] {access : Access}

theorem linear {d : Decoder β α} (h : Composed access d) : d.Linear := by
  induction h with
  | pure value => exact fun _ _ _ _ => rfl
  | failFor plain => exact fun _ _ _ _ => rfl
  | bind hd hn ihd ihn => exact ihd.bind ihn
  | label name hd ihd => exact ihd.label name
  | orElse hf hs ihf ihs => exact ihf.orElse ihs
  | lookAheadIf rewinds hd ihd => exact ihd.lookAheadIf rewinds
  | isolate n hd ihd => exact ihd.isolate n
  | getBytes n => exact Decoder.Linear.getBytes n
  | allocate grows => exact fun _ _ _ _ => rfl
  | getInput looks => exact fun _ _ _ _ => rfl
  | demandInput looks => exact Decoder.Linear.demandInput
  | ensure looks n => exact Decoder.Linear.ensure n
  | uncheckedSkip looks n => exact fun _ _ _ _ => rfl
  | putInput rewrites input => exact fun _ _ _ _ => rfl

/-! ## Sequences and look-ahead -/

theorem fail (message : String) : Composed access (Decoder.fail message : Decoder β α) :=
  failFor rfl

theorem map {d : Decoder β α} (f : α → γ) (hd : Composed access d) : Composed access (d.map f) :=
  hd.bind fun value => pure (f value)

theorem andThen {d : Decoder β α} {next : Decoder β γ} (hd : Composed access d)
    (hn : Composed access next) : Composed access (d.andThen next) :=
  hd.bind fun _ => hn

theorem lookAhead {d : Decoder β α} (hd : Composed access d) : Composed access d.lookAhead :=
  hd.lookAheadIf _

theorem lookAheadOption {d : Decoder β (Option α)} (hd : Composed access d) :
    Composed access d.lookAheadOption :=
  hd.lookAheadIf _

theorem lookAheadSum {d : Decoder β (α ⊕ γ)} (hd : Composed access d) :
    Composed access d.lookAheadSum :=
  hd.lookAheadIf _

/-! ## Bytes and words -/

theorem skip (n : Nat) : Composed access (Decoder.skip n : Decoder β Unit) :=
  (getBytes n).map fun _ => ()

theorem getByteString [LawfulBuffer β] (n : Nat) :
    Composed access (Decoder.getByteString n : Decoder β β) :=
  (getBytes n).bind fun bytes => allocate fun counter => Buffer.counter_le_copy counter bytes

theorem getRope [LawfulBuffer β] (n : Nat) :
    Composed access (Decoder.getRope n : Decoder β (Rope β)) :=
  (getByteString n).map _

theorem word (n : Nat) (order : ByteOrder) :
    Composed access (Decoder.word n order : Decoder β UInt64) :=
  (getBytes n).map _

theorem word64be : Composed access (Decoder.word64be : Decoder β UInt64) := word 8 .big

theorem wordInMemory (n : Nat) : Composed access (Decoder.wordInMemory n : Decoder β UInt64) :=
  (getBytes n).map _

/-- The decoders of words of every width and byte order are composed. -/
theorem wordFormat (format : WordFormat) : Composed access (format.decoder : Decoder β Nat) := by
  cases format with
  | word8 | word16be | word32be | word16le | word32le => exact ((word _ _).map _).map _
  | word16host | word32host => exact ((wordInMemory _).map _).map _
  | word64be | word64le => exact (word _ _).map _
  | word64host | wordHost => exact (wordInMemory _).map _

/-! ## What is buffered already -/

theorem uncheckedLookAhead (looks : access ≠ .stream) (n : Nat) :
    Composed access (Decoder.uncheckedLookAhead n : Decoder β β) :=
  (getInput looks).map _

theorem remaining (looks : access ≠ .stream) :
    Composed access (Decoder.remaining : Decoder β Nat) :=
  (getInput looks).map _

theorem isEmpty (looks : access ≠ .stream) : Composed access (Decoder.isEmpty : Decoder β Bool) :=
  (getInput looks).map _

/-! ## Loops -/

theorem fold {element : Decoder β α} (he : Composed access element) (n : Nat) (init : γ)
    (push : γ → α → γ) : Composed access (Decoder.fold n element init push) := by
  induction n generalizing init with
  | zero => exact pure init
  | succ n ih =>
      rw [Decoder.fold_succ he.linear]
      exact he.bind fun value => ih (push init value)

theorem pairOf {first : Decoder β α} {second : Decoder β γ} (hf : Composed access first)
    (hs : Composed access second) : Composed access (Decoder.pairOf first second) :=
  hf.bind fun _ => hs.map _

theorem nodeOf {element : Decoder β α} (he : Composed access element) :
    Composed access (Decoder.nodeOf element) :=
  he.pairOf word64be

theorem treeLoop {element : Decoder β α} (he : Composed access element) (limit : Nat)
    (stack : List (OpenNode α)) : Composed access (Decoder.treeLoop element limit stack) := by
  induction limit generalizing stack with
  | zero => exact failFor rfl
  | succ limit ih =>
      rw [Decoder.treeLoop_succ he.nodeOf.linear]
      refine he.nodeOf.bind fun node => ?_
      unfold Decoder.treeRest
      split
      · exact pure _
      · exact ih _

/-! ## Containers -/

theorem optionOf {element : Decoder β α} (he : Composed access element) :
    Composed access (Decoder.optionOf element) := by
  refine ((word 1 .big).map _).bind fun tag => ?_
  split
  · exact pure none
  · exact he.map some

theorem sumOf {left : Decoder β α} {right : Decoder β γ} (hl : Composed access left)
    (hr : Composed access right) : Composed access (Decoder.sumOf left right) := by
  refine ((word 1 .big).map _).bind fun tag => ?_
  split
  · exact hl.map _
  · exact hr.map _

theorem counted {element : Decoder β α} (he : Composed access element) (init : γ)
    (push : γ → α → γ) : Composed access (Decoder.counted element init push) :=
  (word 8 .big).bind fun count => he.fold count.toNat init push

theorem listOf {element : Decoder β α} (he : Composed access element) :
    Composed access (Decoder.listOf element) :=
  (he.counted _ _).map _

theorem arrayOf {element : Decoder β α} (he : Composed access element) :
    Composed access (Decoder.arrayOf element) :=
  he.counted _ _

theorem mapOf [LT α] [DecidableLT α] {key : Decoder β α} {value : Decoder β γ}
    (hk : Composed access key) (hv : Composed access value) :
    Composed access (Decoder.mapOf key value) :=
  (hk.pairOf hv).counted _ _

theorem setOf [LT α] [DecidableLT α] {element : Decoder β α} (he : Composed access element) :
    Composed access (Decoder.setOf element) :=
  he.counted _ _

theorem checkedMapOf [LT α] [DecidableLT α] {key : Decoder β α} {value : Decoder β γ}
    (hk : Composed access key) (hv : Composed access value) :
    Composed access (Decoder.checkedMapOf key value) := by
  refine (hk.pairOf hv).listOf.bind fun entries => ?_
  split
  · exact pure _
  · exact failFor rfl

theorem checkedSetOf [LT α] [DecidableLT α] {element : Decoder β α} (he : Composed access element) :
    Composed access (Decoder.checkedSetOf element) := by
  refine he.listOf.bind fun members => ?_
  split
  · exact pure _
  · exact failFor rfl

theorem indexedArrayOf {t : IndexType} {index : Decoder β t.Index} {element : Decoder β α}
    (hi : Composed access index) (he : Composed access element) :
    Composed access (Decoder.indexedArrayOf index element) :=
  (hi.pairOf hi).bind fun _ => he.listOf.map _

theorem treeOf {element : Decoder β α} (he : Composed access element) :
    Composed access (Decoder.treeOf element) :=
  he.treeLoop Decoder.nodeLimit []

end Composed

/-! ## An example -/

/-- A header of two bytes behind a tag. -/
def Decoder.tagged : Decoder Bytes UInt32 :=
  (word8.bind fun tag =>
    if tag = 0xAA then word16be.map UInt16.toUInt32 else fail "untagged").label "header"

/-- A frame: a header that is either tagged or four bytes long, a type that is looked at and left in
    place, and a body of four bytes in a window. -/
def Decoder.frame : Decoder Bytes (UInt32 × UInt16 × List UInt16) :=
  (tagged.orElse word32le).bind fun header =>
    (lookAhead word16be).bind fun type =>
      (isolate 4 (fold 2 word16le [] fun words word => word :: words)).map fun words =>
        (header, type, words)

theorem Composed.tagged {access : Access} : Composed access Decoder.tagged := by
  refine .label _ (.bind (.map _ (.word _ _)) fun tag => ?_)
  split
  · exact .map _ (.map _ (.word _ _))
  · exact .fail _

theorem Composed.frame {access : Access} : Composed access Decoder.frame := by
  refine .bind (.orElse .tagged (.map _ (.word _ _))) fun header => ?_
  refine .bind (.lookAhead (.map _ (.word _ _))) fun type => ?_
  exact .map _ (.isolate 4 (.fold (.map _ (.word _ _)) 2 [] _))

end StreamDecode
