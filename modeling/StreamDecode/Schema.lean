import StreamDecode.Decoder.Container
import StreamDecode.Decoder.LookAhead
import StreamDecode.Decoder.Window
import StreamDecode.Value.Function

set_option autoImplicit false

/-! # Decoders described as data

A `Schema` describes a decoder of `Value`s. It can bind values to names, take sizes from them,
choose between decoders by an integer, and use decoders by name, also recursively.
`Schema.decoder` gives the decoder that is meant. Named decoders are looked up when they are run, up
to a depth of `nestingLimit`. -/

namespace StreamDecode

/-- Values bound to names, innermost first. -/
abbrev Bindings (β : Type) := List (String × Value β)

/-- An integer written in a schema. -/
inductive Operand where
  | literal (n : Int)
  /-- The integer bound to a name, plus a constant. -/
  | bound (name : String) (plus : Int)
deriving Repr, DecidableEq

namespace Operand

variable {β : Type}

/-- The integer that is meant. A name that is not bound to an integer counts as zero. -/
def value (bindings : Bindings β) : Operand → Int
  | literal n => n
  | bound name plus => ((bindings.lookup name).elim 0 Value.toInt) + plus

/-- The integer as an unsigned 64-bit size. -/
def size (bindings : Bindings β) (operand : Operand) : Nat :=
  (operand.value bindings % UInt64.size).toNat

/-- The integer as a signed 64-bit size. -/
def signedSize (bindings : Bindings β) (operand : Operand) : Int :=
  Int.bmod (operand.value bindings) UInt64.size

end Operand

/-- The format of a word. -/
inductive WordFormat where
  | word8
  | word16be
  | word16le
  | word16host
  | word32be
  | word32le
  | word32host
  | word64be
  | word64le
  | word64host
  | wordHost
deriving Repr, DecidableEq

/-- The decoder of a word. -/
def WordFormat.decoder {β : Type} [Buffer β] : WordFormat → Decoder β Nat
  | word8 => Decoder.word8.map UInt8.toNat
  | word16be => Decoder.word16be.map UInt16.toNat
  | word16le => Decoder.word16le.map UInt16.toNat
  | word16host => Decoder.word16host.map UInt16.toNat
  | word32be => Decoder.word32be.map UInt32.toNat
  | word32le => Decoder.word32le.map UInt32.toNat
  | word32host => Decoder.word32host.map UInt32.toNat
  | word64be => Decoder.word64be.map UInt64.toNat
  | word64le => Decoder.word64le.map UInt64.toNat
  | word64host => Decoder.word64host.map UInt64.toNat
  | wordHost => Decoder.wordHost.map UInt64.toNat

/-- The description of a decoder. -/
inductive Schema (β : Type) where
  | pure (value : Value β)
  | fail (message : String)
  | label (name : String) (of : Schema β)
  | andThen (first second : Schema β)
  | orElse (first second : Schema β)
  | map (f : Value.Function) (of : Schema β)
  /-- Bind the value of `of` to a name inside `body`. -/
  | bind (name : String) (of body : Schema β)
  /-- The value bound to a name. -/
  | bound (name : String)
  /-- One decoder if an integer is as given, and another otherwise. -/
  | ifEqual (operand : Operand) (n : Int) (yes no : Schema β)
  /-- The decoder that a name stands for. -/
  | named (name : String)
  /-- The empty list of values. -/
  | emptyTuple
  /-- A value in front of a list of values. -/
  | tuple (first rest : Schema β)
  | demandInput
  | ensure (n : Operand)
  | isolate (n : Operand) (of : Schema β)
  | skip (n : Operand)
  | uncheckedSkip (n : Operand)
  | uncheckedLookAhead (n : Operand)
  | remaining
  | isEmpty
  | lookAhead (of : Schema β)
  | lookAheadOption (of : Schema β)
  | lookAheadSum (of : Schema β)
  | getBytes (n : Operand)
  | getByteString (n : Operand)
  | getRope (n : Operand)
  | word (format : WordFormat)
  | pairOf (first second : Schema β)
  | listOf (of : Schema β)
  | seqOf (of : Schema β)
  | treeOf (of : Schema β)
  /-- The number of nodes and the depth of a tree. -/
  | extentOf (of : Schema β)
  | optionOf (of : Schema β)
  | sumOf (left right : Schema β)
  | mapOf (key value : Schema β)
  | checkedMapOf (key value : Schema β)
  /-- A map whose keys are taken as signed 64-bit integers. -/
  | intMapOf (key value : Schema β)
  | setOf (of : Schema β)
  | checkedSetOf (of : Schema β)
  /-- A set whose members are taken as signed 64-bit integers. -/
  | intSetOf (of : Schema β)
  | indexedArrayOf (t : IndexType) (index of : Schema β)
  | getInput
  | putInput (input : β)
  /-- A fixed number of values, added to the given ones. -/
  | times (n : Operand) (of : Schema β) (init : List (Value β))
  | awaitAlways
  | breakOff

namespace Schema

variable {β : Type} [Buffer β]

/-- The value of a decoder as a signed 64-bit integer. -/
def asInt64 (d : Decoder β (Value β)) : Decoder β Int64 := d.map fun v => Int64.ofInt v.toInt

/-- The decoder that is meant, given what names of decoders and of values stand for. -/
def decoder (named : String → Bindings β → Decoder β (Value β)) :
    Schema β → Bindings β → Decoder β (Value β)
  | .pure value, _ => Decoder.pure value
  | .fail message, _ => Decoder.fail message
  | .label name of, env => (of.decoder named env).label name
  | .andThen first second, env => (first.decoder named env).andThen (second.decoder named env)
  | .orElse first second, env => (first.decoder named env).orElse (second.decoder named env)
  | .map f of, env =>
      (of.decoder named env).bind fun v => Decoder.allocate fun counter => f.apply counter v
  | .bind name of body, env =>
      (of.decoder named env).bind fun v => body.decoder named ((name, v) :: env)
  | .bound name, env =>
      match env.lookup name with
      | some v => Decoder.pure v
      | none => Decoder.failFor (.unboundName name)
  | .ifEqual operand n yes no, env =>
      if operand.value env = n then yes.decoder named env else no.decoder named env
  | .named name, env => (Decoder.pure ()).bind fun _ => named name env
  | .emptyTuple, _ => Decoder.pure (.list [])
  | .tuple first rest, env => (first.decoder named env).bind fun v =>
      (rest.decoder named env).map fun
        | .list vs => .list (v :: vs)
        | w => .list [v, w]
  | .demandInput, _ => Decoder.demandInput.map fun _ => .unit
  | .ensure n, env => (Decoder.ensure (n.size env)).map .bytes
  | .isolate n of, env => Decoder.isolate (n.signedSize env) (of.decoder named env)
  | .skip n, env => (Decoder.skip (n.size env)).map fun _ => .unit
  | .uncheckedSkip n, env => (Decoder.uncheckedSkip (n.size env)).map fun _ => .unit
  | .uncheckedLookAhead n, env => (Decoder.uncheckedLookAhead (n.size env)).map .bytes
  | .remaining, _ => Decoder.remaining.map fun n => .int n
  | .isEmpty, _ => Decoder.isEmpty.map .bool
  | .lookAhead of, env => (of.decoder named env).lookAhead
  | .lookAheadOption of, env =>
      ((of.decoder named env).map Value.toOption).lookAheadOption.map Value.ofOption
  | .lookAheadSum of, env => ((of.decoder named env).map Value.toSum).lookAheadSum.map Value.ofSum
  | .getBytes n, env => (Decoder.getBytes (n.size env)).map .bytes
  | .getByteString n, env => (Decoder.getByteString (n.size env)).map .bytes
  | .getRope n, env => (Decoder.getRope (n.size env)).map .rope
  | .word format, _ => format.decoder.map fun n => .int n
  | .pairOf first second, env =>
      (Decoder.pairOf (first.decoder named env) (second.decoder named env)).map Value.ofPair
  | .listOf of, env => (Decoder.listOf (of.decoder named env)).map .list
  | .seqOf of, env => (Decoder.arrayOf (of.decoder named env)).map fun vs => .seq vs.toList
  | .treeOf of, env => (Decoder.treeOf (of.decoder named env)).map Value.ofTree
  | .extentOf of, env => (Decoder.treeOf (of.decoder named env)).map fun t => Value.ofExtent t.extent
  | .optionOf of, env => (Decoder.optionOf (of.decoder named env)).map Value.ofOption
  | .sumOf left right, env =>
      (Decoder.sumOf (left.decoder named env) (right.decoder named env)).map Value.ofSum
  | .mapOf key value, env =>
      (Decoder.mapOf (key.decoder named env) (value.decoder named env)).map Value.ofMap
  | .checkedMapOf key value, env =>
      (Decoder.checkedMapOf (key.decoder named env) (value.decoder named env)).map Value.ofMap
  | .intMapOf key value, env =>
      (Decoder.mapOf (asInt64 (key.decoder named env)) (value.decoder named env)).map Value.ofIntMap
  | .setOf of, env => (Decoder.setOf (of.decoder named env)).map Value.ofSet
  | .checkedSetOf of, env => (Decoder.checkedSetOf (of.decoder named env)).map Value.ofSet
  | .intSetOf of, env => (Decoder.setOf (asInt64 (of.decoder named env))).map Value.ofIntSet
  | .indexedArrayOf t index of, env =>
      (Decoder.indexedArrayOf (t := t) ((index.decoder named env).map fun v => t.ofInt v.toInt)
        (of.decoder named env)).map Value.ofIndexedArray
  | .getInput, _ => Decoder.getInput.map .bytes
  | .putInput input, _ => (Decoder.putInput input).map fun _ => .unit
  | .times n of init, env =>
      (Decoder.fold (n.size env) (of.decoder named env) init.toArray Array.push).map fun vs =>
        .list vs.toList
  | .awaitAlways, _ => Decoder.awaitAlways.map fun _ => .unit
  | .breakOff, _ => Decoder.breakOff.map fun _ => .unit

/-- How deep named decoders may call each other. -/
def nestingLimit : Nat := UInt64.size / 8

/-- The decoder that a name stands for, with `depth` further calls allowed inside it. -/
def resolve (definitions : List (String × Schema β)) :
    Nat → String → Bindings β → Decoder β (Value β)
  | 0, _, _ => Decoder.failFor .nestedTooDeep
  | depth + 1, name, env =>
      match definitions.lookup name with
      | some schema => schema.decoder (resolve definitions depth) env
      | none => Decoder.failFor (.unboundName name)

/-- The decoder that a schema describes, given what its names of decoders stand for. -/
def toDecoder (definitions : List (String × Schema β)) (schema : Schema β) : Decoder β (Value β) :=
  schema.decoder (resolve definitions nestingLimit) []

end Schema

end StreamDecode
