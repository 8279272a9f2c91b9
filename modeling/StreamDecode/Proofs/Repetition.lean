import StreamDecode.Proofs.Rounds
import StreamDecode.Result

set_option autoImplicit false

/-! # Repetition is plain sequencing

What a counted repetition means is said by sequencing alone: an element, then the rest of the
repetition, which goes on with one more value pushed (`Decoder.inSequence`). Run like this, every
element would be run from inside the continuation of the one before it. The loop that comes back to
itself after every element, by a yield or through a suspension that it wraps, is the same decoder,
with every two continuations and whatever is fed.

The only thing asked of the element is that it goes on with one of its continuations where it ends,
and does not look into what these answer. All composed decoders are like that (`Composed.linear`),
loops, trees and choices included, and so is the repetition itself. -/

namespace StreamDecode

namespace Decoder

variable {β α γ δ : Type}

/-- Decode an element a number of times by sequencing, pushing each value onto what was collected
    before. -/
def inSequence (element : Decoder β α) (push : γ → α → γ) : Nat → γ → Decoder β γ
  | 0, collected => Decoder.pure collected
  | n + 1, collected => element.bind fun value => inSequence element push n (push collected value)

/-- The values of an element that is decoded a number of times, in the order of the input. -/
def valuesOf (element : Decoder β α) : Nat → Decoder β (List α)
  | 0 => Decoder.pure []
  | n + 1 => element.bind fun value => (valuesOf element n).map (value :: ·)

theorem map_bind (f : γ → δ) (d : Decoder β α) (next : α → Decoder β γ) :
    (d.bind next).map f = d.bind fun value => (next value).map f := rfl

theorem map_map (f : α → γ) (g : γ → δ) (d : Decoder β α) :
    (d.map f).map g = d.map fun value => g (f value) := rfl

theorem fold_eq_inSequence {element : Decoder β α} (he : element.Linear) (count : Nat) (init : γ)
    (push : γ → α → γ) : fold count element init push = inSequence element push count init := by
  induction count generalizing init with
  | zero => rfl
  | succ n ih =>
      rw [fold_succ he, inSequence]
      congr 1
      funext value
      exact ih (push init value)

/-- Pushing value after value is collecting all of them and pushing them then. -/
theorem inSequence_eq_map_valuesOf (element : Decoder β α) (push : γ → α → γ) (count : Nat)
    (init : γ) :
    inSequence element push count init =
      (valuesOf element count).map fun values => values.foldl push init := by
  induction count generalizing init with
  | zero => rfl
  | succ n ih =>
      rw [inSequence, valuesOf, map_bind]
      congr 1
      funext value
      rw [ih, map_map]
      rfl

theorem Linear.fold {element : Decoder β α} (he : element.Linear) (count : Nat) (init : γ)
    (push : γ → α → γ) : (Decoder.fold count element init push).Linear := by
  induction count generalizing init with
  | zero => exact fun _ _ _ _ => rfl
  | succ n ih =>
      rw [fold_succ he]
      exact he.bind fun value => ih (push init value)

/-- Repetition is plain sequencing. The loop, and the loop in rounds with its yields, are the
    decoder that runs element after element: with every two continuations they suspend, fail and
    succeed alike, at the same cursors. The values come in the order of the input and are pushed
    once each. A loop in rounds whose element is another one is such a sequence of sequences. -/
theorem Linear.repetition_in_sequence {element : Decoder β α} (he : element.Linear) (count : Nat)
    (init : γ) (push : γ → α → γ) :
    Decoder.fold count element init push = inSequence element push count init ∧
    foldInRounds count element init push = inSequence element push count init ∧
    inSequence element push count init =
      ((valuesOf element count).map fun values => values.foldl push init) ∧
    ∀ (δ : Type) (rounds : Nat) (start : δ) (add : δ → γ → δ),
      foldInRounds rounds (foldInRounds count element init push) start add =
        inSequence (inSequence element push count init) add rounds start := by
  have hfold := fold_eq_inSequence he count init push
  have hrounds : foldInRounds count element init push = inSequence element push count init := by
    rw [← fold_eq_foldInRounds he, hfold]
  refine ⟨hfold, hrounds, inSequence_eq_map_valuesOf element push count init,
    fun δ rounds start add => ?_⟩
  have hinner : (inSequence element push count init).Linear := hfold ▸ he.fold count init push
  rw [hrounds, ← fold_eq_foldInRounds hinner, fold_eq_inSequence hinner]

end Decoder

open Decoder in
/-- Two headers, one without the tag and one with it, decoded by a loop in rounds: the first one
    suspends inside the choice, is rewound and suspends again. -/
theorem headers_in_sequence :
    (tagged.orElse word32le).Linear ∧
      ((foldInRounds 2 (tagged.orElse word32le) [] fun words word => word :: words).runPartial
        [0xAB]).feedAll [[1], [2, 3, 0xAA], [1], [2, 9]] = .done [258, 50463147] [9] := by
  have htagged : Composed .stream Decoder.tagged := Composed.tagged
  have hword : Composed .stream (word32le : Decoder Bytes UInt32) := .map _ (.word 4 .little)
  have helement : (tagged.orElse word32le).Linear := (htagged.orElse hword).linear
  refine ⟨helement, ?_⟩
  rw [(helement.repetition_in_sequence 2 [] fun words word => word :: words).2.1]
  cbv

end StreamDecode
