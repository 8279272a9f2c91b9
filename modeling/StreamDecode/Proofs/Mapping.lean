import StreamDecode.Proofs.Composed
import StreamDecode.Proofs.Results

set_option autoImplicit false

/-! # Mapping a decoder and mapping its results

A function can be applied to the value of a decoder before it is run (`Decoder.map`), or to what has
come of a run so far (`Result.map`). The first is put into the success continuation and is there
through all suspensions; the second is put around the suspension, and around the next one whenever a
chunk is fed. In the end both are the same: a result that is mapped and then fed is one that is fed
and then mapped (`Result.feed_map`).

A caller may do this in any order and as often as there are chunks and functions, and each function
may change the type of the value. Such a course of feeding and mapping is a `Handling`. All of its
functions can be composed and put in front of the run. -/

namespace StreamDecode

variable {β α γ δ : Type}

/-! ## Mapped results -/

namespace Result

theorem map_id (r : Result β α) : r.map id = r := by
  induction r with
  | failed error => rfl
  | suspended resume ih => exact congrArg suspended (funext ih)
  | done value leftover => rfl

theorem map_comp (f : α → δ) (g : δ → γ) (r : Result β α) : (r.map f).map g = r.map (g ∘ f) := by
  induction r with
  | failed error => rfl
  | suspended resume ih => exact congrArg suspended (funext ih)
  | done value leftover => rfl

theorem feed_map (f : α → γ) (r : Result β α) (chunk : β) :
    (r.map f).feed chunk = (r.feed chunk).map f := by
  cases r <;> rfl

theorem feedAll_map (f : α → γ) (r : Result β α) (chunks : List β) :
    (r.map f).feedAll chunks = (r.feedAll chunks).map f := by
  induction chunks generalizing r with
  | nil => rfl
  | cons chunk chunks ih =>
      show ((r.map f).feed chunk).feedAll chunks = ((r.feed chunk).feedAll chunks).map f
      rw [feed_map, ih]

theorem feedAll_append (r : Result β α) (first second : List β) :
    r.feedAll (first ++ second) = (r.feedAll first).feedAll second :=
  List.foldl_append

/-- The second result is the first one with another value: both wait, or both are done and have left
    over the same, or both have failed alike. -/
structure Carries (f : α → γ) (r : Result β α) (r' : Result β γ) : Prop where
  waits_iff : (∃ resume, r' = .suspended resume) ↔ ∃ resume, r = .suspended resume
  done_iff : ∀ changed leftover, r' = .done changed leftover ↔
    ∃ value, r = .done value leftover ∧ f value = changed
  failed_iff : ∀ error, r' = .failed error ↔ r = .failed error

theorem carries_map (f : α → γ) (r : Result β α) : r.Carries f (r.map f) := by
  cases r with
  | failed error => exact ⟨by simp [map], by simp [map], by simp [map]⟩
  | suspended resume => exact ⟨by simp [map], by simp [map], by simp [map]⟩
  | done value leftover =>
      refine ⟨by simp [map], fun changed leftover' => ?_, by simp [map]⟩
      simp only [map, done.injEq]
      constructor
      · rintro ⟨hchanged, hleftover⟩
        exact ⟨value, ⟨rfl, hleftover⟩, hchanged⟩
      · rintro ⟨_, ⟨rfl, hleftover⟩, hchanged⟩
        exact ⟨hchanged, hleftover⟩

end Result

/-! ## Mapped decoders -/

/-- The same ending, with the value changed. -/
def Ending.map (f : α → γ) : Ending β α → Ending β γ
  | failed c failure => failed c failure
  | reached c value => reached c (f value)

theorem Decoder.outcome_map {d : Decoder β α} (hd : d.Linear) (f : α → γ) (c : Cursor β) :
    (d.map f).outcome c = (d.outcome c).map (·.map f) := by
  rw [Step.map, Step.bind_eq_settle]
  exact hd _ c _ _

theorem Result.ofStep_map (f : α → γ) (step : Step β (Ending β α)) :
    ofStep (step.map (·.map f)) = (ofStep step).map f := by
  induction step with
  | answer ending => cases ending <;> rfl
  | await resume ih => exact congrArg suspended (funext ih)
  | adrift => rfl

theorem Decoder.start_map [Buffer β] {d : Decoder β α} (hd : d.Linear) (f : α → γ)
    (mode : InputMode) (input : β) : (d.map f).start mode input = (d.start mode input).map f := by
  rw [start, outcome_map hd, Result.ofStep_map]
  rfl

/-! ## Feeding and mapping in any order -/

/-- What a caller does to a result with a value of the first type, until it is one with a value of
    the second. -/
inductive Handling (β : Type) : Type → Type → Type 1 where
  | stop {α : Type} : Handling β α α
  | feed {α γ : Type} (chunk : β) (later : Handling β α γ) : Handling β α γ
  | map {α δ γ : Type} (f : α → δ) (later : Handling β δ γ) : Handling β α γ

namespace Handling

/-- What becomes of a result. -/
def perform : {α γ : Type} → Handling β α γ → Result β α → Result β γ
  | _, _, stop, r => r
  | _, _, feed chunk later, r => later.perform (r.feed chunk)
  | _, _, map f later, r => later.perform (r.map f)

/-- The chunks that are fed, first to last. -/
def chunks : {α γ : Type} → Handling β α γ → List β
  | _, _, stop => []
  | _, _, feed chunk later => chunk :: later.chunks
  | _, _, map _ later => later.chunks

/-- All the functions, applied one after the other. -/
def function : {α γ : Type} → Handling β α γ → α → γ
  | _, _, stop => id
  | _, _, feed _ later => later.function
  | _, _, map f later => later.function ∘ f

/-- Everything may be fed first, and mapped once then. -/
theorem perform_eq (handling : Handling β α γ) (r : Result β α) :
    handling.perform r = (r.feedAll handling.chunks).map handling.function := by
  induction handling with
  | stop => exact r.map_id.symm
  | feed chunk later ih => exact ih (r.feed chunk)
  | map f later ih =>
      calc later.perform (r.map f)
          = ((r.map f).feedAll later.chunks).map later.function := ih (r.map f)
        _ = ((r.feedAll later.chunks).map f).map later.function := by rw [Result.feedAll_map]
        _ = (r.feedAll later.chunks).map (later.function ∘ f) := Result.map_comp f later.function _

end Handling

/-- The two ways of mapping agree. A run of the mapped decoder is, fed any chunks, in the same state
    as a run of the decoder itself that is fed the same chunks, with its result mapped before,
    between or after them; so one waits where the other does, is done where the other is, with the
    value changed, and fails as the other does. The result may be mapped several times, in between of
    any chunks: that is mapping once by all the functions in turn. -/
theorem Composed.mapping_agrees [Buffer β] {access : Access} {d : Decoder β α}
    (h : Composed access d) (first : β) :
    (∀ (γ : Type) (f : α → γ) (before after : List β),
      (((d.runPartial first).feedAll before).map f).feedAll after =
        ((d.map f).runPartial first).feedAll (before ++ after)) ∧
    (∀ (γ : Type) (f : α → γ) (chunks : List β),
      ((d.runPartial first).feedAll chunks).Carries f
        (((d.map f).runPartial first).feedAll chunks)) ∧
    (∀ (γ : Type) (handling : Handling β α γ),
      handling.perform (d.runPartial first) =
        ((d.map handling.function).runPartial first).feedAll handling.chunks) ∧
    ∀ (δ γ : Type) (f : α → δ) (g : δ → γ) (r : Result β α), (r.map f).map g = r.map (g ∘ f) := by
  have hmap {γ : Type} (f : α → γ) : (d.map f).runPartial first = (d.runPartial first).map f :=
    Decoder.start_map h.linear f .incomplete first
  refine ⟨fun γ f before after => ?_, fun γ f chunks => ?_, fun γ handling => ?_,
    fun δ γ => Result.map_comp⟩
  · rw [Result.feedAll_map, ← Result.feedAll_append, hmap, Result.feedAll_map]
  · rw [hmap, Result.feedAll_map]
    exact Result.carries_map f _
  · rw [handling.perform_eq, hmap, Result.feedAll_map]

/-- An untagged frame: the header is taken out while it is still incomplete, and doubled after some
    more chunks, before the body has arrived. -/
theorem frame_mapping_agrees :
    let handling : Handling Bytes (UInt32 × UInt16 × List UInt16) Nat :=
      .feed [1] (.map Prod.fst (.feed [2, 3]
        (.map (fun header => 2 * header.toNat) (.feed [4, 5, 6, 7, 8] .stop))))
    handling.perform (Decoder.frame.runPartial [0xAB]) =
        ((Decoder.frame.map handling.function).runPartial [0xAB]).feedAll handling.chunks ∧
      handling.perform (Decoder.frame.runPartial [0xAB]) = .done 100926294 [8] := by
  have hframe : Composed .stream Decoder.frame := Composed.frame
  obtain ⟨-, -, hhandling, -⟩ := hframe.mapping_agrees [0xAB]
  exact ⟨hhandling Nat _, by cbv⟩

end StreamDecode
