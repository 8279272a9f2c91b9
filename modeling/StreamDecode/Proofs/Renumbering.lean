import StreamDecode.Proofs.Seamless

set_option autoImplicit false

/-! # Plain bytes have no storage to number

New storage is numbered from the counter that a run passes on. Plain bytes are their own storage, so
over them a run takes a number only where a function that makes a value asks for one. No decoder of
this library does but `getByteString`, whose copies of plain bytes leave the counter alone. So what
is built from these decoders (`Decoder.CopiesOnly`) does the same at every number: run from another
one, it comes to the same ending with that number (`Decoder.CopiesOnly.ignoresCounter`). -/

namespace StreamDecode

variable {α γ : Type}

/-! ## Runs at another number -/

/-- The same cursor, at another storage number. -/
def Cursor.withCounter {β : Type} (c : Cursor β) (counter : Nat) : Cursor β := { c with counter }

/-- The same ending, at another storage number. -/
def Ending.withCounter {β : Type} (counter : Nat) : Ending β α → Ending β α
  | failed c failure => failed (c.withCounter counter) failure
  | reached c value => reached (c.withCounter counter) value

/-- Going on from a run at another number, where one goes on alike but for the number. -/
theorem Step.settle_withCounter {β : Type} {counter : Nat} {step step' : Step β (Ending β α)}
    {onFailure onFailure' : OnFailure β (Ending β γ)}
    {onSuccess onSuccess' : OnSuccess β α (Ending β γ)}
    (h : step' = step.map (·.withCounter counter))
    (hf : ∀ c failure,
      onFailure' (c.withCounter counter) failure = (onFailure c failure).map (·.withCounter counter))
    (hs : ∀ c value,
      onSuccess' (c.withCounter counter) value = (onSuccess c value).map (·.withCounter counter)) :
    step'.settle onFailure' onSuccess' =
      (step.settle onFailure onSuccess).map (·.withCounter counter) := by
  rw [h, settle, bind_map, map, bind_settle, bind_eq_settle]
  exact settle_congr step hf hs

theorem Cursor.rewind_withCounter (entry c : Cursor Bytes) (counter : Nat) :
    (entry.withCounter counter).rewind (c.withCounter counter) =
      (entry.rewind c).withCounter counter := by
  rw [rewind_eq, rewind_eq]
  rfl

namespace Decoder

/-- Run at another storage number, the decoder does the same, and ends at that number. -/
structure IgnoresCounter (d : Decoder Bytes α) : Prop where
  linear : d.Linear
  outcome_eq : ∀ (c : Cursor Bytes) (counter : Nat),
    d.outcome (c.withCounter counter) = (d.outcome c).map (·.withCounter counter)

namespace IgnoresCounter

variable {d : Decoder Bytes α}

theorem pure (value : α) : (Decoder.pure value : Decoder Bytes α).IgnoresCounter :=
  ⟨Linear.pure value, fun _ _ => rfl⟩

theorem bind {next : α → Decoder Bytes γ} (hd : d.IgnoresCounter)
    (hn : ∀ value, (next value).IgnoresCounter) : (d.bind next).IgnoresCounter := by
  refine ⟨hd.linear.bind fun value => (hn value).linear, fun c counter => ?_⟩
  rw [outcome_bind hd.linear, outcome_bind hd.linear]
  exact Step.settle_withCounter (hd.outcome_eq c counter) (fun _ _ => rfl)
    (fun c value => (hn value).outcome_eq c counter)

theorem label (hd : d.IgnoresCounter) (name : String) : (d.label name).IgnoresCounter := by
  refine ⟨hd.linear.label name, fun c counter => ?_⟩
  rw [outcome_label hd.linear, outcome_label hd.linear]
  exact Step.settle_withCounter (hd.outcome_eq c counter) (fun _ _ => rfl) (fun _ _ => rfl)

theorem orElse {first second : Decoder Bytes α} (hf : first.IgnoresCounter)
    (hs : second.IgnoresCounter) : (first.orElse second).IgnoresCounter := by
  refine ⟨hf.linear.orElse hs.linear, fun c counter => ?_⟩
  rw [outcome_orElse hf.linear, outcome_orElse hf.linear]
  refine Step.settle_withCounter (hf.outcome_eq c.enter counter) (fun failed _ => ?_)
    (fun _ _ => rfl)
  rw [Cursor.rewind_withCounter]
  exact hs.outcome_eq (c.rewind failed) counter

theorem lookAheadIf (hd : d.IgnoresCounter) (rewinds : α → Bool) :
    (d.lookAheadIf rewinds).IgnoresCounter := by
  refine ⟨hd.linear.lookAheadIf rewinds, fun c counter => ?_⟩
  rw [outcome_lookAheadIf hd.linear, outcome_lookAheadIf hd.linear]
  refine Step.settle_withCounter (hd.outcome_eq c.enter counter) (fun failed failure => ?_)
    (fun after value => ?_)
  · rw [Cursor.rewind_withCounter]
    rfl
  · cases rewinds value with
    | true =>
        rw [if_pos rfl, if_pos rfl, Cursor.rewind_withCounter]
        rfl
    | false => rfl

/-! ## Asking for input -/

theorem demandInput : (Decoder.demandInput : Decoder Bytes Unit).IgnoresCounter := by
  refine ⟨Linear.demandInput, fun c counter => ?_⟩
  cases hmode : c.mode with
  | complete =>
      have hmode' : (c.withCounter counter).mode = .complete := hmode
      rw [outcome_demandInput_complete hmode, outcome_demandInput_complete hmode']
      rfl
  | incomplete =>
      have hmode' : (c.withCounter counter).mode = .incomplete := hmode
      rw [outcome_demandInput_incomplete hmode, outcome_demandInput_incomplete hmode']
      refine Step.await_congr fun chunk => ?_
      simp only [Cursor.receive, Bytes.append_eq]
      split <;> rfl

theorem gathering_withCounter (c : Cursor Bytes) (gathered : List Bytes) (missing counter : Nat) :
    gathering (c.withCounter counter) gathered missing =
      (gathering c gathered missing).map (·.withCounter counter) := by
  -- each chunk that does not end the wait makes fewer bytes missing
  induction missing using Nat.strongRecOn generalizing c gathered with
  | _ missing ih =>
      rw [gathering, gathering, gather_eq_await, gather_eq_await]
      refine Step.await_congr fun chunk => ?_
      simp only [Bytes.join_eq]
      split
      · rfl
      · split
        · rfl
        · exact ih _ (by omega) { c with record := c.record.push chunk } _

theorem ensure (n : Nat) : (Decoder.ensure n : Decoder Bytes Bytes).IgnoresCounter := by
  refine ⟨Linear.ensure n, fun c counter => ?_⟩
  by_cases hn : Buffer.hasAtLeast c.input n = true
  · have hn' : Buffer.hasAtLeast (c.withCounter counter).input n = true := hn
    rw [outcome_ensure_enough hn, outcome_ensure_enough hn']
    rfl
  · have hn' : ¬ Buffer.hasAtLeast (c.withCounter counter).input n = true := hn
    cases hmode : c.mode with
    | complete =>
        rw [outcome_ensure_complete hn hmode, outcome_ensure_complete hn' hmode]
        rfl
    | incomplete =>
        rw [outcome_ensure_incomplete hn hmode, outcome_ensure_incomplete hn' hmode]
        exact gathering_withCounter c _ _ counter

theorem getBytes (n : Nat) : (Decoder.getBytes n : Decoder Bytes Bytes).IgnoresCounter :=
  (ensure n).bind fun _ => ⟨fun _ _ _ _ => rfl, fun _ _ => rfl⟩

/-! ## Windows -/

theorem isolate (hd : d.IgnoresCounter) (n : Int) : (d.isolate n).IgnoresCounter := by
  refine ⟨hd.linear.isolate n, fun c counter => ?_⟩
  rw [outcome_isolate hd.linear, outcome_isolate hd.linear]
  split
  · rfl
  · refine Step.settle_withCounter ((ensure n.toNat).outcome_eq c counter) (fun _ _ => rfl)
      (fun outer input => ?_)
    let window : Cursor Bytes :=
      { outer with input := Buffer.take input n.toNat, mode := .complete }
    refine Step.settle_withCounter (hd.outcome_eq window counter) (fun _ _ => rfl)
      (fun inner value => ?_)
    have hinput : (inner.withCounter counter).input = inner.input := rfl
    rw [hinput]
    by_cases hempty : Buffer.isEmpty inner.input = true
    · rw [if_pos hempty, if_pos hempty]
      rfl
    · rw [if_neg hempty, if_neg hempty]
      rfl

/-! ## Loops -/

theorem fold {element : Decoder Bytes α} (he : element.IgnoresCounter) (count : Nat) (init : γ)
    (push : γ → α → γ) : (Decoder.fold count element init push).IgnoresCounter := by
  induction count generalizing init with
  | zero => exact pure init
  | succ n ih =>
      rw [fold_succ he.linear]
      exact he.bind fun value => ih (push init value)

theorem treeLoop {element : Decoder Bytes α} (he : element.IgnoresCounter) (limit : Nat)
    (stack : List (OpenNode α)) : (Decoder.treeLoop element limit stack).IgnoresCounter := by
  have hcount : (word64be : Decoder Bytes UInt64).IgnoresCounter :=
    (getBytes 8).bind fun bytes => pure _
  have hnode : (nodeOf element).IgnoresCounter :=
    he.bind fun root => hcount.bind fun count => pure (root, count)
  induction limit generalizing stack with
  | zero => exact ⟨fun _ _ _ _ => rfl, fun _ _ => rfl⟩
  | succ limit ih =>
      rw [treeLoop_succ hnode.linear]
      refine hnode.bind fun node => ?_
      unfold treeRest
      split
      · exact pure _
      · exact ih _

end IgnoresCounter

/-! ## Decoders of this library -/

/-- The decoder is built from decoders of this library, by whatever functions that go on after a
    value. Copies are the only strings that it makes. -/
inductive CopiesOnly : {α : Type} → Decoder Bytes α → Prop where
  | pure {α : Type} (value : α) : CopiesOnly (Decoder.pure value)
  | failFor {α : Type} (cause : Cause) : CopiesOnly (Decoder.failFor cause : Decoder Bytes α)
  | bind {α γ : Type} {d : Decoder Bytes α} {next : α → Decoder Bytes γ} (hd : CopiesOnly d)
      (hn : ∀ value, CopiesOnly (next value)) : CopiesOnly (d.bind next)
  | label {α : Type} {d : Decoder Bytes α} (name : String) (hd : CopiesOnly d) :
      CopiesOnly (d.label name)
  | orElse {α : Type} {first second : Decoder Bytes α} (hf : CopiesOnly first)
      (hs : CopiesOnly second) : CopiesOnly (first.orElse second)
  | lookAheadIf {α : Type} {d : Decoder Bytes α} (rewinds : α → Bool) (hd : CopiesOnly d) :
      CopiesOnly (d.lookAheadIf rewinds)
  | isolate {α : Type} {d : Decoder Bytes α} (n : Int) (hd : CopiesOnly d) :
      CopiesOnly (d.isolate n)
  | fold {α γ : Type} {element : Decoder Bytes α} (count : Nat) (init : γ) (push : γ → α → γ)
      (he : CopiesOnly element) : CopiesOnly (Decoder.fold count element init push)
  | treeOf {α : Type} {element : Decoder Bytes α} (he : CopiesOnly element) :
      CopiesOnly (Decoder.treeOf element)
  | getBytes (n : Nat) : CopiesOnly (Decoder.getBytes n)
  | getByteString (n : Nat) : CopiesOnly (Decoder.getByteString n)
  | getInput : CopiesOnly Decoder.getInput
  | demandInput : CopiesOnly Decoder.demandInput
  | ensure (n : Nat) : CopiesOnly (Decoder.ensure n)
  | uncheckedSkip (n : Nat) : CopiesOnly (Decoder.uncheckedSkip n)
  | putInput (input : Bytes) : CopiesOnly (Decoder.putInput input)

/-- Of the decoders of this library none takes notice of the storage number. -/
theorem CopiesOnly.ignoresCounter {d : Decoder Bytes α} (h : d.CopiesOnly) : d.IgnoresCounter := by
  induction h with
  | pure value => exact .pure value
  | failFor cause => exact ⟨fun _ _ _ _ => rfl, fun _ _ => rfl⟩
  | bind _ _ ihd ihn => exact ihd.bind ihn
  | label name _ ihd => exact ihd.label name
  | orElse _ _ ihf ihs => exact ihf.orElse ihs
  | lookAheadIf rewinds _ ihd => exact ihd.lookAheadIf rewinds
  | isolate n _ ihd => exact ihd.isolate n
  | fold count init push _ ihe => exact ihe.fold count init push
  | treeOf _ ihe => exact ihe.treeLoop nodeLimit []
  | getBytes n => exact .getBytes n
  | getByteString n =>
      -- a copy of plain bytes is these bytes, and takes no number
      exact (IgnoresCounter.getBytes n).bind fun bytes => ⟨fun _ _ _ _ => rfl, fun _ _ => rfl⟩
  | getInput | uncheckedSkip | putInput => exact ⟨fun _ _ _ _ => rfl, fun _ _ => rfl⟩
  | demandInput => exact .demandInput
  | ensure n => exact .ensure n

end Decoder

end StreamDecode
