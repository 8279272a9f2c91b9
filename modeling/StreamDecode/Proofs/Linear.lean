import StreamDecode.Decoder.Container
import StreamDecode.Decoder.LookAhead
import StreamDecode.Decoder.Window
import StreamDecode.Proofs.Run

set_option autoImplicit false

/-! # Decoders use their continuations linearly

A decoder is `Linear` if it does nothing with its continuations but go on with one of them where it
ends: run with any two continuations, it is its own `outcome` with these grafted onto the endings.
Sequencing, choice, windows and loops run their parts with continuations of their own making; where
the parts are linear, `outcome` of the whole is said by `outcome` of the parts. These equations are
all that later proofs use of the combinators.

The two loops are sequencing in disguise: `fold_succ` and `treeLoop_succ` say how a round of them is
an ordinary `Decoder.bind`. -/

namespace StreamDecode

variable {β α γ : Type}

/-- Going on from an ending is going on from a failure or with a value. -/
theorem Step.bind_eq_settle {ρ : Type} (step : Step β (Ending β α))
    (next : Ending β α → Step β ρ) :
    step.bind next =
      step.settle (fun c failure => next (.failed c failure))
        (fun c value => next (.reached c value)) := by
  have hnext : next = Ending.elim (fun c failure => next (.failed c failure))
      (fun c value => next (.reached c value)) := by
    funext ending
    cases ending <;> rfl
  rw [settle, ← hnext]

/-- Going on alike is going on with the same run. -/
theorem Step.settle_congr {ρ : Type} (step : Step β (Ending β α))
    {onFailure onFailure' : OnFailure β ρ} {onSuccess onSuccess' : OnSuccess β α ρ}
    (hf : ∀ c failure, onFailure c failure = onFailure' c failure)
    (hs : ∀ c value, onSuccess c value = onSuccess' c value) :
    step.settle onFailure onSuccess = step.settle onFailure' onSuccess' := by
  have hfailure : onFailure = onFailure' := funext fun c => funext (hf c)
  have hsuccess : onSuccess = onSuccess' := funext fun c => funext (hs c)
  rw [hfailure, hsuccess]

theorem Step.bind_settle {ρ σ : Type} (step : Step β (Ending β α)) (onFailure : OnFailure β ρ)
    (onSuccess : OnSuccess β α ρ) (next : ρ → Step β σ) :
    (step.settle onFailure onSuccess).bind next =
      step.settle (fun c failure => (onFailure c failure).bind next)
        (fun c value => (onSuccess c value).bind next) := by
  rw [settle, bind_assoc, bind_eq_settle]
  rfl

theorem Step.settle_settle {ρ : Type} (step : Step β (Ending β α))
    (onFailure : OnFailure β (Ending β γ)) (onSuccess : OnSuccess β α (Ending β γ))
    (onFailure' : OnFailure β ρ) (onSuccess' : OnSuccess β γ ρ) :
    (step.settle onFailure onSuccess).settle onFailure' onSuccess' =
      step.settle (fun c failure => (onFailure c failure).settle onFailure' onSuccess')
        (fun c value => (onSuccess c value).settle onFailure' onSuccess') :=
  bind_settle step onFailure onSuccess _

namespace Decoder

/-- Decoders that run alike are the same. -/
theorem ext_exec {d e : Decoder β α}
    (h : ∀ (ρ : Type) (c : Cursor β) (onFailure : OnFailure β ρ) (onSuccess : OnSuccess β α ρ),
      d.exec c onFailure onSuccess = e.exec c onFailure onSuccess) : d = e := by
  obtain ⟨exec⟩ := d
  obtain ⟨exec'⟩ := e
  congr 1
  funext ρ c onFailure onSuccess
  exact h ρ c onFailure onSuccess

/-- The decoder does nothing with its continuations but go on with one of them where it ends. -/
def Linear (d : Decoder β α) : Prop :=
  ∀ (ρ : Type) (c : Cursor β) (onFailure : OnFailure β ρ) (onSuccess : OnSuccess β α ρ),
    d.exec c onFailure onSuccess = (d.outcome c).settle onFailure onSuccess

/-! ## Sequences, labels and choice -/

theorem outcome_bind {d : Decoder β α} (hd : d.Linear) (next : α → Decoder β γ) (c : Cursor β) :
    (d.bind next).outcome c =
      (d.outcome c).settle (fun c failure => .answer (.failed c failure))
        (fun c value => (next value).outcome c) :=
  hd _ c _ _

theorem outcome_label {d : Decoder β α} (hd : d.Linear) (name : String) (c : Cursor β) :
    (d.label name).outcome c =
      (d.outcome c).settle (fun c failure => .answer (.failed c (failure.under name)))
        (fun c value => .answer (.reached c value)) :=
  hd _ c _ _

theorem outcome_orElse [Buffer β] {first : Decoder β α} (hf : first.Linear) (second : Decoder β α)
    (c : Cursor β) :
    (first.orElse second).outcome c =
      (first.outcome c.enter).settle (fun failed _ => second.outcome (c.rewind failed))
        (fun after value => .answer (.reached (c.leave after) value)) :=
  hf _ c.enter _ _

theorem outcome_lookAheadIf [Buffer β] {d : Decoder β α} (hd : d.Linear) (rewinds : α → Bool)
    (c : Cursor β) :
    (lookAheadIf rewinds d).outcome c =
      (d.outcome c.enter).settle (fun failed failure => .answer (.failed (c.rewind failed) failure))
        (fun after value =>
          .answer (.reached (if rewinds value then c.rewind after else c.leave after) value)) :=
  hd _ c.enter _ _

theorem gather_eq_await [Buffer β] {ρ : Type} (onFailure : OnFailure β ρ)
    (onSuccess : OnSuccess β β ρ) (c : Cursor β) (gathered : List β) (missing : Nat) :
    gather onFailure onSuccess c gathered missing = .await fun chunk =>
      if Buffer.size chunk = 0 then
        onFailure { c with
          input := (Buffer.join c.counter gathered.reverse).1
          mode := .complete
          counter := (Buffer.join c.counter gathered.reverse).2 } .outOfInput
      else if missing ≤ Buffer.size chunk then
        onSuccess {
          input := (Buffer.join c.counter (chunk :: gathered).reverse).1
          record := c.record.push chunk
          mode := .incomplete
          counter := (Buffer.join c.counter (chunk :: gathered).reverse).2 }
          (Buffer.join c.counter (chunk :: gathered).reverse).1
      else
        gather onFailure onSuccess { c with record := c.record.push chunk } (chunk :: gathered)
          (missing - Buffer.size chunk) := by
  rw [gather]
  rfl

/-- The whole behaviour of `gather`, as one tree. -/
def gathering [Buffer β] (c : Cursor β) (gathered : List β) (missing : Nat) : Step β (Ending β β) :=
  gather (fun c failure => .answer (.failed c failure)) (fun c value => .answer (.reached c value))
    c gathered missing

namespace Linear

theorem bind {d : Decoder β α} {next : α → Decoder β γ} (hd : d.Linear)
    (hn : ∀ value, (next value).Linear) : (d.bind next).Linear := by
  intro ρ c onFailure onSuccess
  rw [outcome_bind hd, Step.settle_settle]
  refine (hd _ c _ _).trans ?_
  exact Step.settle_congr _ (fun _ _ => rfl) (fun c value => hn value ρ c onFailure onSuccess)

theorem pure (value : α) : (Decoder.pure value : Decoder β α).Linear := fun _ _ _ _ => rfl

theorem map {d : Decoder β α} (hd : d.Linear) (f : α → γ) : (d.map f).Linear :=
  hd.bind fun value => pure (f value)

theorem label {d : Decoder β α} (hd : d.Linear) (name : String) : (d.label name).Linear := by
  intro ρ c onFailure onSuccess
  rw [outcome_label hd, Step.settle_settle]
  exact hd _ c _ _

variable [Buffer β]

theorem orElse {first second : Decoder β α} (hf : first.Linear) (hs : second.Linear) :
    (first.orElse second).Linear := by
  intro ρ c onFailure onSuccess
  rw [outcome_orElse hf, Step.settle_settle]
  refine (hf _ c.enter _ _).trans ?_
  exact Step.settle_congr _ (fun failed _ => hs ρ (c.rewind failed) onFailure onSuccess)
    (fun _ _ => rfl)

theorem lookAheadIf {d : Decoder β α} (hd : d.Linear) (rewinds : α → Bool) :
    (lookAheadIf rewinds d).Linear := by
  intro ρ c onFailure onSuccess
  rw [outcome_lookAheadIf hd, Step.settle_settle]
  exact hd _ c.enter _ _

/-! ## Asking for input -/

theorem demandInput : (demandInput : Decoder β Unit).Linear := by
  intro ρ c onFailure onSuccess
  unfold outcome Decoder.demandInput
  dsimp only
  cases c.mode with
  | complete => rfl
  | incomplete =>
      dsimp only
      rw [Step.settle, Step.bind_await]
      refine Step.await_congr fun chunk => ?_
      split <;> rfl

/-- However often `gather` waits, it goes on with one of its continuations in the end. -/
theorem gather_settle {ρ : Type} (onFailure : OnFailure β ρ) (onSuccess : OnSuccess β β ρ)
    (c : Cursor β) (gathered : List β) (missing : Nat) :
    gather onFailure onSuccess c gathered missing =
      (gathering c gathered missing).settle onFailure onSuccess := by
  -- every chunk that does not end the wait makes fewer bytes missing
  induction missing using Nat.strongRecOn generalizing c gathered with
  | _ missing ih =>
      rw [gather_eq_await, gathering, gather_eq_await, Step.settle, Step.bind_await]
      refine Step.await_congr fun chunk => ?_
      split
      · rfl
      · split
        · rfl
        · exact ih _ (by omega) _ _

theorem ensure (n : Nat) : (ensure n : Decoder β β).Linear := by
  intro ρ c onFailure onSuccess
  unfold outcome Decoder.ensure
  dsimp only
  split
  · rfl
  · cases c.mode with
    | complete => rfl
    | incomplete => exact gather_settle onFailure onSuccess c _ _

theorem getBytes (n : Nat) : (getBytes n : Decoder β β).Linear :=
  (ensure n).bind fun _ _ _ _ _ => rfl

theorem word64be : (word64be : Decoder β UInt64).Linear := (getBytes 8).map _

end Linear

variable [Buffer β]

theorem outcome_getBytes (n : Nat) (c : Cursor β) :
    (getBytes n).outcome c =
      ((ensure n).outcome c).settle (fun c failure => .answer (.failed c failure))
        (fun c input =>
          .answer (.reached { c with input := Buffer.drop input n } (Buffer.take input n))) :=
  outcome_bind (Linear.ensure n) _ c

theorem outcome_demandInput_complete {c : Cursor β} (hmode : c.mode = .complete) :
    demandInput.outcome c = .answer (.failed c .outOfInput) := by
  unfold outcome demandInput
  dsimp only
  rw [hmode]

theorem outcome_demandInput_incomplete {c : Cursor β} (hmode : c.mode = .incomplete) :
    demandInput.outcome c = .await fun chunk =>
      if Buffer.isEmpty chunk then .answer (.failed c.finish .outOfInput)
      else .answer (.reached (c.receive chunk) ()) := by
  unfold outcome demandInput
  dsimp only
  rw [hmode]

theorem outcome_ensure_enough {n : Nat} {c : Cursor β} (hn : Buffer.hasAtLeast c.input n = true) :
    (ensure n).outcome c = .answer (.reached c c.input) := if_pos hn

theorem outcome_ensure_complete {n : Nat} {c : Cursor β}
    (hn : ¬ Buffer.hasAtLeast c.input n = true) (hmode : c.mode = .complete) :
    (ensure n).outcome c = .answer (.failed c .outOfInput) := by
  refine (if_neg hn).trans ?_
  rw [hmode]

theorem outcome_ensure_incomplete {n : Nat} {c : Cursor β}
    (hn : ¬ Buffer.hasAtLeast c.input n = true) (hmode : c.mode = .incomplete) :
    (ensure n).outcome c = gathering c [c.input] (n - Buffer.size c.input) := by
  refine (if_neg hn).trans ?_
  rw [hmode]
  rfl

/-! ## Windows -/

/-- What runs inside a window of the first `n` bytes of `input`, seen from the cursor outside. -/
def inWindow (n : Nat) (d : Decoder β α) (outer : Cursor β) (input : β) : Step β (Ending β α) :=
  (d.outcome { outer with input := Buffer.take input n, mode := .complete }).settle
    (fun inner failure => .answer (.failed { inner with mode := outer.mode } failure))
    (fun inner value =>
      if Buffer.isEmpty inner.input then
        .answer (.reached { inner with input := Buffer.drop input n, mode := outer.mode } value)
      else .answer (.failed { inner with mode := outer.mode } ⟨.unconsumedWindow, []⟩))

theorem outcome_isolate {d : Decoder β α} (hd : d.Linear) (n : Int) (c : Cursor β) :
    (isolate n d).outcome c =
      if n < 0 then .answer (.failed c ⟨.negativeWindow, []⟩)
      else ((ensure n.toNat).outcome c).settle (fun c failure => .answer (.failed c failure))
        (inWindow n.toNat d) := by
  unfold outcome isolate
  dsimp only
  split
  · rfl
  · refine (Linear.ensure n.toNat _ c _ _).trans ?_
    exact Step.settle_congr _ (fun _ _ => rfl) (fun outer input => hd _ _ _ _)

theorem Linear.isolate {d : Decoder β α} (hd : d.Linear) (n : Int) : (isolate n d).Linear := by
  intro ρ c onFailure onSuccess
  rw [outcome_isolate hd]
  unfold Decoder.isolate
  dsimp only
  split
  · rfl
  · rw [Linear.ensure, Step.settle_settle]
    refine Step.settle_congr _ (fun _ _ => rfl) (fun outer input => ?_)
    rw [hd, inWindow, Step.settle_settle]
    refine Step.settle_congr _ (fun _ _ => rfl) (fun inner value => ?_)
    split <;> rfl

/-! ## Loops -/

omit [Buffer β] in
/-- One round of a counted repetition: an element, then the rest of the repetition. -/
theorem fold_succ {element : Decoder β α} (he : element.Linear) (n : Nat) (init : γ)
    (push : γ → α → γ) :
    fold (n + 1) element init push = element.bind fun value => fold n element (push init value) push
      := by
  apply ext_exec
  intro ρ c onFailure onSuccess
  refine Eq.trans ?_ (he ρ c onFailure _).symm
  show foldFrom element push onFailure onSuccess (n + 1) init c = _
  rw [foldFrom]
  split
  · next h => rw [h]; rfl
  · rfl

/-- The loop of `treeOf` as a decoder of its own, with the nodes that are open already. -/
def treeLoop (element : Decoder β α) (limit : Nat) (stack : List (OpenNode α)) :
    Decoder β (Tree α) where
  exec c onFailure onSuccess := treeFrom element onFailure onSuccess limit stack c

/-- What the loop of `treeOf` does once it has read a node. -/
def treeRest (element : Decoder β α) (limit : Nat) (stack : List (OpenNode α)) (node : α × UInt64) :
    Decoder β (Tree α) :=
  match OpenNode.close ⟨node.1, [], node.2.toNat⟩ stack with
  | .inl tree => Decoder.pure tree
  | .inr stack => treeLoop element limit stack

/-- One round of the loop of `treeOf`: a node, then what is left to do. -/
theorem treeLoop_succ {element : Decoder β α} (hn : (nodeOf element).Linear) (limit : Nat)
    (stack : List (OpenNode α)) :
    treeLoop element (limit + 1) stack = (nodeOf element).bind (treeRest element limit stack) := by
  apply ext_exec
  intro ρ c onFailure onSuccess
  refine Eq.trans ?_ (hn ρ c onFailure _).symm
  have hround : ∀ (c : Cursor β) (node : α × UInt64),
      (match OpenNode.close ⟨node.1, [], node.2.toNat⟩ stack with
        | .inl tree => onSuccess c tree
        | .inr stack => treeFrom element onFailure onSuccess limit stack c) =
      (treeRest element limit stack node).exec c onFailure onSuccess := by
    intro c node
    unfold treeRest
    split <;> rfl
  show treeFrom element onFailure onSuccess (limit + 1) stack c = _
  rw [treeFrom]
  split
  · next c root count h =>
      rw [h]
      exact hround c (root, count)
  · exact Step.settle_congr _ (fun _ _ => rfl) hround

theorem Linear.treeRest {element : Decoder β α} {limit : Nat}
    (hl : ∀ stack, (treeLoop element limit stack).Linear) (stack : List (OpenNode α))
    (node : α × UInt64) : (Decoder.treeRest element limit stack node).Linear := by
  unfold Decoder.treeRest
  split
  · exact Linear.pure _
  · exact hl _

theorem Linear.treeLoop {element : Decoder β α} (hn : (nodeOf element).Linear) (limit : Nat)
    (stack : List (OpenNode α)) : (Decoder.treeLoop element limit stack).Linear := by
  induction limit generalizing stack with
  | zero => exact fun _ _ _ _ => rfl
  | succ limit ih =>
      rw [treeLoop_succ hn]
      exact hn.bind fun node => Linear.treeRest ih stack node

/-! ## Where a run stands after some chunks -/

section

variable {d : Decoder β α} {c here : Cursor β} {chunks : List β}

/-- Run at `c` and fed the chunks, the decoder waits for another one, whatever its continuations. -/
def Waits (d : Decoder β α) (c : Cursor β) (chunks : List β) : Prop :=
  ∀ (ρ : Type) (onFailure : OnFailure β ρ) (onSuccess : OnSuccess β α ρ),
    ∃ resume, (d.exec c onFailure onSuccess).after chunks = some (.await resume)

/-- Run at `c` and fed the chunks, the decoder goes on with its failure continuation. -/
def FailsAt (d : Decoder β α) (c : Cursor β) (chunks : List β) (here : Cursor β)
    (failure : Failure) : Prop :=
  ∀ (ρ : Type) (onFailure : OnFailure β ρ) (onSuccess : OnSuccess β α ρ),
    (d.exec c onFailure onSuccess).after chunks = some (onFailure here failure)

/-- Run at `c` and fed the chunks, the decoder goes on with its success continuation. -/
def SucceedsAt (d : Decoder β α) (c : Cursor β) (chunks : List β) (here : Cursor β)
    (value : α) : Prop :=
  ∀ (ρ : Type) (onFailure : OnFailure β ρ) (onSuccess : OnSuccess β α ρ),
    (d.exec c onFailure onSuccess).after chunks = some (onSuccess here value)

omit [Buffer β]

theorem Linear.waits_iff (hd : d.Linear) :
    d.Waits c chunks ↔ ∃ resume, (d.outcome c).after chunks = some (.await resume) := by
  refine ⟨fun h => h _ _ _, ?_⟩
  rintro ⟨resume, hawait⟩ ρ onFailure onSuccess
  rw [hd]
  exact ⟨_, Step.after_bind hawait _⟩

theorem Linear.failsAt_iff (hd : d.Linear) {failure : Failure} :
    d.FailsAt c chunks here failure ↔
      (d.outcome c).after chunks = some (.answer (.failed here failure)) := by
  refine ⟨fun h => h _ _ _, fun h ρ onFailure onSuccess => ?_⟩
  rw [hd]
  exact Step.after_bind h _

theorem Linear.succeedsAt_iff (hd : d.Linear) {value : α} :
    d.SucceedsAt c chunks here value ↔
      (d.outcome c).after chunks = some (.answer (.reached here value)) := by
  refine ⟨fun h => h _ _ _, fun h ρ onFailure onSuccess => ?_⟩
  rw [hd]
  exact Step.after_bind h _

end

end Decoder

end StreamDecode
