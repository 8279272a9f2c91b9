import StreamDecode.Proofs.RecursiveTrees

set_option autoImplicit false

/-! # Loops, pass by pass

A loop over its own state makes one pass after the other: a pass leads to the state of the next one,
or leaves the loop, or asks for something that is not there and breaks. `Loop.Reaches` and
`Loop.Finishes` follow the passes and count the elements that are run in them, and nothing else
limits their number. That a loop finishes at all is thus something to prove.

The loop of a counted repetition (`Decoder.repeatPasses`) has the number of elements that are left,
what has been collected, and the cursor for its state. -/

namespace StreamDecode

variable {α β γ ρ σ : Type}

/-- How a pass of a loop ends. -/
inductive Pass (σ ρ : Type) where
  | again (state : σ)
  | leave (result : ρ)
  /-- The pass asked for something that is not there. -/
  | broken

/-- A loop: what a pass does in each state, and how many elements it runs. -/
structure Loop (β σ ρ : Type) where
  pass : σ → Step β (Pass σ ρ)
  elements : σ → Nat

namespace Loop

/-- The loop gets from one state to another and runs as many elements on the way. -/
inductive Reaches (loop : Loop β σ ρ) (first : σ) : Nat → σ → Prop
  | start : Reaches loop first 0 first
  | again {n : Nat} {s t : σ} (reached : Reaches loop first n s)
      (next : loop.pass s = .answer (.again t)) : Reaches loop first (n + loop.elements s) t

/-- From the state on, the loop runs as many elements and is left with the result. -/
inductive Finishes (loop : Loop β σ ρ) : σ → Nat → ρ → Prop
  | leave {s : σ} {result : ρ} (last : loop.pass s = .answer (.leave result)) :
      Finishes loop s (loop.elements s) result
  | again {n : Nat} {s t : σ} {result : ρ} (next : loop.pass s = .answer (.again t))
      (later : Finishes loop t n result) : Finishes loop s (loop.elements s + n) result

variable {loop : Loop β σ ρ} {first s : σ} {n : Nat} {result : ρ}

/-- What every pass preserves holds wherever the loop gets. -/
theorem Reaches.preserves {P : σ → Prop} (h : loop.Reaches first n s) (hfirst : P first)
    (hpass : ∀ s t, P s → loop.pass s = .answer (.again t) → P t) : P s := by
  induction h with
  | start => exact hfirst
  | again reached next ih => exact hpass _ _ ih next

/-- The pass that leaves a loop starts from a state with what every pass preserves. -/
theorem Finishes.leaves {P : σ → Prop} (h : loop.Finishes s n result) (hs : P s)
    (hpass : ∀ s t, P s → loop.pass s = .answer (.again t) → P t) :
    ∃ last, P last ∧ loop.pass last = .answer (.leave result) := by
  induction h with
  | leave last => exact ⟨_, hs, last⟩
  | again next later ih => exact ih (hpass _ _ hs next)

/-- A loop finishes in one way only. -/
theorem Finishes.unique {m : Nat} {result' : ρ} (h : loop.Finishes s n result)
    (h' : loop.Finishes s m result') : n = m ∧ result = result' := by
  induction h generalizing m with
  | leave last =>
      cases h' with
      | leave last' =>
          rw [last] at last'
          cases last'
          exact ⟨rfl, rfl⟩
      | again next' later' =>
          rw [last] at next'
          cases next'
  | again next later ih =>
      cases h' with
      | leave last' =>
          rw [next] at last'
          cases last'
      | again next' later' =>
          rw [next] at next'
          cases next'
          obtain ⟨rfl, rfl⟩ := ih later'
          exact ⟨rfl, rfl⟩

/-- A loop that finishes does so from wherever it gets. -/
theorem Reaches.finishes {m : Nat} (h : loop.Reaches first n s)
    (hfinishes : loop.Finishes first m result) :
    ∃ later, m = n + later ∧ loop.Finishes s later result := by
  induction h with
  | start => exact ⟨m, (Nat.zero_add m).symm, hfinishes⟩
  | @again n s t reached next ih =>
      obtain ⟨later, rfl, hlater⟩ := ih
      cases hlater with
      | leave last =>
          rw [next] at last
          cases last
      | @again k _ t' _ next' later =>
          rw [next] at next'
          cases next'
          exact ⟨k, (Nat.add_assoc n _ k).symm, later⟩

end Loop

theorem Step.settle_of_eq_answer {step : Step β (Ending β α)} {ending : Ending β α}
    (h : step = .answer ending) (onFailure : OnFailure β ρ) (onSuccess : OnSuccess β α ρ) :
    step.settle onFailure onSuccess = ending.elim onFailure onSuccess := by
  rw [h]
  rfl

/-- A run that has answered at once is one of an ending, and of what follows it. -/
theorem Step.settle_eq_answer {step : Step β (Ending β α)} {onFailure : OnFailure β ρ}
    {onSuccess : OnSuccess β α ρ} {result : ρ}
    (h : step.settle onFailure onSuccess = .answer result) :
    (∃ c failure, step = .answer (.failed c failure) ∧ onFailure c failure = .answer result) ∨
      ∃ c value, step = .answer (.reached c value) ∧ onSuccess c value = .answer result := by
  cases step with
  | answer ending =>
      cases ending with
      | failed c failure => exact .inl ⟨c, failure, rfl, h⟩
      | reached c value => exact .inr ⟨c, value, rfl, h⟩
  | await resume => cases h
  | adrift => cases h

/-! ## Complete mode -/

/-- In complete mode a decoder that does not replace the buffer is through at once, and leaves no
    more than was there. -/
theorem Composed.answers {access : Access} {d : Decoder Bytes α} (h : Composed access d)
    (haccess : access ≠ .rewrite) {c : Cursor Bytes} (hmode : c.mode = .complete) :
    ∃ ending, d.outcome c = .answer ending ∧
      ∀ here value, ending = .reached here value →
        here.mode = .complete ∧ here.input.length ≤ c.input.length := by
  obtain ⟨ending, hanswer, hagrees⟩ := (h.tracks c).eq_answer hmode
  refine ⟨ending, hanswer, ?_⟩
  rintro here value rfl
  have hconserves : (d.outcome c).Conserves c [] := h.conserves haccess c
  rw [hanswer] at hconserves
  exact ⟨hagrees.mode.trans hmode, hconserves.length_le⟩

/-- A count takes eight bytes. -/
theorem Decoder.length_word64be_le {c here : Cursor Bytes} {count : UInt64}
    (h : word64be.outcome c = .answer (.reached here count)) :
    here.input.length + 8 ≤ c.input.length := by
  have hsucceeds : word64be.SucceedsAt c [] here count := by
    rw [Linear.word64be.succeedsAt_iff, h, Step.after_nil]
  exact hsucceeds.word64be_given

/-! ## Counted repetition -/

/-- Where the loop of a counted repetition stands. -/
structure RepeatState (γ : Type) where
  left : Nat
  collected : γ
  cursor : Cursor Bytes

/-- The loop of a counted repetition. -/
def Decoder.repeatPasses (element : Decoder Bytes α) (push : γ → α → γ) :
    Loop Bytes (RepeatState γ) (Ending Bytes γ) where
  elements s := if s.left = 0 then 0 else 1
  pass s :=
    match s.left with
    | 0 => .answer (.leave (.reached s.cursor s.collected))
    | left + 1 =>
        (element.outcome s.cursor).settle
          (fun c failure => .answer (.leave (.failed c failure)))
          (fun c value => .answer (.again ⟨left, push s.collected value, c⟩))

/-- In complete mode the decoder consumes at least one byte whenever it succeeds. -/
def Decoder.Consumes (d : Decoder Bytes α) : Prop :=
  ∀ c here value, c.mode = .complete → d.outcome c = .answer (.reached here value) →
    here.input.length < c.input.length

/-- A counted repetition of an element that consumes is through after one element more than there
    are bytes at the latest, whatever the count is, and has failed if there are less bytes than
    elements. -/
theorem Composed.repeat_finishes {access : Access} {element : Decoder Bytes α}
    (h : Composed access element) (haccess : access ≠ .rewrite) (hconsumes : element.Consumes)
    (push : γ → α → γ) (count : Nat) (init : γ) {c : Cursor Bytes} (hmode : c.mode = .complete) :
    ∃ runs ending, runs ≤ min count (c.input.length + 1) ∧
      (element.repeatPasses push).Finishes ⟨count, init, c⟩ runs ending ∧
      (Decoder.fold count element init push).outcome c = .answer ending ∧
      (c.input.length < count → ∃ here failure, ending = .failed here failure) := by
  induction count generalizing init c with
  | zero =>
      refine ⟨0, .reached c init, Nat.zero_le _, .leave rfl, rfl, ?_⟩
      exact fun hlt => (Nat.not_lt_zero _ hlt).elim
  | succ count ih =>
      obtain ⟨ending, hanswer, hreached⟩ := h.answers haccess hmode
      rw [Decoder.fold_succ h.linear, Decoder.outcome_bind h.linear, hanswer]
      cases ending with
      | failed here failure =>
          have hpass : (element.repeatPasses push).pass ⟨count + 1, init, c⟩ =
              .answer (.leave (.failed here failure)) := Step.settle_of_eq_answer hanswer _ _
          exact ⟨1, _, by omega, .leave hpass, rfl, fun _ => ⟨here, failure, rfl⟩⟩
      | reached here value =>
          have hpass : (element.repeatPasses push).pass ⟨count + 1, init, c⟩ =
              .answer (.again ⟨count, push init value, here⟩) :=
            Step.settle_of_eq_answer hanswer _ _
          have hless : here.input.length < c.input.length := hconsumes c here value hmode hanswer
          obtain ⟨runs, ending, hruns, hfinishes, houtcome, hfails⟩ :=
            ih (push init value) (hreached here value rfl).1
          exact ⟨1 + runs, ending, by omega, .again hpass hfinishes, houtcome,
            fun hlt => hfails (by omega)⟩

end StreamDecode
