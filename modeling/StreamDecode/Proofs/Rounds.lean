import StreamDecode.Proofs.Progress

set_option autoImplicit false

/-! # Loops in rounds, and what a run does with its continuations

A loop that called each element from the success continuation of the one before would nest as deep as
it counts. So it runs in rounds: the body is given continuations that come back to the loop. Its
success continuation hands the state from which the loop goes on back to it, as a `Turn.yield`; its
failure continuation is the one of the loop, and whatever comes of that leaves the loop, also when it
suspends, or yields to a loop further out. `Step.reenter` is the place where the loop waits for the
step of its body: it takes the yields that are meant for it, stays around a suspension, and lets the
rest pass.

`Decoder.fold` and `Decoder.treeOf` are these loops (`fold_eq_foldInRounds`, `treeOf_eq_treeInRounds`).
So it can be said of any composed decoder what it does with its continuations: its run is one tree
that knows nothing of them, with the continuations at the leaves; however it is fed, it has called
none of them yet, or one of them once. -/

namespace StreamDecode

variable {β α γ ρ σ : Type}

/-! ## Rounds -/

/-- How a round of a loop ends: the loop goes on from a state, or it was left for good. -/
inductive Turn (σ ρ : Type) where
  | yield (state : σ)
  | leave (result : ρ)

/-- Wait for the step of a round, and go on with the loop where it yields. -/
def Step.reenter (loop : σ → Step β ρ) : Step β (Turn σ ρ) → Step β ρ
  | .answer (.yield state) => loop state
  | .answer (.leave result) => .answer result
  | .await resume => .await fun chunk => (resume chunk).reenter loop
  | .adrift => .adrift

theorem Step.reenter_bind (loop : σ → Step β ρ) (step : Step β α) (next : α → Step β (Turn σ ρ)) :
    (step.bind next).reenter loop = step.bind fun result => (next result).reenter loop := by
  induction step with
  | answer result => rfl
  | await resume ih => simp only [bind_await, reenter, ih]
  | adrift => rfl

theorem Step.reenter_map_leave (loop : σ → Step β ρ) (step : Step β ρ) :
    (step.map Turn.leave).reenter loop = step := by
  rw [map, reenter_bind]
  exact bind_answer_right step

/-- As long as a round goes on, the loop waits for it. -/
theorem Step.after_reenter {step later : Step β (Turn σ ρ)} {chunks : List β}
    (h : step.after chunks = some later) (loop : σ → Step β ρ) :
    (step.reenter loop).after chunks = some (later.reenter loop) := by
  induction chunks generalizing step with
  | nil =>
      rw [after_nil, Option.some.injEq] at h
      rw [h, after_nil]
  | cons chunk chunks ih =>
      cases step with
      | answer turn => cases h
      | await resume => exact ih h
      | adrift => cases h

namespace Decoder

/-- Run a decoder as the body of a loop: with its value it yields the next state of the loop, and
    the failure of the loop leaves the loop. -/
def turn (d : Decoder β α) (c : Cursor β) (onFailure : OnFailure β ρ) (next : Cursor β → α → σ) :
    Step β (Turn σ ρ) :=
  d.exec c (fun c failure => (onFailure c failure).map .leave)
    (fun c value => .answer (.yield (next c value)))

/-- A round is a run of the body, and the loop is what follows it. -/
theorem Linear.reenter_turn {d : Decoder β α} (hd : d.Linear) (c : Cursor β)
    (onFailure : OnFailure β ρ) (next : Cursor β → α → σ) (loop : σ → Step β ρ) :
    (d.turn c onFailure next).reenter loop =
      (d.outcome c).settle onFailure fun c value => loop (next c value) := by
  rw [turn, hd, Step.settle, Step.reenter_bind, Step.bind_eq_settle]
  refine Step.settle_congr _ (fun c failure => ?_) (fun _ _ => rfl)
  exact Step.reenter_map_leave loop (onFailure c failure)

/-- A round yields where its body has succeeded, and nowhere else: the state from there. -/
theorem Linear.turn_yields_iff {d : Decoder β α} (hd : d.Linear) {c : Cursor β}
    {onFailure : OnFailure β ρ} {next : Cursor β → α → σ} {chunks : List β} {state : σ} :
    (d.turn c onFailure next).after chunks = some (.answer (.yield state)) ↔
      ∃ here value, d.SucceedsAt c chunks here value ∧ state = next here value := by
  constructor
  · intro h
    rw [turn, hd] at h
    obtain ⟨fed, rest, ending, rfl, hending, hrest⟩ := Step.after_bind_answer h
    cases ending with
    | failed here failure =>
        -- a failure leaves the loop, whatever comes of it
        obtain ⟨result, -, hleave⟩ := Step.after_map_answer_iff.1 hrest
        cases hleave
    | reached here value =>
        obtain ⟨rfl, hyield⟩ := Step.after_answer hrest
        cases hyield
        rw [List.append_nil]
        exact ⟨here, value, hd.succeedsAt_iff.2 hending, rfl⟩
  · rintro ⟨here, value, hsucceeds, rfl⟩
    exact hsucceeds _ _ _

/-! ## Counted repetition -/

/-- The loop of `foldInRounds`, with `n` rounds to go. -/
def foldRounds (element : Decoder β α) (push : γ → α → γ) (onFailure : OnFailure β ρ)
    (onSuccess : OnSuccess β γ ρ) : Nat → Cursor β × γ → Step β ρ
  | 0, (c, collected) => onSuccess c collected
  | n + 1, (c, collected) =>
      (element.turn c onFailure fun c value => (c, push collected value)).reenter
        (foldRounds element push onFailure onSuccess n)

/-- Decode an element `count` times, round by round. -/
def foldInRounds (count : Nat) (element : Decoder β α) (init : γ) (push : γ → α → γ) :
    Decoder β γ where
  exec c onFailure onSuccess := foldRounds element push onFailure onSuccess count (c, init)

theorem fold_eq_foldInRounds {element : Decoder β α} (he : element.Linear) (count : Nat) (init : γ)
    (push : γ → α → γ) : fold count element init push = foldInRounds count element init push := by
  apply ext_exec
  intro ρ c onFailure onSuccess
  induction count generalizing init c with
  | zero => rfl
  | succ n ih =>
      have hfold : (fold (n + 1) element init push).exec c onFailure onSuccess =
          (element.outcome c).settle onFailure fun c value =>
            (fold n element (push init value) push).exec c onFailure onSuccess := by
        rw [fold_succ he]
        exact he ρ c onFailure _
      have hround : (foldInRounds (n + 1) element init push).exec c onFailure onSuccess =
          (element.outcome c).settle onFailure fun c value =>
            (foldInRounds n element (push init value) push).exec c onFailure onSuccess :=
        he.reenter_turn c onFailure _ _
      rw [hfold, hround]
      exact Step.settle_congr _ (fun _ _ => rfl) fun c value => ih (push init value) c

/-! ## Trees -/

variable [Buffer β]

/-- The loop of `treeInRounds`: a round for the root of a node, and a round for the number of its
    subtrees. `limit` is the number of nodes that may still come. -/
def treeRounds (element : Decoder β α) (onFailure : OnFailure β ρ) (onSuccess : OnSuccess β (Tree α) ρ) :
    Nat → List (OpenNode α) → Cursor β → Step β ρ
  | 0, _, c => onFailure c ⟨.oversizedTree, []⟩
  | limit + 1, stack, c =>
      (element.turn c onFailure fun c root => (c, root)).reenter fun (c, root) =>
        (word64be.turn c onFailure fun c count => (c, count)).reenter fun (c, count) =>
          match OpenNode.close ⟨root, [], count.toNat⟩ stack with
          | .inl tree => onSuccess c tree
          | .inr stack => treeRounds element onFailure onSuccess limit stack c

/-- Decode a tree, round by round. -/
def treeInRounds (element : Decoder β α) : Decoder β (Tree α) where
  exec c onFailure onSuccess := treeRounds element onFailure onSuccess nodeLimit [] c

theorem treeLoop_eq_treeRounds {element : Decoder β α} (he : element.Linear) (limit : Nat)
    (stack : List (OpenNode α)) (c : Cursor β) (onFailure : OnFailure β ρ)
    (onSuccess : OnSuccess β (Tree α) ρ) :
    (treeLoop element limit stack).exec c onFailure onSuccess =
      treeRounds element onFailure onSuccess limit stack c := by
  induction limit generalizing stack c with
  | zero => rfl
  | succ limit ih =>
      have hword : (word64be : Decoder β UInt64).Linear := Linear.word64be
      have hnode : (nodeOf element).Linear := he.bind fun root => hword.map _
      have hloop : (treeLoop element (limit + 1) stack).exec c onFailure onSuccess =
          (element.outcome c).settle onFailure fun c root =>
            (word64be.outcome c).settle onFailure fun c count =>
              (treeRest element limit stack (root, count)).exec c onFailure onSuccess := by
        rw [treeLoop_succ hnode]
        refine (he ρ c onFailure _).trans ?_
        exact Step.settle_congr _ (fun _ _ => rfl) fun c root =>
          hword ρ c onFailure fun c count =>
            (treeRest element limit stack (root, count)).exec c onFailure onSuccess
      rw [hloop, treeRounds, he.reenter_turn]
      refine Step.settle_congr _ (fun _ _ => rfl) fun c root => ?_
      dsimp only
      rw [hword.reenter_turn]
      refine Step.settle_congr _ (fun _ _ => rfl) fun c count => ?_
      -- the count closes the nodes that are complete, and the rest of the loop is the same
      unfold treeRest
      cases OpenNode.close ⟨root, [], count.toNat⟩ stack with
      | inl tree => rfl
      | inr stack => exact ih stack c

theorem treeOf_eq_treeInRounds {element : Decoder β α} (he : element.Linear) :
    treeOf element = treeInRounds element :=
  ext_exec fun _ c onFailure onSuccess =>
    treeLoop_eq_treeRounds he nodeLimit [] c onFailure onSuccess

end Decoder

/-! ## Continuations -/

namespace Step

/-- A run that never breaks off waits for more when it was fed the chunks, or has answered after a
    first part of them. -/
theorem Obeys.waits_or_answered {waits : List β → Prop} {ends : List β → ρ → Prop}
    {step : Step β ρ} {before : List β} (h : step.Obeys waits ends before) (chunks : List β) :
    (∃ resume, step.after chunks = some (.await resume)) ∨
      ∃ fed rest result, chunks = fed ++ rest ∧ step.after fed = some (.answer result) := by
  induction chunks generalizing step before with
  | nil =>
      cases step with
      | answer result => exact .inr ⟨[], [], result, rfl, rfl⟩
      | await resume => exact .inl ⟨resume, rfl⟩
      | adrift => exact h.elim
  | cons chunk chunks ih =>
      cases step with
      | answer result => exact .inr ⟨[], chunk :: chunks, result, rfl, rfl⟩
      | await resume =>
          rcases ih (h.2 chunk) with hwaits | ⟨fed, rest, result, rfl, hafter⟩
          · exact .inl hwaits
          · exact .inr ⟨chunk :: fed, rest, result, rfl, hafter⟩
      | adrift => exact h.elim

/-- A run answers once: what it was fed until then is settled by all that it was offered. -/
theorem answered_unique {step : Step β ρ} {fed fed' rest rest' : List β} {result result' : ρ}
    (h : step.after fed = some (.answer result)) (h' : step.after fed' = some (.answer result'))
    (hsame : fed ++ rest = fed' ++ rest') : fed = fed' ∧ result = result' := by
  induction fed generalizing step fed' with
  | nil =>
      rw [after_nil, Option.some.injEq] at h
      subst h
      cases fed' with
      | nil => exact ⟨rfl, by simpa using h'⟩
      | cons chunk fed' => cases h'
  | cons chunk fed ih =>
      cases step with
      | answer result => cases h
      | await resume =>
          cases fed' with
          | nil =>
              rw [after_nil, Option.some.injEq] at h'
              cases h'
          | cons chunk' fed' =>
              simp only [List.cons_append, List.cons.injEq] at hsame
              obtain ⟨rfl, hsame⟩ := hsame
              obtain ⟨rfl, rfl⟩ := ih h h' hsame
              exact ⟨rfl, rfl⟩
      | adrift => cases h

end Step

namespace Composed

variable [Buffer β] {access : Access} {element : Decoder β α}

theorem foldInRounds (he : Composed access element) (count : Nat) (init : γ) (push : γ → α → γ) :
    Composed access (Decoder.foldInRounds count element init push) := by
  rw [← Decoder.fold_eq_foldInRounds he.linear]
  exact he.fold count init push

theorem treeInRounds (he : Composed access element) :
    Composed access (Decoder.treeInRounds element) := by
  rw [← Decoder.treeOf_eq_treeInRounds he.linear]
  exact he.treeOf

end Composed

/-- Continuations are used linearly. A composed decoder is, at every cursor, one tree of suspensions
    that knows nothing of its continuations, with failures and values at its leaves; run with any two
    continuations it is this tree with them at the leaves. Fed any chunks, it has called none of them
    yet and waits for more, or it has called one of them, once, and what is left is the run of that
    one. The loops that the decoder is repeated by come back to themselves round by round, and are
    such trees all the same. -/
theorem Composed.resumption_tree [Buffer β] [LawfulBuffer β] {access : Access} {d : Decoder β α}
    (h : Composed access d) :
    (∀ c : Cursor β, ∃ tree : Step β (Ending β α),
      (∀ (ρ : Type) (onFailure : OnFailure β ρ) (onSuccess : OnSuccess β α ρ),
        d.exec c onFailure onSuccess = tree.settle onFailure onSuccess) ∧
      (∀ tree' : Step β (Ending β α),
        (∀ (ρ : Type) (onFailure : OnFailure β ρ) (onSuccess : OnSuccess β α ρ),
          d.exec c onFailure onSuccess = tree'.settle onFailure onSuccess) → tree' = tree) ∧
      ∀ chunks : List β,
        (∃ resume, tree.after chunks = some (.await resume) ∧
          ∀ (ρ : Type) (onFailure : OnFailure β ρ) (onSuccess : OnSuccess β α ρ),
            (d.exec c onFailure onSuccess).after chunks =
              some ((Step.await resume).settle onFailure onSuccess)) ∨
        (∃ fed rest ending, chunks = fed ++ rest ∧ tree.after fed = some (.answer ending) ∧
          (∀ fed' rest' ending', chunks = fed' ++ rest' →
            tree.after fed' = some (.answer ending') → fed' = fed ∧ ending' = ending) ∧
          ∀ (ρ : Type) (onFailure : OnFailure β ρ) (onSuccess : OnSuccess β α ρ),
            (d.exec c onFailure onSuccess).after chunks =
              (ending.elim onFailure onSuccess).after rest)) ∧
    (∀ (γ : Type) (count : Nat) (init : γ) (push : γ → α → γ),
      Decoder.fold count d init push = Decoder.foldInRounds count d init push) ∧
    Decoder.treeOf d = Decoder.treeInRounds d := by
  refine ⟨fun c => ⟨d.outcome c, fun ρ => h.linear ρ c, fun tree' htree => ?_, fun chunks => ?_⟩,
    fun γ count init push => Decoder.fold_eq_foldInRounds h.linear count init push,
    Decoder.treeOf_eq_treeInRounds h.linear⟩
  · -- with continuations that only report, the run is the tree itself
    have hreport := htree (Ending β α) (fun c failure => .answer (.failed c failure))
      (fun c value => .answer (.reached c value))
    rw [← Step.bind_eq_settle tree' Step.answer, Step.bind_answer_right] at hreport
    exact hreport.symm
  · rcases (h.tracks c).waits_or_answered chunks with ⟨resume, hwaits⟩ | hanswered
    · refine .inl ⟨resume, hwaits, fun ρ onFailure onSuccess => ?_⟩
      rw [h.linear]
      exact Step.after_bind hwaits _
    · obtain ⟨fed, rest, ending, rfl, hafter⟩ := hanswered
      refine .inr ⟨fed, rest, ending, rfl, hafter, fun fed' rest' ending' hsame hafter' => ?_,
        fun ρ onFailure onSuccess => ?_⟩
      · exact Step.answered_unique hafter' hafter hsame.symm
      · rw [h.linear, Step.after_append, Step.settle, Step.after_bind hafter]
        rfl

/-- An untagged frame in three chunks: it waits twice, and its success continuation gets the three
    bytes that were fed too much. -/
theorem frame_resumption_tree :
    ∃ tree : Step Bytes (Ending Bytes (UInt32 × UInt16 × List UInt16)),
      (∀ (ρ : Type) (onFailure : OnFailure Bytes ρ)
        (onSuccess : OnSuccess Bytes (UInt32 × UInt16 × List UInt16) ρ),
        Decoder.frame.exec (Cursor.start .incomplete [0xAB]) onFailure onSuccess =
          tree.settle onFailure onSuccess) ∧
      tree.after [[1], [2, 3], [4, 5, 6, 7, 8, 9]] =
        some (.answer (.reached ⟨[8, 9], none, .incomplete, 0⟩ (50463147, 1029, [1798, 1284]))) := by
  have hframe : Composed .stream Decoder.frame := Composed.frame
  obtain ⟨htrees, -, -⟩ := hframe.resumption_tree
  obtain ⟨tree, hsettle, honly, -⟩ := htrees (Cursor.start .incomplete [0xAB])
  have houtcome := honly (Decoder.frame.outcome (Cursor.start .incomplete [0xAB]))
    fun ρ => hframe.linear ρ _
  refine ⟨tree, hsettle, ?_⟩
  rw [← houtcome]
  cbv

end StreamDecode
