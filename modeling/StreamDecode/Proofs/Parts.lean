import StreamDecode.Proofs.Choice
import StreamDecode.Proofs.Endings

set_option autoImplicit false

/-! # The parts that a run comes to

A decoder that is put together from others runs these as its parts, each at a cursor of its own and
with continuations of its own. `Decoder.Enters` says combinator by combinator which part is run at
which cursor, and what has been fed until then; `Decoder.Runs` follows a run down to any of its
parts, however deep, and notes the rewind points on the way that are active there. What holds at
the cursors where parts are entered (`Runs`) and at those where they end (`Decoder.EndsAt`) so
holds at all that are passed from one part of a decoder to another one.

The parts are composed decoders again, so what is known of composed decoders is known of each of
them. -/

namespace StreamDecode

variable {β α γ δ : Type}

/-- More access than needed does no harm. -/
theorem Composed.mono [Buffer β] {access access' : Access} {d : Decoder β α} (h : Composed access d)
    (hlooks : access ≠ .stream → access' ≠ .stream)
    (hrewrites : access = .rewrite → access' = .rewrite) : Composed access' d := by
  induction h generalizing access' with
  | pure value => exact .pure value
  | failFor plain => exact .failFor plain
  | bind hd hn ihd ihn =>
      exact .bind (ihd hlooks hrewrites) fun value => ihn value hlooks hrewrites
  | label name hd ihd => exact .label name (ihd hlooks hrewrites)
  | orElse hf hs ihf ihs => exact .orElse (ihf hlooks hrewrites) (ihs hlooks hrewrites)
  | lookAheadIf rewinds hd ihd => exact .lookAheadIf rewinds (ihd hlooks hrewrites)
  | @isolate access _ d n hd ihd =>
      -- inside of a window the buffer may be looked at in any case
      refine .isolate n (ihd (fun _ => ?_) fun hinside => ?_)
      · cases access' <;> decide
      · cases access with
        | stream | buffer => cases hinside
        | rewrite => rw [hrewrites rfl]; rfl
  | getBytes n => exact .getBytes n
  | allocate grows => exact .allocate grows
  | getInput looks => exact .getInput (hlooks looks)
  | demandInput looks => exact .demandInput (hlooks looks)
  | ensure looks n => exact .ensure (hlooks looks) n
  | uncheckedSkip looks n => exact .uncheckedSkip (hlooks looks) n
  | putInput rewrites input => exact .putInput (hrewrites rewrites) input

/-- How a part of a decoder is run, other than the decoder itself. -/
inductive Place where
  /-- In no other way. -/
  | plain
  /-- Inside of a rewind point of its own. -/
  | point
  /-- Inside of a window. -/
  | window
deriving DecidableEq

/-- What has been fed since each of the active rewind points was entered, the innermost one first.
    The part was entered before `since` was fed, and the points inside of it are given. -/
def Place.around (place : Place) (since : List β) (inner : List (List β)) : List (List β) :=
  inner ++ if place = .point then [since] else []

theorem Place.around_point (since : List β) (inner : List (List β)) :
    point.around since inner = inner ++ [since] := rfl

theorem Place.around_of_ne {place : Place} (h : place ≠ .point) (since : List β)
    (inner : List (List β)) : place.around since inner = inner := by
  rw [around, if_neg h, List.append_nil]

namespace Decoder

/-- Run at `c` and fed the chunks, the decoder ends, with a value or a failure. -/
def EndsAt (d : Decoder β α) (c : Cursor β) (chunks : List β) (here : Cursor β) : Prop :=
  (∃ value, d.SucceedsAt c chunks here value) ∨ ∃ failure, d.FailsAt c chunks here failure

/-- Run at `c` and fed the chunks, the first decoder comes to run the second one, which is one of
    the composed decoders that it is put together from. -/
inductive Enters [Buffer β] (access : Access) :
    {α γ : Type} → Decoder β α → Cursor β → List β → Decoder β γ → Cursor β → Place → Prop where
  | bindFirst {α γ : Type} {d : Decoder β α} {next : α → Decoder β γ} (hd : Composed access d)
      (hn : ∀ value, Composed access (next value)) (c : Cursor β) :
      Enters access (d.bind next) c [] d c .plain
  | bindNext {α γ : Type} {d : Decoder β α} {next : α → Decoder β γ} {c middle : Cursor β}
      {fed : List β} {value : α} (hd : Composed access d)
      (hn : ∀ value, Composed access (next value)) (succeeds : d.SucceedsAt c fed middle value) :
      Enters access (d.bind next) c fed (next value) middle .plain
  | label {α : Type} {d : Decoder β α} (name : String) (hd : Composed access d) (c : Cursor β) :
      Enters access (d.label name) c [] d c .plain
  | orElseFirst {α : Type} {first second : Decoder β α} (hf : Composed access first)
      (hs : Composed access second) (c : Cursor β) :
      Enters access (first.orElse second) c [] first c.enter .point
  | orElseSecond {α : Type} {first second : Decoder β α} {c failed : Cursor β} {fed : List β}
      {abandoned : Failure} (hf : Composed access first) (hs : Composed access second)
      (givesUp : first.FailsAt c.enter fed failed abandoned) :
      Enters access (first.orElse second) c fed second (c.rewind failed) .plain
  | lookAheadIf {α : Type} {d : Decoder β α} (rewinds : α → Bool) (hd : Composed access d)
      (c : Cursor β) : Enters access (d.lookAheadIf rewinds) c [] d c.enter .point
  | beforeWindow {α : Type} {d : Decoder β α} {n : Int} (nonnegative : ¬ n < 0)
      (hd : Composed access d) (hw : Composed access (ensure n.toNat : Decoder β β))
      (c : Cursor β) :
      Enters access (d.isolate n) c [] (ensure n.toNat : Decoder β β) c .plain
  | inWindow {α : Type} {d : Decoder β α} {n : Int} {c outer : Cursor β} {fed : List β} {input : β}
      (nonnegative : ¬ n < 0) (hd : Composed access d)
      (waited : (ensure n.toNat).SucceedsAt c fed outer input) :
      Enters access (d.isolate n) c fed d
        { outer with input := Buffer.take input n.toNat, mode := .complete } .window
  | getBytes {n : Nat} (hw : Composed access (ensure n : Decoder β β)) (c : Cursor β) :
      Enters access (getBytes n) c [] (ensure n : Decoder β β) c .plain

/-- Run at `c` and fed the chunks, the first decoder comes to run the second one, which is the
    first one itself or a part of a part of it. `points` are the rewind points that were entered on
    the way and not left, the innermost one first: for each of them, what has been fed since. -/
inductive Runs [Buffer β] (access : Access) :
    {α γ : Type} → Decoder β α → Cursor β → List β → Decoder β γ → Cursor β → List (List β) → Prop
    where
  | whole {α : Type} (d : Decoder β α) (c : Cursor β) : Runs access d c [] d c []
  | part {α γ δ : Type} {d : Decoder β α} {e : Decoder β γ} {f : Decoder β δ}
      {c entered here : Cursor β} {fed rest : List β} {place : Place} {points : List (List β)}
      (enters : Enters access d c fed e entered place)
      (runs : Runs access e entered rest f here points) :
      Runs access d c (fed ++ rest) f here (place.around rest points)

variable [Buffer β] {access : Access} {d : Decoder β α} {e : Decoder β γ}
  {c here entered : Cursor β} {fed chunks : List β} {place : Place} {points : List (List β)}

/-! ## Parts are run, and are composed -/

/-- Once the bytes of a window are there, what is left of the run is that of its decoder. -/
theorem isolate_followed {n : Int} {outer : Cursor β} {input : β} (nonnegative : ¬ n < 0)
    (waited : (ensure n.toNat).SucceedsAt c fed outer input) {ρ : Type} (onFailure : OnFailure β ρ)
    (onSuccess : OnSuccess β α ρ) :
    ((d.isolate n).exec c onFailure onSuccess).after fed =
      some (d.exec { outer with input := Buffer.take input n.toNat, mode := .complete }
        (fun inner failure => onFailure { inner with mode := outer.mode } failure)
        (fun inner value =>
          if Buffer.isEmpty inner.input then
            onSuccess { inner with input := Buffer.drop input n.toNat, mode := outer.mode } value
          else
            onFailure { inner with mode := outer.mode } ⟨.unconsumedWindow, []⟩)) := by
  rw [exec_isolate nonnegative]
  exact waited ρ _ _

/-- What is left of a run is then the run of the part, with continuations that the whole has made.
    -/
theorem Enters.exec (h : d.Enters access c fed e entered place) {ρ : Type}
    (onFailure : OnFailure β ρ) (onSuccess : OnSuccess β α ρ) :
    ∃ onFailure' onSuccess',
      (d.exec c onFailure onSuccess).after fed = some (e.exec entered onFailure' onSuccess') := by
  cases h with
  | bindFirst | label | orElseFirst | lookAheadIf | getBytes => exact ⟨_, _, Step.after_nil _⟩
  | bindNext hd hn succeeds => exact ⟨_, _, succeeds ρ _ _⟩
  | orElseSecond hf hs givesUp => exact ⟨_, _, givesUp ρ _ _⟩
  | beforeWindow nonnegative =>
      rw [exec_isolate nonnegative]
      exact ⟨_, _, Step.after_nil _⟩
  | inWindow nonnegative hd waited => exact ⟨_, _, isolate_followed nonnegative waited _ _⟩

theorem Enters.composed (h : d.Enters access c fed e entered place) : Composed access e := by
  cases h with
  | bindFirst hd => exact hd
  | bindNext _ hn => exact hn _
  | label _ hd => exact hd
  | orElseFirst hf => exact hf
  | orElseSecond _ hs => exact hs
  | lookAheadIf _ hd => exact hd
  | beforeWindow _ _ hw => exact hw
  | inWindow _ hd => exact hd
  | getBytes hw => exact hw

theorem Runs.exec (h : d.Runs access c chunks e here points) {ρ : Type} (onFailure : OnFailure β ρ)
    (onSuccess : OnSuccess β α ρ) :
    ∃ onFailure' onSuccess',
      (d.exec c onFailure onSuccess).after chunks = some (e.exec here onFailure' onSuccess') := by
  induction h generalizing onFailure with
  | whole => exact ⟨_, _, Step.after_nil _⟩
  | @part _ _ _ d _ _ c _ _ fed rest _ _ enters _ ih =>
      obtain ⟨onFailure', onSuccess', hfed⟩ := enters.exec onFailure onSuccess
      rw [Step.after_append, hfed]
      exact ih onFailure' onSuccess'

theorem Runs.composed (h : d.Runs access c chunks e here points) (hd : Composed access d) :
    Composed access e := by
  induction h with
  | whole => exact hd
  | part enters _ ih => exact ih enters.composed

/-! ## Loops

A loop is a sequence of its rounds, so what it runs in a round is a part of it, and so is what is
left of it then. -/

theorem Enters.foldElement {element : Decoder β α} (he : Composed access element) (n : Nat)
    (init : γ) (push : γ → α → γ) (c : Cursor β) :
    (fold (n + 1) element init push).Enters access c [] element c .plain := by
  rw [fold_succ he.linear]
  exact .bindFirst he (fun value => he.fold n (push init value) push) c

theorem Enters.foldRest {element : Decoder β α} (he : Composed access element) (n : Nat) (init : γ)
    (push : γ → α → γ) {middle : Cursor β} {value : α}
    (succeeds : element.SucceedsAt c fed middle value) :
    (fold (n + 1) element init push).Enters access c fed (fold n element (push init value) push)
      middle .plain := by
  rw [fold_succ he.linear]
  exact .bindNext he (fun value => he.fold n (push init value) push) succeeds

/-- What the loop of `treeOf` does once it has read a node is composed. -/
theorem composed_treeRest {element : Decoder β α} (he : Composed access element) (limit : Nat)
    (stack : List (OpenNode α)) (node : α × UInt64) :
    Composed access (treeRest element limit stack node) := by
  unfold treeRest
  split
  · exact .pure _
  · exact he.treeLoop limit _

theorem Enters.treeNode {element : Decoder β α} (he : Composed access element) (limit : Nat)
    (stack : List (OpenNode α)) (c : Cursor β) :
    (treeLoop element (limit + 1) stack).Enters access c [] (nodeOf element) c .plain := by
  rw [treeLoop_succ he.nodeOf.linear]
  exact .bindFirst he.nodeOf (composed_treeRest he limit stack) c

theorem Enters.treeRest {element : Decoder β α} (he : Composed access element) (limit : Nat)
    (stack : List (OpenNode α)) {middle : Cursor β} {node : α × UInt64}
    (succeeds : (nodeOf element).SucceedsAt c fed middle node) :
    (treeLoop element (limit + 1) stack).Enters access c fed
      (Decoder.treeRest element limit stack node) middle .plain := by
  rw [treeLoop_succ he.nodeOf.linear]
  exact .bindNext he.nodeOf (composed_treeRest he limit stack) succeeds

/-! ## Where parts end -/

variable [LawfulBuffer β]

/-- Wherever a composed decoder ends, the record and the mode are as the chunks have left them. -/
theorem EndsAt.agrees (hd : Composed access d) (h : d.EndsAt c chunks here) :
    here.Agrees (c.arriveAll chunks) := by
  rcases h with ⟨value, hsucceeds⟩ | ⟨failure, hfails⟩
  · exact (hd.tracks c).after (hd.linear.succeedsAt_iff.1 hsucceeds)
  · exact (hd.tracks c).after (hd.linear.failsAt_iff.1 hfails)

/-- In complete mode nothing is fed until a decoder ends. -/
theorem EndsAt.fed_eq_nil (hd : Composed access d) (hmode : c.mode = .complete)
    (h : d.EndsAt c chunks here) : chunks = [] := by
  obtain ⟨ending, hanswer, -⟩ := (hd.tracks c).eq_answer hmode
  rcases h with ⟨value, hsucceeds⟩ | ⟨failure, hfails⟩
  · rw [hd.linear.succeedsAt_iff, hanswer] at hsucceeds
    exact (Step.after_answer hsucceeds).1
  · rw [hd.linear.failsAt_iff, hanswer] at hfails
    exact (Step.after_answer hfails).1

end Decoder

end StreamDecode
