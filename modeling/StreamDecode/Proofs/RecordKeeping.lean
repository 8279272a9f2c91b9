import StreamDecode.Proofs.Parts

set_option autoImplicit false

/-! # The record is that of the innermost rewind point

A record is kept exactly while a rewind point is active, that is, while the first decoder of a
choice or the body of a look-ahead runs, and it holds what has arrived since the innermost of these
was entered (`Cursor.Records`). A demand adds each chunk to the record once; a rewind point that is
left, on whichever way, hands its record over to the point around it (`Cursor.Extends`), so that
nothing is missing there when that one is left in turn; and a window hands the record in and out
again as it is.

This is shown for every cursor at which a part of a decoder is entered or ends, along the way that
`Decoder.Runs` takes to the part: each step of the way keeps the record in order. -/

namespace StreamDecode

variable {β α γ δ : Type} [Buffer β]

/-! ## Records and rewind points -/

namespace Cursor

/-- With these rewind points active, given as what has been fed since each of them was entered, the
    innermost one first, there is a record if there is a point, and it holds the chunks that were
    fed since the innermost one was entered, in this order, the empty one left out. -/
def Records (c : Cursor β) (points : List (List β)) : Prop :=
  c.record.map List.reverse = points.head?.map (·.filter (!Buffer.isEmpty ·))

omit [Buffer β] in
/-- The record after leaving a rewind point, if there is one: that from its entry, followed by the
    chunks that the point has recorded. -/
def Extends (entry inner after : Cursor β) : Prop :=
  after.record.map List.reverse = entry.record.map (·.reverse ++ inner.record.chunks)

omit [Buffer β] in
theorem extends_leave (entry inner : Cursor β) : entry.Extends inner (entry.leave inner) := by
  show (entry.record.merge inner.record).map List.reverse = _
  rw [Record.merge, Option.map_map]
  congr 1
  funext own
  exact List.reverse_append

theorem extends_rewind (entry inner : Cursor β) : entry.Extends inner (entry.rewind inner) :=
  extends_leave entry inner

theorem received_nil (c : Cursor β) : c.received [] = c.record := Record.merge_empty c.record

/-- What is received first and what is received then. -/
theorem received_append (c c' : Cursor β) (fed rest : List β) (h : c'.record = c.received fed) :
    c'.received rest = c.received (fed ++ rest) := by
  rw [received, h, received, received, Record.merge_merge, List.filter_append, List.reverse_append]
  rfl

/-- The points around have been fed what has arrived since as well. -/
theorem Records.arrive {c here : Cursor β} {points : List (List β)} (h : c.Records points)
    {more : List β} (hhere : here.record = c.received more) :
    here.Records (points.map (· ++ more)) := by
  rw [Records, hhere, received, Record.merge, Option.map_map, List.head?_map, Option.map_map]
  have hreverse : (List.reverse ∘ fun own : List β =>
      (some (more.filter (!Buffer.isEmpty ·)).reverse).getD [] ++ own) =
      (· ++ more.filter (!Buffer.isEmpty ·)) ∘ List.reverse := by
    funext own
    simp
  rw [hreverse, ← Option.map_map, h, Option.map_map]
  congr 1
  funext since
  exact (List.filter_append since more).symm

end Cursor

namespace Decoder

variable [LawfulBuffer β] {access : Access} {d : Decoder β α} {e : Decoder β γ}
  {c here entered : Cursor β} {fed chunks more : List β} {place : Place} {points : List (List β)}

theorem EndsAt.record_eq (hd : Composed access d) (h : d.EndsAt c chunks here) :
    here.record = c.received chunks :=
  (h.agrees hd).record_eq_received

/-! ## On the way to a part -/

/-- A rewind point starts an empty record, and everything else has the record that is there. -/
theorem Enters.record_eq (h : d.Enters access c fed e entered place) :
    entered.record = if place = .point then some [] else c.received fed := by
  cases h with
  | bindFirst | label | beforeWindow | getBytes => exact (Cursor.received_nil c).symm
  | bindNext hd _ succeeds => exact EndsAt.record_eq hd (.inl ⟨_, succeeds⟩)
  | orElseFirst | lookAheadIf => rfl
  | orElseSecond hf _ givesUp =>
      exact (Cursor.rewind_agrees (EndsAt.agrees hf (.inr ⟨_, givesUp⟩))).record_eq_received
  | @inWindow _ _ n _ outer _ input _ _ waited =>
      have hensure : Composed .buffer (ensure n.toNat : Decoder β β) := .ensure (by decide) _
      have hends : (ensure n.toNat).EndsAt c fed outer := .inl ⟨input, waited⟩
      have hrecord : outer.record = c.received fed := hends.record_eq hensure
      exact hrecord

omit [LawfulBuffer β] in
/-- Nothing has been fed when a rewind point is entered. -/
theorem Enters.of_point (h : d.Enters access c fed e entered .point) :
    fed = [] ∧ entered = c.enter := by
  cases h with
  | orElseFirst | lookAheadIf => exact ⟨rfl, rfl⟩

/-- Where a part is entered, the record is that of the innermost rewind point on the way there; if
    there is none, it is the one from the start, followed by what has arrived. -/
theorem Runs.record_eq (h : d.Runs access c chunks e here points) :
    here.record = points.head?.elim (c.received chunks) fun since =>
      some (since.filter (!Buffer.isEmpty ·)).reverse := by
  induction h with
  | whole d c => exact (Cursor.received_nil c).symm
  | @part _ _ _ d e f c entered here fed rest place points enters _ ih =>
      cases points with
      | cons since outer => exact ih
      | nil =>
          have hreceived : here.record = entered.received rest := ih
          have hentered := enters.record_eq
          by_cases hplace : place = .point
          · -- this is the innermost point, and all of `rest` was fed since it was entered
            rw [if_pos hplace] at hentered
            rw [hplace, Place.around_point, hreceived, Cursor.received, hentered]
            show some (_ ++ []) = _
            rw [List.append_nil]
            rfl
          · rw [if_neg hplace] at hentered
            rw [Place.around_of_ne hplace]
            exact hreceived.trans (Cursor.received_append c entered fed rest hentered)

/-- From a start without a record, the way to a part keeps the record in order. -/
theorem Runs.records (h : d.Runs access c chunks e here points) (hc : c.record = none) :
    here.Records points := by
  rw [Cursor.Records, h.record_eq]
  cases points with
  | nil =>
      rw [Cursor.received, hc]
      rfl
  | cons since outer =>
      show some (List.reverse (List.reverse _)) = _
      rw [List.reverse_reverse]
      rfl

/-! ## Ways out -/

omit [LawfulBuffer β] in
/-- However the body of a rewind point ends, the point is left, and its record goes to the point
    around it: what runs on is the end of the choice or of the look-ahead, or the second decoder of
    the choice. -/
theorem Enters.leaves_point (h : d.Enters access c fed e entered .point) {inner : Cursor β}
    (hends : e.EndsAt entered more inner) :
    ∃ after, c.Extends inner after ∧
      (d.EndsAt c more after ∨
        ∃ (δ : Type) (next : Decoder β δ), d.Enters access c more next after .plain) := by
  cases h with
  | orElseFirst hf hs =>
      rcases hends with ⟨value, hsucceeds⟩ | ⟨failure, hfails⟩
      · refine ⟨c.leave inner, Cursor.extends_leave c inner, .inl (.inl ⟨value, ?_⟩)⟩
        exact fun ρ onFailure onSuccess => hsucceeds ρ _ _
      · exact ⟨c.rewind inner, Cursor.extends_rewind c inner,
          .inr ⟨_, _, .orElseSecond hf hs hfails⟩⟩
  | lookAheadIf rewinds hd =>
      rcases hends with ⟨value, hsucceeds⟩ | ⟨failure, hfails⟩
      · refine ⟨if rewinds value then c.rewind inner else c.leave inner, ?_,
          .inl (.inl ⟨value, ?_⟩)⟩
        · split
          · exact Cursor.extends_rewind c inner
          · exact Cursor.extends_leave c inner
        · exact fun ρ onFailure onSuccess => hsucceeds ρ _ _
      · refine ⟨c.rewind inner, Cursor.extends_rewind c inner, .inl (.inr ⟨failure, ?_⟩)⟩
        exact fun ρ onFailure onSuccess => hfails ρ _ _

/-- A window is over where its decoder ends, and hands out the record that it was given. -/
theorem Enters.leaves_window (h : d.Enters access c fed e entered .window) {inner : Cursor β}
    (hends : e.EndsAt entered more inner) :
    more = [] ∧ inner.record = entered.record ∧
      ∃ after, d.EndsAt c fed after ∧ after.record = entered.record := by
  cases h with
  | @inWindow _ e n _ outer _ input nonnegative hd waited =>
      obtain rfl := hends.fed_eq_nil hd rfl
      have hrecord : inner.record = outer.record := (hends.agrees hd).record
      refine ⟨rfl, hrecord, ?_⟩
      have hends' : ∃ after : Cursor β, (e.isolate n).EndsAt c fed after ∧
          after.record = inner.record := by
        rcases hends with ⟨value, hsucceeds⟩ | ⟨failure, hfails⟩
        · by_cases hempty : Buffer.isEmpty inner.input = true
          · refine ⟨{ inner with input := Buffer.drop input n.toNat, mode := outer.mode },
              .inl ⟨value, fun ρ onFailure onSuccess => ?_⟩, rfl⟩
            rw [isolate_followed nonnegative waited, ← Step.after_nil, hsucceeds, if_pos hempty]
          · refine ⟨{ inner with mode := outer.mode },
              .inr ⟨⟨.unconsumedWindow, []⟩, fun ρ onFailure onSuccess => ?_⟩, rfl⟩
            rw [isolate_followed nonnegative waited, ← Step.after_nil, hsucceeds, if_neg hempty]
        · refine ⟨{ inner with mode := outer.mode },
            .inr ⟨failure, fun ρ onFailure onSuccess => ?_⟩, rfl⟩
          rw [isolate_followed nonnegative waited, ← Step.after_nil, hfails]
      rwa [hrecord] at hends'

end Decoder

/-! ## All runs -/

variable [LawfulBuffer β] {access : Access} {d : Decoder β α}

/-- The record is that of the innermost rewind point, at every cursor at which the run of a
    composed decoder enters a part of it, and at every cursor at which that part ends. The run does
    come to the part. A rewind point that is left, by a value, by a failure or to be rewound, hands
    its record over to the point around it. A window takes the record in as it is outside, and
    hands it out again. -/
theorem Composed.keeps_record (h : Composed access d) (mode : InputMode) (input : β)
    {e : Decoder β γ} {here : Cursor β} {chunks : List β} {points : List (List β)}
    (hruns : d.Runs .rewrite (.start mode input) chunks e here points) :
    (∀ (ρ : Type) (onFailure : OnFailure β ρ) (onSuccess : OnSuccess β α ρ),
      ∃ onFailure' onSuccess',
        (d.exec (.start mode input) onFailure onSuccess).after chunks =
          some (e.exec here onFailure' onSuccess')) ∧
    here.Records points ∧
    (∀ (more : List β) (ended : Cursor β), e.EndsAt here more ended →
      ended.Records (points.map (· ++ more))) ∧
    (∀ (δ : Type) (body : Decoder β δ) (fed : List β) (entered : Cursor β),
      e.Enters .rewrite here fed body entered .point →
      fed = [] ∧ entered = here.enter ∧
      ∀ (more : List β) (inner : Cursor β), body.EndsAt entered more inner →
        inner.Records (more :: points.map (· ++ more)) ∧
        ∃ after, here.Extends inner after ∧
          (e.EndsAt here more after ∨
            ∃ (ε : Type) (next : Decoder β ε), e.Enters .rewrite here more next after .plain)) ∧
    (∀ (δ : Type) (body : Decoder β δ) (fed : List β) (entered : Cursor β),
      e.Enters .rewrite here fed body entered .window →
      entered.record = here.received fed ∧
      ∀ (more : List β) (inner : Cursor β), body.EndsAt entered more inner →
        more = [] ∧ inner.record = entered.record ∧
        ∃ after, e.EndsAt here fed after ∧ after.record = entered.record) := by
  have hd : Composed .rewrite d := h.mono (fun _ => by decide) (fun _ => rfl)
  have he : Composed .rewrite e := hruns.composed hd
  have hrecords : here.Records points := hruns.records rfl
  refine ⟨fun ρ onFailure onSuccess => hruns.exec onFailure onSuccess, hrecords, ?_, ?_, ?_⟩
  · intro more ended hends
    exact hrecords.arrive (hends.record_eq he)
  · intro δ body fed entered henters
    obtain ⟨rfl, rfl⟩ := henters.of_point
    refine ⟨rfl, rfl, ?_⟩
    intro more inner hends
    refine ⟨?_, henters.leaves_point hends⟩
    rw [Cursor.Records, Cursor.enter_record (hends.agrees henters.composed), Option.map_some,
      List.reverse_reverse]
    rfl
  · intro δ body fed entered henters
    refine ⟨henters.record_eq, ?_⟩
    intro more inner hends
    exact henters.leaves_window hends

open Decoder in
/-- The second header of a node that lies below another one, in a tree that is looked ahead at. It has
    no tag, so it is decoded by the second decoder of the choice, inside of the look-ahead and no longer
    inside of the first decoder. -/
theorem headers_keep_record :
    let header : Decoder Bytes UInt32 := tagged.orElse word32le
    let headers := fold 2 header [] fun words word => word :: words
    let fed : List Bytes := [[0xAA, 1], [2, 0xAA, 3, 4, 0, 0, 0, 0, 0, 0, 0], [1, 0xAA, 5, 6], [0xAB]]
    ∃ here ended : Cursor Bytes,
      (treeOf headers).lookAhead.Runs .rewrite (.start .incomplete []) fed
        (word32le : Decoder Bytes UInt32) here [fed] ∧
      here.record.map List.reverse = some fed ∧
      (word32le : Decoder Bytes UInt32).EndsAt here [[3, 4, 5]] ended ∧
      ended.record.map List.reverse = some (fed ++ [[3, 4, 5]]) := by
  intro header headers fed
  have htagged : Composed .rewrite tagged := Composed.tagged
  have hword : Composed .rewrite (word32le : Decoder Bytes UInt32) := .map _ (.word 4 .little)
  have hheader : Composed .rewrite header := htagged.orElse hword
  have hheaders : Composed .rewrite headers := hheader.fold 2 [] _
  let start : Cursor Bytes := .start .incomplete []
  -- below the first node, and behind the first header of the second one
  let below : Cursor Bytes :=
    ⟨[0xAA, 5, 6], some [[1, 0xAA, 5, 6], [2, 0xAA, 3, 4, 0, 0, 0, 0, 0, 0, 0], [0xAA, 1]],
      .incomplete, 0⟩
  let middle : Cursor Bytes := { below with input := [] }
  let failed : Cursor Bytes := ⟨[], some [[0xAB]], .incomplete, 0⟩
  let here : Cursor Bytes := middle.rewind failed
  let ended : Cursor Bytes := { here with input := [], record := here.record.push [3, 4, 5] }
  have hfirst : (nodeOf headers).SucceedsAt start.enter
      [[0xAA, 1], [2, 0xAA, 3, 4, 0, 0, 0, 0, 0, 0, 0], [1, 0xAA, 5, 6]] below ([772, 258], 1) := by
    rw [hheaders.nodeOf.linear.succeedsAt_iff]
    cbv
  have hsecond : header.SucceedsAt below [] middle 1286 := by
    rw [hheader.linear.succeedsAt_iff]
    cbv
  have hgivesUp : tagged.FailsAt middle.enter [[0xAB]] failed ⟨.raised "untagged", ["header"]⟩ := by
    rw [htagged.linear.failsAt_iff]
    cbv
  have hlast : (word32le : Decoder Bytes UInt32).SucceedsAt here [[3, 4, 5]] ended 84149163 := by
    rw [hword.linear.succeedsAt_iff]
    cbv
  have hchoice : header.Runs .rewrite middle [[0xAB]] (word32le : Decoder Bytes UInt32) here [] :=
    .part (.orElseSecond htagged hword hgivesUp) (.whole _ _)
  have hloop : headers.Runs .rewrite below [[0xAB]] (word32le : Decoder Bytes UInt32) here [] :=
    .part (.foldRest hheader 1 [] _ hsecond) (.part (.foldElement hheader 0 _ _ middle) hchoice)
  have hroot : (nodeOf headers).Runs .rewrite below [[0xAB]] (word32le : Decoder Bytes UInt32) here
      [] :=
    .part (.bindFirst hheaders (fun _ => Composed.word64be.map _) below) hloop
  have htree : (treeOf headers).Runs .rewrite start.enter fed (word32le : Decoder Bytes UInt32) here
      [] :=
    .part (.treeRest hheaders (nodeLimit - 1) [] hfirst) <|
      .part (.treeNode hheaders (nodeLimit - 2) [⟨[772, 258], [], 1⟩] below) hroot
  have hruns : (treeOf headers).lookAhead.Runs .rewrite start fed (word32le : Decoder Bytes UInt32)
      here [fed] :=
    .part (.lookAheadIf _ hheaders.treeOf start) htree
  obtain ⟨-, hhere, hends, -⟩ := hheaders.treeOf.lookAhead.keeps_record .incomplete [] hruns
  have hended : (word32le : Decoder Bytes UInt32).EndsAt here [[3, 4, 5]] ended := .inl ⟨_, hlast⟩
  exact ⟨here, ended, hruns, hhere, hended, hends _ _ hended⟩

end StreamDecode
