import StreamDecode.Proofs.Parts

set_option autoImplicit false

/-! # A run over a complete input copies nothing

In complete mode nothing arrives, so rewinding puts nothing behind the buffer of the entry and
gives that buffer back as it was, and a window takes a part of the buffer and leaves the rest. So
every buffer that a run comes to is a window into the storage of its input, inside of the input,
whatever choices, look-aheads, windows and loops it goes through (`Cursor.Narrows`); and after a
value it still ends where the input ends.

New storage gets a number that no storage had before. Those values that are copies on purpose are
in storage of their own, then, also where they have no bytes. -/

namespace StreamDecode

variable {α γ : Type}

/-! ## Slices inside of others -/

namespace Slice

/-- The position behind the window, in its storage. -/
def stop (s : Slice) : Nat := s.offset + s.size

/-- The slice is a window into the same storage, inside of the other window. -/
structure Within (s t : Slice) : Prop where
  storage_eq : s.storage = t.storage
  offset_le : t.offset ≤ s.offset
  stop_le : s.stop ≤ t.stop

theorem Within.refl (s : Slice) : s.Within s := ⟨rfl, Nat.le_refl _, Nat.le_refl _⟩

theorem Within.trans {s t u : Slice} (h : s.Within t) (h' : t.Within u) : s.Within u :=
  ⟨h.storage_eq.trans h'.storage_eq, Nat.le_trans h'.offset_le h.offset_le,
    Nat.le_trans h.stop_le h'.stop_le⟩

theorem take_within (s : Slice) (n : Nat) : (s.take n).Within s where
  storage_eq := rfl
  offset_le := Nat.le_refl _
  stop_le := Nat.add_le_add_left (Nat.min_le_right n s.size) s.offset

theorem stop_drop (s : Slice) (n : Nat) : (s.drop n).stop = s.stop := by
  simp only [stop, drop]
  omega

theorem drop_within (s : Slice) (n : Nat) : (s.drop n).Within s where
  storage_eq := rfl
  offset_le := Nat.le_add_right _ _
  stop_le := Nat.le_of_eq (s.stop_drop n)

theorem Within.sharesStorage {s t : Slice} (h : s.Within t) {storage : Storage}
    (hstorage : t.storage = some storage) : s.sharesStorage t = true := by
  simp only [Slice.sharesStorage, h.storage_eq, hstorage, beq_self_eq_true]

/-- Storage that was made later is not shared. -/
theorem sharesStorage_ofBytes_eq_false {number : Nat} {t : Slice} {storage : Storage}
    (hstorage : t.storage = some storage) (hnumber : storage.number < number) (bytes : Bytes) :
    (ofBytes number bytes).sharesStorage t = false := by
  have hne : ¬ number = storage.number := by omega
  simp only [sharesStorage, ofBytes, hstorage, beq_eq_false_iff_ne, ne_eq]
  exact hne

end Slice

/-! ## Where a decoder ends in complete mode -/

/-- The buffer at `c'` is inside of that at `c`, and no storage number was taken back in between. -/
structure Cursor.Narrows (c c' : Cursor Slice) : Prop where
  input : c'.input.Within c.input
  counter_le : c.counter ≤ c'.counter

theorem Cursor.Narrows.refl (c : Cursor Slice) : c.Narrows c := ⟨.refl _, Nat.le_refl _⟩

theorem Cursor.Narrows.trans {c c' c'' : Cursor Slice} (h : c.Narrows c') (h' : c'.Narrows c'') :
    c.Narrows c'' :=
  ⟨h'.input.trans h.input, Nat.le_trans h.counter_le h'.counter_le⟩

/-- A rewind point that is entered leaves the buffer alone. -/
theorem Cursor.Narrows.of_enter {c c' : Cursor Slice} (h : c.enter.Narrows c') : c.Narrows c' :=
  ⟨h.input, h.counter_le⟩

/-- Where nothing was recorded, rewinding gives back the buffer of the entry itself. -/
theorem Cursor.rewind_of_record_empty {c inner : Cursor Slice} (h : inner.record = some []) :
    c.rewind inner = { inner with input := c.input, record := c.record } := by
  unfold rewind
  rw [h, Record.merge_empty]
  rfl

theorem Cursor.Narrows.rewind {c inner : Cursor Slice} (h : c.Narrows inner)
    (hrecord : inner.record = some []) : c.Narrows (c.rewind inner) := by
  rw [rewind_of_record_empty hrecord]
  exact ⟨.refl _, h.counter_le⟩

theorem Cursor.stop_rewind {c inner : Cursor Slice} (hrecord : inner.record = some []) :
    (c.rewind inner).input.stop = c.input.stop := by
  rw [rewind_of_record_empty hrecord]

/-- The decoder ended inside of the buffer that it was run on, and if it has a value, where that
    buffer ends. -/
def Ending.Inside (c : Cursor Slice) : Ending Slice α → Prop
  | failed here _ => c.Narrows here
  | reached here _ => c.Narrows here ∧ here.input.stop = c.input.stop

theorem Ending.Inside.narrows {c : Cursor Slice} {ending : Ending Slice α} (h : ending.Inside c) :
    c.Narrows ending.cursor := by
  cases ending with
  | failed here failure => exact h
  | reached here value => exact h.1

theorem Ending.Inside.trans {c c' : Cursor Slice} {ending : Ending Slice α} (h : c.Narrows c')
    (hstop : c'.input.stop = c.input.stop) (h' : ending.Inside c') : ending.Inside c := by
  cases ending with
  | failed here failure => exact h.trans h'
  | reached here value => exact ⟨h.trans h'.1, h'.2.trans hstop⟩

/-- In complete mode the decoder is over at once, and ends inside of the buffer. -/
def Decoder.StaysInside (d : Decoder Slice α) : Prop :=
  ∀ c, c.mode = .complete → ∃ ending, d.outcome c = .answer ending ∧ ending.Inside c

namespace Decoder

/-- A demand is met by the buffer as it is, or it fails and leaves the buffer alone. -/
theorem ensure_staysInside {n : Nat} {onSuccess : OnSuccess Slice Slice (Ending Slice α)}
    {c : Cursor Slice} (hmode : c.mode = .complete)
    (h : ∃ ending, onSuccess c c.input = .answer ending ∧ ending.Inside c) :
    ∃ ending,
      ((ensure n).outcome c).settle (fun c failure => .answer (.failed c failure)) onSuccess =
        .answer ending ∧
      ending.Inside c := by
  by_cases hn : Buffer.hasAtLeast c.input n = true
  · rw [outcome_ensure_enough hn]
    exact h
  · rw [outcome_ensure_complete hn hmode]
    exact ⟨_, rfl, .refl c⟩

theorem inWindow_staysInside {d : Decoder Slice α} (h : d.StaysInside) (n : Nat)
    (c : Cursor Slice) :
    ∃ ending, inWindow n d c c.input = .answer ending ∧ ending.Inside c := by
  obtain ⟨ending, hending, hinside⟩ :=
    h { c with input := Buffer.take c.input n, mode := .complete } rfl
  have htake : c.Narrows { c with input := Buffer.take c.input n, mode := .complete } :=
    ⟨c.input.take_within n, Nat.le_refl _⟩
  have hnarrows := htake.trans hinside.narrows
  rw [inWindow, hending]
  cases ending with
  | failed inner failure => exact ⟨_, rfl, hnarrows.input, hnarrows.counter_le⟩
  | reached inner value =>
      show ∃ ending, (if Buffer.isEmpty inner.input then Step.answer _ else Step.answer _) = _ ∧ _
      split
      · exact ⟨_, rfl, ⟨c.input.drop_within n, hnarrows.counter_le⟩, c.input.stop_drop n⟩
      · exact ⟨_, rfl, hnarrows.input, hnarrows.counter_le⟩

end Decoder

theorem Access.inside_ne_rewrite {access : Access} (h : access ≠ .rewrite) :
    access.inside ≠ .rewrite := by
  cases access with
  | stream => decide
  | buffer => decide
  | rewrite => exact (h rfl).elim

/-- The record and the mode stay as they are, as nothing arrives. -/
theorem Composed.ends_inside {access : Access} {d : Decoder Slice α} (h : Composed access d)
    (hd : d.StaysInside) {c : Cursor Slice} (hmode : c.mode = .complete) :
    ∃ ending, d.outcome c = .answer ending ∧ ending.Inside c ∧ ending.cursor.Agrees c := by
  obtain ⟨ending, hending, hinside⟩ := hd c hmode
  have htracks := h.tracks c
  rw [hending] at htracks
  exact ⟨ending, hending, hinside, htracks⟩

/-- In complete mode a composed decoder that does not replace the buffer ends inside of it. -/
theorem Composed.staysInside {access : Access} {d : Decoder Slice α} (h : Composed access d)
    (haccess : access ≠ .rewrite) : d.StaysInside := by
  induction h with
  | pure value => exact fun c _ => ⟨_, rfl, .refl c, rfl⟩
  | failFor plain => exact fun c _ => ⟨_, rfl, .refl c⟩
  | bind hd hn ihd ihn =>
      intro c hmode
      obtain ⟨ending, hending, hinside, hagrees⟩ := hd.ends_inside (ihd haccess) hmode
      rw [Decoder.outcome_bind hd.linear, hending]
      cases ending with
      | failed here failure => exact ⟨_, rfl, hinside⟩
      | reached here value =>
          obtain ⟨last, hlast, hthere⟩ := ihn value haccess here (hagrees.mode.trans hmode)
          exact ⟨last, hlast, hthere.trans hinside.1 hinside.2⟩
  | label name hd ihd =>
      intro c hmode
      obtain ⟨ending, hending, hinside⟩ := ihd haccess c hmode
      rw [Decoder.outcome_label hd.linear, hending]
      cases ending with
      | failed here failure => exact ⟨_, rfl, hinside⟩
      | reached here value => exact ⟨_, rfl, hinside⟩
  | orElse hf hs ihf ihs =>
      intro c hmode
      obtain ⟨ending, hending, hinside, hagrees⟩ :=
        hf.ends_inside (ihf haccess) (c := c.enter) hmode
      have hnarrows : c.Narrows ending.cursor := hinside.narrows.of_enter
      rw [Decoder.outcome_orElse hf.linear, hending]
      cases ending with
      | failed inner failure =>
          -- nothing has arrived, so the second decoder gets the buffer that the first one got
          obtain ⟨last, hlast, hthere⟩ := ihs haccess (c.rewind inner) (hagrees.mode.trans hmode)
          exact ⟨last, hlast,
            hthere.trans (hnarrows.rewind hagrees.record) (Cursor.stop_rewind hagrees.record)⟩
      | reached inner value =>
          exact ⟨_, rfl, ⟨hnarrows.input, hnarrows.counter_le⟩, hinside.2⟩
  | lookAheadIf rewinds hd ihd =>
      intro c hmode
      obtain ⟨ending, hending, hinside, hagrees⟩ :=
        hd.ends_inside (ihd haccess) (c := c.enter) hmode
      have hnarrows : c.Narrows ending.cursor := hinside.narrows.of_enter
      rw [Decoder.outcome_lookAheadIf hd.linear, hending]
      cases ending with
      | failed inner failure => exact ⟨_, rfl, hnarrows.rewind hagrees.record⟩
      | reached inner value =>
          refine ⟨_, rfl, ?_⟩
          cases rewinds value with
          | true => exact ⟨hnarrows.rewind hagrees.record, Cursor.stop_rewind hagrees.record⟩
          | false => exact ⟨⟨hnarrows.input, hnarrows.counter_le⟩, hinside.2⟩
  | isolate n hd ihd =>
      intro c hmode
      rw [Decoder.outcome_isolate hd.linear]
      split
      · exact ⟨_, rfl, .refl c⟩
      · exact Decoder.ensure_staysInside hmode
          (Decoder.inWindow_staysInside (ihd (Access.inside_ne_rewrite haccess)) n.toNat c)
  | getBytes n =>
      intro c hmode
      rw [Decoder.outcome_getBytes]
      exact Decoder.ensure_staysInside hmode
        ⟨_, rfl, ⟨c.input.drop_within n, Nat.le_refl _⟩, c.input.stop_drop n⟩
  | allocate grows => exact fun c _ => ⟨_, rfl, ⟨.refl _, grows c.counter⟩, rfl⟩
  | getInput looks => exact fun c _ => ⟨_, rfl, .refl c, rfl⟩
  | demandInput looks =>
      intro c hmode
      exact ⟨_, Decoder.outcome_demandInput_complete hmode, .refl c⟩
  | ensure looks n =>
      intro c hmode
      by_cases hn : Buffer.hasAtLeast c.input n = true
      · exact ⟨_, Decoder.outcome_ensure_enough hn, .refl c, rfl⟩
      · exact ⟨_, Decoder.outcome_ensure_complete hn hmode, .refl c⟩
  | uncheckedSkip looks n =>
      exact fun c _ => ⟨_, rfl, ⟨c.input.drop_within n, Nat.le_refl _⟩, c.input.stop_drop n⟩
  | putInput rewrites input => exact (haccess rewrites).elim

/-! ## The parts of a run in complete mode -/

namespace Decoder

variable {d : Decoder Slice α} {e : Decoder Slice γ} {c here entered : Cursor Slice}
  {fed chunks more : List Slice} {place : Place} {points : List (List Slice)}

theorem EndsAt.narrows (h : d.EndsAt c chunks here) (hd : Composed .buffer d)
    (hmode : c.mode = .complete) : c.Narrows here ∧ here.mode = .complete := by
  obtain ⟨ending, hending, hinside, hagrees⟩ := hd.ends_inside (hd.staysInside (by decide)) hmode
  have hcursor : ending.cursor = here := by
    rcases h with ⟨value, hsucceeds⟩ | ⟨failure, hfails⟩
    · rw [hd.linear.succeedsAt_iff, hending] at hsucceeds
      obtain ⟨-, hanswer⟩ := Step.after_answer hsucceeds
      cases hanswer
      rfl
    · rw [hd.linear.failsAt_iff, hending] at hfails
      obtain ⟨-, hanswer⟩ := Step.after_answer hfails
      cases hanswer
      rfl
  rw [← hcursor]
  exact ⟨hinside.narrows, hagrees.mode.trans hmode⟩

/-- In complete mode a demand succeeds with the buffer as it is. -/
theorem SucceedsAt.of_ensure {n : Nat} {outer : Cursor Slice} {input : Slice}
    (h : (ensure n).SucceedsAt c fed outer input) (hmode : c.mode = .complete) :
    fed = [] ∧ outer = c ∧ input = c.input := by
  rw [(Linear.ensure n).succeedsAt_iff] at h
  by_cases hn : Buffer.hasAtLeast c.input n = true
  · rw [outcome_ensure_enough hn] at h
    obtain ⟨rfl, hanswer⟩ := Step.after_answer h
    cases hanswer
    exact ⟨rfl, rfl, rfl⟩
  · rw [outcome_ensure_complete hn hmode] at h
    obtain ⟨-, hanswer⟩ := Step.after_answer h
    cases hanswer

/-- A part is entered with a buffer inside of that of the whole, and in complete mode as well. -/
theorem Enters.narrows (h : d.Enters .buffer c fed e entered place) (hmode : c.mode = .complete) :
    fed = [] ∧ c.Narrows entered ∧ entered.mode = .complete := by
  cases h with
  | bindFirst | label | beforeWindow | getBytes => exact ⟨rfl, .refl c, hmode⟩
  | @bindNext _ _ d _ _ _ _ value hd _ succeeds =>
      have hends : d.EndsAt c fed entered := .inl ⟨value, succeeds⟩
      exact ⟨hends.fed_eq_nil hd hmode, hends.narrows hd hmode⟩
  | orElseFirst | lookAheadIf => exact ⟨rfl, ⟨.refl _, Nat.le_refl _⟩, hmode⟩
  | @orElseSecond _ first _ _ failed _ abandoned hf _ givesUp =>
      have hends : first.EndsAt c.enter fed failed := .inr ⟨abandoned, givesUp⟩
      obtain ⟨hnarrows, hfailed⟩ := hends.narrows hf hmode
      obtain rfl := hends.fed_eq_nil (c := c.enter) hf hmode
      exact ⟨rfl, hnarrows.of_enter.rewind (hends.agrees hf).record, hfailed⟩
  | inWindow _ _ waited =>
      obtain ⟨rfl, rfl, rfl⟩ := waited.of_ensure hmode
      exact ⟨rfl, ⟨Slice.take_within _ _, Nat.le_refl _⟩, rfl⟩

theorem Runs.narrows (h : d.Runs .buffer c chunks e here points) (hmode : c.mode = .complete) :
    chunks = [] ∧ c.Narrows here ∧ here.mode = .complete := by
  induction h with
  | whole d c => exact ⟨rfl, .refl c, hmode⟩
  | part enters _ ih =>
      obtain ⟨rfl, hentered, hmode'⟩ := enters.narrows hmode
      obtain ⟨rfl, hhere, hcomplete⟩ := ih hmode'
      exact ⟨rfl, hentered.trans hhere, hcomplete⟩

/-! ## Bytes as values -/

/-- In complete mode the bytes that are consumed are a part of the buffer. -/
theorem SucceedsAt.of_getBytes {n : Nat} {value : Slice}
    (h : (getBytes n).SucceedsAt c chunks here value) (hmode : c.mode = .complete) :
    value = c.input.take n := by
  have hrest (input : Slice) : ((putInput (Buffer.drop input n)).map
      fun _ => Buffer.take input n).Linear := fun _ _ _ _ => rfl
  obtain ⟨fed, rest, middle, input, rfl, hensure, htake⟩ :=
    (succeedsAt_bind_iff (Linear.ensure n) hrest).1 h
  obtain ⟨-, rfl, rfl⟩ := hensure.of_ensure hmode
  rw [(hrest middle.input).succeedsAt_iff] at htake
  obtain ⟨-, hanswer⟩ := Step.after_answer htake
  cases hanswer
  rfl

/-- In complete mode the bytes of a copy are in storage with a number of its own. -/
theorem SucceedsAt.of_getByteString {n : Nat} {value : Slice}
    (h : (getByteString n).SucceedsAt c chunks here value) (hmode : c.mode = .complete) :
    ∃ number bytes, c.counter ≤ number ∧ value = Slice.ofBytes number bytes := by
  have hrest (bytes : Slice) :
      (allocate fun counter => Buffer.copy counter bytes : Decoder Slice Slice).Linear :=
    fun _ _ _ _ => rfl
  have hbytes : Composed .buffer (getBytes n : Decoder Slice Slice) := .getBytes n
  obtain ⟨fed, rest, middle, bytes, rfl, hsucceeds, hcopy⟩ :=
    (succeedsAt_bind_iff hbytes.linear hrest).1 h
  have hends : (getBytes n).EndsAt c fed middle := .inl ⟨bytes, hsucceeds⟩
  rw [(hrest bytes).succeedsAt_iff] at hcopy
  obtain ⟨-, hanswer⟩ := Step.after_answer hcopy
  cases hanswer
  exact ⟨middle.counter, bytes.toBytes, (hends.narrows hbytes hmode).1.counter_le, rfl⟩

end Decoder

/-! ## All runs over a complete input -/

variable {access : Access} {d : Decoder Slice α}

theorem Slice.counterAbove_eq {s : Slice} {storage : Storage} (h : s.storage = some storage) :
    Buffer.counterAbove s = storage.number + 1 := by
  obtain ⟨s', offset, size⟩ := s
  obtain rfl : s' = some storage := h
  rfl

/-- A run over a complete input, from a position on, copies nothing. Every buffer with which a part
    of the decoder is entered or ends is inside of the input and in its storage; so is every value
    of `getBytes`, wherever it is a part. The values of `getByteString` are not, even if they are
    empty. What is left behind a value ends where the input ends. -/
theorem Composed.copies_nothing (h : Composed access d) (haccess : access ≠ .rewrite)
    {input : Slice} {storage : Storage} (hstorage : input.storage = some storage) (position : Nat) :
    (∀ (γ : Type) (e : Decoder Slice γ) (chunks : List Slice) (here : Cursor Slice)
      (points : List (List Slice)),
      d.Runs .buffer (.start .complete (Buffer.drop input position)) chunks e here points →
      (∀ (ρ : Type) (onFailure : OnFailure Slice ρ) (onSuccess : OnSuccess Slice α ρ),
        ∃ onFailure' onSuccess',
          d.exec (.start .complete (Buffer.drop input position)) onFailure onSuccess =
            e.exec here onFailure' onSuccess') ∧
      here.input.Within input ∧
      ∀ (more : List Slice) (ended : Cursor Slice), e.EndsAt here more ended →
        ended.input.Within input) ∧
    (∀ (n : Nat) (chunks : List Slice) (here : Cursor Slice) (points : List (List Slice)),
      d.Runs .buffer (.start .complete (Buffer.drop input position)) chunks
        (Decoder.getBytes n : Decoder Slice Slice) here points →
      ∀ (more : List Slice) (ended : Cursor Slice) (value : Slice),
        (Decoder.getBytes n).SucceedsAt here more ended value → value.Within input) ∧
    (∀ (n : Nat) (chunks : List Slice) (here : Cursor Slice) (points : List (List Slice)),
      d.Runs .buffer (.start .complete (Buffer.drop input position)) chunks
        (Decoder.getByteString n : Decoder Slice Slice) here points →
      ∀ (more : List Slice) (ended : Cursor Slice) (value : Slice),
        (Decoder.getByteString n).SucceedsAt here more ended value →
        value.storage.isSome ∧ value.sharesStorage input = false) ∧
    ∀ (value : α) (rest : Slice), d.runWithRemainder input position = .ok (value, rest) →
      rest.sharesStorage input = true ∧ rest.Within input ∧ rest.stop = input.stop := by
  have hd : Composed .buffer d :=
    h.mono (fun _ => by decide) fun hrewrites => (haccess hrewrites).elim
  have hstart : (Buffer.drop input position).Within input := input.drop_within position
  have hnumber : Buffer.counterAbove (Buffer.drop input position) = storage.number + 1 :=
    Slice.counterAbove_eq hstorage
  refine ⟨?_, ?_, ?_, ?_⟩
  · intro γ e chunks here points hruns
    obtain ⟨rfl, hhere, hmode⟩ := hruns.narrows rfl
    refine ⟨?_, hhere.input.trans hstart, ?_⟩
    · intro ρ onFailure onSuccess
      obtain ⟨onFailure', onSuccess', hexec⟩ := hruns.exec onFailure onSuccess
      rw [Step.after_nil, Option.some.injEq] at hexec
      exact ⟨onFailure', onSuccess', hexec⟩
    · intro more ended hends
      exact ((hends.narrows (hruns.composed hd) hmode).1.input.trans hhere.input).trans hstart
  · intro n chunks here points hruns more ended value hsucceeds
    obtain ⟨-, hhere, hmode⟩ := hruns.narrows rfl
    rw [hsucceeds.of_getBytes hmode]
    exact ((here.input.take_within n).trans hhere.input).trans hstart
  · intro n chunks here points hruns more ended value hsucceeds
    obtain ⟨-, hhere, hmode⟩ := hruns.narrows rfl
    obtain ⟨number, bytes, hcounter, rfl⟩ := hsucceeds.of_getByteString hmode
    have hle : Buffer.counterAbove (Buffer.drop input position) ≤ here.counter := hhere.counter_le
    exact ⟨rfl, Slice.sharesStorage_ofBytes_eq_false hstorage (by omega) bytes⟩
  · intro value rest hrun
    obtain ⟨ending, hending, hinside⟩ :=
      hd.staysInside (by decide) (.start .complete (Buffer.drop input position)) rfl
    rw [Decoder.runWithRemainder, Decoder.start, hending] at hrun
    cases ending with
    | failed here failure => cases hrun
    | reached here value' =>
        cases hrun
        have hrest : here.input.Within input := hinside.1.input.trans hstart
        exact ⟨hrest.sharesStorage hstorage, hrest, hinside.2.trans (input.stop_drop position)⟩

open Decoder in
/-- Two bytes from a window, taken after three have been asked for in vain, and an empty copy that
    is looked ahead at, from the second byte on of a slice that starts behind the first byte of its
    storage. -/
theorem window_part_copies_nothing :
    let storage : Storage := ⟨7, #[9, 1, 2, 3, 4, 8]⟩
    let input : Slice := ⟨some storage, 1, 4⟩
    let part : Decoder Slice Slice := isolate 2 ((getByteString 3).orElse (getBytes 2))
    let d : Decoder Slice (Slice × Slice) :=
      part.bind fun bytes => (lookAhead (getByteString 0)).map fun copy => (bytes, copy)
    ∃ copy : Slice, copy.size = 0 ∧ copy.storage.isSome ∧ copy.sharesStorage input = false ∧
      d.runWithRemainder input 1 = .ok ((⟨some storage, 2, 2⟩, copy), ⟨some storage, 4, 1⟩) ∧
      (⟨some storage, 4, 1⟩ : Slice).sharesStorage input = true := by
  intro storage input part d
  have hcopy : Composed .buffer (getByteString 0 : Decoder Slice Slice) := .getByteString 0
  have hpart : Composed .buffer part := .isolate 2 (.orElse (.getByteString 3) (.getBytes 2))
  have hahead : Composed .buffer (lookAhead (getByteString 0) : Decoder Slice Slice) :=
    hcopy.lookAhead
  have hd : Composed .buffer d := hpart.bind fun bytes => hahead.map _
  let start : Cursor Slice := .start .complete (Buffer.drop input 1)
  let middle : Cursor Slice := ⟨⟨some storage, 4, 1⟩, none, .complete, 8⟩
  let copy : Slice := ⟨some ⟨8, #[]⟩, 0, 0⟩
  have hfirst : part.SucceedsAt start [] middle ⟨some storage, 2, 2⟩ := by
    rw [hpart.linear.succeedsAt_iff]
    cbv
  have hcopied : (getByteString 0).SucceedsAt middle.enter []
      ⟨⟨some storage, 4, 1⟩, some [], .complete, 9⟩ copy := by
    rw [hcopy.linear.succeedsAt_iff]
    cbv
  have hruns : d.Runs .buffer start [] (getByteString 0 : Decoder Slice Slice) middle.enter [[]] :=
    .part (.bindNext hpart (fun bytes => hahead.map _) hfirst) <|
      .part (.bindFirst hahead (fun copy => .pure _) middle) <|
        .part (.lookAheadIf _ hcopy middle) (.whole _ _)
  have hrun : d.runWithRemainder input 1 =
      .ok ((⟨some storage, 2, 2⟩, copy), ⟨some storage, 4, 1⟩) := by
    cbv
  obtain ⟨-, -, hcopies, hrest⟩ :=
    hd.copies_nothing (by decide) (rfl : input.storage = some storage) 1
  obtain ⟨hsome, hapart⟩ := hcopies 0 [] middle.enter [[]] hruns [] _ copy hcopied
  exact ⟨copy, rfl, hsome, hapart, hrun, (hrest _ _ hrun).1⟩

end StreamDecode
