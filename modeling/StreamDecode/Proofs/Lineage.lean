import StreamDecode.Proofs.Results
import StreamDecode.Session

set_option autoImplicit false

/-! # Where a held result comes from

A `Chronicle` is kept beside a session. For each register it has the `Lineage` of what is in it: the
first chunk of its run, and the chunks and functions since. It also has, for every suspension, the
moment at which it arose, and which of them have been resumed. It decides nothing: it records the
steps that the session performs.

`Chronicle.Tells` is what a step of the session preserves: a register holds what a fresh run gives,
replayed along the lineage of this register alone, and the numbers that the session has marked are
those of the suspensions that have been resumed. -/

namespace StreamDecode

variable {β α ν ν' : Type}

/-! ## Registers -/

namespace Registers

theorem get?_cons (key other : String) (value : ν) (registers : Registers ν) :
    get? ((key, value) :: registers) other =
      if other = key then some value else registers.get? other := by
  unfold get?
  rw [List.lookup_cons]
  by_cases hother : other = key
  · simp [hother]
  · have hbeq : (other == key) = false := by simpa using hother
    rw [hbeq, if_neg hother]

theorem get?_clear (registers : Registers ν) (name other : String) :
    (registers.clear name).get? other = if other = name then none else registers.get? other := by
  induction registers with
  | nil => exact (ite_self none).symm
  | cons entry registers ih =>
      obtain ⟨key, value⟩ := entry
      have hclear : clear ((key, value) :: registers) name =
          if key = name then clear registers name else (key, value) :: clear registers name := by
        by_cases hkey : key = name <;> simp [clear, hkey]
      rw [hclear, get?_cons]
      by_cases hkey : key = name
      · rw [if_pos hkey, ih, hkey]
        split <;> rfl
      · rw [if_neg hkey, get?_cons, ih]
        by_cases hother : other = key
        · simp [hother, hkey]
        · simp [hother]

theorem get?_set (registers : Registers ν) (name other : String) (value : ν) :
    (registers.set name value).get? other =
      if other = name then some value else registers.get? other := by
  rw [set, get?_cons, get?_clear]
  split <;> rfl

/-- The same registers are empty, and what the others hold is related. -/
def Related (related : ν → ν' → Prop) (registers : Registers ν) (registers' : Registers ν') :
    Prop :=
  ∀ name, Option.Rel related (registers.get? name) (registers'.get? name)

namespace Related

variable {related related' : ν → ν' → Prop} {registers : Registers ν} {registers' : Registers ν'}

theorem mono (h : Related related registers registers')
    (hr : ∀ value value', related value value' → related' value value') :
    Related related' registers registers' := by
  intro name
  have hname := h name
  generalize registers.get? name = found at hname ⊢
  generalize registers'.get? name = found' at hname ⊢
  cases hname with
  | some hvalue => exact .some (hr _ _ hvalue)
  | none => exact .none

theorem clear (h : Related related registers registers') (name : String) :
    Related related (registers.clear name) (registers'.clear name) := by
  intro other
  rw [get?_clear, get?_clear]
  split
  · exact .none
  · exact h other

theorem set (h : Related related registers registers') (name : String) {value : ν} {value' : ν'}
    (hvalue : related value value') :
    Related related (registers.set name value) (registers'.set name value') := by
  intro other
  rw [get?_set, get?_set]
  split
  · exact .some hvalue
  · exact h other

theorem exists_left (h : Related related registers registers') {name : String} {value' : ν'}
    (hget : registers'.get? name = some value') :
    ∃ value, registers.get? name = some value ∧ related value value' := by
  have hname := h name
  rw [hget] at hname
  generalize registers.get? name = found at hname ⊢
  cases hname with
  | some hvalue => exact ⟨_, rfl, hvalue⟩

theorem exists_right (h : Related related registers registers') {name : String} {value : ν}
    (hget : registers.get? name = some value) :
    ∃ value', registers'.get? name = some value' ∧ related value value' := by
  have hname := h name
  rw [hget] at hname
  generalize registers'.get? name = found at hname ⊢
  cases hname with
  | some hvalue => exact ⟨_, rfl, hvalue⟩

theorem eq_none (h : Related related registers registers') {name : String}
    (hget : registers'.get? name = none) : registers.get? name = none := by
  have hname := h name
  rw [hget] at hname
  generalize registers.get? name = found at hname ⊢
  cases hname with
  | none => rfl

theorem map_eq {δ : Type} (h : Related related registers registers') {f : ν → δ} {g : ν' → δ}
    (hr : ∀ value value', related value value' → f value = g value') (name : String) :
    (registers.get? name).map f = (registers'.get? name).map g := by
  have hname := h name
  generalize registers.get? name = found at hname ⊢
  generalize registers'.get? name = found' at hname ⊢
  cases hname with
  | some hvalue => exact congrArg some (hr _ _ hvalue)
  | none => rfl

end Related

end Registers

/-! ## Lineages -/

/-- What is done to a result. -/
inductive Deed (β α : Type) where
  | fed (chunk : β)
  | mapped (f : α → α)

/-- The result after it. -/
def Deed.apply (r : Result β α) : Deed β α → Result β α
  | fed chunk => r.feed chunk
  | mapped f => r.map f

/-- Where a result comes from. -/
structure Lineage (β α : Type) where
  /-- What its run was started with. -/
  input : β
  /-- What was done since, first to last. -/
  deeds : List (Deed β α)
  /-- How many results had arisen, of a start or of a resumption, when this one did. Copying and
      mapping make no new one. -/
  born : Nat

/-- A fresh run of the decoder to which the same is done. -/
def Lineage.replay [Buffer β] (d : Decoder β α) (l : Lineage β α) : Result β α :=
  l.deeds.foldl Deed.apply (d.runPartial l.input)

theorem Lineage.replay_append [Buffer β] (d : Decoder β α) (l : Lineage β α) (deed : Deed β α)
    (born : Nat) : replay d ⟨l.input, l.deeds ++ [deed], born⟩ = deed.apply (l.replay d) :=
  List.foldl_append

/-- A record of the steps of a session. -/
structure Chronicle (β α : Type) where
  lineages : Registers (Lineage β α)
  /-- How many results have arisen. -/
  arisen : Nat
  /-- Which of them were suspended and have been resumed, first to last. -/
  resumptions : List Nat

namespace Chronicle

variable [Buffer β]

/-- The chronicle before the first step. -/
def empty : Chronicle β α := ⟨[], 0, []⟩

/-- Record a step that was performed. -/
def record (d : Decoder β α) (c : Chronicle β α) : SessionCommand β α → Chronicle β α
  | .start dest input => { c with
      lineages := c.lineages.set dest ⟨input, [], c.arisen⟩
      arisen := c.arisen + 1 }
  | .copy source dest =>
      match c.lineages.get? source with
      | none => c
      | some l => { c with lineages := c.lineages.set dest l }
  | .map source f dest =>
      match c.lineages.get? source with
      | none => c
      | some l => { c with
          lineages := (c.lineages.clear source).set dest
            { l with deeds := l.deeds ++ [.mapped f] } }
  | .feed source chunk dest =>
      match c.lineages.get? source with
      | none => c
      | some l =>
          match l.replay d with
          | .suspended _ =>
              { lineages := (c.lineages.clear source).set dest
                  ⟨l.input, l.deeds ++ [.fed chunk], c.arisen⟩
                arisen := c.arisen + 1
                resumptions := c.resumptions ++ [l.born] }
          | _ => { c with lineages := (c.lineages.clear source).set dest l }

/-- Record those of the steps that the session performs. -/
def recordAll (d : Decoder β α) : Session β α → Chronicle β α → List (SessionCommand β α) →
    Chronicle β α
  | _, c, [] => c
  | s, c, command :: commands =>
      match s.perform d command with
      | .ok s' => recordAll d s' (c.record d command) commands
      | .error _ => recordAll d s c commands

end Chronicle

/-! ## Marks -/

theorem getD_push_false (marks : Array Bool) (point : Nat) :
    (marks.push false)[point]?.getD false = marks[point]?.getD false := by
  rw [Array.getElem?_push]
  split
  · next hpoint => simp [hpoint]
  · rfl

theorem getD_mark {marks : Array Bool} {marked : Nat} (hmarked : marked < marks.size)
    (point : Nat) :
    (marks.setIfInBounds marked true)[point]?.getD false = true ↔
      marks[point]?.getD false = true ∨ point = marked := by
  rw [Array.getElem?_setIfInBounds]
  by_cases hpoint : marked = point
  · subst hpoint
    simp [hmarked]
  · simp [hpoint, Ne.symm hpoint]

/-! ## Steps of a session -/

/-- The register that a step reads. -/
def SessionCommand.source? : SessionCommand β α → Option String
  | start _ _ => none
  | copy source _ | map source _ _ | feed source _ _ => some source

namespace Session

variable [Buffer β] {d : Decoder β α} {s : Session β α} {source dest : String} {held : Held β α}

theorem perform_of_empty {command : SessionCommand β α} (hsource : command.source? = some source)
    (hget : s.registers.get? source = none) :
    s.perform d command = .error (.emptyRegister source) := by
  cases command with
  | start dest input => cases hsource
  | copy source dest =>
      cases hsource
      simp [perform, get, hget, Except.map]
  | map source f dest =>
      cases hsource
      simp [perform, get, hget, Except.map]
  | feed source chunk dest =>
      cases hsource
      simp [perform, get, hget, Except.bind]

theorem perform_copy (hget : s.registers.get? source = some held) :
    s.perform d (.copy source dest) = .ok { s with registers := s.registers.set dest held } := by
  simp [perform, get, hget, Except.map]

theorem perform_map (hget : s.registers.get? source = some held) (f : α → α) :
    s.perform d (.map source f dest) = .ok { s with
      registers := (s.registers.clear source).set dest
        { held with result := held.result.map f } } := by
  simp [perform, get, hget, Except.map]

theorem perform_feed (hget : s.registers.get? source = some held) (chunk : β) :
    s.perform d (.feed source chunk dest) = s.feed source held chunk dest := by
  simp [perform, get, hget, Except.bind]

/-! ## Feeding -/

variable {chunk : β}

omit [Buffer β] in
theorem feed_of_isFinal (hfinal : held.result.IsFinal) :
    s.feed source held chunk dest =
      .ok { s with registers := (s.registers.clear source).set dest held } := by
  unfold feed
  cases hresult : held.result with
  | suspended resume =>
      rw [hresult] at hfinal
      exact hfinal.elim
  | failed error => rfl
  | done value leftover => rfl

variable {resume : β → Result β α}

omit [Buffer β] in
theorem feed_of_resumed (hresult : held.result = .suspended resume)
    (hresumed : s.wasResumed held.point = true) :
    s.feed source held chunk dest = .error .alreadyResumed := by
  unfold feed
  rw [hresult]
  exact if_pos hresumed

omit [Buffer β] in
theorem feed_of_not_resumed (hresult : held.result = .suspended resume)
    (hresumed : ¬ s.wasResumed held.point = true) :
    s.feed source held chunk dest =
      .ok (hold ⟨s.registers.clear source, s.resumed.setIfInBounds held.point true⟩ dest
        (resume chunk)) := by
  unfold feed
  rw [hresult]
  exact if_neg hresumed

end Session

/-! ## What a chronicle tells -/

/-- The register holds what a fresh run comes to along the lineage, under the number of its
    suspension point. -/
def Lineage.Describes [Buffer β] (d : Decoder β α) (arisen : Nat) (held : Held β α)
    (l : Lineage β α) : Prop :=
  held.result = l.replay d ∧ held.point = l.born ∧ l.born < arisen

/-- The chronicle is that of the session. -/
structure Chronicle.Tells [Buffer β] (c : Chronicle β α) (d : Decoder β α) (s : Session β α) :
    Prop where
  held : Registers.Related (Lineage.Describes d c.arisen) s.registers c.lineages
  arisen : s.resumed.size = c.arisen
  resumed : ∀ point, s.wasResumed point = true ↔ point ∈ c.resumptions
  once : c.resumptions.Nodup

namespace Chronicle.Tells

variable [Buffer β] {d : Decoder β α} {s : Session β α} {c : Chronicle β α}

theorem empty (d : Decoder β α) : Chronicle.empty.Tells d (Session.empty : Session β α) := by
  refine ⟨fun name => .none, rfl, fun point => ?_, List.nodup_nil⟩
  simp [Session.wasResumed, Session.empty, Chronicle.empty]

/-- Other registers, with what is told of them. -/
theorem withRegisters (h : c.Tells d s) {registers : Registers (Held β α)}
    {lineages : Registers (Lineage β α)}
    (hheld : Registers.Related (Lineage.Describes d c.arisen) registers lineages) :
    { c with lineages }.Tells d { s with registers } :=
  ⟨hheld, h.arisen, h.resumed, h.once⟩

/-- A result that arises. -/
theorem hold (h : c.Tells d s) (dest : String) {l : Lineage β α} (hborn : l.born = c.arisen) :
    { c with lineages := c.lineages.set dest l, arisen := c.arisen + 1 }.Tells d
      (s.hold dest (l.replay d)) := by
  refine ⟨?_, ?_, fun point => ?_, h.once⟩
  · have hheld : Registers.Related (Lineage.Describes d (c.arisen + 1)) s.registers c.lineages :=
      h.held.mono fun _ _ hl => ⟨hl.1, hl.2.1, Nat.lt_succ_of_lt hl.2.2⟩
    refine hheld.set dest ⟨rfl, ?_, ?_⟩
    · exact h.arisen.trans hborn.symm
    · exact hborn ▸ Nat.lt_succ_self _
  · rw [Session.hold, Array.size_push, h.arisen]
  · rw [Session.wasResumed, Session.hold, getD_push_false]
    exact h.resumed point

/-- A result that is resumed for the first time. -/
theorem resume (h : c.Tells d s) {point : Nat} (hpoint : point < c.arisen)
    (hnew : point ∉ c.resumptions) :
    { c with resumptions := c.resumptions ++ [point] }.Tells d
      { s with resumed := s.resumed.setIfInBounds point true } := by
  refine ⟨h.held, ?_, fun other => ?_, ?_⟩
  · rw [Array.size_setIfInBounds, h.arisen]
  · rw [Session.wasResumed, getD_mark (h.arisen ▸ hpoint), List.mem_append, List.mem_singleton]
    exact or_congr_left (h.resumed other)
  · rw [List.nodup_append]
    refine ⟨h.once, by simp, ?_⟩
    rintro other hother _ hmem rfl
    rw [List.mem_singleton] at hmem
    exact hnew (hmem ▸ hother)

/-- What a register holds, and what is told of it. -/
theorem exists_held (h : c.Tells d s) {source : String} {l : Lineage β α}
    (hget : c.lineages.get? source = some l) :
    ∃ held, s.registers.get? source = some held ∧ l.Describes d c.arisen held :=
  h.held.exists_left hget

theorem map {held : Held β α} {l : Lineage β α} (hl : l.Describes d c.arisen held) (f : α → α) :
    Lineage.Describes d c.arisen { held with result := held.result.map f }
      { l with deeds := l.deeds ++ [.mapped f] } := by
  refine ⟨?_, hl.2⟩
  rw [Lineage.replay_append, ← hl.1]
  rfl

/-- What comes of feeding a register: a suspended result is refused if it has been resumed already,
    otherwise it is resumed, and a final one stays what it is. -/
theorem feed_cases (h : c.Tells d s) {source : String} {l : Lineage β α}
    (hget : c.lineages.get? source = some l) (chunk : β) (dest : String) :
    (∃ resume, l.replay d = .suspended resume ∧ l.born ∈ c.resumptions ∧
      s.perform d (.feed source chunk dest) = .error .alreadyResumed) ∨
    (∃ resume, l.replay d = .suspended resume ∧ l.born ∉ c.resumptions ∧
      s.perform d (.feed source chunk dest) = .ok (Session.hold
        ⟨s.registers.clear source, s.resumed.setIfInBounds l.born true⟩ dest (resume chunk))) ∨
    ∃ held, (l.replay d).IsFinal ∧ l.Describes d c.arisen held ∧
      s.perform d (.feed source chunk dest) =
        .ok { s with registers := (s.registers.clear source).set dest held } := by
  obtain ⟨held, hheld, hl⟩ := h.exists_held hget
  rw [Session.perform_feed hheld, ← hl.1, ← hl.2.1]
  cases hresult : held.result with
  | suspended resume =>
      by_cases hresumed : s.wasResumed held.point = true
      · exact .inl ⟨resume, rfl, (h.resumed _).1 hresumed,
          Session.feed_of_resumed hresult hresumed⟩
      · exact .inr (.inl ⟨resume, rfl, fun hmem => hresumed ((h.resumed _).2 hmem),
          Session.feed_of_not_resumed hresult hresumed⟩)
  | failed error =>
      exact .inr (.inr ⟨held, trivial, hl, Session.feed_of_isFinal (by rw [hresult]; trivial)⟩)
  | done value leftover =>
      exact .inr (.inr ⟨held, trivial, hl, Session.feed_of_isFinal (by rw [hresult]; trivial)⟩)

/-- A step that the session performs is recorded as it was. -/
theorem step (h : c.Tells d s) {command : SessionCommand β α} {s' : Session β α}
    (hperform : s.perform d command = .ok s') : (c.record d command).Tells d s' := by
  cases command with
  | start dest input =>
      cases hperform
      exact h.hold dest rfl
  | copy source dest =>
      rcases hget : c.lineages.get? source with _ | l
      · rw [Session.perform_of_empty rfl (h.held.eq_none hget)] at hperform
        cases hperform
      · obtain ⟨held, hheld, hl⟩ := h.exists_held hget
        rw [Session.perform_copy hheld] at hperform
        cases hperform
        simp only [record, hget]
        exact h.withRegisters (h.held.set dest hl)
  | map source f dest =>
      rcases hget : c.lineages.get? source with _ | l
      · rw [Session.perform_of_empty rfl (h.held.eq_none hget)] at hperform
        cases hperform
      · obtain ⟨held, hheld, hl⟩ := h.exists_held hget
        rw [Session.perform_map hheld] at hperform
        cases hperform
        simp only [record, hget]
        exact h.withRegisters ((h.held.clear source).set dest (map hl f))
  | feed source chunk dest =>
      rcases hget : c.lineages.get? source with _ | l
      · rw [Session.perform_of_empty rfl (h.held.eq_none hget)] at hperform
        cases hperform
      · simp only [record, hget]
        rcases h.feed_cases hget chunk dest with ⟨resume, -, -, hrefused⟩ |
          ⟨resume, hreplay, hnew, hresumed⟩ | ⟨held, hfinal, hl, hkept⟩
        · rw [hrefused] at hperform
          cases hperform
        · rw [hresumed] at hperform
          cases hperform
          obtain ⟨held, -, hl⟩ := h.exists_held hget
          have hmarked := (h.withRegisters (h.held.clear source)).resume hl.2.2 hnew
          have hnext : Lineage.replay d ⟨l.input, l.deeds ++ [.fed chunk], c.arisen⟩ =
              resume chunk := by
            rw [Lineage.replay_append, hreplay]
            rfl
          rw [hreplay, ← hnext]
          exact hmarked.hold dest rfl
        · rw [hkept] at hperform
          cases hperform
          have hheld := h.withRegisters ((h.held.clear source).set dest hl)
          generalize l.replay d = result at hfinal ⊢
          cases result with
          | suspended resume => exact hfinal.elim
          | failed error => exact hheld
          | done value leftover => exact hheld

/-- Recording every step that is performed. -/
theorem steps (h : c.Tells d s) (commands : List (SessionCommand β α)) :
    (recordAll d s c commands).Tells d (s.performAll d commands) := by
  induction commands generalizing s c with
  | nil => exact h
  | cons command commands ih =>
      rw [recordAll, Session.performAll, List.foldl_cons]
      cases hperform : s.perform d command with
      | error error => exact ih h
      | ok s' => exact ih (h.step hperform)

end Chronicle.Tells

end StreamDecode
