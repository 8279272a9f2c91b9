import StreamDecode.Step

set_option autoImplicit false

/-! # Reasoning about runs

A `Step` is followed in two ways. `Step.after` feeds it chunks, each to a suspension, and gives what
is left of the run. `Step.Obeys` says what holds of a run whatever it is fed: which chunks it may
have received when it suspends and when it answers. Both pass through `Step.bind`, so what is known
of the parts of a run gives what holds of the whole. -/

namespace StreamDecode

namespace Step

variable {β ρ σ τ : Type}

/-- Change the answers. -/
def map (f : ρ → σ) (step : Step β ρ) : Step β σ := step.bind fun result => .answer (f result)

/-- Runs that wait, and that go on alike with every chunk, are the same. -/
theorem await_congr {resume resume' : β → Step β ρ} (h : ∀ chunk, resume chunk = resume' chunk) :
    Step.await resume = .await resume' :=
  congrArg Step.await (funext h)

theorem bind_map (f : ρ → σ) (next : σ → Step β τ) (step : Step β ρ) :
    (step.map f).bind next = step.bind fun result => next (f result) :=
  bind_assoc step _ next

theorem map_eq_answer {f : ρ → σ} {step : Step β ρ} {changed : σ}
    (h : step.map f = .answer changed) : ∃ result, step = .answer result ∧ f result = changed := by
  cases step with
  | answer result =>
      cases h
      exact ⟨result, rfl, rfl⟩
  | await resume => cases h
  | adrift => cases h

theorem map_eq_await {f : ρ → σ} {step : Step β ρ} {resume : β → Step β σ}
    (h : step.map f = .await resume) : ∃ resume', step = .await resume' := by
  cases step with
  | answer result => cases h
  | await resume' => exact ⟨resume', rfl⟩
  | adrift => cases h

/-! ## Feeding chunks -/

/-- What is left of a run after it was fed the chunks, if it asked for each of them. -/
def after : Step β ρ → List β → Option (Step β ρ)
  | step, [] => some step
  | .await resume, chunk :: chunks => (resume chunk).after chunks
  | _, _ :: _ => none

@[simp] theorem after_nil (step : Step β ρ) : step.after [] = some step := by
  cases step <;> rfl

@[simp] theorem after_await (resume : β → Step β ρ) (chunk : β) (chunks : List β) :
    (Step.await resume).after (chunk :: chunks) = (resume chunk).after chunks := rfl

theorem after_answer {result : ρ} {chunks : List β} {later : Step β ρ}
    (h : (Step.answer result).after chunks = some later) :
    chunks = [] ∧ later = .answer result := by
  cases chunks with
  | nil =>
      cases h
      exact ⟨rfl, rfl⟩
  | cons chunk chunks => cases h

theorem after_append (step : Step β ρ) (first second : List β) :
    step.after (first ++ second) = (step.after first).bind (·.after second) := by
  induction first generalizing step with
  | nil => simp
  | cons chunk first ih =>
      cases step with
      | answer result => rfl
      | await resume => exact ih (resume chunk)
      | adrift => rfl

/-- As long as the first part of a run goes on, the whole run is that part, to be continued. -/
theorem after_bind {step later : Step β ρ} {chunks : List β} (h : step.after chunks = some later)
    (next : ρ → Step β σ) : (step.bind next).after chunks = some (later.bind next) := by
  induction chunks generalizing step with
  | nil =>
      rw [after_nil, Option.some.injEq] at h
      rw [h, after_nil]
  | cons chunk chunks ih =>
      cases step with
      | answer result => cases h
      | await resume => exact ih h
      | adrift => cases h

/-- A run that has answered has done so in its second part, and the first part before that. -/
theorem after_bind_answer {step : Step β ρ} {next : ρ → Step β σ} {chunks : List β} {result : σ}
    (h : (step.bind next).after chunks = some (.answer result)) :
    ∃ fed later first, chunks = fed ++ later ∧ step.after fed = some (.answer first) ∧
      (next first).after later = some (.answer result) := by
  induction step generalizing chunks with
  | answer first => exact ⟨[], chunks, first, rfl, rfl, h⟩
  | await resume ih =>
      cases chunks with
      | nil => cases h
      | cons chunk chunks =>
          obtain ⟨fed, later, first, rfl, hfirst, hlater⟩ := ih chunk h
          exact ⟨chunk :: fed, later, first, rfl, hfirst, hlater⟩
  | adrift => cases chunks <;> cases h

/-- A run that waits does so in its first part, or in its second part once the first has answered. -/
theorem after_bind_await {step : Step β ρ} {next : ρ → Step β σ} {chunks : List β}
    {resume : β → Step β σ} (h : (step.bind next).after chunks = some (.await resume)) :
    (∃ resume', step.after chunks = some (.await resume')) ∨
    ∃ fed later first, chunks = fed ++ later ∧ step.after fed = some (.answer first) ∧
      (next first).after later = some (.await resume) := by
  induction step generalizing chunks with
  | answer first => exact .inr ⟨[], chunks, first, rfl, rfl, h⟩
  | await resume' ih =>
      cases chunks with
      | nil => exact .inl ⟨resume', rfl⟩
      | cons chunk chunks =>
          rcases ih chunk h with hwaits | ⟨fed, later, first, rfl, hfirst, hlater⟩
          · exact .inl hwaits
          · exact .inr ⟨chunk :: fed, later, first, rfl, hfirst, hlater⟩
  | adrift => cases chunks <;> cases h

/-- Changing the answers changes nothing about what is asked for. -/
theorem after_map (f : ρ → σ) (step : Step β ρ) (chunks : List β) :
    (step.map f).after chunks = (step.after chunks).map (·.map f) := by
  induction chunks generalizing step with
  | nil =>
      rw [after_nil, after_nil]
      rfl
  | cons chunk chunks ih =>
      cases step with
      | answer result => rfl
      | await resume => exact ih (resume chunk)
      | adrift => rfl

/-- A run with changed answers has answered with what an answer was changed to. -/
theorem after_map_answer_iff {f : ρ → σ} {step : Step β ρ} {chunks : List β} {changed : σ} :
    (step.map f).after chunks = some (.answer changed) ↔
      ∃ result, step.after chunks = some (.answer result) ∧ f result = changed := by
  rw [after_map]
  constructor
  · intro h
    obtain ⟨later, hlater, hmap⟩ := Option.map_eq_some_iff.1 h
    obtain ⟨result, rfl, hresult⟩ := map_eq_answer hmap
    exact ⟨result, hlater, hresult⟩
  · rintro ⟨result, hresult, rfl⟩
    rw [hresult]
    rfl

/-- Changing the answers leaves the suspensions where they are. -/
theorem waits_map_iff (f : ρ → σ) (step : Step β ρ) (chunks : List β) :
    (∃ resume, (step.map f).after chunks = some (.await resume)) ↔
      ∃ resume, step.after chunks = some (.await resume) := by
  rw [after_map]
  constructor
  · rintro ⟨resume, hawait⟩
    obtain ⟨later, hlater, hmap⟩ := Option.map_eq_some_iff.1 hawait
    obtain ⟨resume', rfl⟩ := map_eq_await hmap
    exact ⟨resume', hlater⟩
  · rintro ⟨resume, hawait⟩
    rw [hawait]
    exact ⟨_, rfl⟩

/-! ## What holds whatever is fed -/

/-- Every suspension of the run satisfies `waits` and every answer `ends`, each with all the chunks
    fed until then, of which `fed` came before the run; and the run never breaks off. -/
def Obeys (waits : List β → Prop) (ends : List β → ρ → Prop) : Step β ρ → List β → Prop
  | .answer result, fed => ends fed result
  | .await resume, fed => waits fed ∧ ∀ chunk, (resume chunk).Obeys waits ends (fed ++ [chunk])
  | .adrift, _ => False

namespace Obeys

variable {waits waits' : List β → Prop} {ends ends' : List β → ρ → Prop} {step : Step β ρ}
  {fed : List β}

theorem mono (h : step.Obeys waits ends fed) (hw : ∀ fed, waits fed → waits' fed)
    (he : ∀ fed result, ends fed result → ends' fed result) : step.Obeys waits' ends' fed := by
  induction step generalizing fed with
  | answer result => exact he fed result h
  | await resume ih => exact ⟨hw fed h.1, fun chunk => ih chunk (h.2 chunk)⟩
  | adrift => exact h

theorem and (h : step.Obeys waits ends fed) (h' : step.Obeys waits' ends' fed) :
    step.Obeys (fun fed => waits fed ∧ waits' fed)
      (fun fed result => ends fed result ∧ ends' fed result) fed := by
  induction step generalizing fed with
  | answer result => exact ⟨h, h'⟩
  | await resume ih => exact ⟨⟨h.1, h'.1⟩, fun chunk => ih chunk (h.2 chunk) (h'.2 chunk)⟩
  | adrift => exact h

/-- What a run obeys that nothing came before, said of what is fed in all. -/
theorem shift {before : List β}
    (h : step.Obeys (fun fed => waits (before ++ fed)) (fun fed => ends (before ++ fed)) fed) :
    step.Obeys waits ends (before ++ fed) := by
  induction step generalizing fed with
  | answer result => exact h
  | await resume ih =>
      refine ⟨h.1, fun chunk => ?_⟩
      have hnext := ih chunk (h.2 chunk)
      rwa [← List.append_assoc] at hnext
  | adrift => exact h

theorem bind {next : ρ → Step β σ} {waits' : List β → Prop} {ends' : List β → σ → Prop}
    (h : step.Obeys waits ends fed) (hw : ∀ fed, waits fed → waits' fed)
    (hn : ∀ fed result, ends fed result → (next result).Obeys waits' ends' fed) :
    (step.bind next).Obeys waits' ends' fed := by
  induction step generalizing fed with
  | answer result => exact hn fed result h
  | await resume ih => exact ⟨hw fed h.1, fun chunk => ih chunk (h.2 chunk)⟩
  | adrift => exact h

/-- Two ways to go on are the same if they are so from every answer there can be. -/
theorem bind_congr {next next' : ρ → Step β σ} (h : step.Obeys waits ends fed)
    (hn : ∀ fed result, ends fed result → next result = next' result) :
    step.bind next = step.bind next' := by
  induction step generalizing fed with
  | answer result => exact hn fed result h
  | await resume ih =>
      rw [bind_await, bind_await]
      exact await_congr fun chunk => ih chunk (h.2 chunk)
  | adrift => rfl

/-- What a run obeys, what is left of it obeys after some chunks. -/
theorem after {later : Step β ρ} {chunks : List β} (h : step.Obeys waits ends fed)
    (hl : step.after chunks = some later) : later.Obeys waits ends (fed ++ chunks) := by
  induction chunks generalizing step fed with
  | nil =>
      rw [after_nil, Option.some.injEq] at hl
      rwa [← hl, List.append_nil]
  | cons chunk chunks ih =>
      cases step with
      | answer result => cases hl
      | await resume =>
          have hlater := ih (h.2 chunk) hl
          rwa [List.append_assoc] at hlater
      | adrift => cases hl

end Obeys

end Step

end StreamDecode
