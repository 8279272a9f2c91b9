set_option autoImplicit false

/-! # How far a run has come

Running a decoder for a while gives a `Step`: an answer, or a demand for the next chunk together
with how to go on once it arrives. A step is thus a tree: its leaves are answers, its inner nodes
are suspensions, with one branch for every chunk that may arrive. `Step.bind` grafts further runs
onto the answers and leaves the suspensions as they are. -/

namespace StreamDecode

/-- How far a run has come, with chunks of type `β` and answers of type `ρ`. -/
inductive Step (β ρ : Type) where
  /-- The run is over. -/
  | answer (result : ρ)
  /-- The run goes on with the next chunk. -/
  | await (resume : β → Step β ρ)
  /-- The run broke off without an answer, and nothing is there to go on with it. -/
  | adrift

namespace Step

variable {β ρ σ τ : Type}

/-- Go on from every answer. -/
def bind (step : Step β ρ) (next : ρ → Step β σ) : Step β σ :=
  match step with
  | .answer result => next result
  | .await resume => .await fun chunk => (resume chunk).bind next
  | .adrift => .adrift

@[simp] theorem bind_answer (result : ρ) (next : ρ → Step β σ) :
    (Step.answer result).bind next = next result := rfl

@[simp] theorem bind_await (resume : β → Step β ρ) (next : ρ → Step β σ) :
    (Step.await resume).bind next = .await fun chunk => (resume chunk).bind next := rfl

@[simp] theorem bind_adrift (next : ρ → Step β σ) : (Step.adrift : Step β ρ).bind next = .adrift :=
  rfl

@[simp] theorem bind_answer_right (step : Step β ρ) : step.bind .answer = step := by
  induction step with
  | answer result => rfl
  | await resume ih => simp [ih]
  | adrift => rfl

theorem bind_assoc (step : Step β ρ) (f : ρ → Step β σ) (g : σ → Step β τ) :
    (step.bind f).bind g = step.bind fun result => (f result).bind g := by
  induction step with
  | answer result => rfl
  | await resume ih => simp [ih]
  | adrift => rfl

end Step

end StreamDecode
