import Mathlib.Init

/-!
# Machines that answer

A machine takes an input in a state and answers, or it does not take it and the run ends.
Two machines that stay related up to the first input on which they part give the same
answers to exactly the lists of inputs that avoid it.
-/

namespace Interleave

variable {σ τ α γ : Type}

def answers (step : σ → α → Option (σ × γ)) : σ → List α → List γ
  | _, [] => []
  | s, a :: as =>
    match step s a with
    | some (s', c) => c :: answers step s' as
    | none => []

/-- No input of a run is `bad` in the state that takes it. -/
def Avoids (step : σ → α → Option (σ × γ)) (bad : σ → α → Prop) : σ → List α → Prop
  | _, [] => True
  | s, a :: as => ¬ bad s a ∧ ∀ s' c, step s a = some (s', c) → Avoids step bad s' as

/-- Related states take the same inputs and stay related, except on `bad` ones, to which the
answers differ. -/
structure Parts (step : σ → α → Option (σ × γ)) (step' : τ → α → Option (τ × γ))
    (R : σ → τ → Prop) (bad : σ → α → Prop) : Prop where
  together : ∀ {s t a}, R s t → ¬ bad s a → step s a = none ∧ step' t a = none ∨
    ∃ s' t' c, step s a = some (s', c) ∧ step' t a = some (t', c) ∧ R s' t'
  apart : ∀ {s t a}, R s t → bad s a →
    ∃ s' t' c c', step s a = some (s', c) ∧ step' t a = some (t', c') ∧ c ≠ c'

variable {step : σ → α → Option (σ × γ)} {step' : τ → α → Option (τ × γ)} {R : σ → τ → Prop}
  {bad : σ → α → Prop} {s s' : σ} {t : τ} {a : α} {c : γ} {as : List α}

theorem answers_none (h : step s a = none) : answers step s (a :: as) = [] := by
  simp only [answers, h]

theorem answers_some (h : step s a = some (s', c)) :
    answers step s (a :: as) = c :: answers step s' as := by
  simp only [answers, h]

/-- What holds of each answer holds of all answers of a run. -/
theorem answers_forall {P : γ → Prop} (h : ∀ {s a s' c}, step s a = some (s', c) → P c) :
    ∀ c ∈ answers step s as, P c := by
  induction as generalizing s with
  | nil =>
    intro c hc
    cases hc
  | cons a as ih =>
    intro c hc
    cases hs : step s a with
    | none =>
      rw [answers_none hs] at hc
      cases hc
    | some r =>
      obtain ⟨s₁, c₁⟩ := r
      rw [answers_some hs, List.mem_cons] at hc
      rcases hc with rfl | hc
      · exact h hs
      · exact ih c hc

/-- The machines part at the first bad input, and at no other. -/
theorem Parts.answers_eq_iff (h : Parts step step' R bad) (hr : R s t) :
    answers step s as = answers step' t as ↔ Avoids step bad s as := by
  induction as generalizing s t with
  | nil => exact ⟨fun _ => trivial, fun _ => rfl⟩
  | cons a as ih =>
    by_cases hbad : bad s a
    · obtain ⟨s', t', c, c', hs, ht, hne⟩ := h.apart hr hbad
      rw [answers_some hs, answers_some ht]
      constructor
      · intro e
        exact absurd (List.cons.inj e).1 hne
      · intro ha
        exact absurd hbad ha.1
    · rcases h.together hr hbad with ⟨hs, ht⟩ | ⟨s', t', c, hs, ht, hr'⟩
      · rw [answers_none hs, answers_none ht]
        refine ⟨fun _ => ⟨hbad, fun s' c e => ?_⟩, fun _ => rfl⟩
        rw [hs] at e
        cases e
      · rw [answers_some hs, answers_some ht, List.cons.injEq, ih hr']
        constructor
        · intro ha
          refine ⟨hbad, fun s₁ c₁ e => ?_⟩
          rw [hs] at e
          cases e
          exact ha.2
        · intro ha
          exact ⟨rfl, ha.2 s' c hs⟩

end Interleave
