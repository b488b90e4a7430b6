import MemoryPools.Interleave.Trace

/-!
# How many steps a call takes

What is left of a call goes down with each of its own steps. A step of another thread may raise
it, at a cost. So a call takes no more steps than what was left of it at first and what the others
have spent: it is wait-free where they cannot spend anything, lock-free where they spend only when
they get on themselves.
-/

namespace Interleave

namespace Machine

variable {σ α : Type} (M : Machine σ α)

def spent (cost : σ → α → σ → Nat) : σ → List α → Nat
  | _, [] => 0
  | s, a :: as =>
    match M.step s a with
    | some s' => cost s a s' + spent cost s' as
    | none => 0

/-- A run in which a call ends. -/
def Ends (calling : σ → Bool) (s : σ) (as : List α) : Prop :=
  ∃ pre a post s₁ s₂, as = pre ++ a :: post ∧ M.run s pre = some s₁ ∧ calling s₁ = true ∧
    M.step s₁ a = some s₂ ∧ calling s₂ = false

variable {M} {calling : σ → Bool} {own : α → Bool} {cost : σ → α → σ → Nat} {s s' : σ} {a : α}
  {as : List α}

theorem spent_zero : M.spent (fun _ _ _ => 0) s as = 0 := by
  induction as generalizing s with
  | nil => rfl
  | cons a as ih =>
    unfold spent
    cases M.step s a with
    | none => rfl
    | some s' => simp [ih]

theorem Ends.head (hc : calling s = true) (hs : M.step s a = some s') (hc' : calling s' = false) :
    M.Ends calling s (a :: as) := ⟨[], a, as, s, s', rfl, rfl, hc, hs, hc'⟩

theorem Ends.tail (hs : M.step s a = some s') (h : M.Ends calling s' as) :
    M.Ends calling s (a :: as) := by
  obtain ⟨pre, b, post, s₁, s₂, rfl, hr, hc, hb, hc'⟩ := h
  refine ⟨a :: pre, b, post, s₁, s₂, rfl, ?_, hc, hb, hc'⟩
  simp only [run, hs, hr]

theorem Reach.of_run {C : σ → α → Prop} {s'' : σ} (h : M.Reach C s) (hr : M.run s as = some s'') :
    M.Reach always s'' := by
  induction as generalizing C s with
  | nil =>
    obtain rfl := Option.some.inj hr
    exact h.reachable
  | cons a as ih =>
    cases hs : M.step s a with
    | none => simp [run, hs] at hr
    | some s' =>
      simp only [run, hs] at hr
      exact ih (h.reachable.step trivial hs) hr

/-- `L s n`: the call has at most `n` of its own steps to go. -/
theorem ends_of_spent {L : σ → Nat → Prop} {n : Nat} {s'' : σ}
    (hstep : ∀ {s s' a n}, M.Reach always s → M.step s a = some s' → calling s = true →
      calling s' = true → L s n →
      ∃ m, L s' m ∧ m + (if own a = true then 1 else 0) ≤ n + cost s a s')
    (h : M.Reach always s) (hc : calling s = true) (hleft : L s n)
    (hr : M.run s as = some s'') (hmany : n + M.spent cost s as < as.countP own) :
    M.Ends calling s as := by
  induction as generalizing s n with
  | nil => simp at hmany
  | cons a as ih =>
    cases hs : M.step s a with
    | none => simp [run, hs] at hr
    | some s' =>
      simp only [run, hs] at hr
      simp only [spent, hs, List.countP_cons] at hmany
      cases hc' : calling s' with
      | false => exact Ends.head hc hs hc'
      | true =>
        obtain ⟨m, hm, hle⟩ := hstep h hs hc hc' hleft
        exact (ih (h.step trivial hs) hc' hm hr (by omega)).tail hs

end Machine

end Interleave
