import Mathlib.Init

/-!
# Machines that interleave

A machine takes labelled steps. A run of several threads is a list of labels,
each naming the thread that moves, so any interleaving is a run. `Reach`
collects the states of the runs whose every step meets a condition.
-/

namespace Interleave

/-- `step s a = none` means that `a` is not enabled in `s`. -/
structure Machine (σ α : Type) where
  init : σ → Prop
  step : σ → α → Option σ

/-- Where a call stands after one of its atomic operations: still running, back
with a result, or stopped by a failed assertion. -/
inductive Control (κ ρ : Type)
  | goto (pc : κ)
  | ret (result : ρ)
  | panic
  deriving DecidableEq

def Control.map {κ κ' ρ : Type} (f : κ → κ') : Control κ ρ → Control κ' ρ
  | .goto pc => .goto (f pc)
  | .ret result => .ret result
  | .panic => .panic

namespace Machine

variable {σ α : Type} (M : Machine σ α)

/-- The states of the runs that take a step `a` in a state `s` only if `C s a`. -/
inductive Reach (C : σ → α → Prop) : σ → Prop
  | init {s : σ} : M.init s → Reach C s
  | step {s s' : σ} {a : α} : Reach C s → C s a → M.step s a = some s' → Reach C s'

def always : σ → α → Prop := fun _ _ => True

variable {M}

theorem Reach.mono {C C' : σ → α → Prop} (hC : ∀ s a, C s a → C' s a) {s : σ} (h : M.Reach C s) :
    M.Reach C' s := by
  induction h with
  | init h0 => exact .init h0
  | step _ hc hs ih => exact .step ih (hC _ _ hc) hs

theorem Reach.reachable {C : σ → α → Prop} {s : σ} (h : M.Reach C s) : M.Reach always s :=
  h.mono fun _ _ _ => trivial

/-- What holds initially and is kept by every step holds in every state reached. -/
theorem Reach.invariant {C : σ → α → Prop} {I : σ → Prop} (h0 : ∀ s, M.init s → I s)
    (hstep : ∀ s a s', M.Reach C s → I s → C s a → M.step s a = some s' → I s') {s : σ}
    (h : M.Reach C s) : I s := by
  induction h with
  | init hi => exact h0 _ hi
  | step hr hc hs ih => exact hstep _ _ _ hr ih hc hs

variable (M)

def restrict (ok : σ → α → Bool) : Machine σ α where
  init := M.init
  step s a := if ok s a then M.step s a else none

variable {M}

theorem restrict_step {ok : σ → α → Bool} {s s' : σ} {a : α}
    (h : (M.restrict ok).step s a = some s') : ok s a = true ∧ M.step s a = some s' := by
  by_cases ha : ok s a = true
  · exact ⟨ha, (if_pos ha).symm.trans h⟩
  · have h : none = some s' := (if_neg ha).symm.trans h
    cases h

theorem Reach.of_restrict {ok : σ → α → Bool} {C : σ → α → Prop} {s : σ}
    (h : (M.restrict ok).Reach C s) : M.Reach (fun s a => ok s a = true) s := by
  induction h with
  | init hi => exact .init hi
  | step _ _ hs ih =>
    obtain ⟨ha, hs⟩ := restrict_step hs
    exact .step ih ha hs

variable (M)

/-- The run that takes the steps of a list in order, each of them allowed by `ok`. -/
def runIf (ok : σ → α → Bool) : σ → List α → Option σ
  | s, [] => some s
  | s, a :: as =>
    if ok s a then
      match M.step s a with
      | some s' => runIf ok s' as
      | none => none
    else none

variable {M}

theorem Reach.runIf {C : σ → α → Prop} {ok : σ → α → Bool} {as : List α} {s s' : σ}
    (hok : ∀ s a, ok s a = true → C s a) (h : M.Reach C s) (hr : M.runIf ok s as = some s') :
    M.Reach C s' := by
  induction as generalizing s with
  | nil =>
    simp only [Machine.runIf, Option.some.injEq] at hr
    exact hr ▸ h
  | cons a as ih =>
    simp only [Machine.runIf] at hr
    by_cases ha : ok s a = true
    · rw [if_pos ha] at hr
      cases hs : M.step s a with
      | none => simp [hs] at hr
      | some s₁ =>
        rw [hs] at hr
        exact ih (h.step (hok s a ha) hs) hr
    · rw [if_neg ha] at hr
      cases hr

/-- A run that ends in a state where `p` holds reaches such a state. -/
theorem Reach.exists_of_runIf {C : σ → α → Prop} {s : σ} (h : M.init s) (ok : σ → α → Bool)
    (as : List α) (p : σ → Bool) (hok : ∀ s a, ok s a = true → C s a)
    (hr : (M.runIf ok s as).any p = true) :
    ∃ s', M.Reach C s' ∧ p s' = true := by
  cases hs : M.runIf ok s as with
  | none => simp [hs] at hr
  | some s' =>
    rw [hs] at hr
    exact ⟨s', Reach.runIf hok (.init h) hs, by simpa using hr⟩

end Machine

end Interleave
