import MemoryPools.Interleave.Trace

/-!
# A moment of a call

A call that reads the state in many steps can answer for one moment between its beginning
and its end. A quantity that falls by at most one with each step of the call took every
value on the way, and so the one that the call comes to.
-/

namespace Interleave

namespace Machine

variable {σ α : Type} {M : Machine σ α} {s : σ} {past : List σ}

/-- The states since the call began, the last one first. -/
def during (calling : σ → Bool) (past : List σ) : List σ := past.takeWhile calling

theorem during_cons {calling : σ → Bool} (h : calling s = true) :
    during calling (s :: past) = s :: during calling past :=
  List.takeWhile_cons_of_pos h

/-- The quantity took each value between its last one and the bound. -/
theorem Visits.attained {calling : σ → Bool} (quantity : σ → Nat) {Bound : σ → Nat → Prop}
    (hinit : ∀ s, M.init s → calling s = false)
    (hbegin : ∀ {s s' a}, M.Reach always s → M.step s a = some s' → calling s = false →
      calling s' = true → ∃ b ≤ quantity s', Bound s' b)
    (hstep : ∀ {s s' a b}, M.Reach always s → M.step s a = some s' → calling s = true →
      calling s' = true → Bound s b → quantity s ≤ quantity s' + 1 ∧ ∃ b' ≤ b, Bound s' b')
    (h : M.Visits s past) (hs : calling s = true) :
    ∃ b, Bound s b ∧ ∀ v, quantity s ≤ v → v ≤ b → ∃ s' ∈ during calling past, quantity s' = v := by
  induction h with
  | init h0 =>
    rw [hinit _ h0] at hs
    cases hs
  | @step s s' past a hr ha ih =>
    rw [during_cons hs]
    cases hcall : calling s with
    | false =>
      obtain ⟨b, hle, hb⟩ := hbegin hr.reach ha hcall hs
      refine ⟨b, hb, fun v hlow hhigh => ⟨s', List.mem_cons_self .., ?_⟩⟩
      exact Nat.le_antisymm hlow (Nat.le_trans hhigh hle)
    | true =>
      obtain ⟨b, hb, hattained⟩ := ih hcall
      obtain ⟨hfall, b', hle, hb'⟩ := hstep hr.reach ha hcall hs hb
      refine ⟨b', hb', fun v hlow hhigh => ?_⟩
      by_cases e : quantity s' = v
      · exact ⟨s', List.mem_cons_self .., e⟩
      · -- the value lies above the last one, so the run came past it before
        obtain ⟨s₁, hmem, hv⟩ := hattained v (by omega) (Nat.le_trans hhigh hle)
        exact ⟨s₁, List.mem_cons_of_mem _ hmem, hv⟩

theorem Visits.run {s' : σ} {as : List α} (h : M.Visits s past) (hr : M.run s as = some s') :
    ∃ past', M.Visits s' past' := by
  induction as generalizing s past with
  | nil =>
    obtain rfl := Option.some.inj hr
    exact ⟨past, h⟩
  | cons a as ih =>
    simp only [Machine.run] at hr
    cases hs : M.step s a with
    | none =>
      rw [hs] at hr
      cases hr
    | some s₁ =>
      rw [hs] at hr
      exact ih (h.step hs) hr

theorem Visits.exists_of_run (as : List α) {p : σ → Bool} (h : M.init s)
    (hr : (M.run s as).any p = true) : ∃ s' past, M.Visits s' past ∧ p s' = true := by
  cases hs : M.run s as with
  | none =>
    rw [hs] at hr
    cases hr
  | some s' =>
    rw [hs] at hr
    obtain ⟨past, hv⟩ := (Visits.init h).run hs
    exact ⟨s', past, hv, hr⟩

end Machine

end Interleave
