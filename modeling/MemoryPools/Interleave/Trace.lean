import MemoryPools.Interleave.Machine

/-!
# Runs with what was seen of them

`Trace` keeps an observation of each label of a run, `Visits` the states that the run went
through. A machine whose steps are matched by the steps of another one has its traces.
-/

namespace Interleave

namespace Machine

variable {σ τ α β γ : Type} {M : Machine σ α} {M' : Machine τ β} {f : α → γ} {g : β → γ}

/-- A run to a state, and its labels under `f`, the last one at the end. -/
inductive Trace (M : Machine σ α) (f : α → γ) : σ → List γ → Prop
  | init {s : σ} : M.init s → Trace M f s []
  | step {s s' : σ} {l : List γ} {a : α} : Trace M f s l → M.step s a = some s' →
    Trace M f s' (l ++ [f a])

/-- A run to a state, and the states it went through, the last one first. -/
inductive Visits (M : Machine σ α) : σ → List σ → Prop
  | init {s : σ} : M.init s → Visits M s [s]
  | step {s s' : σ} {past : List σ} {a : α} : Visits M s past → M.step s a = some s' →
    Visits M s' (s' :: past)

theorem Trace.reach {s : σ} {l : List γ} (h : M.Trace f s l) : M.Reach always s := by
  induction h with
  | init h0 => exact .init h0
  | step _ hs ih => exact .step ih trivial hs

theorem Visits.reach {s : σ} {past : List σ} (h : M.Visits s past) : M.Reach always s := by
  induction h with
  | init h0 => exact .init h0
  | step _ hs ih => exact .step ih trivial hs

theorem Trace.init_of_nil {s : σ} (h : M.Trace f s []) : M.init s := by
  generalize hl : ([] : List γ) = l at h
  cases h with
  | init h0 => exact h0
  | step => exact absurd hl.symm (by simp)

theorem Trace.last {s : σ} {l : List γ} {c : γ} (h : M.Trace f s (l ++ [c])) :
    ∃ s₀ a, M.Trace f s₀ l ∧ M.step s₀ a = some s ∧ f a = c := by
  generalize hl : l ++ [c] = l' at h
  cases h with
  | init => exact absurd hl (by simp)
  | step hs he =>
    obtain ⟨rfl, hc⟩ := List.append_inj' hl rfl
    exact ⟨_, _, hs, he, (List.singleton_inj.mp hc).symm⟩

theorem Trace.unique (hinit : ∀ s s', M.init s → M.init s' → s = s') {s s' : σ} {l : List α}
    (h : M.Trace id s l) (h' : M.Trace id s' l) : s = s' := by
  induction h generalizing s' with
  | init h0 => exact hinit _ _ h0 h'.init_of_nil
  | step hs he ih =>
    obtain ⟨s₀, a, hs₀, he₀, ha⟩ := h'.last
    obtain rfl := ih hs₀
    have ha : a = _ := ha
    rw [ha] at he₀
    exact Option.some.inj (he.symm.trans he₀)

def run (M : Machine σ α) : σ → List α → Option σ
  | s, [] => some s
  | s, a :: as =>
    match M.step s a with
    | some s' => run M s' as
    | none => none

theorem Trace.run {s s' : σ} {l : List γ} {as : List α} (h : M.Trace f s l)
    (hr : M.run s as = some s') : M.Trace f s' (l ++ as.map f) := by
  induction as generalizing s l with
  | nil =>
    obtain rfl := Option.some.inj hr
    simpa using h
  | cons a as ih =>
    simp only [Machine.run] at hr
    cases hs : M.step s a with
    | none =>
      rw [hs] at hr
      cases hr
    | some s₁ =>
      rw [hs] at hr
      have hrest := ih (h.step hs) hr
      rwa [List.append_assoc] at hrest

/-- A machine that follows another one step for step follows its runs. -/
theorem run_follows {τ β : Type} {N : Machine τ β} {g : β → γ} {R : σ → τ → Prop} {s s' : σ} {t : τ}
    {as : List α}
    (hstep : ∀ {s s' t a}, R s t → M.step s a = some s' →
      ∃ b t', g b = f a ∧ N.step t b = some t' ∧ R s' t')
    (h : R s t) (hr : M.run s as = some s') :
    ∃ bs t', bs.map g = as.map f ∧ N.run t bs = some t' ∧ R s' t' := by
  induction as generalizing s t with
  | nil =>
    obtain rfl := Option.some.inj hr
    exact ⟨[], t, rfl, rfl, h⟩
  | cons a as ih =>
    rw [Machine.run] at hr
    cases hs : M.step s a with
    | none => simp [hs] at hr
    | some s₁ =>
      rw [hs] at hr
      obtain ⟨b, t₁, hb, ht, h₁⟩ := hstep h hs
      obtain ⟨bs, t', hbs, hr', h'⟩ := ih h₁ hr
      refine ⟨b :: bs, t', ?_, ?_, h'⟩
      · rw [List.map_cons, List.map_cons, hb, hbs]
      · rw [Machine.run, ht]
        exact hr'

theorem Trace.exists_of_run {s : σ} {as : List α} {p : σ → Bool} (h : M.init s)
    (hr : (M.run s as).any p = true) : ∃ s', M.Trace f s' (as.map f) ∧ p s' = true := by
  cases hs : M.run s as with
  | none =>
    rw [hs] at hr
    cases hr
  | some s' =>
    rw [hs] at hr
    have htrace : M.Trace f s' ([] ++ as.map f) := (Trace.init h).run hs
    exact ⟨s', htrace, hr⟩

/-- A step of `M` is a step of `M'` with the same observation. -/
theorem Trace.simulates {R : σ → τ → Prop} (hinit : ∀ s, M.init s → ∃ t, M'.init t ∧ R s t)
    (hstep : ∀ {s s' a t}, M.Reach always s → R s t → M.step s a = some s' →
      ∃ b t', g b = f a ∧ M'.step t b = some t' ∧ R s' t')
    {s : σ} {l : List γ} (h : M.Trace f s l) : ∃ t, M'.Trace g t l ∧ R s t := by
  induction h with
  | init h0 =>
    obtain ⟨t, ht, hr⟩ := hinit _ h0
    exact ⟨t, .init ht, hr⟩
  | step hs he ih =>
    obtain ⟨t, ht, hr⟩ := ih
    obtain ⟨b, t', hb, ht', hr'⟩ := hstep hs.reach hr he
    refine ⟨t', ?_, hr'⟩
    rw [← hb]
    exact .step ht ht'

end Machine

end Interleave
