import MemoryPools.Interleave.Machine

/-!
# Calls that run alone

A call is a step function over the state and a program counter. When no other thread
moves, the call goes from one operation to the next until it returns. `runCall` follows
it for a number of operations; `Goes` and `Returns` follow it as far as it takes, and a
call that returns does so under `runCall` for every larger number too.
-/

namespace Interleave

variable {σ σ' κ κ' ρ ρ' : Type} {step : σ → κ → σ × Control κ ρ}
  {step' : σ' → κ' → σ' × Control κ' ρ'}
  {s s₁ s₂ : σ} {pc pc₁ pc₂ : κ} {r : ρ}

def runCall (step : σ → κ → σ × Control κ ρ) : Nat → σ → κ → σ × Control κ ρ
  | 0, s, pc => (s, .goto pc)
  | fuel + 1, s, pc =>
    match step s pc with
    | (s, .goto pc) => runCall step fuel s pc
    | (s, .ret r) => (s, .ret r)
    | (s, .panic) => (s, .panic)

inductive Goes (step : σ → κ → σ × Control κ ρ) : σ → κ → σ → κ → Prop
  | refl {s : σ} {pc : κ} : Goes step s pc s pc
  | head {s s₁ s₂ : σ} {pc pc₁ pc₂ : κ} : step s pc = (s₁, .goto pc₁) →
    Goes step s₁ pc₁ s₂ pc₂ → Goes step s pc s₂ pc₂

def Returns (step : σ → κ → σ × Control κ ρ) (s : σ) (pc : κ) (s' : σ) (r : ρ) : Prop :=
  ∃ s₁ pc₁, Goes step s pc s₁ pc₁ ∧ step s₁ pc₁ = (s', .ret r)

/-! ## Calls inside of calls -/

/-- What an outer call does after a step of an inner one; `k` goes on from its result. -/
def Control.inside (f : κ → κ') (k : ρ → Control κ' ρ') : Control κ ρ → Control κ' ρ'
  | .goto pc => .goto (f pc)
  | .ret r => k r
  | .panic => .panic

@[simp] theorem Control.inside_id (c : Control κ ρ) : c.inside id .ret = c := by
  cases c with
  | goto | ret | panic => rfl

/-- The steps of `step'` from `f pc` on are those of `step`, on a part of the state. -/
def Nests (step : σ → κ → σ × Control κ ρ) (step' : σ' → κ' → σ' × Control κ' ρ') (g : σ → σ')
    (f : κ → κ') (k : ρ → Control κ' ρ') : Prop :=
  ∀ s pc, step' (g s) (f pc) = (g (step s pc).1, (step s pc).2.inside f k)

namespace Nests

variable {g : σ → σ'} {f : κ → κ'} {k : ρ → Control κ' ρ'}

theorem goto (hn : Nests step step' g f k) (h : step s pc = (s₁, .goto pc₁)) :
    step' (g s) (f pc) = (g s₁, .goto (f pc₁)) := by
  rw [hn s pc, h]
  rfl

theorem ret (hn : Nests step step' g f k) (h : step s pc = (s₁, .ret r)) :
    step' (g s) (f pc) = (g s₁, k r) := by
  rw [hn s pc, h]
  rfl

end Nests

namespace Goes

theorem trans (h : Goes step s pc s₁ pc₁) (h' : Goes step s₁ pc₁ s₂ pc₂) :
    Goes step s pc s₂ pc₂ := by
  induction h with
  | refl => exact h'
  | head hs _ ih => exact .head hs (ih h')

theorem single (h : step s pc = (s₁, .goto pc₁)) : Goes step s pc s₁ pc₁ := .head h .refl

theorem returns (h : Goes step s pc s₁ pc₁) (h' : Returns step s₁ pc₁ s₂ r) :
    Returns step s pc s₂ r := by
  obtain ⟨s₃, pc₃, hgoes, hret⟩ := h'
  exact ⟨s₃, pc₃, h.trans hgoes, hret⟩

theorem nest {g : σ → σ'} {f : κ → κ'} {k : ρ → Control κ' ρ'} (hn : Nests step step' g f k)
    (h : Goes step s pc s₁ pc₁) : Goes step' (g s) (f pc) (g s₁) (f pc₁) := by
  induction h with
  | refl => exact .refl
  | head hs _ ih => exact .head (hn.goto hs) ih

/-- What every operation of the call keeps holds until it returns. -/
theorem keeps {P : σ → κ → Prop} (h : Goes step s pc s₁ pc₁)
    (hstep : ∀ {s pc s' pc'}, P s pc → step s pc = (s', .goto pc') → P s' pc') (hs : P s pc) :
    P s₁ pc₁ := by
  induction h with
  | refl => exact hs
  | head he _ ih => exact ih (hstep hs he)

theorem resume (h : Goes step s pc s₁ pc₁) (hr : Returns step s pc s₂ r) :
    Returns step s₁ pc₁ s₂ r := by
  induction h with
  | refl => exact hr
  | @head s t s₃ pc pc₂ pc₃ he _ ih =>
    apply ih
    obtain ⟨u, pcu, hgoes, hret⟩ := hr
    cases hgoes with
    | refl =>
      rw [he] at hret
      cases hret
    | head he' hrest =>
      rw [he] at he'
      obtain ⟨rfl, hpc⟩ := Prod.mk.inj he'
      obtain rfl := Control.goto.inj hpc
      exact ⟨u, pcu, hrest, hret⟩

end Goes

namespace Returns

theorem of_step (h : step s pc = (s₁, .ret r)) : Returns step s pc s₁ r := ⟨s, pc, .refl, h⟩

theorem head (h : step s pc = (s₁, .goto pc₁)) (h' : Returns step s₁ pc₁ s₂ r) :
    Returns step s pc s₂ r := (Goes.single h).returns h'

/-- The outer call goes on when the inner one returns. -/
theorem nest {g : σ → σ'} {f : κ → κ'} {k : ρ → Control κ' ρ'} {pc' : κ'}
    (h : Returns step s pc s₁ r) (hn : Nests step step' g f k) (hk : k r = .goto pc') :
    Goes step' (g s) (f pc) (g s₁) pc' := by
  obtain ⟨s₂, pc₂, hgoes, hret⟩ := h
  have hout := hn.ret hret
  rw [hk] at hout
  exact (hgoes.nest hn).trans (.single hout)

theorem lift {g : σ → σ'} {f : κ → κ'} {k : ρ → Control κ' ρ'} {r' : ρ'}
    (h : Returns step s pc s₁ r) (hn : Nests step step' g f k) (hk : k r = .ret r') :
    Returns step' (g s) (f pc) (g s₁) r' := by
  obtain ⟨s₂, pc₂, hgoes, hret⟩ := h
  have hout := hn.ret hret
  rw [hk] at hout
  exact ⟨g s₂, f pc₂, hgoes.nest hn, hout⟩

theorem keeps {P : σ → Prop} (h : Returns step s pc s₁ r)
    (hstep : ∀ {s pc s' control}, P s → step s pc = (s', control) → P s') (hs : P s) : P s₁ := by
  obtain ⟨s₂, pc₂, hgoes, hret⟩ := h
  exact hstep (hgoes.keeps (P := fun s _ => P s) hstep hs) hret

theorem runCall_eq (h : Returns step s pc s₁ r) :
    ∃ n, ∀ fuel, n ≤ fuel → runCall step fuel s pc = (s₁, .ret r) := by
  obtain ⟨s₂, pc₂, hgoes, hret⟩ := h
  induction hgoes with
  | refl =>
    refine ⟨1, fun fuel hf => ?_⟩
    obtain ⟨k, rfl⟩ := Nat.exists_eq_add_of_le' hf
    rw [runCall, hret]
  | head hs _ ih =>
    obtain ⟨n, hn⟩ := ih hret
    refine ⟨n + 1, fun fuel hf => ?_⟩
    obtain ⟨k, rfl⟩ := Nat.exists_eq_add_of_le' (Nat.le_of_add_left_le hf)
    rw [runCall, hs]
    apply hn
    omega

/-- With less fuel the call is still running: it has no other result. -/
theorem runCall_cases (h : Returns step s pc s₁ r) (fuel : Nat) :
    (∃ s' pc', runCall step fuel s pc = (s', .goto pc')) ∨
      runCall step fuel s pc = (s₁, .ret r) := by
  obtain ⟨s₂, pc₂, hgoes, hret⟩ := h
  induction hgoes generalizing fuel with
  | refl =>
    cases fuel with
    | zero => exact Or.inl ⟨_, _, rfl⟩
    | succ k =>
      right
      rw [runCall, hret]
  | head hs _ ih =>
    cases fuel with
    | zero => exact Or.inl ⟨_, _, rfl⟩
    | succ k =>
      rw [runCall, hs]
      exact ih k hret

end Returns

inductive Repeats (step : σ → κ → σ × Control κ ρ) (pc : κ) : Nat → σ → σ → Prop
  | none {s : σ} : Repeats step pc 0 s s
  | next {n : Nat} {s s₁ s₂ : σ} {r : ρ} : Returns step s pc s₁ r → Repeats step pc n s₁ s₂ →
    Repeats step pc (n + 1) s s₂

theorem Repeats.through {n : Nat} (g : Nat → σ)
    (h : ∀ i < n, ∃ r, Returns step (g i) pc (g (i + 1)) r) : Repeats step pc n (g 0) (g n) := by
  induction n generalizing g with
  | zero => exact .none
  | succ n ih =>
    obtain ⟨r, hr⟩ := h 0 (Nat.zero_lt_succ n)
    exact .next hr (ih (fun i => g (i + 1)) fun i hi => h (i + 1) (Nat.succ_lt_succ hi))

/-! ## Operations with a bound on their length -/

/-- A call that is given a number of operations returns, and does so for every larger one. -/
structure Completes (call : Nat → σ → σ × Control Unit ρ) (s s' : σ) (r : ρ) : Prop where
  enough : ∃ n, ∀ fuel, n ≤ fuel → call fuel s = (s', .ret r)
  cases : ∀ fuel, (call fuel s).2 = .goto () ∨ call fuel s = (s', .ret r)

theorem Completes.unique {call : Nat → σ → σ × Control Unit ρ} {s s₁ s₂ : σ} {r₁ r₂ : ρ}
    (h₁ : Completes call s s₁ r₁) (h₂ : Completes call s s₂ r₂) : s₁ = s₂ ∧ r₁ = r₂ := by
  obtain ⟨n, hn⟩ := h₁.enough
  obtain ⟨m, hm⟩ := h₂.enough
  have e := (hn (max n m) (by omega)).symm.trans (hm (max n m) (by omega))
  simpa using e

/-- The call from a program counter on; what it is doing when the number is used up does
not matter. -/
def bounded (step : σ → κ → σ × Control κ ρ) (pc : κ) (fuel : Nat) (s : σ) :
    σ × Control Unit ρ :=
  match runCall step fuel s pc with
  | (s, control) => (s, control.map fun _ => ())

theorem Returns.completes (h : Returns step s pc s₁ r) : Completes (bounded step pc) s s₁ r := by
  refine ⟨?_, fun fuel => ?_⟩
  · obtain ⟨n, hn⟩ := h.runCall_eq
    refine ⟨n, fun fuel hf => ?_⟩
    rw [bounded, hn fuel hf]
    rfl
  · rw [bounded]
    rcases h.runCall_cases fuel with ⟨s', pc', e⟩ | e
    · rw [e]
      exact Or.inl rfl
    · rw [e]
      exact Or.inr rfl

theorem Returns.of_runCall {fuel : Nat} (h : runCall step fuel s pc = (s₁, .ret r)) :
    Returns step s pc s₁ r := by
  induction fuel generalizing s pc with
  | zero => cases h
  | succ fuel ih =>
    rw [runCall] at h
    cases he : step s pc with
    | mk s₂ control =>
      rw [he] at h
      cases control with
      | goto pc₂ => exact .head he (ih h)
      | ret r₂ =>
        cases h
        exact .of_step he
      | panic => cases h

theorem Completes.returns (h : Completes (bounded step pc) s s₁ r) : Returns step s pc s₁ r := by
  obtain ⟨n, hn⟩ := h.enough
  have hrun := hn n (Nat.le_refl n)
  unfold bounded at hrun
  cases hr : runCall step n s pc with
  | mk s₂ control =>
    rw [hr] at hrun
    cases control with
    | goto => cases hrun
    | ret r₂ =>
      cases hrun
      exact .of_runCall hr
    | panic => cases hrun

/-! ## Calls that are taken whole or not at all -/

/-- `call` gives `t` if it may take enough operations, and nothing else otherwise. -/
structure Yields {τ : Type} (call : Nat → Option τ) (t : τ) : Prop where
  enough : ∃ n, ∀ fuel, n ≤ fuel → call fuel = some t
  cases : ∀ fuel, call fuel = none ∨ call fuel = some t

theorem Yields.now {τ : Type} {call : Nat → Option τ} {t : τ} (h : ∀ fuel, call fuel = some t) :
    Yields call t := ⟨⟨0, fun fuel _ => h fuel⟩, fun fuel => Or.inr (h fuel)⟩

theorem Yields.eq_of_some {τ : Type} {call : Nat → Option τ} {t t' : τ} {fuel : Nat}
    (h : Yields call t) (hs : call fuel = some t') : t' = t := by
  rcases h.cases fuel with e | e
  · rw [e] at hs
    cases hs
  · rw [e] at hs
    exact (Option.some.inj hs).symm

theorem Yields.map {τ υ : Type} {call : Nat → Option τ} {t : τ} (f : τ → υ) (h : Yields call t) :
    Yields (fun fuel => (call fuel).map f) (f t) := by
  constructor
  · obtain ⟨n, hn⟩ := h.enough
    exact ⟨n, fun fuel hf => by rw [hn fuel hf, Option.map_some]⟩
  · intro fuel
    rcases h.cases fuel with e | e
    · exact Or.inl (by rw [e, Option.map_none])
    · exact Or.inr (by rw [e, Option.map_some])

theorem Completes.yields {τ : Type} {call : Nat → σ → σ × Control Unit ρ} {s' : σ}
    {out next : Nat → Option τ} {t : τ} (h : Completes call s s' r)
    (hgoto : ∀ fuel s₁, call fuel s = (s₁, .goto ()) → out fuel = none)
    (hret : ∀ fuel, call fuel s = (s', .ret r) → out fuel = next fuel) (hnext : Yields next t) :
    Yields out t := by
  constructor
  · obtain ⟨n, hn⟩ := h.enough
    obtain ⟨m, hm⟩ := hnext.enough
    refine ⟨max n m, fun fuel hf => ?_⟩
    rw [hret fuel (hn fuel (by omega))]
    exact hm fuel (by omega)
  · intro fuel
    rcases h.cases fuel with e | e
    · exact Or.inl (hgoto fuel _ (Prod.ext rfl e))
    · rw [hret fuel e]
      exact hnext.cases fuel

end Interleave
