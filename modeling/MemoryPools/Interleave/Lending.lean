import MemoryPools.Interleave.Machine
import MemoryPools.Interleave.Ledger

/-!
# Components that lend

A lender is a machine that gives its items to the threads that ask for one and takes them
back. What the threads do with an item is not its business: it promises that an item is lent
to one of them at a time.
-/

namespace Interleave

inductive Lends (β : Type)
  | asks (t : Nat)
  | givesBack (t : Nat) (x : β)
  -- another call begins
  | begins (t : Nat)
  | goesOn (t : Nat)

structure Lender (σ α β : Type) where
  machine : Machine σ α
  part : α → Lends β
  -- the item that a step of a call gives to its thread
  grant : σ → α → Option β
  lent : σ → List β
  asking : σ → Nat → Bool
  -- the thread is in no call of the lender
  rests : σ → Nat → Bool

namespace Lender

variable {σ α β : Type} (L : Lender σ α β) {s s' : σ} {a : α} {t : Nat} {x : β}

def Effect (s s' : σ) (a : α) : Prop :=
  match L.part a with
  | .asks t => L.lent s' = L.lent s ∧ ∀ u, L.asking s' u = true → u = t ∨ L.asking s u = true
  | .givesBack _ x =>
    (L.lent s).Perm (x :: L.lent s') ∧ ∀ u, L.asking s' u = true → L.asking s u = true
  | .begins _ => L.lent s' = L.lent s ∧ ∀ u, L.asking s' u = true → L.asking s u = true
  | .goesOn t =>
    match L.grant s a with
    | none => L.lent s' = L.lent s ∧ ∀ u, L.asking s' u = true → L.asking s u = true
    | some x =>
      x ∉ L.lent s ∧ L.lent s' = x :: L.lent s ∧ L.asking s t = true ∧
        ∀ u, L.asking s' u = true → L.asking s u = true ∧ u ≠ t

structure Lawful : Prop where
  init : ∀ s, L.machine.init s → L.lent s = [] ∧ ∀ t, L.asking s t = false
  step : ∀ {s s' a}, L.machine.Reach Machine.always s → L.machine.step s a = some s' →
    L.Effect s s' a

variable {L}

namespace Effect

theorem asks (h : L.Effect s s' a) (ha : L.part a = .asks t) :
    L.lent s' = L.lent s ∧ ∀ u, L.asking s' u = true → u = t ∨ L.asking s u = true := by
  unfold Effect at h
  rwa [ha] at h

theorem givesBack (h : L.Effect s s' a) (ha : L.part a = .givesBack t x) :
    (L.lent s).Perm (x :: L.lent s') ∧ ∀ u, L.asking s' u = true → L.asking s u = true := by
  unfold Effect at h
  rwa [ha] at h

theorem begins (h : L.Effect s s' a) (ha : L.part a = .begins t) :
    L.lent s' = L.lent s ∧ ∀ u, L.asking s' u = true → L.asking s u = true := by
  unfold Effect at h
  rwa [ha] at h

theorem goesOn (h : L.Effect s s' a) (ha : L.part a = .goesOn t) (hg : L.grant s a = none) :
    L.lent s' = L.lent s ∧ ∀ u, L.asking s' u = true → L.asking s u = true := by
  unfold Effect at h
  rw [ha] at h
  simp only [hg] at h
  exact h

theorem grants (h : L.Effect s s' a) (ha : L.part a = .goesOn t) (hg : L.grant s a = some x) :
    x ∉ L.lent s ∧ L.lent s' = x :: L.lent s ∧ L.asking s t = true ∧
      ∀ u, L.asking s' u = true → L.asking s u = true ∧ u ≠ t := by
  unfold Effect at h
  rw [ha] at h
  simp only [hg] at h
  exact h

theorem of_none (ha : L.part a = .goesOn t) (hg : L.grant s a = none) (hl : L.lent s' = L.lent s)
    (hu : ∀ u, L.asking s' u = true → L.asking s u = true) : L.Effect s s' a := by
  unfold Effect
  rw [ha]
  simp only [hg]
  exact ⟨hl, hu⟩

theorem of_some (ha : L.part a = .goesOn t) (hg : L.grant s a = some x) (hx : x ∉ L.lent s)
    (hl : L.lent s' = x :: L.lent s) (ht : L.asking s t = true)
    (hu : ∀ u, L.asking s' u = true → L.asking s u = true ∧ u ≠ t) : L.Effect s s' a := by
  unfold Effect
  rw [ha]
  simp only [hg]
  exact ⟨hx, hl, ht, hu⟩

theorem nodup (h : L.Effect s s' a) (hn : (L.lent s).Nodup) : (L.lent s').Nodup := by
  cases ha : L.part a with
  | asks t => rw [(h.asks ha).1]; exact hn
  | givesBack t x => exact (List.nodup_cons.mp ((h.givesBack ha).1.nodup hn)).2
  | begins t => rw [(h.begins ha).1]; exact hn
  | goesOn t =>
    cases hg : L.grant s a with
    | none => rw [(h.goesOn ha hg).1]; exact hn
    | some x =>
      obtain ⟨hx, hl, -⟩ := h.grants ha hg
      rw [hl]
      exact List.nodup_cons.mpr ⟨hx, hn⟩

end Effect

/-- An item is lent to one thread at a time. -/
theorem Lawful.nodup (h : L.Lawful) (hr : L.machine.Reach Machine.always s) : (L.lent s).Nodup := by
  refine hr.invariant (I := fun s => (L.lent s).Nodup) ?_ ?_
  · intro s h0
    rw [(h.init s h0).1]
    exact List.nodup_nil
  · intro s a s' hr hn _ hs
    exact (h.step hr hs).nodup hn

end Lender

end Interleave
