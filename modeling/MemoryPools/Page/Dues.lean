import MemoryPools.Page.Release

/-!
# The pages of an arena and their last references

The law of the references of one page, over all pages of an arena. A page that was given
up and has no live block is due: it was deallocated, or one caller is about to do so.
-/

namespace MemoryPools

open Interleave

variable {π κ ι : Type}

/-- `hand` are the pages that the callers are about to deallocate. -/
structure Dues (R : Refs π) (page : Addr → π) (live : Addr → Nat → Prop) (freed : List Addr)
    (hand : ι → Option Addr) : Prop where
  wf : ∀ p, R.Wf (page p)
  held : ∀ p, ¬ R.owned (page p) → ∀ i, R.held (page p) i ↔ live p i
  ledger : Ledger freed hand
  owned : ∀ p, Owned freed hand p ↔ ¬ R.owned (page p) ∧ ∀ i, ¬ live p i

namespace Dues

variable {R : Refs π} {ops : PageOps π κ} {page page' : Addr → π} {live live' : Addr → Nat → Prop}
  {freed : List Addr} {hand hand' : ι → Option Addr} {t : ι} {p : Addr} {i : Nat} {x : π}
  {last : Bool}

theorem start (hwf : ∀ p, R.Wf (page p)) (ho : ∀ p, R.owned (page p)) (hh : ∀ t, hand t = none) :
    Dues R page live [] hand where
  wf := hwf
  held p hp := absurd (ho p) hp
  ledger := ledger_empty List.nodup_nil hh
  owned p := by
    rw [owned_empty hh]
    constructor
    · intro h
      cases h
    · intro h
      exact absurd (ho p) h.1

theorem keep (h : Dues R page live freed hand) (hwf : ∀ p, R.Wf (page' p))
    (howned : ∀ p, R.owned (page' p) ↔ R.owned (page p))
    (hheld : ∀ p, ¬ R.owned (page p) → ∀ i, R.held (page' p) i ↔ R.held (page p) i)
    (hlive : ∀ p, ¬ R.owned (page p) → ∀ i, live' p i ↔ live p i)
    (hh : ∀ t, hand' t = hand t) : Dues R page' live' freed hand' where
  wf := hwf
  held p hp i := by
    have hp := (not_congr (howned p)).mp hp
    rw [hheld p hp, hlive p hp]
    exact h.held p hp i
  ledger := h.ledger.congr hh
  owned p := by
    rw [owned_congr hh, h.owned, howned]
    apply and_congr_right
    intro hp
    exact forall_congr' fun i => not_congr (hlive p hp i).symm

/-- A caller that gave the last reference to page `p` back is about to deallocate it. -/
theorem giveBack (h : Dues R page live freed hand) (hwf : ∀ q, R.Wf (page' q))
    (hother : ∀ q, q ≠ p → page' q = page q ∧ ∀ i, live' q i ↔ live q i)
    (hheld : ¬ R.owned (page' p) → ∀ i, R.held (page' p) i ↔ live' p i)
    (hnot : R.owned (page p) ∨ ∃ i, live p i)
    (hlast : last = true ↔ (∀ i, ¬ R.held (page' p) i) ∧ ¬ R.owned (page' p))
    (ht : hand t = none) (ht' : hand' t = if last then some p else none)
    (hu : ∀ u, u ≠ t → hand' u = hand u) : Dues R page' live' freed hand' := by
  have hrest : ∀ q, q ≠ p → (¬ R.owned (page q) ∧ (∀ i, ¬ live q i) ↔
      ¬ R.owned (page' q) ∧ ∀ i, ¬ live' q i) := by
    intro q hq
    obtain ⟨hpage, hlive⟩ := hother q hq
    rw [hpage]
    exact and_congr_right fun _ => forall_congr' fun i => not_congr (hlive i).symm
  have hnew : ¬ Owned freed hand p := by
    rw [h.owned]
    rintro ⟨ho, hnone⟩
    rcases hnot with hp | ⟨i, hi⟩
    · exact ho hp
    · exact hnone i hi
  -- the last reference, read off the page, is the last live block or the arena's own
  have hdue : last = true ↔ ¬ R.owned (page' p) ∧ ∀ i, ¬ live' p i := by
    rw [hlast, and_comm]
    apply and_congr_right
    intro ho
    exact forall_congr' fun i => not_congr (hheld ho i)
  refine ⟨hwf, fun q hq i => ?_, ?_, fun q => ?_⟩
  · by_cases e : q = p
    · subst e
      exact hheld hq i
    · obtain ⟨hpage, hlive⟩ := hother q e
      rw [hpage] at hq ⊢
      rw [hlive]
      exact h.held q hq i
  · cases hl : last with
    | true =>
      rw [hl] at ht'
      exact h.ledger.make hnew ht' hu
    | false =>
      rw [hl] at ht'
      exact h.ledger.give ht' hu
  · cases hl : last with
    | true =>
      rw [hl] at ht'
      rw [owned_make ht ht' hu]
      by_cases e : q = p
      · subst e
        exact iff_of_true (Or.inr rfl) (hdue.mp hl)
      · rw [← hrest q e, ← h.owned]
        exact or_iff_left e
    | false =>
      rw [hl] at ht'
      have hsame : ∀ u, hand' u = hand u := by
        intro u
        by_cases e : u = t
        · rw [e, ht]
          exact ht'
        · exact hu u e
      rw [owned_congr hsame]
      by_cases e : q = p
      · subst e
        refine iff_of_false hnew fun hd => ?_
        rw [hdue.mpr hd] at hl
        cases hl
      · rw [← hrest q e, ← h.owned]

theorem giveBlock (h : Dues R page live freed hand) (hR : R.Lawful ops) (hi : R.held (page p) i)
    (hl : live p i) (hg : ops.giveBlock i (page p) = (x, last))
    (hpage : ∀ q, page' q = if q = p then x else page q)
    (hlive : ∀ q j, live' q j ↔ live q j ∧ (q, j) ≠ (p, i))
    (ht : hand t = none) (ht' : hand' t = if last then some p else none)
    (hu : ∀ u, u ≠ t → hand' u = hand u) : Dues R page' live' freed hand' := by
  obtain ⟨hwf, hheld, howned, hlast⟩ := hR.giveBlock (h.wf p) hi hg
  have hp : page' p = x := by rw [hpage, if_pos rfl]
  have hq : ∀ q, q ≠ p → page' q = page q := fun q e => by rw [hpage, if_neg e]
  refine h.giveBack (p := p) (fun q => ?_) (fun q e => ⟨hq q e, fun j => ?_⟩) (fun ho j => ?_)
    (Or.inr ⟨i, hl⟩) ?_ ht ht' hu
  · by_cases e : q = p
    · rw [e, hp]
      exact hwf
    · rw [hq q e]
      exact h.wf q
  · rw [hlive]
    exact and_iff_left fun e' => e (Prod.mk.inj e').1
  · rw [hp, howned] at ho
    rw [hp, hheld, hlive, h.held p ho]
    simp
  · rw [hp]
    exact hlast

theorem givePage (h : Dues R page live freed hand) (hR : R.Lawful ops) (ho : R.owned (page p))
    (hheld : ∀ i, R.held (page p) i ↔ live p i) (hg : ops.givePage (page p) = (x, last))
    (hpage : ∀ q, page' q = if q = p then x else page q)
    (ht : hand t = none) (ht' : hand' t = if last then some p else none)
    (hu : ∀ u, u ≠ t → hand' u = hand u) : Dues R page' live freed hand' := by
  obtain ⟨hwf, hheld', hgiven, hlast⟩ := hR.givePage (h.wf p) ho hg
  have hp : page' p = x := by rw [hpage, if_pos rfl]
  have hq : ∀ q, q ≠ p → page' q = page q := fun q e => by rw [hpage, if_neg e]
  refine h.giveBack (p := p) (fun q => ?_) (fun q e => ⟨hq q e, fun j => Iff.rfl⟩) (fun _ j => ?_)
    (Or.inl ho) ?_ ht ht' hu
  · by_cases e : q = p
    · rw [e, hp]
      exact hwf
    · rw [hq q e]
      exact h.wf q
  · rw [hp, hheld', hheld]
  · rw [hp, hlast]
    exact (and_iff_left hgiven).symm

theorem free (h : Dues R page live freed hand) (ht : hand t = some p) (ht' : hand' t = none)
    (hu : ∀ u, u ≠ t → hand' u = hand u) : Dues R page live (p :: freed) hand' where
  wf := h.wf
  held := h.held
  ledger := h.ledger.settle ht ht' hu
  owned q := (owned_settle ht ht' hu).trans (h.owned q)

theorem not_freed (h : Dues R page live freed hand) (hl : live p i) : p ∉ freed :=
  fun hp => ((h.owned p).mp (Or.inl hp)).2 i hl

/-- When no caller is about to deallocate a page, all that are due were deallocated. -/
theorem mem_freed (h : Dues R page live freed hand) (hh : ∀ t, hand t = none) :
    p ∈ freed ↔ ¬ R.owned (page p) ∧ ∀ i, ¬ live p i := by
  rw [← h.owned, owned_empty hh]

end Dues

end MemoryPools
