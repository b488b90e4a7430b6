import MemoryPools.Page.SharedArenaSound
import MemoryPools.Page.ArenaSound
import MemoryPools.Page.PoolSound

/-!
# Every page is deallocated once

For each kind of page, whatever blocks are live and in whatever order they and
the arena's own reference are given back (`deallocated_once`).
-/

namespace MemoryPools

open Interleave

variable {π κ : Type} {ops : PageOps π κ} {R : Refs π} {self : Addr} {s s' : PageState π κ}
  {a : PageAct}

/-! ## What one step changes -/

theorem deallocates_step (hm : ops.Moves self s a s') {w : Option Tid} (hw : w ≠ a.caller) :
    s'.Deallocates w ↔ s.Deallocates w := by
  unfold PageState.Deallocates
  cases hm with
  | startAcquire | startDrop | acquire | keep | giveBlock | freeBlock | push =>
    exact deallocates_set_ne _ _ w hw
  | startDropPage | givePage | freePage => exact deallocates_arena _ _ w hw
  | other => exact Iff.rfl

theorem deallocs_step (hm : ops.Moves self s a s') :
    s'.deallocs = s.deallocs ∨ s'.deallocs = s.deallocs + 1 ∧ s.Deallocates a.caller := by
  cases hm with
  | freeBlock ht => exact Or.inr ⟨rfl, _, ht⟩
  | freePage harena => exact Or.inr ⟨rfl, harena⟩
  | startAcquire | startDrop | startDropPage | acquire | keep | giveBlock | push | givePage
  | other => exact Or.inl rfl

/-! ## Pages whose references are atomic -/

/-- What "once" means in one state and in the step after it. -/
structure FreedOnce (ops : PageOps π κ) (addr : Addr) (s : PageState π κ) : Prop where
  -- not while a block is live or the arena owns the page
  referenced : s.Referenced → s.deallocs = 0 ∧ ∀ w, ¬ s.Deallocates w
  once : s.deallocs ≤ 1
  -- whose read-modify-write gives the last reference back deallocates, and nobody else
  last : ∀ a s', a.isAcquire = false → ops.stepPage addr s a = some s' → s.Referenced →
    ¬ s'.Referenced →
    ∀ w, s'.Deallocates w ↔ w = a.caller
  freed : ∀ a s', ops.stepPage addr s a = some s' → s'.deallocs ≠ s.deallocs →
    s.Deallocates a.caller ∧ s.deallocs = 0 ∧ s'.deallocs = 1
  returned : s.handles = [] → (∀ t, s.threads.get t = .idle) → s.arena = .gone → s.deallocs = 1

theorem ReleaseInv.freedOnce (hR : R.Lawful ops) (h : ReleaseInv R s) : FreedOnce ops self s := by
  refine ⟨h.busy, ?_, fun a s' ha hs hr hr' w => ?_, fun a s' hs hne => ?_, fun hh ht harena => ?_⟩
  · by_cases hr : s.Referenced
    · rw [(h.busy hr).1]; omega
    · rcases h.spent hr with ⟨h1, _⟩ | ⟨h0, _⟩ <;> omega
  · have hm := ops.moves_of_stepPage hs
    obtain ⟨h0, hnone⟩ := h.busy hr
    have h0' : s'.deallocs = 0 := by
      rcases deallocs_step hm with e | ⟨_, hd⟩
      · rw [e, h0]
      · exact absurd hd (hnone _)
    have hcaller : ∀ v, s'.Deallocates v → v = a.caller := by
      intro v hv
      by_contra hne
      exact hnone v ((deallocates_step hm hne).mp hv)
    rcases (h.step hR ha hs).spent hr' with ⟨h1, _⟩ | ⟨_, v, hv, _⟩
    · rw [h0'] at h1; cases h1
    · refine ⟨hcaller w, fun e => ?_⟩
      rw [e, ← hcaller v hv]
      exact hv
  · rcases deallocs_step (ops.moves_of_stepPage hs) with e | ⟨e, hd⟩
    · exact absurd e hne
    · have h0 := (h.sole hd).2.1
      exact ⟨hd, h0, by rw [e, h0]⟩
  · have hr : ¬ s.Referenced := by
      intro hr
      rcases hr with ⟨i, hi | ⟨t, hi⟩⟩ | hi | hi
      · rw [hh] at hi; cases hi
      · unfold handOf at hi; rw [ht t] at hi; cases hi
      · rw [harena] at hi; cases hi
      · rw [harena] at hi; cases hi
    rcases h.spent hr with ⟨h1, _⟩ | ⟨_, w, hw, _⟩
    · exact h1
    · cases w with
      | none => rw [PageState.Deallocates, deallocates_none, harena] at hw; cases hw
      | some t =>
        obtain ⟨i, hi⟩ := hw
        rw [ht t] at hi; cases hi

/-! ## Pages of a pool -/

/-- `drop_block` and `drop_page` are one step here, so the step that gives the last
reference back is itself the one that deallocates. -/
structure PagePool.FreedOnce (addr : Addr) (s : PagePoolState) : Prop where
  referenced : PagePool.Referenced s → s.deallocs = 0
  returned : ¬ PagePool.Referenced s → s.deallocs = 1
  last : ∀ a s', PagePool.step addr s a = some s' →
    (s'.deallocs ≠ s.deallocs ↔ PagePool.Referenced s ∧ ¬ PagePool.Referenced s')

theorem PagePool.Inv.freedOnce {s : PagePoolState} (h : PagePool.Inv s) :
    PagePool.FreedOnce self s := by
  refine ⟨h.busy, h.spent, fun a s' hs => ?_⟩
  have h' := h.step hs
  by_cases hr : PagePool.Referenced s
  · by_cases hr' : PagePool.Referenced s'
    · simp [hr', h.busy hr, h'.busy hr']
    · simp [hr, hr', h.busy hr, h'.spent hr']
  · have hr' : ¬ PagePool.Referenced s' := by
      -- a page that was given up gets no reference back
      have hnil : s.handles = [] := by by_contra hne; exact hr (Or.inl hne)
      have ho : s.owned = false := by by_contra ho; exact hr (Or.inr (by simpa using ho))
      cases a with
      | drop index upgraded => simp [PagePool.step, hnil] at hs
      | dropPage => simp [PagePool.step, ho] at hs
      | other nextFree next inFreeList free =>
        obtain rfl := Option.some.inj hs
        exact hr
    simp [hr, h.spent hr, h'.spent hr']

/-! ## The three kinds -/

/-- Without allocations every kind of page is deallocated exactly once: by whoever
gives its last reference back, and not before. -/
theorem deallocated_once (self : Addr) :
    (∀ s, (PageSharedArena.machine self).Reach (fun _ a => a.isAcquire = false) s →
      FreedOnce PageSharedArena.ops self s) ∧
    (∀ s, (PageArena.machine self).Reach (fun _ a => a.isAcquire = false) s →
    FreedOnce PageArena.ops self s) ∧
    (∀ s, (PagePool.machine self).Reach Machine.always s → PagePool.FreedOnce self s) := by
  refine ⟨fun s hs => ?_, fun s hs => ?_, fun s hs => (PagePool.Inv.of_reach hs).freedOnce⟩
  · exact (ReleaseInv.of_reach PageSharedArena.refs_lawful (fun _ _ h => h) hs).freedOnce
      PageSharedArena.refs_lawful
  · exact (ReleaseInv.of_reach PageArena.refs_lawful (fun _ _ h => h) hs).freedOnce
      PageArena.refs_lawful

def betweenDrops : List PageAct :=
  [.drop 0 0, .step 0 true, .dropPage, .stepArena, .drop 1 4, .step 1 false, .step 1 false,
    .step 0 true]

theorem deallocated_once_between :
    ∃ s : PageState PageArena PageArena.AcquirePc, s.handles = [] ∧ s.arena = .gone ∧
    s.deallocs ≤ 1 := by
  have hstart : (PageArena.machine 0).init (PageArena.withLive [0, 4]) :=
    PageArena.start_withLive (by decide) (by decide)
  obtain ⟨s, hs, hp⟩ :=
    Machine.Reach.exists_of_runIf hstart (fun _ a => decide (a.isAcquire = false)) betweenDrops
    (fun s => s.handles = [] ∧ s.arena = .gone ∧ s.deallocs = 1) (fun _ _ h => of_decide_eq_true h)
      (by decide +kernel)
  obtain ⟨h1, h2, -⟩ := of_decide_eq_true hp
  exact ⟨s, h1, h2, ((deallocated_once 0).2.1 s hs).once⟩

end MemoryPools
