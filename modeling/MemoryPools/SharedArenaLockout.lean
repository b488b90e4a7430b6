import MemoryPools.SharedArenaLock

/-!
# No thread is locked out

If the flag of the writer is up, some thread is the writer. It can go on until it gives the lock
back, and then a call of `alloc` that runs alone returns.
-/

namespace MemoryPools

open Interleave

namespace SharedArena

open SharedState

variable {s s' : SharedState} {a : SharedAct} {t : Tid} {k : Nat}

/-! ## The flag and its holder -/

theorem findPlace_holder {pc : FindPc} {b : SharedArena} {arena : SharedArena}
    {control : Control FindPc (Addr × Nat)} (hs : b.findPlace pc = (arena, control))
    (hcalm : SharedCall.afterAlloc control ≠ .panicked) (hw : arena.writer = true) :
    (SharedCall.afterAlloc control).writes = true ∨ pc.writes = false ∧ b.writer = true := by
  have hc := congrArg Prod.snd hs
  have ha := congrArg (fun r => r.1.writer) hs
  cases pc with
  | loadFree | casFree =>
    simp only [findPlace] at ha
    refine Or.inr ⟨rfl, ?_⟩
    split at ha <;> exact ha.trans hw
  | acquire | loadNext | clearInFree | loadWriter | loadContended => exact Or.inr ⟨rfl, ha.trans hw⟩
  | swapWriter =>
    cases hb : b.writer with
    | true => exact Or.inr ⟨rfl, rfl⟩
    | false =>
      simp only [findPlace, hb, Bool.false_eq_true, ite_false] at hc
      exact Or.inl (hc ▸ rfl)
  | maybeFree guarded pc =>
    cases guarded with
    | false =>
      have hm : (b.maybeFreePages pc).1.writer = b.writer := by
        cases pc with
        | dropPage p rest pc => cases pc <;> rfl
        | loadDelay | fetchAdd | swapToFree => rfl
      exact Or.inr ⟨rfl, hm.symm.trans (ha.trans hw)⟩
    | true =>
      simp only [findPlace] at hc
      split at hc
      · exact Or.inl (hc ▸ rfl)
      · exact Or.inl (hc ▸ rfl)
      · exact absurd (congrArg SharedCall.afterAlloc hc.symm) hcalm
  | recheckFree | loadPending | loadToFree =>
    simp only [findPlace] at hc
    left
    rw [← hc]
    split <;> rfl
  | swapPending | loadPages =>
    obtain ⟨rfl, rfl⟩ := Prod.mk.inj hs
    exact Or.inl rfl
  | swapFree pending =>
    simp only [findPlace] at hc
    split at hc
    · exact Or.inl (hc ▸ rfl)
    · exact absurd (congrArg SharedCall.afterAlloc hc.symm) hcalm
  | take | put =>
    simp only [findPlace] at hc
    split at hc
    · exact Or.inl (hc ▸ rfl)
    · exact Or.inl (hc ▸ rfl)
    · exact absurd (congrArg SharedCall.afterAlloc hc.symm) hcalm
  | unlock =>
    have ha : false = arena.writer := ha
    rw [hw] at ha
    cases ha

theorem retainFrom_writes {start : Ptr} {kept rest : List Addr} :
    (retainFrom start kept rest).writes = true := by
  cases rest <;> rfl

theorem shrinkToFit_holder {pc : ShrinkPc} {b : SharedArena} {arena : SharedArena}
    {control : Control ShrinkPc Bool} (hs : b.shrinkToFit pc = (arena, control))
    (hcalm : SharedCall.afterShrink control ≠ .panicked) (hw : arena.writer = true) :
    (SharedCall.afterShrink control).writes = true ∨ pc.writes = false ∧ b.writer = true := by
  have hc := congrArg Prod.snd hs
  have ha := congrArg (fun r => r.1.writer) hs
  cases pc with
  | swapShrinking => exact Or.inr ⟨rfl, ha.trans hw⟩
  | swapWriter =>
    cases hb : b.writer with
    | true => exact Or.inr ⟨rfl, rfl⟩
    | false =>
      simp only [shrinkToFit, hb, Bool.false_eq_true, ite_false] at hc
      exact Or.inl (hc ▸ rfl)
  | swapFree | loadPages | walkNext | storeDelay | swapToFree | subPages | clearShrinking =>
    obtain ⟨rfl, rfl⟩ := Prod.mk.inj hs
    exact Or.inl rfl
  | walk start current toDrop =>
    simp only [shrinkToFit] at hc
    split at hc
    · exact Or.inl (hc ▸ rfl)
    · left
      rw [← hc]
      exact retainFrom_writes
  | retain start kept page rest =>
    obtain ⟨rfl, rfl⟩ := Prod.mk.inj hs
    exact Or.inl retainFrom_writes
  | walkBits | fullNext =>
    simp only [shrinkToFit] at hc
    split at hc
    · exact Or.inl (hc ▸ rfl)
    · exact Or.inl (hc ▸ rfl)
  | walkCas start current =>
    simp only [shrinkToFit] at hc
    split at hc
    · cases current <;> exact Or.inl (hc ▸ rfl)
    · exact Or.inl (hc ▸ rfl)
  | full =>
    simp only [shrinkToFit] at hc
    split at hc
    · exact Or.inl (hc ▸ rfl)
    · left
      rw [← hc]
      split <;> rfl
  | fullCas start toDrop current =>
    simp only [shrinkToFit] at hc
    split at hc
    · cases current <;> exact Or.inl (hc ▸ rfl)
    · exact absurd (congrArg SharedCall.afterShrink hc.symm) hcalm
  | storeToFree | restore =>
    simp only [shrinkToFit] at hc
    split at hc
    · exact Or.inl (hc ▸ rfl)
    · exact absurd (congrArg SharedCall.afterShrink hc.symm) hcalm
  | unlock =>
    have ha : false = arena.writer := ha
    rw [hw] at ha
    cases ha

def Held (s : SharedState) : Prop := s.arena.writer = true → ∃ t, holdsLock t s = true

theorem Held.thread (h : Held s) {arena : SharedArena} {handles : List (Addr × Nat)} {c : SharedCall}
    (hs : arena.writer = true →
      c.writes = true ∨ (s.threads.get t).writes = false ∧ s.arena.writer = true) :
    Held { arena, handles, threads := s.threads.set t c } := by
  intro hw
  rcases hs hw with hc | ⟨hquiet, hw'⟩
  · refine ⟨t, ?_⟩
    show ((s.threads.set t c).get t).writes = true
    rw [Store.get_set_self]
    exact hc
  · obtain ⟨u, hu⟩ := h hw'
    have hne : u ≠ t := by
      rintro rfl
      have hu : (s.threads.get u).writes = true := hu
      rw [hquiet] at hu
      cases hu
    refine ⟨u, ?_⟩
    show ((s.threads.set t c).get u).writes = true
    rw [Store.get_set_ne _ _ hne]
    exact hu

theorem Held.step (h : Held s) (hg' : GuardInv s') (hm : Moves s a s') : Held s' := by
  cases hm with
  | startAlloc ht | startShrink ht | startDrop ht =>
    refine h.thread fun hw => Or.inr ⟨?_, hw⟩
    rw [ht]
    rfl
  | @alloc t pc arena control ht hs =>
    have hcalm := hg'.calm t
    have hself : (s.threads.set t (.afterAlloc control)).get t = .afterAlloc control :=
      Store.get_set_self _ _ _
    refine h.thread fun hw => ?_
    rw [ht]
    exact findPlace_holder hs (hself ▸ hcalm) hw
  | @shrink t pc arena control ht hs =>
    have hcalm := hg'.calm t
    have hself : (s.threads.set t (.afterShrink control)).get t = .afterShrink control :=
      Store.get_set_self _ _ _
    refine h.thread fun hw => ?_
    rw [ht]
    exact shrinkToFit_holder hs (hself ▸ hcalm) hw
  | giveBlock ht hg =>
    obtain ⟨rfl, -⟩ := Prod.mk.inj hg
    refine h.thread fun hw => Or.inr ⟨?_, hw⟩
    rw [ht]
    rfl
  | freeBlock ht | push ht =>
    refine h.thread fun hw => Or.inr ⟨?_, hw⟩
    rw [ht]
    rfl

theorem Held.of_reach {C : SharedState → SharedAct → Prop} (h : machine.Reach C s) : Held s := by
  refine h.invariant ?_ fun s a s' hr hi hc hs => ?_
  · rintro s ⟨cap, rfl⟩ hw
    cases hw
  · exact hi.step (GuardInv.of_reach (.step hr hc hs)) (moves_of_step hs)

/-! ## No call is locked out -/

theorem findPlace_made {pc : FindPc} {b : SharedArena} (hw : pc.writes = true) :
    made (b.findPlace pc).2 = [] := by
  cases pc with
  | loadFree | acquire | loadNext | casFree | clearInFree | loadWriter | swapWriter
  | loadContended => cases hw
  | recheckFree | loadPending | swapPending | loadToFree | loadPages | unlock => rfl
  | swapFree =>
    simp only [findPlace]
    split <;> rfl
  | maybeFree | take | put =>
    simp only [findPlace]
    split <;> rfl

/-- The writer can go on, and its operations meet the condition on the `compare_exchange`. -/
theorem writer_steps (hw : holdsLock t s = true) : ∃ s', machine.step s (.step t) = some s' ∧
    s.popsCurrent (.step t) = true ∧ s'.handles = s.handles := by
  unfold holdsLock at hw
  cases hc : s.threads.get t with
  | alloc pc =>
    rw [hc] at hw
    have hw : pc.writes = true := hw
    refine ⟨_, step_of_alloc hc, ?_, ?_⟩
    · simp only [SharedState.popsCurrent, hc]
      cases pc with
      | casFree => cases hw
      | _ => rfl
    · show made (s.arena.findPlace pc).2 ++ s.handles = s.handles
      rw [findPlace_made hw, List.nil_append]
  | shrink pc =>
    refine ⟨_, step_of_shrink hc, ?_, rfl⟩
    simp only [SharedState.popsCurrent, hc]
  | idle | drop | panicked =>
    rw [hc] at hw
    cases hw

/-- Left alone, the writer is done within what it has left. -/
theorem writer_finishes (h : machine.Reach (fun s a => s.popsCurrent a = true) s)
    (hw : holdsLock t s = true) (hleft : LockLeft t s k) :
    ∃ m s', m ≤ k + 1 ∧ machine.run s (SharedAct.steps t m) = some s' ∧
      machine.Reach (fun s a => s.popsCurrent a = true) s' ∧ holdsLock t s' = false ∧
      s'.handles = s.handles ∧ ∀ u, u ≠ t → s'.threads.get u = s.threads.get u := by
  induction k using Nat.strongRecOn generalizing s with
  | ind k ih =>
    obtain ⟨s₁, hs, hpop, hhandles⟩ := writer_steps hw
    have hm : Moves s (.step t) s₁ := moves_of_step hs
    have h₁ := h.step hpop hs
    cases hw₁ : holdsLock t s₁ with
    | false =>
      refine ⟨1, s₁, by omega, ?_, h₁, hw₁, hhandles, fun u hu => hm.other hu⟩
      simp only [SharedAct.steps, List.replicate_one, Machine.run, hs]
    | true =>
      obtain ⟨place, listed, hl⟩ := SharedListsInv.of_popsCurrent (fun _ _ hc => hc) h
      obtain ⟨m, hleft₁, hle⟩ := hleft.step hl (GuardInv.of_reach h) hpop hm hw hw₁
      rw [if_pos (by simp [steps])] at hle
      obtain ⟨n, s', hn, hrun, h', hw', hhandles', hother⟩ := ih m (by omega) h₁ hw₁ hleft₁
      refine ⟨n + 1, s', by omega, ?_, h', hw', hhandles'.trans hhandles, fun u hu => ?_⟩
      · simp only [SharedAct.steps, List.replicate_succ, Machine.run, hs]
        exact hrun
      · exact (hother u hu).trans (hm.other hu)

/-- No reachable state locks a thread out: after at most so many operations of one thread, which is
the writer if there is one, a call of `alloc` of any idle thread returns that runs alone. The cells
of a page that was deallocated stay in the model, and its address is not used again. -/
theorem alloc_not_locked_out (h : machine.Reach (fun s a => s.popsCurrent a = true) s) :
    ∃ u m s₁, (s.arena.writer = true → holdsLock u s = true) ∧ m ≤ 8 * s.arena.heap.size + 14 ∧
      machine.run s (SharedAct.steps u m) = some s₁ ∧
      ∀ t, s.threads.get t = .idle → ∃ n s' p i,
        machine.run s₁ (SharedAct.allocs t n) = some s' ∧ s'.threads.get t = .idle ∧
        s'.handles = (p, i) :: s.handles ∧ ¬ s.Live p i := by
  cases hw : s.arena.writer with
  | false =>
    refine ⟨0, 0, s, nofun, Nat.zero_le _, rfl, fun t ht => ?_⟩
    obtain ⟨n, s', p, i, hrun, hidle, hhandles, hlive, -⟩ := alloc_returns h ht (Or.inl hw)
    exact ⟨n, s', p, i, hrun, hidle, hhandles, hlive⟩
  | true =>
    obtain ⟨u, hu⟩ := Held.of_reach h hw
    obtain ⟨place, listed, hl⟩ := SharedListsInv.of_popsCurrent (fun _ _ hc => hc) h
    obtain ⟨m, s₁, hm, hrun, h₁, hu₁, hhandles, hother⟩ := writer_finishes h hu (.start hl hu)
    have hquiet : ∀ v, holdsLock v s₁ = false := by
      intro v
      by_cases e : v = u
      · rw [e]
        exact hu₁
      · cases hv : holdsLock v s₁ with
        | false => rfl
        | true =>
          have hv : (s₁.threads.get v).writes = true := hv
          rw [hother v e] at hv
          exact absurd ((GuardInv.of_reach h).lock.one v u hv hu) e
    have hw₁ : s₁.arena.writer = false := by
      cases hw₁ : s₁.arena.writer with
      | false => rfl
      | true =>
        obtain ⟨v, hv⟩ := Held.of_reach h₁ hw₁
        rw [hquiet v] at hv
        cases hv
    refine ⟨u, m, s₁, fun _ => hu, hm, hrun, fun t ht => ?_⟩
    have hne : t ≠ u := by
      rintro rfl
      unfold holdsLock at hu
      rw [ht] at hu
      cases hu
    obtain ⟨n, s', p, i, hrun', hidle, hhandles', hlive, -⟩ :=
      alloc_returns h₁ ((hother t hne).trans ht) (Or.inl hw₁)
    refine ⟨n, s', p, i, hrun', hidle, hhandles'.trans (by rw [hhandles]), ?_⟩
    rintro (hl | ⟨v, hv⟩)
    · exact hlive (Or.inl (hhandles ▸ hl))
    · have hne' : v ≠ u := by
        rintro rfl
        unfold holdsLock at hu
        cases hc : s.threads.get v with
        | drop =>
          rw [hc] at hu
          cases hu
        | idle | alloc | shrink | panicked =>
          rw [handOf_get hc] at hv
          cases hv
      refine hlive (Or.inr ⟨v, ?_⟩)
      unfold handOf at hv ⊢
      rwa [hother v hne']

/-- Thread 0 is the writer and stands before the new pages. It moves, and then thread 1 gets a
block. -/
theorem alloc_not_locked_out_grow : ∃ s : SharedState, s.threads.get 0 = .alloc .loadPages ∧
    s.arena.writer = true ∧ ∃ m s₁ n s' p i, m ≤ 22 ∧
      machine.run s (SharedAct.steps 0 m) = some s₁ ∧
      machine.run s₁ (SharedAct.allocs 1 n) = some s' ∧ s'.threads.get 1 = .idle ∧
      s'.handles = (p, i) :: s.handles ∧ ¬ s.Live p i := by
  have hstart : machine.init (.start 1) := ⟨1, rfl⟩
  obtain ⟨s, hs, hp⟩ := Machine.Reach.exists_of_runIf hstart (fun s a => s.popsCurrent a)
    (SharedAct.takes 0 63 ++ SharedAct.allocs 0 11)
    (fun s => s.threads.get 0 = .alloc .loadPages ∧ s.arena.writer = true ∧
      s.arena.heap.size = 1 ∧ s.threads.get 1 = .idle) (fun _ _ hok => hok) (by decide +kernel)
  obtain ⟨ht, hw, hsize, hidle⟩ := of_decide_eq_true hp
  obtain ⟨u, m, s₁, hu, hm, hrun, hall⟩ := alloc_not_locked_out hs
  obtain ⟨n, s', p, i, hrun', hidle', hhandles, hlive⟩ := hall 1 hidle
  -- there is one writer
  have h0 : holdsLock 0 s = true := by
    unfold holdsLock
    rw [ht]
    rfl
  obtain rfl := (GuardInv.of_reach hs).lock.one u 0 (hu hw) h0
  rw [hsize] at hm
  exact ⟨s, ht, hw, m, s₁, n, s', p, i, hm, hrun, hrun', hidle', hhandles, hlive⟩

end SharedArena

end MemoryPools
