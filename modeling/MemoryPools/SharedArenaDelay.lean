import MemoryPools.SharedArenaSound
import MemoryPools.Interleave.Call

/-!
# The pages that wait for their deallocation

`to_free` and `to_free_delay` are two atomics. `shrink_to_fit` resets the delay first and
hands the pages over later, and `maybe_free_pages` counts without the lock. What was
counted in between is lost to the new pages.
-/

namespace MemoryPools

open Interleave SharedArena

namespace SharedCall

/-- The call counted the delay to its end, and is about to take `to_free`. -/
def countedOut : SharedCall → Bool
  | .alloc (.maybeFree _ .swapToFree) => true
  | _ => false

def settles : SharedCall → Bool
  | .alloc (.take (.storeDelay delay)) => delay < delayDropShrink
  | c => c.countedOut

theorem settles_of_countedOut {c : SharedCall} (h : c.countedOut = true) : c.settles = true := by
  unfold settles
  split
  · cases h
  · exact h

def Ends (a : SharedArena) : SharedCall → Prop
  | .alloc (.take (.storeDelay delay)) => delay < delayDropShrink ∨ a.toFree = none
  | _ => True

theorem ends_of_quiet {a : SharedArena} {c : SharedCall} (h : c.writes = false) : c.Ends a := by
  cases c with
  | alloc pc =>
    cases pc with
    | take => cases h
    | loadFree | acquire | loadNext | casFree | clearInFree | loadWriter | swapWriter
    | loadContended | maybeFree | recheckFree | loadPending | swapPending | swapFree | loadToFree
    | loadPages | put | unlock => trivial
  | idle | shrink | drop | panicked => trivial

theorem Ends.keep {a a' : SharedArena} {c : SharedCall} (h : c.Ends a)
    (hl : a.toFree = none → a'.toFree = none) : c.Ends a' := by
  unfold Ends at *
  split
  · exact h.imp_right hl
  · trivial

end SharedCall

/-! ## What a step does to the delay -/

structure Counts (a a' : SharedArena) (c c' : SharedCall) : Prop where
  ends : c'.Ends a'
  delay : a'.toFree ≠ none → a'.toFreeDelay < delayDropShrink ∨ c'.settles = true ∨
    (a.toFree ≠ none ∧ ¬ a.toFreeDelay < delayDropShrink ∧ c.settles = false)

namespace Counts

variable {a a' : SharedArena} {c c' : SharedCall}

theorem same (htf : a'.toFree = a.toFree) (hd : a'.toFreeDelay = a.toFreeDelay)
    (hc : c.settles = false) (he : c'.Ends a') : Counts a a' c c' := by
  refine ⟨he, fun hne => ?_⟩
  rw [htf] at hne
  by_cases hlt : a.toFreeDelay < delayDropShrink
  · exact Or.inl (hd ▸ hlt)
  · exact Or.inr (Or.inr ⟨hne, hlt, hc⟩)

theorem taken (h : a'.toFree = none) (he : c'.Ends a') : Counts a a' c c' :=
  ⟨he, fun hne => absurd h hne⟩

end Counts

namespace SharedArena

variable {a a' : SharedArena}

theorem putPages_delay (a : SharedArena) (n : Nat) (first last : Addr) (pc : PutPc) :
    (a.putPages n first last pc).1.toFree = a.toFree ∧
    (a.putPages n first last pc).1.toFreeDelay = a.toFreeDelay := by
  cases pc <;> exact ⟨rfl, rfl⟩

theorem maybeFree_ends {guarded : Bool} {control : Control MaybePc Unit} :
    (SharedCall.afterAlloc (match control with
      | .goto pc => .goto (.maybeFree guarded pc)
      | .ret () => .goto (if guarded then .unlock else .loadFree)
      | .panic => .panic)).Ends a := by
  cases control with
  | goto | panic => trivial
  | ret => cases guarded <;> trivial

theorem maybeFree_counts {guarded : Bool} {pc : MaybePc} :
    Counts a (a.maybeFreePages pc).1 (.alloc (.maybeFree guarded pc))
      (.afterAlloc (match (a.maybeFreePages pc).2 with
        | .goto pc => .goto (.maybeFree guarded pc)
        | .ret () => .goto (if guarded then .unlock else .loadFree)
        | .panic => .panic)) := by
  cases pc with
  | loadDelay => exact .same rfl rfl rfl maybeFree_ends
  | dropPage => exact .same rfl rfl rfl maybeFree_ends
  | swapToFree => exact .taken rfl maybeFree_ends
  | fetchAdd =>
    refine ⟨maybeFree_ends, fun hne => ?_⟩
    by_cases hlt : a.toFreeDelay < delayDropShrink
    · by_cases hlast : a.toFreeDelay = delayDropShrink - 1
      · -- the tenth call is about to take the pages
        right; left
        simp only [maybeFreePages, hlast, ite_true]
        rfl
      · left
        have : a.toFreeDelay + 1 < delayDropShrink := by omega
        exact lt_of_le_of_lt (Nat.mod_le _ _) this
    · exact Or.inr (Or.inr ⟨hne, hlt, rfl⟩)

theorem linkFrom_ends {kept reinsert rest : List Addr} :
    (SharedCall.afterAlloc (match linkFrom kept reinsert rest with
      | .goto pc => .goto (.take pc)
      | .ret () => .goto .unlock
      | .panic => .panic)).Ends a := by
  cases rest with
  | cons => trivial
  | nil =>
    unfold linkFrom
    cases reinsert.head? with
    | none => trivial
    | some first => cases reinsert.getLast? <;> trivial

theorem takePages_counts {pc : TakePc} (hk : pc.Knows a)
    (he : (SharedCall.alloc (.take pc)).Ends a) :
    Counts a (a.takePages pc).1 (.alloc (.take pc))
      (.afterAlloc (match (a.takePages pc).2 with
        | .goto pc => .goto (.take pc)
        | .ret () => .goto .unlock
        | .panic => .panic)) := by
  cases pc with
  | swapToFree =>
    refine .taken rfl ?_
    simp only [takePages]
    cases a.toFree <;> trivial
  | loadPages toFree =>
    refine .same rfl rfl rfl ?_
    exact linkFrom_ends
  | linkFree kept reinsert rest =>
    cases rest with
    | nil => exact .same rfl rfl rfl trivial
    | cons => exact .same rfl rfl rfl trivial
  | link kept reinsert rest =>
    cases rest with
    | nil => exact .same rfl rfl rfl trivial
    | cons => exact .same rfl rfl rfl trivial
  | setInFree kept reinsert rest =>
    cases rest with
    | nil => exact .same rfl rfl rfl trivial
    | cons => exact .same rfl rfl rfl linkFrom_ends
  | put kept reinsert first last pc =>
    obtain ⟨htf, hd⟩ := a.putPages_delay reinsert.length first last pc
    refine .same htf hd rfl ?_
    simp only [takePages]
    cases (a.putPages reinsert.length first last pc).2 with
    | goto | panic => trivial
    | ret =>
      by_cases hkept : kept = []
      · simp only [hkept, ne_eq, not_true_eq_false, ite_false]
        exact Or.inr (htf.trans hk.2)
      · simp only [ne_eq, hkept, not_false_eq_true, ite_true]
        trivial
  | storeToFree kept =>
    have hnone : a.toFree = none := hk.1
    simp only [takePages, hnone, ite_true]
    exact ⟨Or.inl (by decide), fun _ => Or.inr (Or.inl rfl)⟩
  | storeDelay delay => exact ⟨trivial, fun hne => Or.inl (he.resolve_right hne)⟩

theorem findPlace_counts {pc : FindPc} {control : Control FindPc (Addr × Nat)} (hk : pc.Knows a)
    (he : (SharedCall.alloc pc).Ends a) (hs : a.findPlace pc = (a', control)) :
    Counts a a' (.alloc pc) (.afterAlloc control) := by
  cases pc with
  | loadFree =>
    simp only [findPlace] at hs
    split at hs <;> obtain ⟨rfl, rfl⟩ := Prod.mk.inj hs
    · exact .same rfl rfl rfl trivial
    · exact .same rfl rfl rfl trivial
  | acquire p pc =>
    simp only [findPlace] at hs
    obtain ⟨rfl, rfl⟩ := Prod.mk.inj hs
    refine .same rfl rfl rfl ?_
    cases (PageSharedArena.acquireFreeBlock (a.page p) pc).2 with
    | goto | panic => trivial
    | ret r => cases r <;> trivial
  | casFree =>
    simp only [findPlace] at hs
    split at hs <;> obtain ⟨rfl, rfl⟩ := Prod.mk.inj hs
    · exact .same rfl rfl rfl trivial
    · exact .same rfl rfl rfl trivial
  | maybeFree guarded pc =>
    simp only [findPlace] at hs
    obtain ⟨rfl, rfl⟩ := Prod.mk.inj hs
    exact maybeFree_counts
  | take pc =>
    simp only [findPlace] at hs
    obtain ⟨rfl, rfl⟩ := Prod.mk.inj hs
    exact takePages_counts hk he
  | put n first last pc =>
    obtain ⟨htf, hd⟩ := a.putPages_delay n first last pc
    simp only [findPlace] at hs
    obtain ⟨rfl, rfl⟩ := Prod.mk.inj hs
    refine .same htf hd rfl ?_
    cases (a.putPages n first last pc).2 <;> trivial
  | loadNext | clearInFree | swapPending | loadPages | unlock =>
    obtain ⟨rfl, rfl⟩ := Prod.mk.inj hs
    exact .same rfl rfl rfl trivial
  | loadWriter | swapWriter | loadContended | recheckFree | loadPending | swapFree | loadToFree =>
    obtain ⟨rfl, rfl⟩ := Prod.mk.inj hs
    refine .same rfl rfl rfl ?_
    split <;> trivial

theorem shrinkToFit_counts {pc : ShrinkPc} {control : Control ShrinkPc Bool}
    (hs : a.shrinkToFit pc = (a', control))
    (hpc : ∀ start nfreed toFree, pc ≠ .storeToFree start nfreed toFree) :
    Counts a a' (.shrink pc) (.afterShrink control) := by
  have he : ∀ a, (SharedCall.afterShrink control).Ends a := by
    intro a
    cases control <;> trivial
  cases pc with
  | storeToFree start nfreed toFree => exact absurd rfl (hpc start nfreed toFree)
  | storeDelay =>
    obtain ⟨rfl, rfl⟩ := Prod.mk.inj hs
    exact ⟨he _, fun _ => Or.inl (show 0 < delayDropShrink by decide)⟩
  | swapToFree =>
    obtain ⟨rfl, rfl⟩ := Prod.mk.inj hs
    exact .taken rfl (he _)
  | walkCas start current | fullCas start _ current =>
    simp only [shrinkToFit] at hs
    split at hs
    · cases current <;> · obtain ⟨rfl, -⟩ := Prod.mk.inj hs; exact .same rfl rfl rfl (he _)
    · obtain ⟨rfl, -⟩ := Prod.mk.inj hs
      exact .same rfl rfl rfl (he _)
  | walk | walkBits | full | fullNext =>
    simp only [shrinkToFit] at hs
    split at hs <;> · obtain ⟨rfl, -⟩ := Prod.mk.inj hs; exact .same rfl rfl rfl (he _)
  | swapShrinking | swapWriter | swapFree | loadPages | walkNext | retain | restore | subPages
  | clearShrinking | unlock =>
    obtain ⟨rfl, -⟩ := Prod.mk.inj hs
    exact .same rfl rfl rfl (he _)

end SharedArena

/-! ## The invariant -/

namespace SharedState

/-- When `shrink_to_fit` hands pages over, the delay still runs, or a call that counted it
to its end is about to take the pages. -/
def handsOverInTime (s : SharedState) : SharedAct → Bool
  | .step t => match s.threads.get t with
    | .shrink (.storeToFree ..) =>
      s.arena.toFreeDelay < delayDropShrink || s.threads.any SharedCall.countedOut
    | _ => true
  | _ => true

end SharedState

structure DelayInv (s : SharedState) : Prop where
  ends : ∀ t, (s.threads.get t).Ends s.arena
  delay : s.arena.toFree ≠ none → s.arena.toFreeDelay < delayDropShrink ∨
    ∃ t, (s.threads.get t).settles = true

namespace DelayInv

variable {s s' : SharedState} {arena : SharedArena} {handles : List (Addr × Nat)} {t : Tid}
  {c c' : SharedCall}

theorem settles_kept (h : ∃ u, (s.threads.get u).settles = true) (hc : s.threads.get t = c)
    (hq : c.settles = false) : ∃ u, ((s.threads.set t c').get u).settles = true := by
  obtain ⟨u, hu⟩ := h
  have e : u ≠ t := by
    intro e
    rw [e, hc, hq] at hu
    cases hu
  exact ⟨u, by rw [Store.get_set_ne _ _ e]; exact hu⟩

theorem ends_kept (h : DelayInv s) (hg : GuardInv s) (hc : s.threads.get t = c)
    (hl : c.writes = false → s.arena.toFree = none → arena.toFree = none) (he : c'.Ends arena)
    (u : Tid) : ((s.threads.set t c').get u).Ends arena := by
  by_cases e : u = t
  · subst e
    rw [Store.get_set_self]
    exact he
  · rw [Store.get_set_ne _ _ e]
    cases hu : (s.threads.get u).writes with
    | false => exact SharedCall.ends_of_quiet hu
    | true =>
      -- the writer is another thread
      refine (h.ends u).keep (hl ?_)
      by_contra hw
      exact e (hg.lock.one u t hu (by rw [hc]; simpa using hw))

theorem thread (h : DelayInv s) (hg : GuardInv s) (hc : s.threads.get t = c)
    (hl : c.writes = false → s.arena.toFree = none → arena.toFree = none)
    (hs : Counts s.arena arena c c') : DelayInv { arena, handles, threads := s.threads.set t c' } := by
  refine ⟨h.ends_kept hg hc hl hs.ends, fun hne => ?_⟩
  rcases hs.delay hne with hlt | hsettles | ⟨hne', hlt, hsettles⟩
  · exact Or.inl hlt
  · refine Or.inr ⟨t, ?_⟩
    show ((s.threads.set t c').get t).settles = true
    rw [Store.get_set_self]
    exact hsettles
  · exact Or.inr (settles_kept ((h.delay hne').resolve_left hlt) hc hsettles)

theorem outside (h : DelayInv s) (hg : GuardInv s) (hc : s.threads.get t = c)
    (hw : c'.writes = false) (htf : arena.toFree = s.arena.toFree)
    (hd : arena.toFreeDelay = s.arena.toFreeDelay) (hq : c.settles = false) :
    DelayInv { arena, handles, threads := s.threads.set t c' } :=
  h.thread hg hc (fun _ => htf.trans) (.same htf hd hq (SharedCall.ends_of_quiet hw))

theorem handOver (h : DelayInv s) (hg : GuardInv s) {start : Ptr} {nfreed : Nat}
    {toFree : List Addr} (hc : s.threads.get t = .shrink (.storeToFree start nfreed toFree))
    (hcount : s.handsOverInTime (.step t) = true) {control : Control ShrinkPc Bool}
    (hs : s.arena.shrinkToFit (.storeToFree start nfreed toFree) = (arena, control)) :
    DelayInv { s with arena, threads := s.threads.set t (.afterShrink control) } := by
  obtain ⟨rfl, -⟩ := Prod.mk.inj hs
  refine ⟨h.ends_kept hg hc nofun (by cases control <;> trivial), fun _ => ?_⟩
  simp only [SharedState.handsOverInTime, hc, Bool.or_eq_true, decide_eq_true_eq] at hcount
  rcases hcount with hlt | hany
  · exact Or.inl hlt
  · obtain ⟨u, hu⟩ := Store.any_iff.mp hany
    exact Or.inr (settles_kept ⟨u, SharedCall.settles_of_countedOut hu⟩ hc rfl)

theorem step (h : DelayInv s) (hg : GuardInv s) {a : SharedAct}
    (hcount : s.handsOverInTime a = true) (hm : SharedState.Moves s a s') : DelayInv s' := by
  cases hm with
  | startAlloc ht | startShrink ht | startDrop ht => exact h.outside hg ht rfl rfl rfl rfl
  | @alloc t pc arena control ht hs =>
    have hk := hg.knows t
    have he := h.ends t
    rw [ht] at hk he
    have hsteps := findPlace_steps hk hg.toFree (fun hw => hg.lock.up t (by rw [ht]; exact hw)) hs
    exact h.thread hg ht (fun hw => (hsteps.leaves hw).toFree) (findPlace_counts hk he hs)
  | @shrink t pc arena control ht hs =>
    have hk := hg.knows t
    rw [ht] at hk
    have hsteps := shrinkToFit_steps hk hg.toFree (fun hw => hg.lock.up t (by rw [ht]; exact hw)) hs
    by_cases hpc : ∃ start nfreed toFree, pc = .storeToFree start nfreed toFree
    · obtain ⟨start, nfreed, toFree, rfl⟩ := hpc
      exact h.handOver hg ht hcount hs
    · refine h.thread hg ht (fun hw => (hsteps.leaves hw).toFree) (shrinkToFit_counts hs ?_)
      exact fun start nfreed toFree e => hpc ⟨start, nfreed, toFree, e⟩
  | giveBlock ht hg' =>
    obtain ⟨rfl, rfl⟩ := Prod.mk.inj hg'
    exact h.outside hg ht rfl rfl rfl rfl
  | freeBlock ht => exact h.outside hg ht rfl rfl rfl rfl
  | @push t p i pc links pending control ht hp =>
    refine h.outside hg ht ?_ rfl rfl rfl
    cases control <;> rfl

theorem of_reach (h : SharedArena.machine.Reach (fun s a => s.handsOverInTime a = true) s) :
    DelayInv s := by
  refine h.invariant ?_ fun s a s' hr hi hc hs => ?_
  · intro s hs
    obtain ⟨cap, rfl⟩ := hs
    have hthread : ∀ t, (SharedState.start cap).threads.get t = .idle := Store.get_empty
    refine ⟨fun t => ?_, fun hne => absurd rfl hne⟩
    rw [hthread]
    trivial
  · exact hi.step (.of_reach hr) hc (SharedState.moves_of_step hs)

end DelayInv

/-! ## When no call is in progress -/

namespace SharedArena

variable {a : SharedArena}

theorem maybeFree_adds (h : a.toFreeDelay < delayDropShrink - 1) :
    Returns maybeFreePages a .loadDelay { a with toFreeDelay := a.toFreeDelay + 1 } () := by
  have h10 : delayDropShrink = 10 := rfl
  have hload : a.maybeFreePages .loadDelay = (a, .goto .fetchAdd) := by
    simp [maybeFreePages, show a.toFreeDelay < delayDropShrink by omega]
  have hadd : a.maybeFreePages .fetchAdd =
      ({ a with toFreeDelay := a.toFreeDelay + 1 }, .ret ()) := by
    have hne : a.toFreeDelay ≠ delayDropShrink - 1 := by omega
    have hmod : (a.toFreeDelay + 1) % 2 ^ 16 = a.toFreeDelay + 1 := Nat.mod_eq_of_lt (by omega)
    simp only [maybeFreePages, hne, hmod, ite_false]
  exact .head hload (.of_step hadd)

theorem maybeFree_repeats (h : a.toFreeDelay < delayDropShrink) :
    Repeats maybeFreePages .loadDelay (delayDropShrink - 1 - a.toFreeDelay) a
      { a with toFreeDelay := delayDropShrink - 1 } := by
  have hsum : a.toFreeDelay + (delayDropShrink - 1 - a.toFreeDelay) = delayDropShrink - 1 := by omega
  have hadds : ∀ i < delayDropShrink - 1 - a.toFreeDelay,
      ∃ r, Returns maybeFreePages { a with toFreeDelay := a.toFreeDelay + i } .loadDelay
        { a with toFreeDelay := a.toFreeDelay + (i + 1) } r := by
    intro i hi
    exact ⟨(), maybeFree_adds (a := { a with toFreeDelay := a.toFreeDelay + i })
      (show a.toFreeDelay + i < delayDropShrink - 1 by omega)⟩
  have hrun := Repeats.through (fun i => { a with toFreeDelay := a.toFreeDelay + i }) hadds
  rwa [hsum] at hrun

theorem maybeFree_takes {page : Addr} {rest : List Addr} (h : a.toFreeDelay = delayDropShrink - 1)
    (htf : a.toFree = some (page :: rest)) :
    Goes maybeFreePages a .loadDelay { a with toFreeDelay := delayDropShrink, toFree := none }
      (.dropPage page rest .fetch) := by
  have hload : a.maybeFreePages .loadDelay = (a, .goto .fetchAdd) := by
    simp only [maybeFreePages, h]
    rfl
  have hadd : a.maybeFreePages .fetchAdd =
      ({ a with toFreeDelay := delayDropShrink }, .goto .swapToFree) := by
    simp only [maybeFreePages, h, ite_true]
    rfl
  refine .head hload (.head hadd (.single ?_))
  simp only [maybeFreePages, htf]
  rfl

/-- If every shrink handed its pages over in time, no delay of parked pages has run out when
no call is in progress: some call of `maybe_free_pages` will deallocate them. -/
theorem parked_pages_counted {s : SharedState}
    (h : machine.Reach (fun s a => s.handsOverInTime a = true) s) (hq : s.quiescent = true)
    {toFree : List Addr} (htf : s.arena.toFree = some toFree) :
    s.arena.toFreeDelay < delayDropShrink ∧ ∃ page rest, toFree = page :: rest ∧
    Repeats maybeFreePages .loadDelay (delayDropShrink - 1 - s.arena.toFreeDelay) s.arena
      { s.arena with toFreeDelay := delayDropShrink - 1 } ∧
    Goes maybeFreePages { s.arena with toFreeDelay := delayDropShrink - 1 } .loadDelay
      { s.arena with toFreeDelay := delayDropShrink, toFree := none }
      (.dropPage page rest .fetch) := by
  have hlt : s.arena.toFreeDelay < delayDropShrink := by
    refine ((DelayInv.of_reach h).delay (by simp [htf])).resolve_right fun ⟨t, ht⟩ => ?_
    rw [of_decide_eq_true (Store.all_iff.mp hq t)] at ht
    cases ht
  have hne : toFree ≠ [] := fun e => (GuardInv.of_reach h).toFree (e ▸ htf)
  obtain ⟨page, rest, rfl⟩ := List.exists_cons_of_ne_nil hne
  exact ⟨hlt, page, rest, rfl, maybeFree_repeats hlt, maybeFree_takes rfl htf⟩

end SharedArena

namespace SharedAct

/-- The threads `ts` find the free list empty and are about to count a refill when thread 0 has
put a new page in it. Blocks of the first page come back, the second one is empty again, and a
shrink takes it out. The threads count between the reset and the handing over, each by two
operations and the last one by the ones of `last`. -/
def countThenPark (ts : List Tid) (last : List SharedAct) (refill : Nat) : List SharedAct :=
  takes 0 63 ++ allocs 0 6 ++ ts.flatMap (fun t => allocs t 1) ++ steps 0 12 ++
    ts.flatMap (fun t => steps t 2) ++ steps 0 4 ++ drops 0 1 0 2 ++ drops 0 0 0 7 ++
    ts.flatMap (fun t => drops 0 0 (t - 9) 2) ++ .shrink 1 :: steps 1 18 ++
    ts.flatMap (fun t => steps t 2) ++ last ++ steps 1 5 ++ steps 10 refill ++
    ts.flatMap (fun t => steps t 3)

end SharedAct

namespace SharedArena

theorem parked_pages_counted_six : ∃ s : SharedState, s.arena.toFree = some [1] ∧
    s.arena.toFreeDelay < delayDropShrink := by
  have hstart : machine.init (.start 1) := ⟨1, rfl⟩
  obtain ⟨s, hs, hp⟩ := Machine.Reach.exists_of_runIf hstart (fun s a => s.handsOverInTime a)
    (SharedAct.countThenPark (List.range' 10 6) [] 10)
    (fun s => decide (s.quiescent = true ∧ s.arena.toFree = some [1])) (fun _ _ h => h)
    (by decide +kernel)
  obtain ⟨hq, htf⟩ := of_decide_eq_true hp
  exact ⟨s, htf, (parked_pages_counted hs hq htf).1⟩

/-- All ten count while no page is handed over. -/
theorem parked_pages_lost : ∃ s : SharedState, machine.Reach Machine.always s ∧
    s.quiescent = true ∧ s.arena.toFree = some [1] ∧ ¬ s.arena.toFreeDelay < delayDropShrink := by
  have hstart : machine.init (.start 1) := ⟨1, rfl⟩
  obtain ⟨s, hs, hp⟩ := Machine.Reach.exists_of_runIf hstart (fun _ _ => true)
    (SharedAct.countThenPark (List.range' 10 10) (SharedAct.steps 19 1) 9)
    (fun s => decide (s.quiescent = true ∧ s.arena.toFree = some [1] ∧
      ¬ s.arena.toFreeDelay < delayDropShrink)) (fun _ _ _ => trivial) (by decide +kernel)
  exact ⟨s, hs, of_decide_eq_true hp⟩

end SharedArena

end MemoryPools
