import MemoryPools.SharedArenaLists

/-!
# Runs of a shared arena

What the lists look like while threads pop, push and refill (`free_lists_shape`), when
`maybe_free_pages` may deallocate (`page_unread_after_free`), and which pages
`shrink_to_fit` leaves on a list (`flagged_page_listed`).
-/

namespace MemoryPools

open Interleave

/-! ## The free lists -/

namespace SharedArena

/-- If a successful `compare_exchange` of `find_place` always installs the link that the
page has at that time, the two lists are finite and disjoint and their pages flagged. -/
theorem free_lists_shape {s : SharedState}
    (h : machine.Reach (fun s a => s.popsCurrent a = true) s) :
    ListShape s.arena.nextFree s.arena.inFreeList s.arena.freeList s.arena.pendingFreeList := by
  obtain ⟨place, listed, hl⟩ := SharedListsInv.of_popsCurrent (fun _ _ hc => hc) h
  exact listShape_of_circulates hl.placed.circulates

end SharedArena

namespace SharedAct

def steps (t : Tid) (n : Nat) : List SharedAct := List.replicate n (.step t)

/-- Thread `t` allocates, by `n` operations. -/
def allocs (t : Tid) (n : Nat) : List SharedAct := .alloc t :: steps t n

def drops (t : Tid) (p : Addr) (i n : Nat) : List SharedAct := .drop t p i :: steps t n

def takes (t : Tid) (k : Nat) : List SharedAct := (List.replicate k (allocs t 3)).flatten

/-- Thread 1 finds page 1 full and stands before its `compare_exchange`. Then page 1 is
popped, page 0 is filled and popped, and page 1 comes back as the only free page. -/
def stalePop : List SharedAct :=
  takes 0 63 ++ allocs 1 3 ++ allocs 0 8 ++ takes 0 62 ++ drops 2 1 0 7 ++ allocs 0 12

end SharedAct

namespace SharedArena

theorem free_lists_shape_stalePop :
    ∃ s : SharedState, s.threads.get 1 = .alloc (.casFree 1 (some 0)) ∧
    ListShape s.arena.nextFree s.arena.inFreeList s.arena.freeList s.arena.pendingFreeList := by
  have hstart : machine.init (.start 126) := ⟨126, rfl⟩
  obtain ⟨s, hs, hp⟩ := Machine.Reach.exists_of_runIf hstart (fun s a => s.popsCurrent a)
    SharedAct.stalePop
    (fun s => decide (s.threads.get 1 = .alloc (.casFree 1 (some 0)))) (fun _ _ h => h)
      (by decide +kernel)
  exact ⟨s, of_decide_eq_true hp, free_lists_shape hs⟩

/-- The stale `compare_exchange` makes page 0 the head, which is out of all lists. -/
theorem free_lists_shape_broken :
    ∃ s : SharedState, machine.Reach (fun _ a => a.noShrink = true) s ∧
    ¬ ListShape s.arena.nextFree s.arena.inFreeList s.arena.freeList s.arena.pendingFreeList := by
  have hstart : machine.init (.start 126) := ⟨126, rfl⟩
  obtain ⟨s, hs, hp⟩ := Machine.Reach.exists_of_runIf hstart (fun _ a => a.noShrink)
    (SharedAct.stalePop ++ [.step 1])
    (fun s => decide (s.arena.freeList = some 0 ∧ s.arena.inFreeList 0 = false)) (fun _ _ h => h)
      (by decide +kernel)
  obtain ⟨hfree, hflag⟩ := of_decide_eq_true hp
  refine ⟨s, hs, fun hshape => ?_⟩
  obtain ⟨F, P, hF, -, -, hup⟩ := hshape
  cases F with
  | nil => rw [hfree] at hF; cases hF
  | cons q F =>
    rw [hfree] at hF
    have := hup q (by simp)
    rw [← Option.some.inj hF.1, hflag] at this
    cases this

end SharedArena

/-! ## Deferred deallocation -/

namespace SharedCall

/-- The call is about to look for a block on page `p` or to load its `next_free`. -/
def reads (p : Addr) : SharedCall → Bool
  | .alloc (.acquire q _) | .alloc (.loadNext q) => q = p
  | _ => false

def frees : SharedCall → Option Addr
  | .alloc (.maybeFree _ (.dropPage p _ .deallocate)) => some p
  | _ => none

end SharedCall

namespace SharedState

def noReader (s : SharedState) (p : Addr) : Bool := s.threads.all fun c => !c.reads p

/-- `maybe_free_pages` waits for the readers of the page that it deallocates. -/
def quietFree (s : SharedState) : SharedAct → Bool
  | .step t => match (s.threads.get t).frees with
    | some p => s.noReader p
    | none => true
  | _ => true

end SharedState

namespace SharedArena

variable {a a' : SharedArena} {p : Addr}

theorem maybeFree_reads {guarded : Bool} {control : Control MaybePc Unit} :
    (SharedCall.afterAlloc (match control with
      | .goto pc => .goto (.maybeFree guarded pc)
      | .ret () => .goto (if guarded then .unlock else .loadFree)
      | .panic => .panic)).reads p = false := by
  cases control with
  | goto | panic => rfl
  | ret => cases guarded <;> rfl

theorem findPlace_reads {pc : FindPc} {control : Control FindPc (Addr × Nat)}
    (hs : a.findPlace pc = (a', control)) (hr : (SharedCall.afterAlloc control).reads p = true) :
    (SharedCall.alloc pc).reads p = true ∨ a.freeList = some p := by
  cases pc with
  | loadFree =>
    simp only [findPlace] at hs
    split at hs <;> obtain ⟨rfl, rfl⟩ := Prod.mk.inj hs
    · rename_i q hq
      have e : q = p := of_decide_eq_true hr
      rw [← e]
      exact Or.inr hq
    · cases hr
  | acquire q pc =>
    simp only [findPlace] at hs
    obtain ⟨rfl, rfl⟩ := Prod.mk.inj hs
    apply Or.inl
    cases hc : (PageSharedArena.acquireFreeBlock (a.page q) pc).2 with
    | goto pc' => rw [hc] at hr; exact hr
    | ret r =>
      rw [hc] at hr
      cases r with
      | some i => cases hr
      | none => exact hr
    | panic => rw [hc] at hr; cases hr
  | loadNext q =>
    obtain ⟨rfl, rfl⟩ := Prod.mk.inj hs
    cases hr
  | casFree =>
    simp only [findPlace] at hs
    split at hs <;> obtain ⟨rfl, rfl⟩ := Prod.mk.inj hs
    · cases hr
    · cases hr
  | maybeFree guarded pc =>
    simp only [findPlace] at hs
    obtain ⟨rfl, rfl⟩ := Prod.mk.inj hs
    exact absurd hr (Bool.not_eq_true _ ▸ maybeFree_reads)
  | take pc =>
    simp only [findPlace] at hs
    obtain ⟨rfl, rfl⟩ := Prod.mk.inj hs
    cases hc : (a.takePages pc).2 with
    | goto | ret | panic => rw [hc] at hr; cases hr
  | put n first last pc =>
    simp only [findPlace] at hs
    obtain ⟨rfl, rfl⟩ := Prod.mk.inj hs
    cases hc : (a.putPages n first last pc).2 with
    | goto | ret | panic => rw [hc] at hr; cases hr
  | clearInFree | swapPending | loadPages | unlock =>
    obtain ⟨rfl, rfl⟩ := Prod.mk.inj hs
    cases hr
  | loadWriter | swapWriter | loadContended | recheckFree | loadPending | swapFree | loadToFree =>
    obtain ⟨rfl, rfl⟩ := Prod.mk.inj hs
    split at hr <;> cases hr

theorem findPlace_frees {pc : FindPc} {control : Control FindPc (Addr × Nat)}
    (hs : a.findPlace pc = (a', control)) {q : Addr} (hf : (SharedCall.alloc pc).frees = some q) :
    (SharedCall.afterAlloc control).reads p = false := by
  cases pc with
  | maybeFree guarded pc =>
    simp only [findPlace] at hs
    obtain ⟨rfl, rfl⟩ := Prod.mk.inj hs
    exact maybeFree_reads
  | loadFree | acquire | loadNext | casFree | clearInFree | loadWriter | swapWriter | loadContended
  | recheckFree
    | loadPending | swapPending | swapFree | loadToFree | take | loadPages | put | unlock =>
      cases hf

theorem freed_putPages {n : Nat} {first last : Addr} {pc : PutPc} :
    (a.putPages n first last pc).1.heap.freed = a.heap.freed := by
  cases pc <;> rfl

theorem freed_takePages {pc : TakePc} : (a.takePages pc).1.heap.freed = a.heap.freed := by
  cases pc with
  | linkFree kept reinsert rest | link kept reinsert rest | setInFree kept reinsert rest =>
    cases rest <;> rfl
  | put => exact freed_putPages
  | swapToFree | loadPages | storeToFree | storeDelay => rfl

theorem freed_findPlace {pc : FindPc} {control : Control FindPc (Addr × Nat)}
    (hs : a.findPlace pc = (a', control)) (hf : (SharedCall.alloc pc).frees = none) :
    a'.heap.freed = a.heap.freed := by
  cases pc with
  | maybeFree guarded pc =>
    obtain ⟨rfl, -⟩ := Prod.mk.inj hs
    cases pc with
    | dropPage q rest pc =>
      cases pc with
      | fetch => rfl
      | deallocate => cases hf
    | loadDelay | fetchAdd | swapToFree => rfl
  | take pc =>
    obtain ⟨rfl, -⟩ := Prod.mk.inj hs
    exact freed_takePages
  | put n first last pc =>
    obtain ⟨rfl, -⟩ := Prod.mk.inj hs
    exact freed_putPages
  | loadFree | casFree =>
    simp only [findPlace] at hs
    split at hs <;> obtain ⟨rfl, -⟩ := Prod.mk.inj hs
    · rfl
    · rfl
  | acquire | loadNext | clearInFree | loadWriter | swapWriter | loadContended | recheckFree
  | loadPending | swapPending | swapFree | loadToFree | loadPages | unlock =>
    obtain ⟨rfl, -⟩ := Prod.mk.inj hs
    rfl

theorem freed_of_frees {pc : FindPc} {control : Control FindPc (Addr × Nat)} {q : Addr}
    (hs : a.findPlace pc = (a', control)) (hf : (SharedCall.alloc pc).frees = some q) :
    a'.heap.freed = .dropPage q :: a.heap.freed := by
  unfold SharedCall.frees at hf
  split at hf
  · rename_i guarded p rest e
    obtain rfl := SharedCall.alloc.inj e
    obtain rfl := Option.some.inj hf
    obtain ⟨rfl, -⟩ := Prod.mk.inj hs
    rfl
  · cases hf

theorem findPlace_freed {pc : FindPc} {control : Control FindPc (Addr × Nat)}
    (hs : a.findPlace pc = (a', control)) (hf : .dropPage p ∈ a'.heap.freed) :
    .dropPage p ∈ a.heap.freed ∨ (SharedCall.alloc pc).frees = some p := by
  cases hq : (SharedCall.alloc pc).frees with
  | none => exact Or.inl (freed_findPlace hs hq ▸ hf)
  | some q =>
    rw [freed_of_frees hs hq] at hf
    rcases List.mem_cons.mp hf with e | hf
    · exact Or.inr (congrArg some (Freed.dropPage.inj e).symm)
    · exact Or.inl hf

theorem shrinkToFit_freed {pc : ShrinkPc} {control : Control ShrinkPc Bool}
    (hs : a.shrinkToFit pc = (a', control)) :
    a'.heap.freed = a.heap.freed := by
  cases pc with
  | walkCas start current | fullCas start _ current =>
    simp only [shrinkToFit] at hs
    split at hs
    · cases current <;> · obtain ⟨rfl, -⟩ := Prod.mk.inj hs; rfl
    · obtain ⟨rfl, -⟩ := Prod.mk.inj hs; rfl
  | walk | walkBits | full | fullNext =>
    simp only [shrinkToFit] at hs
    split at hs <;> · obtain ⟨rfl, -⟩ := Prod.mk.inj hs; rfl
  | swapShrinking | swapWriter | swapFree | loadPages | walkNext | retain | storeDelay | swapToFree
  | storeToFree | restore
    | subPages | clearShrinking | unlock =>
    obtain ⟨rfl, -⟩ := Prod.mk.inj hs
    rfl

end SharedArena

def ReadInv (s : SharedState) : Prop :=
  ∀ p, .dropPage p ∈ s.arena.heap.freed → ∀ t, (s.threads.get t).reads p = false

namespace ReadInv

variable {s s' : SharedState} {arena : SharedArena} {handles : List (Addr × Nat)} {t : Tid}
  {c : SharedCall}

theorem thread (h : ReadInv s)
    (hfreed : ∀ p, .dropPage p ∈ arena.heap.freed → .dropPage p ∈ s.arena.heap.freed)
    (hc : ∀ p, c.reads p = false) : ReadInv { arena, handles, threads := s.threads.set t c } := by
  intro p hp u
  show ((s.threads.set t c).get u).reads p = false
  rw [Store.get_set]
  split
  · exact hc p
  · exact h p (hfreed p hp) u

theorem step (h : ReadInv s) {place : Addr → Place Tid Shelf} {listed : List Addr}
    (hl : Placed s.arena.lists place listed) {a : SharedAct} (hq : s.quietFree a = true)
    (hm : SharedState.Moves s a s') : ReadInv s' := by
  cases hm with
  | startAlloc | startShrink | startDrop => exact h.thread (fun _ hp => hp) fun _ => rfl
  | @alloc t pc arena control ht hs =>
    intro p hp u
    show ((s.threads.set t _).get u).reads p = false
    rcases SharedArena.findPlace_freed hs hp with hp | hf
    · rw [Store.get_set]
      split
      · by_contra hr
        rcases SharedArena.findPlace_reads hs (by simpa using hr) with hr | hfree
        · have := h p hp t
          rw [ht, hr] at this; cases this
        · -- the head of the free list was not given up
          have hcirc := hl.circulates
          rw [show s.arena.lists.free = some p from hfree] at hcirc
          have := hcirc.head_free
          rw [hl.freed p hp] at this; cases this
      · exact h p hp u
    · simp only [SharedState.quietFree, ht, hf, SharedState.noReader, Store.all_iff] at hq
      rw [Store.get_set]
      split
      · exact SharedArena.findPlace_frees hs hf
      · simpa using hq u
  | @shrink t pc arena control ht hs =>
    refine h.thread (fun p hp => by rwa [SharedArena.shrinkToFit_freed hs] at hp) fun p => ?_
    cases control <;> rfl
  | giveBlock => exact h.thread (fun _ hp => hp) fun _ => rfl
  | freeBlock ht =>
    refine h.thread (fun p hp => ?_) fun _ => rfl
    rcases List.mem_cons.mp hp with e | hp
    · cases e
    · exact hp
  | @push t p i pc links pending control ht hp =>
    refine h.thread (fun _ hp => hp) fun p => ?_
    cases control <;> rfl

theorem of_reach
    (h : SharedArena.machine.Reach (fun s a => s.popsCurrent a = true ∧ s.quietFree a = true) s) :
    ReadInv s := by
  refine h.invariant ?_ fun s a s' hr hi hc hs => ?_
  · intro s hs p hp
    obtain ⟨cap, rfl⟩ := hs
    cases hp
  · obtain ⟨place, listed, hl⟩ := SharedListsInv.of_popsCurrent (fun _ _ hc => hc.1) hr
    exact hi.step hl.placed hc.2 (SharedState.moves_of_step hs)

end ReadInv

namespace SharedArena

/-- If `maybe_free_pages` waited for the readers of each page that it deallocates, and pops
installed the link of their time, no page would be read after its deallocation. -/
theorem page_unread_after_free {s : SharedState}
    (h : machine.Reach (fun s a => s.popsCurrent a = true ∧ s.quietFree a = true) s) {p : Addr}
    (hp : .dropPage p ∈ s.arena.heap.freed) (t : Tid) : (s.threads.get t).reads p = false :=
  ReadInv.of_reach h p hp t

end SharedArena

namespace SharedAct

/-- Ten threads find the free list empty while both pages are parked, and thread 4 puts
page 0 back. Then the ten count a refill each, and the last one drops page 1. -/
def shrinkThenRefill : List SharedAct :=
  .shrink 1 :: steps 1 29 ++ (List.range 10).flatMap (fun k => allocs (10 + k) 1) ++ allocs 4 19 ++
    (List.range 10).flatMap (fun k => steps (10 + k) 4) ++ steps 19 3

end SharedAct

namespace SharedArena

theorem page_unread_after_quietFree : ∃ s : SharedState, .dropPage 1 ∈ s.arena.heap.freed ∧
    (s.threads.get 0).reads 1 = false := by
  have hstart : machine.init (.start 126) := ⟨126, rfl⟩
  obtain ⟨s, hs, hp⟩ :=
    Machine.Reach.exists_of_runIf hstart (fun s a => s.popsCurrent a && s.quietFree a)
    SharedAct.shrinkThenRefill (fun s => decide (.dropPage 1 ∈ s.arena.heap.freed))
    (fun _ _ h => by simpa using h) (by decide +kernel)
  have hp := of_decide_eq_true hp
  exact ⟨s, hp, page_unread_after_free hs hp 0⟩

/-- Thread 3 loaded page 1 from the free list before it was parked. -/
theorem page_read_after_free : ∃ s : SharedState, machine.Reach Machine.always s ∧
    .dropPage 1 ∈ s.arena.heap.freed ∧ (s.threads.get 3).reads 1 = true := by
  have hstart : machine.init (.start 126) := ⟨126, rfl⟩
  obtain ⟨s, hs, hp⟩ := Machine.Reach.exists_of_runIf hstart (fun _ _ => true)
    (SharedAct.allocs 3 1 ++ SharedAct.shrinkThenRefill)
    (fun s => decide (.dropPage 1 ∈ s.arena.heap.freed ∧ (s.threads.get 3).reads 1 = true))
      (fun _ _ _ => trivial)
    (by decide +kernel)
  obtain ⟨hp, hr⟩ := of_decide_eq_true hp
  exact ⟨s, hs, hp, hr⟩

end SharedArena

/-! ## Shrinking -/

namespace SharedArena

/-- If `retain` found every page that was taken out of the free list unused still, each page
of `full_list` with `in_free_list` would be on a list when no call is in progress. -/
theorem flagged_page_listed {s : SharedState}
    (h : machine.Reach (fun s a => s.popsCurrent a = true ∧ s.retainsAll a = true) s)
    (hq : s.quiescent = true) {p : Addr} (hp : OnChain s.arena.next s.arena.fullList p)
    (hflag : s.arena.inFreeList p = true) :
    OnChain s.arena.nextFree s.arena.freeList p ∨
    OnChain s.arena.nextFree s.arena.pendingFreeList p := by
  have hlists : ∃ place listed, SharedListsInv True s place listed :=
    SharedListsInv.of_reach (fun _ _ hc => hc.1) (fun _ _ _ _ hc => hc.2) h
  obtain ⟨place, listed, hl⟩ := hlists
  exact hl.onChain hq hp hflag

end SharedArena

namespace SharedAct

/-- Thread 0 is before its look at the only page when a shrink starts, and takes a block of
it between `n` and `k` operations of the shrink. -/
def shrinkAround (n k : Nat) : List SharedAct :=
  allocs 0 1 ++ .shrink 1 :: steps 1 n ++ steps 0 2 ++ steps 1 k

end SharedAct

namespace SharedArena

theorem flagged_page_listed_shrinkAround : ∃ s : SharedState,
    OnChain s.arena.nextFree s.arena.freeList 0 ∨
    OnChain s.arena.nextFree s.arena.pendingFreeList 0 := by
  have hstart : machine.init (.start 63) := ⟨63, rfl⟩
  obtain ⟨s, hs, hp⟩ :=
    Machine.Reach.exists_of_runIf hstart (fun s a => s.popsCurrent a && s.retainsAll a)
    (SharedAct.shrinkAround 5 10) (fun s => decide (s.quiescent = true ∧ s.arena.fullList = some 0 ∧
      s.arena.next 0 = none ∧ s.arena.inFreeList 0 = true)) (fun _ _ h => by simpa using h)
        (by decide +kernel)
  obtain ⟨hq, hfull, hnext, hflag⟩ := of_decide_eq_true hp
  exact ⟨s, flagged_page_listed hs hq ⟨[0], ⟨hfull, hnext⟩, by simp⟩ hflag⟩

/-- The block is taken after the page left the free list and before `retain` looks at it. -/
theorem flagged_page_stranded :
    ∃ s : SharedState, machine.Reach Machine.always s ∧ s.quiescent = true ∧
    OnChain s.arena.next s.arena.fullList 0 ∧ s.arena.inFreeList 0 = true ∧
    ¬ OnChain s.arena.nextFree s.arena.freeList 0 ∧
    ¬ OnChain s.arena.nextFree s.arena.pendingFreeList 0 := by
  have hstart : machine.init (.start 63) := ⟨63, rfl⟩
  obtain ⟨s, hs, hp⟩ := Machine.Reach.exists_of_runIf hstart (fun _ _ => true)
    (SharedAct.shrinkAround 8 9)
    (fun s => decide (s.quiescent = true ∧ s.arena.fullList = some 0 ∧ s.arena.next 0 = none ∧
      s.arena.inFreeList 0 = true ∧ s.arena.freeList = none ∧ s.arena.pendingFreeList = none))
        (fun _ _ _ => trivial)
    (by decide +kernel)
  obtain ⟨hq, hfull, hnext, hflag, hfree, hpending⟩ := of_decide_eq_true hp
  have hnone : ∀ head, head = none → ¬ OnChain s.arena.nextFree head 0 := by
    intro head e h
    have := (OnChain.iff_mem (linked_nil.mpr e)).mp h
    cases this
  exact ⟨s, hs, hq, ⟨[0], ⟨hfull, hnext⟩, by simp⟩, hflag, hnone _ hfree, hnone _ hpending⟩

end SharedArena

/-! ## The assertions -/

namespace SharedArena

def PutPc.Asserted (a : SharedArena) : PutPc → Prop
  | .swapFull current => current = a.fullList
  | .loadFree | .swapFree => a.freeList = none
  | .loadFull | .storeNext _ | .addPages => True

def TakePc.Asserted (a : SharedArena) : TakePc → Prop
  -- the slice that `make_list_from_slice` gets
  | .loadPages toFree => toFree.drop (toFree.length - max a.npages 1) ≠ []
  | .linkFree _ reinsert _ | .link _ reinsert _ | .setInFree _ reinsert _ => reinsert ≠ []
  | .put _ _ _ _ pc => pc.Asserted a
  | .storeToFree _ => a.toFree = none
  | .swapToFree | .storeDelay _ => True

def FindPc.Asserted (a : SharedArena) : FindPc → Prop
  | .swapFree _ => a.freeList = none
  | .take pc => pc.Asserted a
  | .put _ _ _ pc => pc.Asserted a
  | _ => True

def ShrinkPc.Asserted (a : SharedArena) : ShrinkPc → Prop
  | .fullCas _ _ current value _ => readLink a.next a.fullList current = some value
  | .storeToFree .. => a.toFree = none
  | .restore .. => a.freeList = none
  | _ => True

end SharedArena

/-- The assertion that the call runs into with its next operation holds. -/
def SharedCall.Asserted (a : SharedArena) : SharedCall → Prop
  | .alloc pc => pc.Asserted a
  | .shrink pc => pc.Asserted a
  | .idle | .drop .. | .panicked => True

namespace SharedArena

variable {a : SharedArena}

theorem PutPc.Knows.asserted {pc : PutPc} (h : pc.Knows a) : pc.Asserted a := by
  cases pc with
  | swapFull => exact h.2
  | loadFree | swapFree => exact h
  | loadFull | storeNext | addPages => trivial

theorem TakePc.Knows.asserted {pc : TakePc} (h : pc.Knows a) : pc.Asserted a := by
  cases pc with
  | loadPages toFree =>
    have hpos := List.length_pos_iff.mpr h.2.2
    intro hnil
    -- at least one page is put back, for the arena of no page too
    have := List.drop_eq_nil_iff.mp hnil
    omega
  | linkFree | link | setInFree => exact h.2.2.1
  | put => exact h.1.asserted
  | storeToFree => exact h.1
  | swapToFree | storeDelay => trivial

theorem FindPc.Knows.asserted {pc : FindPc} (h : pc.Knows a) : pc.Asserted a := by
  cases pc with
  | swapFree => exact h
  | take pc => exact TakePc.Knows.asserted h
  | put n first last pc => exact PutPc.Knows.asserted h
  | _ => trivial

theorem ShrinkPc.Knows.asserted {pc : ShrinkPc} (h : pc.Knows a) : pc.Asserted a := by
  cases pc with
  | fullCas => exact h.2
  | storeToFree => exact h.2.1
  | restore => exact h
  | _ => trivial

end SharedArena

theorem SharedCall.Knows.asserted {a : SharedArena} {c : SharedCall} (h : c.Knows a) :
    c.Asserted a := by
  cases c with
  | alloc pc => exact SharedArena.FindPc.Knows.asserted h
  | shrink pc => exact SharedArena.ShrinkPc.Knows.asserted h
  | idle | drop | panicked => trivial

namespace SharedArena

/-- No assertion on the lists fails, whoever allocates, shrinks and drops meanwhile. -/
theorem list_assertions_hold {s : SharedState} (h : machine.Reach Machine.always s) (t : Tid) :
    (s.threads.get t).Asserted s.arena ∧ s.threads.get t ≠ .panicked := by
  have hguard := GuardInv.of_reach h
  exact ⟨(hguard.knows t).asserted, hguard.calm t⟩

/-- Both pages are parked and thread 4 puts page 0 back. It is about to store the rest
while thread 5 has the free list for itself. -/
theorem list_assertions_hold_refill : ∃ s : SharedState,
    s.threads.get 4 = .alloc (.take (.storeToFree [1])) ∧ s.arena.toFree = none := by
  have hstart : machine.init (.start 126) := ⟨126, rfl⟩
  obtain ⟨s, hs, hp⟩ := Machine.Reach.exists_of_runIf hstart (fun _ _ => true)
    (.shrink 1 :: SharedAct.steps 1 29 ++ SharedAct.allocs 4 17 ++ SharedAct.allocs 5 3)
    (fun s => s.threads.get 4 = .alloc (.take (.storeToFree [1]))) (fun _ _ _ => trivial)
    (by decide +kernel)
  have h4 := of_decide_eq_true hp
  have hasserted := (list_assertions_hold hs 4).1
  rw [h4] at hasserted
  exact ⟨s, h4, hasserted⟩

end SharedArena

end MemoryPools
