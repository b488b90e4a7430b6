import MemoryPools.SharedArenaAlone
import MemoryPools.SharedArenaLifetime

/-!
# The pages that a shared arena gives up

`shrink_to_fit` parks pages and `maybe_free_pages` gives them up. Where nobody reads a page when
`drop_page` gives it up, and pops install the link of their time, a page is deallocated once and
no block of it is in use then.
-/

namespace MemoryPools

open Interleave

namespace SharedCall

def givesUp : SharedCall → Option Addr
  | .alloc (.maybeFree _ (.dropPage p _ .fetch)) => some p
  | _ => none

def reclaims : SharedCall → Option Addr
  | .drop p _ .deallocate | .alloc (.maybeFree _ (.dropPage p _ .deallocate)) => some p
  | _ => none

theorem reclaims_alloc (pc : SharedArena.FindPc) :
    (SharedCall.alloc pc).reclaims = (SharedCall.alloc pc).frees := by
  unfold reclaims frees
  split
  · rename_i e
    cases e
  · rename_i e
    rw [e]
  · rename_i hne
    split
    · rename_i e
      exact absurd e (hne _ _ _)
    · rfl

theorem fetches_iff_givesUp {c : SharedCall} {q : Addr} : c.Fetches q ↔ c.givesUp = some q := by
  rw [fetches_iff]
  constructor
  · rintro ⟨guarded, rest, rfl⟩
    rfl
  · intro h
    unfold givesUp at h
    split at h
    · rename_i guarded p rest
      exact ⟨guarded, rest, by rw [Option.some.inj h]⟩
    · cases h

end SharedCall

namespace SharedState

/-- `drop_page` waits for the readers of the page that it gives up. -/
def quietDrop (s : SharedState) : SharedAct → Bool
  | .step t => match (s.threads.get t).givesUp with
    | some p => s.noReader p
    | none => true
  | _ => true

/-- The page that thread `t` deallocates next. -/
def reclaims (s : SharedState) (t : Tid) : Option Addr := (s.threads.get t).reclaims

variable {s : SharedState} {arena : SharedArena} {handles : List (Addr × Nat)} {t : Tid} {c : SharedCall}

theorem reclaims_set_self :
    ({ arena, handles, threads := s.threads.set t c } : SharedState).reclaims t = c.reclaims :=
  congrArg SharedCall.reclaims (Store.get_set_self _ _ _)

theorem reclaims_set (u : Tid) (hu : u ≠ t) :
    ({ arena, handles, threads := s.threads.set t c } : SharedState).reclaims u = s.reclaims u :=
  congrArg SharedCall.reclaims (Store.get_set_ne _ _ hu)

theorem reclaims_set_same (hc : c.reclaims = s.reclaims t) (u : Tid) :
    ({ arena, handles, threads := s.threads.set t c } : SharedState).reclaims u = s.reclaims u := by
  by_cases e : u = t
  · rw [e]
    exact reclaims_set_self.trans hc
  · exact reclaims_set u e

end SharedState

/-! ## One operation of `find_place` -/

namespace SharedArena

variable {a a' : SharedArena} {p : Addr}

theorem made_of_blind {control : Control FindPc (Addr × Nat)} (h : blind control = true) :
    SharedState.made control = [] := by
  cases control with
  | goto | panic => rfl
  | ret => cases h

/-- Only `drop_page` leads to a deallocation. -/
theorem maybeFreePages_reclaims {guarded : Bool} {pc : MaybePc}
    (hpc : (SharedCall.alloc (.maybeFree guarded pc)).givesUp = none) :
    (SharedCall.afterAlloc (match (a.maybeFreePages pc).2 with
      | .goto pc => .goto (.maybeFree guarded pc)
      | .ret () => .goto (if guarded then .unlock else .loadFree)
      | .panic => .panic)).reclaims = none := by
  have hret : (SharedCall.alloc (if guarded then .unlock else .loadFree)).reclaims = none := by
    cases guarded <;> rfl
  have hdrop : ∀ rest, (SharedCall.afterAlloc (match dropPages rest with
      | .goto pc => .goto (.maybeFree guarded pc)
      | .ret () => .goto (if guarded then .unlock else .loadFree)
      | .panic => .panic)).reclaims = none := by
    intro rest
    cases rest with
    | nil => exact hret
    | cons => rfl
  cases pc with
  | loadDelay =>
    by_cases hd : a.toFreeDelay < delayDropShrink
    · simp only [maybeFreePages, hd, ite_true]
      rfl
    · simp only [maybeFreePages, hd, ite_false]
      exact hret
  | fetchAdd =>
    by_cases hd : a.toFreeDelay = delayDropShrink - 1
    · simp only [maybeFreePages, hd, ite_true]
      rfl
    · simp only [maybeFreePages, hd, ite_false]
      exact hret
  | swapToFree => exact hdrop _
  | dropPage p rest pc =>
    cases pc with
    | fetch => cases hpc
    | deallocate => exact hdrop rest

theorem giveUp_reclaims {guarded : Bool} {rest : List Addr} :
    (SharedCall.afterAlloc (match (a.maybeFreePages (.dropPage p rest .fetch)).2 with
      | .goto pc => .goto (.maybeFree guarded pc)
      | .ret () => .goto (if guarded then .unlock else .loadFree)
      | .panic => .panic)).reclaims =
    if (a.dropPage p .fetch).2 = .goto .deallocate then some p else none := by
  rcases dropPage_control a p .fetch with e | ⟨-, e⟩
  · simp only [maybeFreePages, e]
    cases rest with
    | nil => cases guarded <;> rfl
    | cons => rfl
  · simp only [maybeFreePages, e]
    rfl

theorem findPlace_reclaims {pc : FindPc} {control : Control FindPc (Addr × Nat)}
    (hs : a.findPlace pc = (a', control)) (hpc : (SharedCall.alloc pc).givesUp = none) :
    (SharedCall.afterAlloc control).reclaims = none := by
  cases pc with
  | maybeFree guarded pc =>
    simp only [findPlace] at hs
    obtain ⟨-, rfl⟩ := Prod.mk.inj hs
    exact maybeFreePages_reclaims hpc
  | loadFree | casFree =>
    simp only [findPlace] at hs
    split at hs <;> obtain ⟨-, rfl⟩ := Prod.mk.inj hs
    · rfl
    · rfl
  | acquire q pc =>
    simp only [findPlace] at hs
    obtain ⟨-, rfl⟩ := Prod.mk.inj hs
    cases (PageSharedArena.acquireFreeBlock (a.page q) pc).2 with
    | goto | panic => rfl
    | ret index => cases index <;> rfl
  | take pc =>
    simp only [findPlace] at hs
    obtain ⟨-, rfl⟩ := Prod.mk.inj hs
    cases (a.takePages pc).2 <;> rfl
  | put n first last pc =>
    simp only [findPlace] at hs
    obtain ⟨-, rfl⟩ := Prod.mk.inj hs
    cases (a.putPages n first last pc).2 <;> rfl
  | loadNext | clearInFree | swapPending | loadPages | unlock =>
    obtain ⟨-, rfl⟩ := Prod.mk.inj hs
    rfl
  | loadWriter | swapWriter | loadContended | recheckFree | loadPending | swapFree | loadToFree =>
    obtain ⟨-, rfl⟩ := Prod.mk.inj hs
    split <;> rfl

end SharedArena

/-! ## The invariant -/

/-- Nobody reads a page that the arena gave up, and such a page is deallocated when its last
block is given back. -/
structure SharedReclaimInv (s : SharedState) : Prop where
  taken : SharedTakenInv s
  unread : ∀ p, (s.arena.word p).getLsbD 63 = false → ∀ t, (s.threads.get t).reads p = false
  dues : SharedDues s s.reclaims

namespace SharedReclaimInv

variable {s s' : SharedState} {arena : SharedArena} {handles : List (Addr × Nat)} {t : Tid}
  {c : SharedCall} {place : Addr → Place Tid Shelf} {listed : List Addr} {a : SharedAct} {p : Addr}
  {i : Nat}

/-! ### The readers -/

theorem owned_of_reads (h : SharedReclaimInv s) (hr : (s.threads.get t).reads p = true) :
    (s.arena.word p).getLsbD 63 = true := by
  by_contra hne
  rw [h.unread p (Bool.eq_false_iff.mpr hne) t] at hr
  cases hr

theorem reads_set (h : ∀ u, (s.threads.get u).reads p = false) (hc : c.reads p = false) (u : Tid) :
    ((s.threads.set t c).get u).reads p = false := by
  rw [Store.get_set]
  split
  · exact hc
  · exact h u

theorem owned_head (hst : StandsInv s place listed) (hp : s.arena.freeList = some p) :
    (s.arena.word p).getLsbD 63 = true := by
  apply hst.arenaBit
  have hcirc := hst.lists.placed.circulates
  rw [show s.arena.lists.free = some p from hp] at hcirc
  rw [hcirc.head_free]
  exact nofun

theorem reads_kept (h : SharedReclaimInv s) (hst : StandsInv s place listed) (hm : SharedState.Moves s a s')
    (hp : (s.arena.word p).getLsbD 63 = false) (u : Tid) : (s'.threads.get u).reads p = false := by
  have hold := h.unread p hp
  cases hm with
  | startAlloc | startShrink | startDrop | giveBlock | freeBlock => exact reads_set hold rfl u
  | @alloc t pc arena control ht hs =>
    refine reads_set hold ?_ u
    by_contra hr
    rcases SharedArena.findPlace_reads hs (Bool.not_eq_false _ ▸ hr) with hr | hfree
    · rw [← ht, hold t] at hr
      cases hr
    · rw [owned_head hst hfree] at hp
      cases hp
  | @shrink t pc arena control ht hs => exact reads_set hold (by cases control <;> rfl) u
  | @push t p i pc links pending control ht hp => exact reads_set hold (by cases control <;> rfl) u

theorem reads_given (hq : s.quietDrop a = true) (hm : SharedState.Moves s a s')
    (hg : (s.threads.get a.thread).givesUp = some p) (u : Tid) : (s'.threads.get u).reads p = false := by
  cases hm with
  | startAlloc ht | startShrink ht | startDrop ht | shrink ht | giveBlock ht | freeBlock ht | push ht =>
    have hg := (congrArg SharedCall.givesUp ht).symm.trans hg
    cases hg
  | @alloc t pc arena control ht hs =>
    have hg : (s.threads.get t).givesUp = some p := hg
    simp only [SharedState.quietDrop, hg, SharedState.noReader, Store.all_iff] at hq
    refine reads_set (fun u => by simpa using hq u) ?_ u
    obtain ⟨guarded, rest, e⟩ := SharedCall.fetches_iff.mp (SharedCall.fetches_iff_givesUp.mpr hg)
    obtain rfl := SharedCall.alloc.inj (ht.symm.trans e)
    simp only [SharedArena.findPlace] at hs
    obtain ⟨-, rfl⟩ := Prod.mk.inj hs
    exact SharedArena.maybeFree_reads

theorem unread_step (h : SharedReclaimInv s) (hst : StandsInv s place listed) (hb : SharedBlocksInv s)
    (hq : s.quietDrop a = true) (hm : SharedState.Moves s a s')
    (hp : (s'.arena.word p).getLsbD 63 = false) (u : Tid) : (s'.threads.get u).reads p = false := by
  cases hbit : (s.arena.word p).getLsbD 63 with
  | false => exact h.reads_kept hst hm hbit u
  | true =>
    refine reads_given hq hm (SharedCall.fetches_iff_givesUp.mp ?_) u
    by_contra hf
    rw [hb.arenaBit hm hbit hf] at hp
    cases hp

/-! ### The references -/

theorem word_kept (h : SharedReclaimInv s) (hst : StandsInv s place listed) {pc : SharedArena.FindPc}
    {control : Control SharedArena.FindPc (Addr × Nat)} (ht : s.threads.get t = .alloc pc)
    (hs : s.arena.findPlace pc = (arena, control)) (hg : (SharedCall.alloc pc).givesUp = none)
    (hp : (s.arena.word p).getLsbD 63 = false) :
    arena.word p = s.arena.word p ∧ ∀ i, control ≠ .ret (p, i) := by
  have hblind : SharedArena.blind control = true → ∀ i, control ≠ .ret (p, i) := by
    rintro hc i rfl
    cases hc
  cases (SharedArena.findPlace_word hs).1 with
  | look _ hw | scan _ _ hw =>
    refine ⟨by rw [hw], fun i e => ?_⟩
    cases e
  | keep hw hc => exact ⟨by rw [hw], hblind hc⟩
  | @take q i _ hw hc =>
    have hq : (s.arena.word q).getLsbD 63 = true :=
      h.owned_of_reads (t := t) (by rw [ht]; simp [SharedCall.reads])
    have hne : p ≠ q := by
      rintro rfl
      rw [hp] at hq
      cases hq
    refine ⟨by rw [hw, Function.update_of_ne hne], fun j e => ?_⟩
    rcases hc with ⟨rfl, -⟩ | rfl | rfl
    · exact hne (Prod.mk.inj (Control.ret.inj e)).1.symm
    · cases e
    · cases e
  | giveUp => cases hg
  | grow hw hc =>
    refine ⟨?_, hblind hc⟩
    rcases hw p with e | ⟨hle, -⟩
    · exact e
    · -- a new page has the bit of the arena
      have hfresh := (hst.lists.placed.fresh p).mpr hle
      have h63 : (s.arena.word p).getLsbD 63 = true := by
        refine hst.arenaBit p fun e => ?_
        rw [hfresh] at e
        cases e
      rw [hp] at h63
      cases h63

theorem dues_alloc (h : SharedReclaimInv s) (hst : StandsInv s place listed) (hb : SharedBlocksInv s)
    {pc : SharedArena.FindPc} {control : Control SharedArena.FindPc (Addr × Nat)}
    (ht : s.threads.get t = .alloc pc) (hs : s.arena.findPlace pc = (arena, control))
    (hg : (SharedCall.alloc pc).givesUp = none) :
    SharedDues { arena, handles := SharedState.made control ++ s.handles,
                 threads := s.threads.set t (.afterAlloc control) }
      (SharedState.reclaims { arena, handles := SharedState.made control ++ s.handles,
                              threads := s.threads.set t (.afterAlloc control) }) := by
  have hhand : handOf s.threads t = none := handOf_get ht
  have hsame : ∀ u, handOf (s.threads.set t (.afterAlloc control)) u = handOf s.threads u :=
    handOf_set_same _ (by cases control <;> exact hhand.symm)
  have hnone := SharedArena.findPlace_reclaims hs hg
  have hmine : s.reclaims t = (SharedCall.alloc pc).reclaims := congrArg SharedCall.reclaims ht
  cases hf : (SharedCall.alloc pc).frees with
  | none =>
    have hidle : (SharedCall.alloc pc).reclaims = none := (SharedCall.reclaims_alloc pc).trans hf
    refine h.dues.keep (fun q hq => hb.arenaBit (.alloc ht hs) hq ?_)
      (fun q hq => (h.word_kept hst ht hs hg hq).1) (fun q hq j => ?_)
      (SharedArena.freed_findPlace hs hf)
      (SharedState.reclaims_set_same (hnone.trans (hidle.symm.trans hmine.symm)))
    · show ¬ (s.threads.get t).Fetches q
      rw [ht, SharedCall.fetches_iff_givesUp, hg]
      exact nofun
    · -- the block that is taken is on another page
      have hne := (h.word_kept hst ht hs hg hq).2
      cases control with
      | goto | panic => exact owned_congr hsame
      | ret block =>
        have hblock : (q, j) ≠ block := fun e => hne j (congrArg Control.ret e.symm)
        exact owned_insert.trans ((or_iff_left hblock).trans (owned_congr hsame))
  | some q =>
    have hfreed := SharedArena.freed_of_frees hs hf
    unfold SharedCall.frees at hf
    split at hf
    · rename_i guarded p rest e
      obtain rfl := SharedCall.alloc.inj e
      obtain rfl := Option.some.inj hf
      cases (SharedArena.findPlace_word hs).1 with
      | keep hw hc =>
        rw [SharedArena.made_of_blind hc]
        exact h.dues.free hmine (SharedState.reclaims_set_self.trans hnone) SharedState.reclaims_set hw
          (fun q j => owned_congr hsame) (congrArg (List.map Freed.page) hfreed)
    · cases hf

theorem dues_giveUp (h : SharedReclaimInv s) (hst : StandsInv s place listed) (hb : SharedBlocksInv s)
    {pc : SharedArena.FindPc} {control : Control SharedArena.FindPc (Addr × Nat)}
    (ht : s.threads.get t = .alloc pc) (hs : s.arena.findPlace pc = (arena, control))
    (hg : (SharedCall.alloc pc).givesUp = some p) :
    SharedDues { arena, handles := SharedState.made control ++ s.handles,
                 threads := s.threads.set t (.afterAlloc control) }
      (SharedState.reclaims { arena, handles := SharedState.made control ++ s.handles,
                              threads := s.threads.set t (.afterAlloc control) }) := by
  obtain ⟨guarded, rest, e⟩ := SharedCall.fetches_iff.mp (SharedCall.fetches_iff_givesUp.mpr hg)
  obtain rfl := SharedCall.alloc.inj e
  have hhand : handOf s.threads t = none := handOf_get ht
  have hidle : s.reclaims t = none := congrArg SharedCall.reclaims ht
  have h63 : (s.arena.word p).getLsbD 63 = true := by
    obtain ⟨chain, bag, hh, hshape⟩ := hst.lists.stands t
    rw [ht] at hshape
    obtain ⟨rfl, rfl, -⟩ := hshape
    apply hst.arenaBit
    rw [(hh.carries p).mpr List.mem_cons_self]
    exact nofun
  have hafter : (SharedCall.afterAlloc control).reclaims =
      if (s.arena.dropPage p .fetch).2 = .goto .deallocate then some p else none := by
    simp only [SharedArena.findPlace] at hs
    obtain ⟨-, rfl⟩ := Prod.mk.inj hs
    exact SharedArena.giveUp_reclaims
  have hself : ({ arena, handles := s.handles,
                  threads := s.threads.set t (.afterAlloc control) } : SharedState).reclaims t =
      (SharedCall.afterAlloc control).reclaims := SharedState.reclaims_set_self
  have hgive := h.dues.givePage hb h.taken h63 rfl hidle (hself.trans hafter)
    SharedState.reclaims_set
  obtain rfl : (s.arena.dropPage p .fetch).1 = arena := congrArg Prod.fst hs
  cases (SharedArena.findPlace_word hs).1 with
  | giveUp _ hc | keep _ hc =>
    rw [SharedArena.made_of_blind hc]
    refine SharedDues.congr hgive rfl (fun q j => owned_congr (handOf_set_same _ ?_)) rfl fun _ => rfl
    cases control with
    | goto | panic => exact hhand.symm
    | ret => cases hc

/-! ### Every step -/

theorem step (h : SharedReclaimInv s) (hst : StandsInv s place listed) (hb : SharedBlocksInv s)
    (hq : s.quietDrop a = true) (hm : SharedState.Moves s a s') : SharedReclaimInv s' := by
  refine ⟨h.taken.step hb (fun _ _ => h.owned_of_reads) hm,
    fun p hp u => h.unread_step hst hb hq hm hp u, ?_⟩
  cases hm with
  | startAlloc ht | startShrink ht =>
    exact h.dues.congr rfl (fun q j => owned_congr (handOf_set_same _ (handOf_get ht).symm)) rfl
      (SharedState.reclaims_set_same (congrArg SharedCall.reclaims ht).symm)
  | startDrop ht hi =>
    exact h.dues.congr rfl
      (fun q j => owned_take hb.ledger hi (handOf_get ht) (handOf_set_self _) (handOf_set_ne _)) rfl
      (SharedState.reclaims_set_same (congrArg SharedCall.reclaims ht).symm)
  | @alloc t pc arena control ht hs =>
    cases hg : (SharedCall.alloc pc).givesUp with
    | none => exact h.dues_alloc hst hb ht hs hg
    | some p => exact h.dues_giveUp hst hb ht hs hg
  | @shrink t pc arena control ht hs =>
    refine h.dues.congr (SharedArena.shrinkToFit_word hs).1
      (fun q j => owned_congr (handOf_set_same _ ?_)) (SharedArena.shrinkToFit_freed hs)
      (SharedState.reclaims_set_same ?_)
    · cases control <;> exact (handOf_get ht).symm
    · cases control <;> exact (congrArg SharedCall.reclaims ht).symm
  | @giveBlock t p i page last ht hg =>
    exact h.dues.giveBlock hb h.taken ht hg (congrArg SharedCall.reclaims ht)
      (SharedState.reclaims_set_self.trans (by cases last <;> rfl)) SharedState.reclaims_set
  | @freeBlock t p i ht =>
    exact h.dues.free (congrArg SharedCall.reclaims ht) SharedState.reclaims_set_self
      SharedState.reclaims_set (SharedArena.word_setPage_same (a := s.arena) rfl)
      (fun q j => owned_congr (handOf_set_same _ (handOf_get ht).symm)) rfl
  | @push t p i pc links pending control ht hp =>
    refine h.dues.congr (SharedArena.word_setPage_same (a := s.arena) rfl)
      (fun q j => owned_congr (handOf_set_same _ ?_)) rfl (SharedState.reclaims_set_same ?_)
    · cases control <;> exact (handOf_get ht).symm
    · cases control <;> exact (congrArg SharedCall.reclaims ht).symm

theorem start (cap : Nat) : SharedReclaimInv (.start cap) := by
  have hidle : ∀ t, (SharedState.start cap).threads.get t = .idle := Store.get_empty
  refine ⟨.start cap, fun p _ t => congrArg (SharedCall.reads p) (hidle t), ?_⟩
  exact .start (fun _ => trivial) (UnshrunkInv.start cap).arenaBit
    fun t => congrArg SharedCall.reclaims (hidle t)

theorem of_reach
    (h : SharedArena.machine.Reach (fun s a => s.popsCurrent a = true ∧ s.quietDrop a = true) s) :
    SharedReclaimInv s := by
  refine h.invariant ?_ fun s a s' hr hi hc hs => ?_
  · rintro s ⟨cap, rfl⟩
    exact .start cap
  · obtain ⟨place, listed, hst⟩ := StandsInv.of_reach (hr.mono fun _ _ hc => hc.1)
    exact hi.step hst (SharedState.pointers_blocks hr).2 hc.2 (SharedState.moves_of_step hs)

end SharedReclaimInv

/-! ## The blocks that are in use -/

theorem SharedState.freed_unused {s : SharedState}
    (h : SharedArena.machine.Reach (fun _ a => a.noShrink = true) s ∨
      SharedArena.machine.Reach (fun s a => s.popsCurrent a = true ∧ s.quietDrop a = true) s) :
    (s.arena.heap.freed.map Freed.page).Nodup ∧ ∀ p ∈ s.arena.heap.freed.map Freed.page,
      (∀ i, ¬ s.Live p i) ∧ ∀ t, (s.threads.get t).reads p = false := by
  rcases h with h | h
  · rw [(UnfreedInv.of_noShrink h).freed]
    exact ⟨List.nodup_nil, nofun⟩
  · have hi := SharedReclaimInv.of_reach h
    refine ⟨hi.dues.ledger.nodup, fun p hp => ?_⟩
    obtain ⟨hgiven, hnone⟩ := (hi.dues.owned p).mp (Or.inl hp)
    exact ⟨hnone, hi.unread p (Bool.eq_false_iff.mpr hgiven)⟩

namespace SharedArena

theorem reads_of_ret {a a' : SharedArena} {pc : FindPc} {p : Addr} {i : Nat}
    (hs : a.findPlace pc = (a', .ret (p, i))) : (SharedCall.alloc pc).reads p = true := by
  cases (findPlace_word hs).1 with
  | take _ hc =>
    rcases hc with ⟨e, -⟩ | e | e
    · rw [(Prod.mk.inj (Control.ret.inj e)).1]
      simp [SharedCall.reads]
    · cases e
    · cases e
  | giveUp _ hc | grow _ hc | keep _ hc => cases hc

/-- Without `shrink_to_fit`, also through the races on the free list, and with it if the pops are
current and `drop_page` waits for the readers of its page: a block has one owner at most, its page
was not deallocated and its bit is clear, and a call of `alloc` returns such a block that had no
owner. No page is deallocated twice, and nobody looks for a block on a page that was. A drop past
its `fetch_add` may still look at the flag of such a page: its cells stay in the model, and its
address is not used again. -/
theorem blocks_owned_once {s : SharedState}
    (h : machine.Reach (fun _ a => a.noShrink = true) s ∨
      machine.Reach (fun s a => s.popsCurrent a = true ∧ s.quietDrop a = true) s) :
    s.handles.Nodup ∧ (∀ t x, handOf s.threads t = some x → x ∉ s.handles) ∧
    (∀ t u x, handOf s.threads t = some x → handOf s.threads u = some x → t = u) ∧
    (∀ p i, s.Live p i → p < s.arena.heap.size ∧ p ∉ s.arena.heap.freed.map Freed.page ∧ i < 63 ∧
      (s.arena.word p).getLsbD i = false) ∧
    (∀ t pc arena p i, s.threads.get t = .alloc pc → s.arena.findPlace pc = (arena, .ret (p, i)) →
      p ∉ s.arena.heap.freed.map Freed.page ∧ ¬ s.Live p i) ∧
    (s.arena.heap.freed.map Freed.page).Nodup ∧
    ∀ p ∈ s.arena.heap.freed.map Freed.page, ∀ t, (s.threads.get t).reads p = false := by
  obtain ⟨hnodup, hunused⟩ := SharedState.freed_unused h
  have hreach : machine.Reach Machine.always s := h.elim (·.reachable) (·.reachable)
  obtain ⟨-, hb⟩ := SharedState.pointers_blocks hreach
  refine ⟨hb.ledger.nodup, hb.ledger.apart, hb.ledger.inj, fun p i hl => ?_,
    fun t pc arena p i ht hs => ?_, hnodup, fun p hp => (hunused p hp).2⟩
  · obtain ⟨hlt, hi, hbit⟩ := hb.live p i hl
    exact ⟨hlt, fun hp => (hunused p hp).1 i hl, hi, hbit⟩
  · have hreads := reads_of_ret hs
    refine ⟨fun hp => ?_, hb.not_live hs⟩
    rw [← ht, (hunused p hp).2 t] at hreads
    cases hreads

/-- The stale `compare_exchange` has put page 0 back, which is full and on no list. And thread 4
has a block of page 0 when page 1 was deallocated. -/
theorem blocks_owned_once_runs :
    (∃ s : SharedState, s.arena.freeList = some 0 ∧ s.arena.inFreeList 0 = false ∧
      s.handles.length = 125 ∧ s.handles.Nodup) ∧
    ∃ s : SharedState, s.handles = [(0, 0)] ∧ s.arena.heap.freed.map Freed.page = [1] ∧
      ∀ t, (s.threads.get t).reads 1 = false := by
  have hstart : machine.init (.start 126) := ⟨126, rfl⟩
  constructor
  · obtain ⟨s, hs, hp⟩ := Machine.Reach.exists_of_runIf hstart (fun _ a => a.noShrink)
      (SharedAct.stalePop ++ [.step 1])
      (fun s => s.arena.freeList = some 0 ∧ s.arena.inFreeList 0 = false ∧ s.handles.length = 125)
      (fun _ _ ha => ha) (by decide +kernel)
    obtain ⟨hfree, hflag, hlen⟩ := of_decide_eq_true hp
    exact ⟨s, hfree, hflag, hlen, (blocks_owned_once (Or.inl hs)).1⟩
  · obtain ⟨s, hs, hp⟩ := Machine.Reach.exists_of_runIf hstart
      (fun s a => s.popsCurrent a && s.quietDrop a)
      (SharedAct.shrinkThenRefill ++ SharedAct.steps 4 4)
      (fun s => s.handles = [(0, 0)] ∧ s.arena.heap.freed.map Freed.page = [1])
      (fun _ _ ha => by simpa using ha) (by decide +kernel)
    obtain ⟨hhandles, hfreed⟩ := of_decide_eq_true hp
    obtain ⟨-, -, -, -, -, -, hunread⟩ := blocks_owned_once (Or.inr hs)
    exact ⟨s, hhandles, hfreed, hunread 1 (by rw [hfreed]; exact List.mem_singleton_self 1)⟩

/-- It is not enough that `deallocate_page` waits: thread 3 takes a block of page 1 after `drop_page`
has found it unused. -/
theorem block_on_freed_page : ∃ s : SharedState,
    machine.Reach (fun s a => s.popsCurrent a = true ∧ s.quietFree a = true) s ∧
    (1, 0) ∈ s.handles ∧ .dropPage 1 ∈ s.arena.heap.freed := by
  have hstart : machine.init (.start 126) := ⟨126, rfl⟩
  obtain ⟨s, hs, hp⟩ := Machine.Reach.exists_of_runIf hstart
    (fun s a => s.popsCurrent a && s.quietFree a)
    (SharedAct.allocs 3 1 ++ SharedAct.shrinkThenRefill.dropLast ++ SharedAct.steps 3 2 ++ [.step 19])
    (fun s => decide ((1, 0) ∈ s.handles ∧ .dropPage 1 ∈ s.arena.heap.freed))
    (fun _ _ ha => by simpa using ha) (by decide +kernel)
  obtain ⟨hhandle, hfreed⟩ := of_decide_eq_true hp
  exact ⟨s, hs, hhandle, hfreed⟩

end SharedArena

end MemoryPools
