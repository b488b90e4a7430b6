import MemoryPools.SharedArenaTaken
import MemoryPools.Page.Dues
import MemoryPools.Page.SharedArenaSound

/-!
# The lifetime of the pages of a shared arena

The last owner of a shared arena drops it while handles are left, and other threads drop them
meanwhile and after it. Every page is deallocated once, by the owner or by a drop.
-/

namespace MemoryPools

open Interleave

/-! ## The machine -/

inductive SharedEnd
  | alive
  | ending (pc : SharedArena.ReleasePc)
  -- the arena does not exist any more
  | gone
  | panicked
  deriving DecidableEq

structure SharedLife where
  state : SharedState
  ending : SharedEnd

inductive SharedLifeAct
  | act (a : SharedAct)
  | release
  | stepRelease
  -- an operation of a drop when the release has begun
  | stepDrop (t : Tid) (upgraded : Bool)
  deriving DecidableEq

def SharedLifeAct.noShrink : SharedLifeAct → Bool
  | .act a => a.noShrink
  | _ => true

def SharedCall.borrows : SharedCall → Bool
  | .alloc _ | .shrink _ => true
  | _ => false

def SharedAct.isDrop : SharedAct → Bool
  | .drop .. => true
  | _ => false

namespace SharedLife

def afterRelease (s : SharedLife) (arena : SharedArena) :
    Control SharedArena.ReleasePc Unit → SharedLife
  | .goto pc => { state := { s.state with arena }, ending := .ending pc }
  | .ret () => { state := { s.state with arena }, ending := .gone }
  | .panic => { state := { s.state with arena }, ending := .panicked }

def step (s : SharedLife) : SharedLifeAct → Option SharedLife
  | .act a =>
    if s.ending = .alive ∨ a.isDrop = true then (s.state.step a).map fun state => { s with state }
    else none
  | .release =>
    -- nobody borrows the arena
    if s.ending = .alive ∧ s.state.threads.all (fun c => !c.borrows) = true then
      some { s with ending := .ending .loadToFree }
    else none
  | .stepRelease =>
    match s.ending with
    | .ending pc =>
      let (arena, control) := s.state.arena.release pc
      some (s.afterRelease arena control)
    | .alive | .gone | .panicked => none
  | .stepDrop t upgraded =>
    if s.ending = .alive then none
    else
      match s.state.threads.get t with
      | .drop page index pc =>
        let (arena, control) :=
          s.state.arena.dropBlockOf page index (s.ending ≠ .gone || upgraded) pc
        some { s with
          state := { s.state with
            arena
            threads := s.state.threads.set t (.afterDrop page index control) } }
      | _ => none

def start (cap : Nat) : SharedLife where
  state := .start cap
  ending := .alive

/-! What the end of the arena can do -/

theorem stepRelease_state {s s' : SharedLife} (hs : s.step .stepRelease = some s') :
    ∃ arena, s'.state = { s.state with arena } := by
  cases he : s.ending with
  | ending pc =>
    simp only [step, he] at hs
    obtain rfl := Option.some.inj hs
    refine ⟨(s.state.arena.release pc).1, ?_⟩
    cases (s.state.arena.release pc).2 <;> rfl
  | alive | gone | panicked =>
    simp only [step, he] at hs
    cases hs

theorem stepDrop_state {s s' : SharedLife} {t : Tid} {upgraded : Bool}
    (hs : s.step (.stepDrop t upgraded) = some s') :
    ∃ p i pc arena control, s.state.threads.get t = .drop p i pc ∧
      s'.state = { s.state with arena, threads := s.state.threads.set t (.afterDrop p i control) } := by
  simp only [step] at hs
  split at hs
  · cases hs
  · split at hs
    · rename_i p i pc ht
      obtain rfl := Option.some.inj hs
      exact ⟨p, i, pc, _, _, ht, rfl⟩
    · cases hs

end SharedLife

def SharedArena.lifeMachine : Machine SharedLife SharedLifeAct where
  init s := ∃ cap, s = .start cap
  step := SharedLife.step

/-! ## Before the end -/

def SharedCall.deallocates : SharedCall → Option Addr
  | .drop p _ .deallocate => some p
  | _ => none

namespace SharedArena

variable {a a' : SharedArena} {p : Addr} {i : Nat}

theorem frees_of_not_parks {pc : FindPc} (h : (SharedCall.alloc pc).parks = false) :
    (SharedCall.alloc pc).frees = none := by
  unfold SharedCall.frees
  split
  · rename_i e
    rw [e] at h
    cases h
  · rfl

theorem dropPage_fetch {control : Control DropPagePc Unit}
    (h : a.dropPage p .fetch = (a', control)) :
    a' = a.setPage p (PageSharedArena.givePage (a.page p)).1 ∧
      control = if (PageSharedArena.givePage (a.page p)).2 then .goto .deallocate else .ret () := by
  obtain ⟨rfl, rfl⟩ := Prod.mk.inj h
  exact ⟨rfl, rfl⟩

/-- A drop does not see the last reference while the arena has its own. -/
theorem giveBlock_not_last {page : PageSharedArena} {last : Bool}
    (h63 : (a.word p).getLsbD 63 = true)
    (hg : PageSharedArena.giveBlock i (a.page p) = (page, last)) : last = false := by
  obtain ⟨-, rfl⟩ := Prod.mk.inj hg
  apply decide_eq_false
  intro e
  have hclear := (not_eq_mask_iff.mp e).1
  rw [BitVec.getLsbD_or, show (a.page p).bitfield.getLsbD 63 = true from h63] at hclear
  cases hclear

end SharedArena

/-- Without `shrink_to_fit` no page is given up while the arena exists. -/
structure UnfreedInv (s : SharedState) : Prop where
  freed : s.arena.heap.freed = []
  calls : ∀ t, (s.threads.get t).deallocates = none

namespace UnfreedInv

variable {s s' : SharedState} {t : Tid} {c : SharedCall} {arena : SharedArena}
  {handles : List (Addr × Nat)}

theorem thread (h : UnfreedInv s) (hfreed : arena.heap.freed = s.arena.heap.freed)
    (hc : c.deallocates = none) : UnfreedInv { arena, handles, threads := s.threads.set t c } := by
  refine ⟨hfreed.trans h.freed, fun u => ?_⟩
  show ((s.threads.set t c).get u).deallocates = none
  rw [Store.get_set]
  split
  · exact hc
  · exact h.calls u

theorem step (h : UnfreedInv s) (hu : UnshrunkInv s) {a : SharedAct} (ha : a.noShrink = true)
    (hm : SharedState.Moves s a s') : UnfreedInv s' := by
  cases hm with
  | startAlloc | startDrop => exact h.thread rfl rfl
  | startShrink => cases ha
  | @alloc t pc arena control ht hs =>
    have hparks := hu.calls t
    rw [ht] at hparks
    exact h.thread (SharedArena.freed_findPlace hs (SharedArena.frees_of_not_parks hparks))
      (by cases control <;> rfl)
  | @shrink t pc arena control ht hs =>
    have hparks := hu.calls t
    rw [ht] at hparks
    cases hparks
  | @giveBlock t p i page last ht hg =>
    have hlast := SharedArena.giveBlock_not_last (hu.arenaBit p) hg
    exact h.thread rfl (by rw [hlast]; rfl)
  | @freeBlock t p i ht =>
    have hcalls := h.calls t
    rw [ht] at hcalls
    cases hcalls
  | @push t p i pc links pending control ht hp =>
    exact h.thread rfl (by cases control <;> rfl)

theorem of_noShrink (h : SharedArena.machine.Reach (fun _ a => a.noShrink = true) s) :
    UnfreedInv s := by
  apply h.invariant
  · intro s hs
    obtain ⟨cap, rfl⟩ := hs
    exact ⟨rfl, fun t => congrArg SharedCall.deallocates (Store.get_empty t)⟩
  · intro s a s' hr hi ha hs
    exact hi.step (UnshrunkInv.of_noShrink hr) ha (SharedState.moves_of_step hs)

end UnfreedInv

/-! ## The pages that the release gives up -/

namespace SharedArena

def Keeps (a : SharedArena) (l : List Addr) : Prop :=
  ∀ q, q ∈ l ↔ q < a.heap.size ∧ (a.word q).getLsbD 63 = true

end SharedArena

namespace SharedEnd

/-- What a release has to give up still. Nothing was parked. -/
def Leaves (a : SharedArena) : SharedEnd → Prop
  | .ending .loadToFree => a.toFree = none ∧ ∃ l, Linked a.next a.fullList l ∧ a.Keeps l
  | .ending .loadFull => ∃ l, Linked a.next a.fullList l ∧ a.Keeps l
  | .ending (.loadNext p) => ∃ l, Linked a.next (some p) l ∧ a.Keeps l
  | .ending (.dropPage p next .fetch) => ∃ l, Linked a.next next l ∧ p ∉ l ∧ a.Keeps (p :: l)
  | .ending (.dropPage _ next .deallocate) => ∃ l, Linked a.next next l ∧ a.Keeps l
  | .gone => a.Keeps []
  | .alive | .ending (.dropParked ..) | .panicked => False

def deallocates : SharedEnd → Option Addr
  | .ending (.dropPage p _ .deallocate) | .ending (.dropParked p _ .deallocate) => some p
  | _ => none

variable {a a' : SharedArena} {e : SharedEnd}

theorem Leaves.congr (h : e.Leaves a) (hsize : a'.heap.size = a.heap.size)
    (hfull : a'.fullList = a.fullList) (hnext : a'.next = a.next) (htf : a'.toFree = a.toFree)
    (h63 : ∀ q, (a'.word q).getLsbD 63 = (a.word q).getLsbD 63) : e.Leaves a' := by
  have hkeeps : ∀ {l}, a.Keeps l → a'.Keeps l := by
    intro l hk q
    rw [hsize, h63]
    exact hk q
  cases e with
  | alive | panicked => exact h
  | gone => exact hkeeps h
  | ending pc =>
    cases pc with
    | loadToFree =>
      obtain ⟨ht, l, hl, hk⟩ := h
      rw [← hnext, ← hfull] at hl
      exact ⟨htf.trans ht, l, hl, hkeeps hk⟩
    | dropParked => exact h
    | loadFull =>
      obtain ⟨l, hl, hk⟩ := h
      rw [← hnext, ← hfull] at hl
      exact ⟨l, hl, hkeeps hk⟩
    | loadNext p =>
      obtain ⟨l, hl, hk⟩ := h
      exact ⟨l, hnext ▸ hl, hkeeps hk⟩
    | dropPage p next pc =>
      cases pc with
      | fetch =>
        obtain ⟨l, hl, hnot, hk⟩ := h
        exact ⟨l, hnext ▸ hl, hnot, hkeeps hk⟩
      | deallocate =>
        obtain ⟨l, hl, hk⟩ := h
        exact ⟨l, hnext ▸ hl, hkeeps hk⟩

end SharedEnd

/-- The page that the owner (`none`) or a thread deallocates next. -/
def SharedLife.deallocates (s : SharedLife) : Option Tid → Option Addr
  | none => s.ending.deallocates
  | some t => (s.state.threads.get t).deallocates

/-! ## The references to the pages -/

/-- `hand` are the pages that the callers are about to deallocate. -/
def SharedDues {ι : Type} (s : SharedState) (hand : ι → Option Addr) : Prop :=
  Dues PageSharedArena.refs s.arena.page s.Live (s.arena.heap.freed.map Freed.page) hand

theorem SharedTakenInv.held_iff {s : SharedState} (h : SharedTakenInv s) (hb : SharedBlocksInv s)
    (p : Addr) (i : Nat) : PageSharedArena.refs.held (s.arena.page p) i ↔ s.Live p i := by
  constructor
  · intro ⟨hi, hbit⟩
    rw [blockPerPage_eq] at hi
    exact h.taken p i hi hbit
  · intro hl
    obtain ⟨-, hi, hbit⟩ := hb.live p i hl
    exact ⟨blockPerPage_eq ▸ hi, hbit⟩

namespace SharedDues

variable {ι : Type} {s s' : SharedState} {hand hand' : ι → Option Addr} {w : ι} {t : Tid} {p : Addr}
  {i : Nat}

theorem keep (h : SharedDues s hand)
    (howned : ∀ q, (s.arena.word q).getLsbD 63 = true → (s'.arena.word q).getLsbD 63 = true)
    (hword : ∀ q, (s.arena.word q).getLsbD 63 = false → s'.arena.word q = s.arena.word q)
    (hlive : ∀ q, (s.arena.word q).getLsbD 63 = false → ∀ j, s'.Live q j ↔ s.Live q j)
    (hfreed : s'.arena.heap.freed = s.arena.heap.freed) (hh : ∀ u, hand' u = hand u) :
    SharedDues s' hand' := by
  unfold SharedDues
  rw [hfreed]
  refine Dues.keep h (fun _ => trivial) (fun q => ?_) (fun q hq j => ?_) (fun q hq => ?_) hh
  · show (s'.arena.word q).getLsbD 63 = true ↔ (s.arena.word q).getLsbD 63 = true
    cases hq : (s.arena.word q).getLsbD 63 with
    | true => simp [howned q hq]
    | false => rw [hword q hq, hq]
  · show j < blockPerPage ∧ (s'.arena.word q).getLsbD j = false ↔
      j < blockPerPage ∧ (s.arena.word q).getLsbD j = false
    rw [hword q (Bool.eq_false_iff.mpr hq)]
  · exact hlive q (Bool.eq_false_iff.mpr hq)

theorem congr (h : SharedDues s hand) (hword : s'.arena.word = s.arena.word)
    (hlive : ∀ q j, s'.Live q j ↔ s.Live q j) (hfreed : s'.arena.heap.freed = s.arena.heap.freed)
    (hh : ∀ u, hand' u = hand u) : SharedDues s' hand' :=
  h.keep (fun q => by rw [hword]; exact id) (fun q _ => by rw [hword]) (fun q _ => hlive q) hfreed hh

theorem free (h : SharedDues s hand) (hd : hand w = some p) (hd' : hand' w = none)
    (hu : ∀ u, u ≠ w → hand' u = hand u) (hword : s'.arena.word = s.arena.word)
    (hlive : ∀ q j, s'.Live q j ↔ s.Live q j)
    (hfreed : s'.arena.heap.freed.map Freed.page = p :: s.arena.heap.freed.map Freed.page) :
    SharedDues s' hand' := by
  have hbits : ∀ q, (s'.arena.page q).bitfield = (s.arena.page q).bitfield := congrFun hword
  unfold SharedDues
  rw [hfreed]
  refine (Dues.free h hd hd' hu).keep (fun _ => trivial) (fun q => ?_) (fun q _ j => ?_)
    (fun q _ j => hlive q j) fun _ => rfl
  · simp only [PageSharedArena.refs, hbits]
  · simp only [PageSharedArena.refs, hbits]

theorem giveBlock (h : SharedDues s hand) (hb : SharedBlocksInv s) (htaken : SharedTakenInv s)
    {page : PageSharedArena} {last : Bool} (ht : s.threads.get t = .drop p i .fetchAdd)
    (hg : PageSharedArena.giveBlock i (s.arena.page p) = (page, last)) (hd : hand w = none)
    (hd' : hand' w = if last then some p else none) (hu : ∀ u, u ≠ w → hand' u = hand u) :
    SharedDues { s with
      arena := s.arena.setPage p page
      threads := s.threads.set t (.drop p i (if last then .deallocate else .push .loadInFree)) }
      hand' := by
  have h0 : handOf s.threads t = some (p, i) := handOf_get ht
  have h1 : handOf (s.threads.set t (.drop p i (if last then .deallocate else .push .loadInFree))) t =
      none := by
    rw [handOf_set_self]
    cases last <;> rfl
  have hlive : s.Live p i := Or.inr ⟨t, h0⟩
  exact Dues.giveBlock h PageSharedArena.refs_lawful ((htaken.held_iff hb p i).mpr hlive) hlive hg
    (fun q => SharedArena.page_setPage) (fun q j => owned_give hb.ledger h0 h1 (handOf_set_ne _)) hd
    hd' hu

/-- `drop_page` of a page that the arena still owns. -/
theorem givePage (h : SharedDues s hand) (hb : SharedBlocksInv s) (htaken : SharedTakenInv s)
    {arena : SharedArena} {control : Control DropPagePc Unit}
    (h63 : (s.arena.word p).getLsbD 63 = true) (hp : s.arena.dropPage p .fetch = (arena, control))
    (hd : hand w = none) (hd' : hand' w = if control = .goto .deallocate then some p else none)
    (hu : ∀ u, u ≠ w → hand' u = hand u) : SharedDues { s with arena } hand' := by
  obtain ⟨rfl, hcontrol⟩ := SharedArena.dropPage_fetch hp
  have hgive : PageSharedArena.givePage (s.arena.page p) =
      ((PageSharedArena.givePage (s.arena.page p)).1, decide (control = .goto .deallocate)) := by
    rw [hcontrol]
    cases hl : (PageSharedArena.givePage (s.arena.page p)).2 with
    | true => exact Prod.ext rfl hl
    | false => exact Prod.ext rfl hl
  exact Dues.givePage h PageSharedArena.refs_lawful h63 (htaken.held_iff hb p) hgive
    (fun q => SharedArena.page_setPage) hd (by simpa using hd') hu

end SharedDues

/-! ## The invariant -/

structure EndedInv (s : SharedLife) : Prop where
  blocks : SharedBlocksInv s.state
  taken : SharedTakenInv s.state
  free : ∀ p, s.state.arena.freeList = some p → p < s.state.arena.heap.size
  calls : ∀ t, (s.state.threads.get t).borrows = false
  dues : SharedDues s.state s.deallocates
  given : ∀ p, (s.state.arena.word p).getLsbD 63 = false → p < s.state.arena.heap.size
  leaves : s.ending.Leaves s.state.arena

namespace EndedInv

variable {s s' : SharedLife} {t : Tid} {c : SharedCall} {arena : SharedArena} {p : Addr} {i : Nat}
  {handles : List (Addr × Nat)}

/-! ### The threads -/

theorem deallocates_set (u : Option Tid) (hu : u ≠ some t) :
    ({ s with state := { arena, handles, threads := s.state.threads.set t c } } :
      SharedLife).deallocates u = s.deallocates u := by
  cases u with
  | none => rfl
  | some v =>
    have hv : v ≠ t := fun e => hu (congrArg some e)
    show ((s.state.threads.set t c).get v).deallocates = (s.state.threads.get v).deallocates
    rw [Store.get_set_ne _ _ hv]

theorem deallocates_set_self :
    ({ s with state := { arena, handles, threads := s.state.threads.set t c } } :
      SharedLife).deallocates (some t) = c.deallocates := by
  show ((s.state.threads.set t c).get t).deallocates = c.deallocates
  rw [Store.get_set_self]

theorem deallocates_set_same (hc : c.deallocates = (s.state.threads.get t).deallocates)
    (u : Option Tid) :
    ({ s with state := { arena, handles, threads := s.state.threads.set t c } } :
      SharedLife).deallocates u = s.deallocates u := by
  by_cases e : u = some t
  · rw [e]
    exact deallocates_set_self.trans hc
  · exact deallocates_set u e

theorem borrows_set (h : EndedInv s) (hc : c.borrows = false) (u : Tid) :
    ((s.state.threads.set t c).get u).borrows = false := by
  rw [Store.get_set]
  split
  · exact hc
  · exact h.calls u

/-- A step of a drop that touches no bit and deallocates nothing. -/
theorem quiet (h : EndedInv s) (hblocks : SharedBlocksInv { arena, handles, threads := s.state.threads.set t c })
    (htaken : SharedTakenInv { arena, handles, threads := s.state.threads.set t c })
    (hc : c.borrows = false) (hd : c.deallocates = (s.state.threads.get t).deallocates)
    (hlive : ∀ q j, Owned handles (handOf (s.state.threads.set t c)) (q, j) ↔ s.state.Live q j)
    (hword : arena.word = s.state.arena.word) (hheap : arena.heap.size = s.state.arena.heap.size)
    (hfreed : arena.heap.freed = s.state.arena.heap.freed)
    (hfree : arena.freeList = s.state.arena.freeList)
    (hfull : arena.fullList = s.state.arena.fullList) (hnext : arena.next = s.state.arena.next)
    (htf : arena.toFree = s.state.arena.toFree) :
    EndedInv { s with state := { arena, handles, threads := s.state.threads.set t c } } where
  blocks := hblocks
  taken := htaken
  free := by
    rw [hfree, hheap]
    exact h.free
  calls := h.borrows_set hc
  dues := h.dues.congr hword hlive hfreed (deallocates_set_same hd)
  given q hq := by
    rw [hword] at hq
    rw [hheap]
    exact h.given q hq
  leaves := h.leaves.congr hheap hfull hnext htf fun q => by rw [hword]

theorem startDrop (h : EndedInv s) (ht : s.state.threads.get t = .idle)
    (hi : (p, i) ∈ s.state.handles) :
    EndedInv { s with state := { s.state with
      handles := s.state.handles.erase (p, i)
      threads := s.state.threads.set t (.drop p i .fetchAdd) } } := by
  have h0 : handOf s.state.threads t = none := handOf_get ht
  refine h.quiet (h.blocks.step h.free (.startDrop ht hi)) (h.taken.startDrop h.blocks ht hi) rfl ?_
    (fun q j => ?_) rfl rfl rfl rfl rfl rfl rfl
  · rw [ht]
    rfl
  · exact owned_take h.blocks.ledger hi h0 (handOf_set_self _) (handOf_set_ne _)

theorem giveBlock (h : EndedInv s) {page : PageSharedArena} {last : Bool}
    (ht : s.state.threads.get t = .drop p i .fetchAdd)
    (hg : PageSharedArena.giveBlock i (s.state.arena.page p) = (page, last)) :
    EndedInv { s with state := { s.state with
      arena := s.state.arena.setPage p page
      threads :=
        s.state.threads.set t (.drop p i (if last then .deallocate else .push .loadInFree)) } } := by
  have hlive : s.state.Live p i := Or.inr ⟨t, handOf_get ht⟩
  have hidle : s.deallocates (some t) = none := by
    show (s.state.threads.get t).deallocates = none
    rw [ht]
    rfl
  have h63 : ∀ q, ((s.state.arena.setPage p page).word q).getLsbD 63 =
      (s.state.arena.word q).getLsbD 63 := by
    intro q
    rw [SharedArena.word_setPage, Function.update_apply]
    split
    · rename_i e
      obtain ⟨-, -, howned, -⟩ := PageSharedArena.refs_lawful.giveBlock trivial
        ((h.taken.held_iff h.blocks p i).mpr hlive) hg
      rw [e, Bool.eq_iff_iff]
      exact howned
    · rfl
  refine ⟨h.blocks.step h.free (.giveBlock ht hg), h.taken.giveBlock h.blocks ht hg, h.free,
    h.borrows_set rfl, ?_, fun q hq => h.given q ((h63 q).symm.trans hq), ?_⟩
  · exact h.dues.giveBlock h.blocks h.taken ht hg hidle
      (deallocates_set_self.trans (by cases last <;> rfl)) deallocates_set
  · obtain ⟨rfl, -⟩ := Prod.mk.inj hg
    exact h.leaves.congr rfl rfl (SharedArena.next_setPage rfl) rfl h63

theorem freeBlock (h : EndedInv s) (ht : s.state.threads.get t = .drop p i .deallocate) :
    EndedInv { s with state := { s.state with
      arena := { s.state.arena with
        heap := (s.state.arena.heap.set p (s.state.arena.page p)).free (.dropBlock p) }
      threads := s.state.threads.set t .idle } } := by
  have h0 : handOf s.state.threads t = none := handOf_get ht
  have hw : SharedArena.word { s.state.arena with
      heap := (s.state.arena.heap.set p (s.state.arena.page p)).free (.dropBlock p) } =
      s.state.arena.word := SharedArena.word_setPage_same (a := s.state.arena) rfl
  have hbusy : s.deallocates (some t) = some p := by
    show (s.state.threads.get t).deallocates = some p
    rw [ht]
    rfl
  refine ⟨h.blocks.step h.free (.freeBlock ht), ?_, h.free, h.borrows_set rfl, ?_, ?_, ?_⟩
  · exact h.taken.keep h0.symm trivial fun q j _ hc => by rwa [hw] at hc
  · exact h.dues.free hbusy deallocates_set_self deallocates_set hw
      (fun q j => owned_congr (handOf_set_same _ h0.symm)) rfl
  · intro q hq
    rw [hw] at hq
    exact h.given q hq
  · exact h.leaves.congr rfl rfl (SharedArena.next_setPage (a := s.state.arena) rfl) rfl
      fun q => by rw [hw]

theorem push (h : EndedInv s) {upgraded : Bool} {pc : PushPc} {links : PageLinks} {pending : Ptr}
    {control : Control PushPc Unit} (ht : s.state.threads.get t = .drop p i (.push pc))
    (hp : (s.state.arena.page p).toPageLinks.push p upgraded s.state.arena.pendingFreeList pc =
      (links, pending, control)) :
    EndedInv { s with state := { s.state with
      arena := { s.state.arena.setPage p { s.state.arena.page p with toPageLinks := links } with
        pendingFreeList := pending }
      threads := s.state.threads.set t (.afterDrop p i (control.map .push)) } } := by
  have h0 : handOf s.state.threads t = none := handOf_get ht
  have h1 : (SharedCall.afterDrop p i (control.map .push)).hand = none := by cases control <;> rfl
  have hw : SharedArena.word { s.state.arena.setPage p
      { s.state.arena.page p with toPageLinks := links } with pendingFreeList := pending } =
      s.state.arena.word := SharedArena.word_setPage_same (a := s.state.arena) rfl
  refine h.quiet ?_ ?_ ?_ ?_ (fun q j => owned_congr (handOf_set_same _ (h1.trans h0.symm))) hw rfl
    rfl rfl rfl (SharedArena.next_setPage (a := s.state.arena) (PageLinks.next_push hp)) rfl
  · refine h.blocks.keep (Nat.le_refl _) (h1.trans h0.symm) (fun q j _ hc => ?_) ?_
    · rwa [hw]
    · cases control <;> trivial
  · refine h.taken.keep (h1.trans h0.symm) ?_ fun q j _ hc => by rwa [hw] at hc
    cases control <;> trivial
  · cases control <;> rfl
  · rw [ht]
    cases control <;> rfl

theorem stepDrop (h : EndedInv s) {upgraded : Bool} (he : s.ending ≠ .alive)
    (hs : s.step (.stepDrop t upgraded) = some s') : s'.ending = s.ending ∧ EndedInv s' := by
  simp only [SharedLife.step, if_neg he] at hs
  cases ht : s.state.threads.get t with
  | drop p i pc =>
    rw [ht] at hs
    obtain rfl := Option.some.inj hs
    refine ⟨rfl, ?_⟩
    cases pc with
    | fetchAdd => exact h.giveBlock ht rfl
    | deallocate => exact h.freeBlock ht
    | push pc => exact h.push ht rfl
  | idle | alloc | shrink | panicked =>
    rw [ht] at hs
    cases hs

/-! ### The owner -/

variable {ending : SharedEnd}

/-- An operation of the owner on no page. -/
theorem ownerKeep (h : EndedInv s) (ending : SharedEnd) (hd : s.ending.deallocates = none)
    (hd' : ending.deallocates = none) (hleaves : ending.Leaves s.state.arena) :
    EndedInv { s with ending } where
  blocks := h.blocks
  taken := h.taken
  free := h.free
  calls := h.calls
  dues := by
    refine h.dues.congr rfl (fun _ _ => Iff.rfl) rfl fun w => ?_
    cases w with
    | none => exact hd'.trans hd.symm
    | some t => rfl
  given := h.given
  leaves := hleaves

theorem givePage (h : EndedInv s) (ending : SharedEnd) (hp : p < s.state.arena.heap.size)
    (h63 : (s.state.arena.word p).getLsbD 63 = true) (hd0 : s.ending.deallocates = none)
    {control : Control DropPagePc Unit} (hd : s.state.arena.dropPage p .fetch = (arena, control))
    (hd' : ending.deallocates = if control = .goto .deallocate then some p else none)
    (hleaves : ending.Leaves arena) :
    EndedInv { state := { s.state with arena }, ending } := by
  obtain ⟨rfl, -⟩ := SharedArena.dropPage_fetch hd
  have hw : ∀ q, (s.state.arena.setPage p (PageSharedArena.givePage (s.state.arena.page p)).1).word q =
      if q = p then s.state.arena.word p - maskArenaBit else s.state.arena.word q := by
    intro q
    rw [SharedArena.word_setPage, Function.update_apply]
    rfl
  -- the bits of the blocks stay when the bit of the arena goes
  have hbits : ∀ q, ∀ j < 63,
      ((s.state.arena.setPage p (PageSharedArena.givePage (s.state.arena.page p)).1).word q).getLsbD j =
        (s.state.arena.word q).getLsbD j := by
    intro q j hj
    rw [hw]
    split
    · rename_i e
      rw [e]
      exact getLsbD_sub_mask_lt hj
    · rfl
  refine ⟨⟨h.blocks.ledger, fun q j hl => ?_, h.blocks.looks⟩, ⟨fun q j hj hc => ?_, h.taken.scans⟩,
    h.free, h.calls, ?_, fun q hq => ?_, hleaves⟩
  · obtain ⟨hlt, hj, hbit⟩ := h.blocks.live q j hl
    exact ⟨hlt, hj, (hbits q j hj).trans hbit⟩
  · exact h.taken.taken q j hj ((hbits q j hj).symm.trans hc)
  · refine h.dues.givePage h.blocks h.taken h63 hd (w := none) hd0 hd' fun u hu => ?_
    cases u with
    | none => exact absurd rfl hu
    | some t => rfl
  · by_cases e : q = p
    · rw [e]
      exact hp
    · apply h.given q
      rwa [hw, if_neg e] at hq

theorem deallocate (h : EndedInv s) (hd0 : s.ending.deallocates = some p)
    {control : Control DropPagePc Unit}
    (hd : s.state.arena.dropPage p .deallocate = (arena, control))
    (hd' : ending.deallocates = none) (hleaves : ending.Leaves arena) :
    EndedInv { state := { s.state with arena }, ending } := by
  obtain rfl : { s.state.arena with
      heap := (s.state.arena.heap.set p (s.state.arena.page p)).free (.dropPage p) } = arena :=
    (Prod.mk.inj hd).1
  have hw : SharedArena.word { s.state.arena with
      heap := (s.state.arena.heap.set p (s.state.arena.page p)).free (.dropPage p) } =
      s.state.arena.word := SharedArena.word_setPage_same (a := s.state.arena) rfl
  refine ⟨⟨h.blocks.ledger, fun q j hl => ?_, h.blocks.looks⟩, ⟨fun q j hj hc => ?_, h.taken.scans⟩,
    h.free, h.calls, ?_, fun q hq => ?_, hleaves⟩
  · exact hw ▸ h.blocks.live q j hl
  · exact h.taken.taken q j hj (hw ▸ hc)
  · refine h.dues.free (w := none) hd0 hd' (fun u hu => ?_) hw (fun _ _ => Iff.rfl) rfl
    cases u with
    | none => exact absurd rfl hu
    | some t => rfl
  · exact h.given q (hw ▸ hq)

theorem releaseFrom {next : Ptr} {l : List Addr} (hl : Linked arena.next next l)
    (hk : arena.Keeps l) (hnext : ∀ ending : SharedEnd, ending.deallocates = none →
      ending.Leaves arena → EndedInv { state := { s.state with arena }, ending }) :
    (s.afterRelease arena (SharedArena.releaseFrom next)).ending ≠ .alive ∧
      EndedInv (s.afterRelease arena (SharedArena.releaseFrom next)) := by
  cases next with
  | none =>
    obtain rfl : l = [] := hl.unique rfl
    exact ⟨nofun, hnext .gone rfl hk⟩
  | some p => exact ⟨nofun, hnext (.ending (.loadNext p)) rfl ⟨l, hl, hk⟩⟩

theorem keeps_dropPage {l : List Addr} {a : SharedArena} (hk : a.Keeps (p :: l)) (hnot : p ∉ l)
    {control : Control DropPagePc Unit} (hd : a.dropPage p .fetch = (arena, control)) :
    arena.Keeps l := by
  obtain ⟨rfl, -⟩ := SharedArena.dropPage_fetch hd
  intro q
  have h63 : (a.word p).getLsbD 63 = true := ((hk p).mp List.mem_cons_self).2
  show _ ↔ q < a.heap.size ∧ _
  rw [SharedArena.word_setPage, Function.update_apply]
  by_cases e : q = p
  · subst e
    rw [if_pos rfl]
    have hcleared : (a.word q - maskArenaBit).getLsbD 63 = false := by
      rw [getLsbD_sub_mask h63]
      simp
    exact iff_of_false hnot fun hq => by
      have := hcleared.symm.trans hq.2
      cases this
  · rw [if_neg e, ← hk q, List.mem_cons]
    exact (or_iff_right e).symm

theorem release (h : EndedInv s) {pc : SharedArena.ReleasePc} (he : s.ending = .ending pc)
    {control : Control SharedArena.ReleasePc Unit}
    (hs : s.state.arena.release pc = (arena, control)) :
    (s.afterRelease arena control).ending ≠ .alive ∧ EndedInv (s.afterRelease arena control) := by
  have hleaves := h.leaves
  rw [he] at hleaves
  cases pc with
  | loadToFree =>
    obtain ⟨rfl, rfl⟩ := Prod.mk.inj hs
    obtain ⟨htf, hl⟩ := hleaves
    rw [htf]
    exact ⟨nofun, h.ownerKeep (.ending .loadFull) (by rw [he]; rfl) rfl hl⟩
  | dropParked => exact hleaves.elim
  | loadFull =>
    obtain ⟨rfl, rfl⟩ := Prod.mk.inj hs
    obtain ⟨l, hl, hk⟩ := hleaves
    exact releaseFrom hl hk fun ending hd => h.ownerKeep ending (by rw [he]; rfl) hd
  | loadNext p =>
    obtain ⟨rfl, rfl⟩ := Prod.mk.inj hs
    obtain ⟨l, hl, hk⟩ := hleaves
    cases l with
    | nil => cases hl
    | cons q l =>
      obtain rfl := Option.some.inj hl.1
      exact ⟨nofun, h.ownerKeep (.ending (.dropPage p (s.state.arena.next p) .fetch))
        (by rw [he]; rfl) rfl ⟨l, hl.2, (List.nodup_cons.mp hl.nodup).1, hk⟩⟩
  | dropPage p next pc =>
    cases hd : s.state.arena.dropPage p pc with
    | mk a c =>
      have hnext : a.next = s.state.arena.next := by
        obtain ⟨rfl, -⟩ := Prod.mk.inj hd
        cases pc <;> exact SharedArena.next_setPage (a := s.state.arena) rfl
      simp only [SharedArena.release, hd] at hs
      obtain ⟨rfl, rfl⟩ := Prod.mk.inj hs
      cases pc with
      | fetch =>
        obtain ⟨l, hl, hnot, hk⟩ := hleaves
        rw [← hnext] at hl
        obtain ⟨hp, h63⟩ := (hk p).mp List.mem_cons_self
        have hk' := keeps_dropPage hk hnot hd
        have hgive := fun (ending : SharedEnd) hd' =>
          h.givePage ending hp h63 (by rw [he]; rfl) hd hd'
        rcases SharedArena.dropPage_control s.state.arena p .fetch with e | ⟨-, e⟩
        · rw [hd] at e
          obtain rfl : c = .ret () := e
          exact releaseFrom hl hk' hgive
        · rw [hd] at e
          obtain rfl : c = .goto .deallocate := e
          exact ⟨nofun, hgive (.ending (.dropPage p next .deallocate)) rfl ⟨l, hl, hk'⟩⟩
      | deallocate =>
        obtain ⟨l, hl, hk⟩ := hleaves
        rw [← hnext] at hl
        have hk' : a.Keeps l := by
          obtain ⟨rfl, -⟩ := Prod.mk.inj hd
          have hw : SharedArena.word { s.state.arena with
              heap := (s.state.arena.heap.set p (s.state.arena.page p)).free (.dropPage p) } =
              s.state.arena.word := SharedArena.word_setPage_same (a := s.state.arena) rfl
          intro q
          rw [hk q, ← hw]
          rfl
        obtain rfl : Control.ret () = c := (Prod.mk.inj hd).2
        exact releaseFrom hl hk' fun ending hd' => h.deallocate (by rw [he]; rfl) hd hd'

/-- The last owner drops the arena when nobody borrows it. -/
theorem begin {state : SharedState}
    (h : SharedArena.machine.Reach (fun _ a => a.noShrink = true) state)
    (hc : ∀ t, (state.threads.get t).borrows = false) :
    EndedInv { state, ending := .ending .loadToFree } := by
  have hu := UnshrunkInv.of_noShrink h
  have hf := UnfreedInv.of_noShrink h
  obtain ⟨hp, hb⟩ := SharedState.pointers_blocks h
  have hputs : ∀ t, (state.threads.get t).puts = false := by
    intro t
    have ht := hc t
    cases hcall : state.threads.get t with
    | alloc => rw [hcall] at ht; cases ht
    | idle | shrink | drop | panicked => rfl
  obtain ⟨listed, hl, hcovers, -⟩ := (FullInv.of_noShrink h).covers hputs
  refine ⟨hb, SharedTakenInv.of_noShrink h, fun p hfree => hp.arena p (Or.inl hfree), hc, ?_,
    fun p hp => ?_, hu.toFree, listed, hl, fun q => ?_⟩
  · show Dues _ _ _ (state.arena.heap.freed.map Freed.page) _
    rw [hf.freed]
    refine .start (fun _ => trivial) hu.arenaBit fun w => ?_
    cases w with
    | none => rfl
    | some t => exact hf.calls t
  · rw [hu.arenaBit] at hp
    cases hp
  · exact (hcovers q).trans (and_iff_left (hu.arenaBit q)).symm

end EndedInv

def SharedLifeInv (s : SharedLife) : Prop :=
  if s.ending = .alive then SharedArena.machine.Reach (fun _ a => a.noShrink = true) s.state
  else EndedInv s

namespace SharedLifeInv

variable {s s' : SharedLife}

theorem alive (h : SharedLifeInv s) (he : s.ending = .alive) :
    SharedArena.machine.Reach (fun _ a => a.noShrink = true) s.state := by
  unfold SharedLifeInv at h
  rwa [if_pos he] at h

theorem ended (h : SharedLifeInv s) (he : s.ending ≠ .alive) : EndedInv s := by
  unfold SharedLifeInv at h
  rwa [if_neg he] at h

theorem of_ended (he : s.ending ≠ .alive) (h : EndedInv s) : SharedLifeInv s := by
  unfold SharedLifeInv
  rwa [if_neg he]

theorem act (h : SharedLifeInv s) {a : SharedAct} {state : SharedState} (ha : a.noShrink = true)
    (hok : s.ending = .alive ∨ a.isDrop = true) (hs : s.state.step a = some state) :
    SharedLifeInv { s with state } := by
  by_cases he : s.ending = .alive
  · unfold SharedLifeInv
    rw [if_pos he]
    exact (h.alive he).step ha hs
  · -- a drop that begins when the release has begun
    have hm := SharedState.moves_of_step hs
    have hdrop := hok.resolve_left he
    apply of_ended (s := { s with state }) he
    cases hm with
    | startDrop ht hi => exact (h.ended he).startDrop ht hi
    | startAlloc | startShrink | alloc | shrink | giveBlock | freeBlock | push => cases hdrop

theorem step (h : SharedLifeInv s) {a : SharedLifeAct} (ha : a.noShrink = true)
    (hs : s.step a = some s') : SharedLifeInv s' := by
  cases a with
  | act a =>
    simp only [SharedLife.step] at hs
    split at hs
    · rename_i hok
      obtain ⟨state, hstate, rfl⟩ := Option.map_eq_some_iff.mp hs
      exact h.act ha hok hstate
    · cases hs
  | release =>
    simp only [SharedLife.step] at hs
    split at hs
    · rename_i hok
      obtain rfl := Option.some.inj hs
      refine of_ended nofun (.begin (h.alive hok.1) fun t => ?_)
      simpa using Store.all_iff.mp hok.2 t
    · cases hs
  | stepRelease =>
    cases he : s.ending with
    | ending pc =>
      cases hr : s.state.arena.release pc with
      | mk arena control =>
        simp only [SharedLife.step, he, hr] at hs
        obtain rfl := Option.some.inj hs
        obtain ⟨hne, hi⟩ := (h.ended (by rw [he]; nofun)).release he hr
        exact of_ended hne hi
    | alive | gone | panicked =>
      simp only [SharedLife.step, he] at hs
      cases hs
  | stepDrop t upgraded =>
    by_cases he : s.ending = .alive
    · simp only [SharedLife.step, if_pos he] at hs
      cases hs
    · obtain ⟨he', hi⟩ := (h.ended he).stepDrop he hs
      exact of_ended (he' ▸ he) hi

theorem of_reach (h : SharedArena.lifeMachine.Reach (fun _ a => a.noShrink = true) s) :
    SharedLifeInv s := by
  apply h.invariant
  · intro s hs
    obtain ⟨cap, rfl⟩ := hs
    exact Machine.Reach.init ⟨cap, rfl⟩
  · intro s a s' _ hi ha hs
    exact hi.step ha hs

theorem blocks (h : SharedLifeInv s) : SharedBlocksInv s.state := by
  by_cases he : s.ending = .alive
  · exact (SharedState.pointers_blocks (h.alive he)).2
  · exact (h.ended he).blocks

theorem not_freed (h : SharedLifeInv s) {p : Addr} {i : Nat} (hl : s.state.Live p i) :
    p ∉ s.state.arena.heap.freed.map Freed.page := by
  by_cases he : s.ending = .alive
  · rw [(UnfreedInv.of_noShrink (h.alive he)).freed]
    exact List.not_mem_nil
  · exact (h.ended he).dues.not_freed hl

end SharedLifeInv

namespace SharedArena

/-- In every run without `shrink_to_fit`, through the end of the arena: a page is due when the
arena gave it up and no block of it is in use. A page that is due was deallocated once, or one
caller is about to deallocate it; no other page was deallocated. Nothing is left of an arena
that is gone but the pages of its handles. A drop past its `fetch_add` may still use the flag and
the links of a deallocated page: its cells stay in the model, and its address is not used again. -/
theorem shared_pages_deallocated_once {s : SharedLife}
    (h : lifeMachine.Reach (fun _ a => a.noShrink = true) s) :
    (s.state.arena.heap.freed.map Freed.page).Nodup ∧
    (∀ p, p ∈ s.state.arena.heap.freed.map Freed.page ∨ (∃ w, s.deallocates w = some p) ↔
      (s.state.arena.word p).getLsbD 63 = false ∧ ∀ i, ¬ s.state.Live p i) ∧
    (∀ w p, s.deallocates w = some p → p ∉ s.state.arena.heap.freed.map Freed.page ∧
      ∀ w', s.deallocates w' = some p → w' = w) ∧
    s.ending ≠ .panicked ∧
    (s.ending = .alive → ∀ p, (s.state.arena.word p).getLsbD 63 = true) ∧
    (s.ending = .gone → s.state.quiescent = true → ∀ p < s.state.arena.heap.size,
      (p ∈ s.state.arena.heap.freed.map Freed.page ↔ ∀ i, (p, i) ∉ s.state.handles)) := by
  have hi := SharedLifeInv.of_reach h
  by_cases he : s.ending = .alive
  · -- before its end the arena keeps every page
    have hu := UnshrunkInv.of_noShrink (hi.alive he)
    have hf := UnfreedInv.of_noShrink (hi.alive he)
    have hnone : ∀ w, s.deallocates w = none := by
      intro w
      cases w with
      | none =>
        show s.ending.deallocates = none
        rw [he]
        rfl
      | some t => exact hf.calls t
    rw [hf.freed]
    refine ⟨List.nodup_nil, fun p => iff_of_false ?_ fun hp => ?_, fun w p hw => ?_, ?_,
      fun _ => hu.arenaBit, fun hgone => ?_⟩
    · rintro (hp | ⟨w, hw⟩)
      · cases hp
      · rw [hnone] at hw
        cases hw
    · rw [hu.arenaBit] at hp
      cases hp.1
    · rw [hnone] at hw
      cases hw
    · rw [he]
      nofun
    · rw [he] at hgone
      cases hgone
  · have hend := hi.ended he
    have hledger := hend.dues.ledger
    refine ⟨hledger.nodup, fun p => (hend.dues.owned p).trans ?_, fun w p hw => ?_, fun e => ?_,
      fun e => absurd e he, fun hgone hq p hp => ?_⟩
    · exact and_congr_left' (Bool.not_eq_true _).to_iff
    · exact ⟨hledger.apart w p hw, fun w' hw' => hledger.inj w' w p hw' hw⟩
    · have hleaves := hend.leaves
      rw [e] at hleaves
      exact hleaves
    · have hidle : ∀ t, s.state.threads.get t = .idle :=
        fun t => of_decide_eq_true (Store.all_iff.mp hq t)
      have hnone : ∀ w, s.deallocates w = none := by
        intro w
        cases w with
        | none =>
          show s.ending.deallocates = none
          rw [hgone]
          rfl
        | some t => exact congrArg SharedCall.deallocates (hidle t)
      have hleaves := hend.leaves
      rw [hgone] at hleaves
      have h63 : ¬ (s.state.arena.word p).getLsbD 63 = true := by
        intro e
        have hp := (hleaves p).mpr ⟨hp, e⟩
        cases hp
      have hhand : ∀ t, handOf s.state.threads t = none :=
        fun t => congrArg SharedCall.hand (hidle t)
      rw [hend.dues.mem_freed hnone]
      refine (and_iff_right h63).trans ?_
      exact forall_congr' fun i => not_congr (owned_empty hhand)

/-- The arena is dropped while block 0 of its only page is in use, and the page goes with
the handle. -/
def sharedOutlivedPage : List SharedLifeAct :=
  [.act (.alloc 0)] ++ List.replicate 3 (.act (.step 0)) ++ [.release] ++
    List.replicate 4 .stepRelease ++ [.act (.drop 1 0 0), .stepDrop 1 false, .stepDrop 1 false]

theorem shared_pages_deallocated_once_outlived : ∃ s : SharedLife,
    s.state.arena.heap.size = 1 ∧ s.state.arena.heap.freed.map Freed.page = [0] ∧
      ∀ i, (0, i) ∉ s.state.handles := by
  have hstart : lifeMachine.init (.start 63) := ⟨63, rfl⟩
  obtain ⟨s, hs, hp⟩ := Machine.Reach.exists_of_runIf hstart (fun _ a => a.noShrink)
    sharedOutlivedPage
    (fun s => s.ending = .gone && s.state.quiescent && s.state.arena.heap.size = 1 &&
      s.state.arena.heap.freed.map Freed.page = [0])
    (fun _ _ ha => ha) (by decide +kernel)
  simp only [Bool.and_eq_true, decide_eq_true_eq] at hp
  obtain ⟨⟨⟨hgone, hq⟩, hsize⟩, hfreed⟩ := hp
  obtain ⟨-, -, -, -, -, hleft⟩ := shared_pages_deallocated_once hs
  refine ⟨s, hsize, hfreed, (hleft hgone hq 0 ?_).mp ?_⟩
  · rw [hsize]
    exact Nat.one_pos
  · rw [hfreed]
    exact List.mem_singleton_self 0

end SharedArena

end MemoryPools
