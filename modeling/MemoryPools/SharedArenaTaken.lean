import MemoryPools.SharedArenaCount
import MemoryPools.SharedArenaPointers
import MemoryPools.SharedArenaStats
import MemoryPools.BookCount
import MemoryPools.Interleave.Call

/-!
# The blocks of a shared arena that are in use

Without `shrink_to_fit`, and whatever the races on the free list do: a clear bit is a block in
use, and `full_list` has every page. So `fmt`, which walks `full_list`, shows the blocks in use
when no call is in progress, also where a page with free blocks is on no free list.
-/

namespace MemoryPools

open Interleave

variable {s s' : SharedState}

/-- The invariant of runs without `shrink_to_fit` needs nothing of the pops. -/
theorem UnshrunkInv.of_noShrink
    (h : SharedArena.machine.Reach (fun _ a => a.noShrink = true) s) : UnshrunkInv s := by
  apply h.invariant
  · intro s hs
    obtain ⟨cap, rfl⟩ := hs
    exact start cap
  · intro s a s' hr hi ha hs
    exact hi.step (SharedState.pointers_blocks hr).2 ha (SharedState.moves_of_step hs)

/-! ## The bits -/

def SharedCall.Scans : SharedCall → Prop
  | .alloc (.acquire _ (.fetchAnd i)) => i < 63
  | _ => True

theorem SharedCall.scans_of_blind {control : Control SharedArena.FindPc (Addr × Nat)}
    (h : SharedArena.blind control = true) : (SharedCall.afterAlloc control).Scans := by
  cases control with
  | goto pc =>
    cases pc with
    | acquire p pc => cases h
    | loadFree | loadNext | casFree | clearInFree | loadWriter | swapWriter | loadContended
    | maybeFree | recheckFree | loadPending | swapPending | swapFree | loadToFree | take | loadPages
    | put | unlock => trivial
  | ret | panic => trivial

namespace SharedArena

variable {a a' : SharedArena} {p : Addr} {i : Nat}

theorem load_scans {control : Control FindPc (Addr × Nat)} (h63 : (a.word p).getLsbD 63 = true)
    (hs : a.findPlace (.acquire p .load) = (a', control)) :
    (SharedCall.afterAlloc control).Scans := by
  have hle := ctz_le_of_arena h63
  obtain ⟨-, rfl⟩ := Prod.mk.inj hs
  by_cases hz : (a.page p).bitfield.ctz.toNat = 63
  · simp [hz, SharedCall.afterAlloc, SharedCall.Scans]
  · have hz' : (a.page p).bitfield.ctz.toNat < 63 := Nat.lt_of_le_of_ne hle hz
    simp [hz, SharedCall.afterAlloc, SharedCall.Scans, hz']

theorem fetchAnd_word {control : Control FindPc (Addr × Nat)} (hi : i < 63)
    (hs : a.findPlace (.acquire p (.fetchAnd i)) = (a', control)) :
    control = .ret (p, i) ∧ a'.word = Function.update a.word p (a.word p &&& ~~~bit i) ∨
      a'.word = a.word ∧ control = .goto (.acquire p .load) := by
  by_cases hbit : (a.page p).bitfield &&& bit i = 0
  · simp only [findPlace, PageSharedArena.acquireFreeBlock, hbit, ne_eq, not_true_eq_false,
      ite_false] at hs
    obtain ⟨rfl, rfl⟩ := Prod.mk.inj hs
    refine Or.inr ⟨word_setPage_same ?_, rfl⟩
    have hclear := (and_bit_eq_zero hi).mp hbit
    apply BitVec.eq_of_getLsbD_eq
    intro j _
    show ((a.page p).bitfield &&& ~~~bit i).getLsbD j = _
    rw [getLsbD_and_not_bit hi]
    by_cases e : i = j
    · subst e
      simp [word, hclear]
    · simp [word, e]
  · simp only [findPlace, PageSharedArena.acquireFreeBlock, hbit, hi, blockPerPage_eq, ne_eq,
      not_false_eq_true, ite_true] at hs
    obtain ⟨rfl, rfl⟩ := Prod.mk.inj hs
    exact Or.inl ⟨rfl, word_setPage⟩

end SharedArena

/-- A block whose bit is clear is in use. -/
structure SharedTakenInv (s : SharedState) : Prop where
  taken : ∀ p, ∀ i < 63, (s.arena.word p).getLsbD i = false → s.Live p i
  scans : ∀ t, (s.threads.get t).Scans

namespace SharedTakenInv

variable {t : Tid} {c : SharedCall} {arena : SharedArena} {handles : List (Addr × Nat)}

theorem thread (h : SharedTakenInv s) (hc : c.Scans)
    (htaken : ∀ p, ∀ i < 63, (arena.word p).getLsbD i = false →
      Owned handles (handOf (s.threads.set t c)) (p, i)) :
    SharedTakenInv { arena, handles, threads := s.threads.set t c } := by
  refine ⟨htaken, fun u => ?_⟩
  show ((s.threads.set t c).get u).Scans
  rw [Store.get_set]
  split
  · exact hc
  · exact h.scans u

theorem keep (h : SharedTakenInv s) (hhand : c.hand = handOf s.threads t) (hc : c.Scans)
    (hword : ∀ p, ∀ i < 63, (arena.word p).getLsbD i = false → (s.arena.word p).getLsbD i = false) :
    SharedTakenInv { s with arena, threads := s.threads.set t c } :=
  h.thread hc fun p i hi hbit =>
    (owned_congr (handOf_set_same s.threads hhand)).mpr (h.taken p i hi (hword p i hi hbit))

/-- The call looks at a page that the arena owns. -/
theorem alloc (h : SharedTakenInv s) {pc : SharedArena.FindPc}
    {control : Control SharedArena.FindPc (Addr × Nat)} (ht : s.threads.get t = .alloc pc)
    (harena : ∀ p, (SharedCall.alloc pc).reads p = true → (s.arena.word p).getLsbD 63 = true)
    (hs : s.arena.findPlace pc = (arena, control)) :
    SharedTakenInv { arena, handles := SharedState.made control ++ s.handles,
                     threads := s.threads.set t (.afterAlloc control) } := by
  have hhand : handOf s.threads t = none := handOf_get ht
  have hscans := h.scans t
  rw [ht] at hscans
  have hkeep : (∀ block, control ≠ .ret block) → (SharedCall.afterAlloc control).Scans →
      (∀ p, ∀ i < 63, (arena.word p).getLsbD i = false → (s.arena.word p).getLsbD i = false) →
      SharedTakenInv { arena, handles := SharedState.made control ++ s.handles,
                       threads := s.threads.set t (.afterAlloc control) } := by
    intro hne hc hword
    cases control with
    | goto | panic => exact h.keep hhand.symm hc hword
    | ret block => exact absurd rfl (hne block)
  have hblind : SharedArena.blind control = true → ∀ block, control ≠ .ret block := by
    intro hc block e
    rw [e] at hc
    cases hc
  cases (SharedArena.findPlace_word hs).1 with
  | look _ hw => exact hkeep nofun trivial fun p i _ hc => by rwa [hw] at hc
  | @scan p i _ _ hw =>
    have h63 := harena p (by simp [SharedCall.reads])
    exact hkeep nofun (SharedArena.load_scans h63 hs) fun p i _ hc => by rwa [hw] at hc
  | @take p i =>
    rcases SharedArena.fetchAnd_word hscans hs with ⟨rfl, hw⟩ | ⟨hw, rfl⟩
    · refine h.thread trivial fun q j hj hc => owned_insert.mpr ?_
      by_cases e : (q, j) = (p, i)
      · exact Or.inr e
      · refine Or.inl ((owned_congr (handOf_set_same s.threads hhand.symm)).mpr (h.taken q j hj ?_))
        rw [hw, Function.update_apply] at hc
        split at hc
        · rename_i eq
          subst eq
          rw [getLsbD_and_not_bit hscans] at hc
          have hne : i ≠ j := by
            intro e'
            exact e (by rw [e'])
          simpa [hne] using hc
        · exact hc
    · exact hkeep nofun trivial fun p i _ hc => by rwa [hw] at hc
  | giveUp hw hc =>
    refine hkeep (hblind hc) (SharedCall.scans_of_blind hc) fun q j hj hbit => ?_
    rw [hw, Function.update_apply] at hbit
    split at hbit
    · rename_i e
      rwa [e, ← getLsbD_sub_mask_lt hj]
    · exact hbit
  | grow hw hc =>
    refine hkeep (hblind hc) (SharedCall.scans_of_blind hc) fun q j hj hbit => ?_
    rcases hw q with e | ⟨-, e⟩
    · rwa [e] at hbit
    · rw [e, BitVec.getLsbD_allOnes] at hbit
      simp at hbit
      omega
  | keep hw hc =>
    exact hkeep (hblind hc) (SharedCall.scans_of_blind hc) fun q j _ hbit => by rwa [hw] at hbit

theorem giveBlock (h : SharedTakenInv s) (hb : SharedBlocksInv s) {p : Addr} {i : Nat}
    {page : PageSharedArena} {last : Bool} (ht : s.threads.get t = .drop p i .fetchAdd)
    (hg : PageSharedArena.giveBlock i (s.arena.page p) = (page, last)) :
    SharedTakenInv { s with
      arena := s.arena.setPage p page
      threads := s.threads.set t (.drop p i (if last then .deallocate else .push .loadInFree)) } := by
  obtain ⟨rfl, -⟩ := Prod.mk.inj hg
  have h0 : handOf s.threads t = some (p, i) := handOf_get ht
  have h1 : handOf (s.threads.set t (.drop p i (if last then .deallocate else .push .loadInFree))) t =
      none := by
    rw [handOf_set_self]
    cases last <;> rfl
  obtain ⟨-, hi, hbit⟩ := hb.live p i (Or.inr ⟨t, h0⟩)
  refine h.thread (by cases last <;> trivial) fun q j hj hc => ?_
  apply (owned_give hb.ledger h0 h1 (handOf_set_ne _)).mpr
  rw [SharedArena.word_setPage, Function.update_apply] at hc
  split at hc
  · rename_i e
    subst e
    have hc := (getLsbD_add_bit hi hbit j).symm.trans hc
    rw [Bool.or_eq_false_iff] at hc
    refine ⟨h.taken q j hj hc.1, fun e => ?_⟩
    have hne : i ≠ j := of_decide_eq_false hc.2
    exact hne (Prod.mk.inj e).2.symm
  · rename_i e
    exact ⟨h.taken q j hj hc, fun e' => e (Prod.mk.inj e').1⟩

theorem startDrop (h : SharedTakenInv s) (hb : SharedBlocksInv s) {p : Addr} {i : Nat}
    (ht : s.threads.get t = .idle) (hi : (p, i) ∈ s.handles) :
    SharedTakenInv { s with
      handles := s.handles.erase (p, i), threads := s.threads.set t (.drop p i .fetchAdd) } := by
  refine h.thread trivial fun q j hj hc => ?_
  exact (owned_take hb.ledger hi (handOf_get ht) (handOf_set_self _) (handOf_set_ne _)).mpr
    (h.taken q j hj hc)

theorem step (h : SharedTakenInv s) (hb : SharedBlocksInv s) {a : SharedAct}
    (harena : ∀ t p, (s.threads.get t).reads p = true → (s.arena.word p).getLsbD 63 = true)
    (hm : SharedState.Moves s a s') : SharedTakenInv s' := by
  have hsame : ∀ {arena : SharedArena}, arena.word = s.arena.word → ∀ p, ∀ i < 63,
      (arena.word p).getLsbD i = false → (s.arena.word p).getLsbD i = false := by
    intro arena e p i _ hc
    rwa [e] at hc
  cases hm with
  | startAlloc ht | startShrink ht =>
    exact h.keep (handOf_get ht).symm trivial fun _ _ _ hc => hc
  | startDrop ht hi => exact h.startDrop hb ht hi
  | @alloc t pc arena control ht hs => exact h.alloc ht (ht ▸ harena t) hs
  | @shrink t pc arena control ht hs =>
    refine h.keep ?_ ?_ (hsame (SharedArena.shrinkToFit_word hs).1)
    · cases control <;> exact (handOf_get ht).symm
    · cases control <;> trivial
  | giveBlock ht hg => exact h.giveBlock hb ht hg
  | freeBlock ht =>
    exact h.keep (handOf_get ht).symm trivial
      (hsame (SharedArena.word_setPage_same (a := s.arena) rfl))
  | @push t p i pc links pending control ht hp =>
    refine h.keep ?_ ?_ (hsame (SharedArena.word_setPage_same (a := s.arena) rfl))
    · cases control <;> exact (handOf_get ht).symm
    · cases control <;> trivial

theorem start (cap : Nat) : SharedTakenInv (.start cap) := by
  refine ⟨fun p i hi hc => ?_, fun t => ?_⟩
  · have hword : (SharedState.start cap).arena.word p = BitVec.allOnes 64 := by
      rcases Heap.get_makeList PageSharedArena.new (pagesFor cap) Heap.empty p with e | ⟨-, next, e⟩
      · exact (congrArg PageSharedArena.bitfield (e.trans (Heap.get_empty p))).trans rfl
      · exact (congrArg PageSharedArena.bitfield e).trans rfl
    rw [hword, BitVec.getLsbD_allOnes] at hc
    simp at hc
    omega
  · rw [show (SharedState.start cap).threads.get t = .idle from Store.get_empty t]
    trivial

theorem of_noShrink (h : SharedArena.machine.Reach (fun _ a => a.noShrink = true) s) :
    SharedTakenInv s := by
  apply h.invariant
  · intro s hs
    obtain ⟨cap, rfl⟩ := hs
    exact .start cap
  · intro s a s' hr hi _ hs
    exact hi.step (SharedState.pointers_blocks hr).2
      (fun _ p _ => (UnshrunkInv.of_noShrink hr).arenaBit p) (SharedState.moves_of_step hs)

theorem live_iff (h : SharedTakenInv s) (hb : SharedBlocksInv s) {p : Addr} {i : Nat} (hi : i < 63) :
    s.Live p i ↔ (s.arena.word p).getLsbD i = false :=
  ⟨fun hl => (hb.live p i hl).2.2, h.taken p i hi⟩

end SharedTakenInv

/-! ## The list of all pages -/

namespace SharedArena

def Covers (a : SharedArena) (l : List Addr) : Prop := ∀ q, q ∈ l ↔ q < a.heap.size

def PutPc.Full (a : SharedArena) (listed : List Addr) (n : Nat) (first last : Addr) : PutPc → Prop
  | .loadFull | .storeNext _ =>
    0 < n ∧ Linked a.next (some first) (downFrom last n) ∧ (∀ q ∈ downFrom last n, q ∉ listed) ∧
      a.Covers (downFrom last n ++ listed) ∧ listed.length % 2 ^ 64 = a.npages % 2 ^ 64
  | .swapFull _ =>
    Linked a.next (some first) (downFrom last n ++ listed) ∧ a.Covers (downFrom last n ++ listed) ∧
      listed.length % 2 ^ 64 = a.npages % 2 ^ 64
  | .loadFree | .swapFree | .addPages =>
    a.Covers listed ∧ listed.length % 2 ^ 64 = (a.npages + n) % 2 ^ 64

end SharedArena

namespace SharedCall

def Full (a : SharedArena) (listed : List Addr) : SharedCall → Prop
  | .alloc (.put n first last pc) => pc.Full a listed n first last
  | _ => a.Covers listed ∧ listed.length % 2 ^ 64 = a.npages % 2 ^ 64

def puts : SharedCall → Bool
  | .alloc (.put ..) => true
  | _ => false

variable {a a' : SharedArena} {listed : List Addr} {c c' : SharedCall}

theorem full_of_not_puts (h : c.puts = false) :
    c.Full a listed ↔ a.Covers listed ∧ listed.length % 2 ^ 64 = a.npages % 2 ^ 64 := by
  unfold Full
  split
  · cases h
  · exact Iff.rfl

theorem Full.congr (h : c.Full a listed) (hnext : a'.next = a.next)
    (hsize : a'.heap.size = a.heap.size) (hnpages : a'.npages = a.npages) : c.Full a' listed := by
  have hcovers : ∀ l, a'.Covers l ↔ a.Covers l := by
    intro l
    unfold SharedArena.Covers
    rw [hsize]
  unfold Full at h ⊢
  split
  · rename_i n first last pc
    cases pc with
    | loadFull | storeNext | swapFull | loadFree | swapFree | addPages =>
      simpa only [SharedArena.PutPc.Full, hcovers, hnext, hnpages] using h
  · rename_i hnot
    rw [hcovers, hnpages]
    cases c with
    | alloc pc =>
      cases pc with
      | put n first last pc => exact absurd rfl (hnot n first last pc)
      | _ => exact h
    | _ => exact h

theorem writes_of_puts (h : c.puts = true) : c.writes = true := by
  unfold puts at h
  split at h
  · rfl
  · cases h

end SharedCall

namespace SharedArena

open PageSharedArena (ops)

variable {a a' : SharedArena} {listed : List Addr}

theorem putPages_full {n : Nat} {first last : Addr} {pc : PutPc} {control : Control PutPc Unit}
    (hl : Linked a.next a.fullList listed) (h : pc.Full a listed n first last) (hk : pc.Knows a)
    (hs : a.putPages n first last pc = (a', control)) :
    ∃ listed', Linked a'.next a'.fullList listed' ∧
      (SharedCall.afterPut n first last control).Full a' listed' := by
  cases pc with
  | loadFull =>
    obtain ⟨rfl, rfl⟩ := Prod.mk.inj hs
    exact ⟨listed, hl, h⟩
  | storeNext current =>
    obtain ⟨rfl, rfl⟩ := Prod.mk.inj hs
    obtain ⟨hpos, hchain, hapart, hcovers, hcount⟩ := h
    obtain ⟨-, rfl⟩ := hk
    have hnext : (a.setPage last { a.page last with next := a.fullList }).next =
        Function.update a.next last a.fullList := PageOps.next_set ..
    have hlast : (downFrom last n).getLast? = some last := by
      obtain ⟨k, rfl⟩ := Nat.exists_eq_succ_of_ne_zero (Nat.ne_of_gt hpos)
      exact getLast_downFrom
    obtain ⟨hjoin, hfull⟩ := hchain.join hlast hl hapart
    rw [← hnext] at hjoin hfull
    exact ⟨listed, hfull, hjoin, hcovers, hcount⟩
  | swapFull current =>
    obtain ⟨rfl, rfl⟩ := Prod.mk.inj hs
    obtain ⟨hchain, hcovers, hcount⟩ := h
    obtain ⟨-, rfl⟩ := hk
    refine ⟨downFrom last n ++ listed, hchain, ?_⟩
    simp only [SharedCall.afterPut, SharedCall.Full, PutPc.Full, if_true]
    refine ⟨hcovers, ?_⟩
    rw [List.length_append, length_downFrom, Nat.add_comm, Nat.add_mod, hcount, ← Nat.add_mod]
  | loadFree =>
    simp only [putPages, show a.freeList = none from hk, ite_true] at hs
    obtain ⟨rfl, rfl⟩ := Prod.mk.inj hs
    exact ⟨listed, hl, h⟩
  | swapFree =>
    simp only [putPages, show a.freeList = none from hk, ite_true] at hs
    obtain ⟨rfl, rfl⟩ := Prod.mk.inj hs
    exact ⟨listed, hl, h⟩
  | addPages =>
    obtain ⟨rfl, rfl⟩ := Prod.mk.inj hs
    refine ⟨listed, hl, h.1, ?_⟩
    rw [Nat.mod_mod]
    exact h.2

theorem loadPages_full {control : Control FindPc (Addr × Nat)}
    (hl : Linked a.next a.fullList listed) (hcovers : a.Covers listed)
    (hcount : listed.length % 2 ^ 64 = a.npages % 2 ^ 64)
    (hs : a.findPlace .loadPages = (a', control)) :
    ∃ listed', Linked a'.next a'.fullList listed' ∧
      (SharedCall.afterAlloc control).Full a' listed' := by
  obtain ⟨rfl, rfl⟩ := Prod.mk.inj hs
  have hpos : 0 < growth a.npages := growth_pos a.npages
  have hold : ∀ q ∈ listed,
      ops.next (a.heap.makeList PageSharedArena.new (growth a.npages)).1 q = a.next q :=
    fun q hq => (PageOps.links_makeList_old ops PageSharedArena.new _ ((hcovers q).mp hq)).2.1
  have hchain := (PageOps.linked_makeList ops (growth a.npages) a.heap
    fun p => (rfl : ops.links (PageSharedArena.new p) = _)).2
  rw [behind_pos hpos] at hchain
  refine ⟨listed, hl.congr hold, hpos, hchain, fun q hq hl => ?_, fun q => ?_, hcount⟩
  · exact absurd ((hcovers q).mp hl) (Nat.not_lt.mpr (mem_downFrom.mp hq).1)
  · rw [List.mem_append, mem_downFrom, hcovers q]
    show _ ↔ q < a.heap.size + growth a.npages
    have hq : q < a.heap.size ∨ a.heap.size ≤ q := Nat.lt_or_ge _ _
    constructor
    · rintro (h | h)
      · exact h.2
      · exact Nat.lt_of_lt_of_le h (Nat.le_add_right _ _)
    · intro h
      rcases hq with hq | hq
      · exact Or.inr hq
      · exact Or.inl ⟨hq, h⟩

/-- Only the writer changes the list of all pages and their number. -/
theorem findPlace_fullFrame {pc : FindPc} {control : Control FindPc (Addr × Nat)}
    (hs : a.findPlace pc = (a', control)) (hparks : (SharedCall.alloc pc).parks = false)
    (hputs : (SharedCall.alloc pc).puts = false) (hload : pc ≠ .loadPages) :
    a'.next = a.next ∧ a'.fullList = a.fullList ∧ a'.heap.size = a.heap.size ∧
      a'.npages = a.npages ∧ (SharedCall.afterAlloc control).puts = false := by
  cases pc with
  | loadFree | casFree =>
    simp only [findPlace] at hs
    split at hs <;> obtain ⟨rfl, rfl⟩ := Prod.mk.inj hs
    · exact ⟨rfl, rfl, rfl, rfl, rfl⟩
    · exact ⟨rfl, rfl, rfl, rfl, rfl⟩
  | acquire p pc =>
    obtain ⟨rfl, rfl⟩ := Prod.mk.inj hs
    refine ⟨next_setPage (congrArg PageLinks.next links_acquire), rfl, rfl, rfl, ?_⟩
    split <;> rfl
  | clearInFree p =>
    obtain ⟨rfl, rfl⟩ := Prod.mk.inj hs
    exact ⟨next_setPage rfl, rfl, rfl, rfl, rfl⟩
  | loadNext | swapPending | unlock =>
    obtain ⟨rfl, rfl⟩ := Prod.mk.inj hs
    exact ⟨rfl, rfl, rfl, rfl, rfl⟩
  | loadWriter | swapWriter | loadContended | recheckFree | loadPending | swapFree | loadToFree =>
    obtain ⟨rfl, rfl⟩ := Prod.mk.inj hs
    refine ⟨rfl, rfl, rfl, rfl, ?_⟩
    split <;> rfl
  | maybeFree guarded pc =>
    cases h : a.maybeFreePages pc with
    | mk b control =>
      simp only [findPlace, h] at hs
      obtain ⟨rfl, rfl⟩ := Prod.mk.inj hs
      have hframe : b.next = a.next ∧ b.fullList = a.fullList ∧ b.heap.size = a.heap.size ∧
          b.npages = a.npages := by
        cases pc with
        | loadDelay | fetchAdd | swapToFree =>
          obtain ⟨rfl, -⟩ := Prod.mk.inj h
          exact ⟨rfl, rfl, rfl, rfl⟩
        | dropPage => cases hparks
      refine ⟨hframe.1, hframe.2.1, hframe.2.2.1, hframe.2.2.2, ?_⟩
      cases control with
      | goto | panic => rfl
      | ret => cases guarded <;> rfl
  | take => cases hparks
  | loadPages => exact absurd rfl hload
  | put => cases hputs

end SharedArena

/-- Whoever holds the lock puts pages in the list, if anyone does. -/
def FullInv (s : SharedState) : Prop :=
  ∃ listed t, Linked s.arena.next s.arena.fullList listed ∧
    (s.threads.get t).Full s.arena listed ∧ ∀ u, u ≠ t → (s.threads.get u).puts = false

namespace FullInv

variable {t : Tid} {c : SharedCall} {arena : SharedArena} {handles : List (Addr × Nat)}

theorem puts_set (u : Tid) (hu : u ≠ t) :
    ((s.threads.set t c).get u).puts = (s.threads.get u).puts := by
  rw [Store.get_set_ne _ _ hu]

theorem quiet (h : FullInv s) (ht : (s.threads.get t).puts = false) (hc : c.puts = false)
    (hnext : arena.next = s.arena.next) (hfull : arena.fullList = s.arena.fullList)
    (hsize : arena.heap.size = s.arena.heap.size) (hnpages : arena.npages = s.arena.npages) :
    FullInv { arena, handles, threads := s.threads.set t c } := by
  obtain ⟨listed, v, hl, hv, hothers⟩ := h
  rw [← hnext, ← hfull] at hl
  have hv := hv.congr hnext hsize hnpages
  by_cases e : v = t
  · subst e
    refine ⟨listed, v, hl, ?_, fun u hu => (puts_set u hu).trans (hothers u hu)⟩
    show ((s.threads.set v c).get v).Full arena listed
    rw [Store.get_set_self]
    exact (SharedCall.full_of_not_puts hc).mpr ((SharedCall.full_of_not_puts ht).mp hv)
  · refine ⟨listed, v, hl, ?_, fun u hu => ?_⟩
    · show ((s.threads.set t c).get v).Full arena listed
      rw [Store.get_set_ne _ _ e]
      exact hv
    · show ((s.threads.set t c).get u).puts = false
      rw [Store.get_set]
      split
      · exact hc
      · exact hothers u hu

theorem at_writer (h : FullInv s) (hothers : ∀ u, u ≠ t → (s.threads.get u).puts = false) :
    ∃ listed, Linked s.arena.next s.arena.fullList listed ∧
      (s.threads.get t).Full s.arena listed := by
  obtain ⟨listed, v, hl, hv, hall⟩ := h
  refine ⟨listed, hl, ?_⟩
  by_cases e : v = t
  · exact e ▸ hv
  · exact (SharedCall.full_of_not_puts (hall t (Ne.symm e))).mpr
      ((SharedCall.full_of_not_puts (hothers v e)).mp hv)

theorem alloc (h : FullInv s) (hg : GuardInv s) (hu : UnshrunkInv s) {pc : SharedArena.FindPc}
    {control : Control SharedArena.FindPc (Addr × Nat)} (ht : s.threads.get t = .alloc pc)
    (hs : s.arena.findPlace pc = (arena, control)) :
    FullInv { arena, handles, threads := s.threads.set t (.afterAlloc control) } := by
  have hparks := hu.calls t
  have hknows := hg.knows t
  rw [ht] at hparks hknows
  by_cases hw : (s.threads.get t).puts = true ∨ pc = .loadPages
  · have hwrites : (s.threads.get t).writes = true := by
      rcases hw with hw | rfl
      · exact SharedCall.writes_of_puts hw
      · rw [ht]
        rfl
    have hothers : ∀ u, u ≠ t → (s.threads.get u).puts = false := by
      intro u hne
      by_contra hp
      have hp := SharedCall.writes_of_puts ((Bool.not_eq_false _).mp hp)
      exact hne (hg.lock.one u t hp hwrites)
    obtain ⟨listed, hl, hfull⟩ := h.at_writer hothers
    rw [ht] at hfull hw
    have hafter : ∃ listed', Linked arena.next arena.fullList listed' ∧
        (SharedCall.afterAlloc control).Full arena listed' := by
      by_cases hload : pc = .loadPages
      · subst hload
        exact SharedArena.loadPages_full hl hfull.1 hfull.2 hs
      · cases pc with
        | put n first last pc =>
          cases hp : s.arena.putPages n first last pc with
          | mk a control =>
            simp only [SharedArena.findPlace, hp] at hs
            obtain ⟨rfl, rfl⟩ := Prod.mk.inj hs
            obtain ⟨listed', hl', hfull'⟩ := SharedArena.putPages_full hl hfull hknows hp
            refine ⟨listed', hl', ?_⟩
            cases control <;> exact hfull'
        | loadPages => exact absurd rfl hload
        | _ =>
          rcases hw with hw | hw
          · cases hw
          · cases hw
    obtain ⟨listed', hl', hfull'⟩ := hafter
    refine ⟨listed', t, hl', ?_, fun u hne => (puts_set u hne).trans (hothers u hne)⟩
    show ((s.threads.set t _).get t).Full arena listed'
    rw [Store.get_set_self]
    exact hfull'
  · obtain ⟨hputs, hload⟩ := not_or.mp hw
    have hputs := (Bool.not_eq_true _).mp hputs
    have hputs' := hputs
    rw [ht] at hputs'
    obtain ⟨hnext, hfull, hsize, hnpages, hc⟩ :=
      SharedArena.findPlace_fullFrame hs hparks hputs' hload
    exact h.quiet hputs hc hnext hfull hsize hnpages

theorem step (h : FullInv s) (hg : GuardInv s) (hu : UnshrunkInv s) {a : SharedAct}
    (ha : a.noShrink = true) (hm : SharedState.Moves s a s') : FullInv s' := by
  cases hm with
  | startAlloc ht | startDrop ht => exact h.quiet (by rw [ht]; rfl) rfl rfl rfl rfl rfl
  | startShrink => cases ha
  | alloc ht hs => exact h.alloc hg hu ht hs
  | @shrink t pc arena control ht hs =>
    have hparks := hu.calls t
    rw [ht] at hparks
    cases hparks
  | @giveBlock t p i page last ht hg' =>
    obtain ⟨rfl, -⟩ := Prod.mk.inj hg'
    exact h.quiet (by rw [ht]; rfl) rfl (SharedArena.next_setPage rfl) rfl rfl rfl
  | freeBlock ht =>
    exact h.quiet (by rw [ht]; rfl) rfl (SharedArena.next_setPage (a := s.arena) rfl) rfl rfl rfl
  | @push t p i pc links pending control ht hp =>
    refine h.quiet (by rw [ht]; rfl) ?_ (SharedArena.next_setPage (a := s.arena)
      (PageLinks.next_push hp)) rfl rfl rfl
    cases control <;> rfl

theorem start (cap : Nat) : FullInv (.start cap) := by
  have hchain := (PageOps.linked_makeList PageSharedArena.ops (pagesFor cap) Heap.empty
    fun p => (rfl : PageSharedArena.ops.links (PageSharedArena.new p) = _)).2
  rw [behind_pos (pagesFor_pos cap)] at hchain
  refine ⟨downFrom 0 (pagesFor cap), 0, hchain, ?_, fun u _ => ?_⟩
  · rw [show (SharedState.start cap).threads.get 0 = .idle from Store.get_empty 0]
    refine ⟨fun q => ?_, by rw [length_downFrom]; rfl⟩
    rw [mem_downFrom]
    exact and_iff_right (Nat.zero_le q)
  · rw [show (SharedState.start cap).threads.get u = .idle from Store.get_empty u]
    rfl

theorem of_noShrink (h : SharedArena.machine.Reach (fun _ a => a.noShrink = true) s) :
    FullInv s := by
  apply h.invariant
  · intro s hs
    obtain ⟨cap, rfl⟩ := hs
    exact .start cap
  · intro s a s' hr hi ha hs
    exact hi.step (GuardInv.of_reach hr) (UnshrunkInv.of_noShrink hr) ha
      (SharedState.moves_of_step hs)

theorem covers (h : FullInv s) (ht : ∀ t, (s.threads.get t).puts = false) :
    ∃ listed, Linked s.arena.next s.arena.fullList listed ∧ s.arena.Covers listed ∧
      listed.length % 2 ^ 64 = s.arena.npages % 2 ^ 64 := by
  obtain ⟨listed, t, hl, hfull, -⟩ := h
  exact ⟨listed, hl, (SharedCall.full_of_not_puts (ht t)).mp hfull⟩

end FullInv

/-! ## What `fmt` shows -/

namespace SharedState

def usedOn (s : SharedState) (p : Addr) : Nat := (List.range 63).countP fun i => (p, i) ∈ s.handles

def accounts (s : SharedState) (listed : List Addr) : Book :=
  { Book.start listed with live := s.handles }

end SharedState

namespace SharedArena

variable {a : SharedArena} {used : Addr → Nat}

theorem fmt_goes {next : Ptr} {l : List Addr} (hl : Linked a.next next l)
    (hused : ∀ p ∈ l, countZeros (a.word p) = used p ∧ used p ≤ 63) (npages : Nat)
    (vec : List PageDebug) {pc : FmtPc} (hpc : a.fmt pc = fmtFrom npages vec next) :
    ∃ pc', Goes (fun a pc => (a, a.fmt pc)) a pc a pc' ∧ a.fmt pc' = fmtFrom npages
      (vec ++ l.map fun p => { free := 63 - used p, used := used p }) none := by
  induction l generalizing next vec pc with
  | nil =>
    have hnone : next = none := hl
    rw [hnone] at hpc
    rw [List.map_nil, List.append_nil]
    exact ⟨pc, .refl, hpc⟩
  | cons p l ih =>
    obtain ⟨hzeros, hle⟩ := hused p List.mem_cons_self
    have hstep : a.fmt pc = .goto (.loadBits npages p vec) := by
      rw [hpc, hl.1]
      rfl
    have hbits : a.fmt (.loadBits npages p vec) = .goto (.loadNext npages p
        (vec ++ [{ free := 63 - used p, used := used p }])) := by
      unfold word at hzeros
      simp only [fmt, hzeros, blockPerPage_eq, Nat.not_lt.mpr hle, ite_false]
    obtain ⟨pc', hgoes, hend⟩ := ih hl.2 (fun q hq => hused q (List.mem_cons_of_mem _ hq))
      (vec ++ [{ free := 63 - used p, used := used p }])
      (rfl : a.fmt (.loadNext npages p _) = fmtFrom npages _ (a.next p))
    refine ⟨pc', .head (congrArg (Prod.mk a) hstep) (.head (congrArg (Prod.mk a) hbits) hgoes), ?_⟩
    rw [hend, List.map_cons, List.append_assoc]
    rfl

theorem fmt_shows {l : List Addr} (hl : Linked a.next a.fullList l)
    (hused : ∀ p ∈ l, countZeros (a.word p) = used p ∧ used p ≤ 63) {total : Nat}
    (htotal : (l.map used).sum = total) :
    Completes (bounded (fun a pc => (a, a.fmt pc)) .loadPages) a a
      { blocksFree := 63 * l.length - total
        blocksUsed := total
        npages := a.npages
        pages := l.map fun p => { free := 63 - used p, used := used p } } := by
  obtain ⟨pc, hgoes, hend⟩ := fmt_goes hl hused a.npages []
    (rfl : a.fmt (.loadFull a.npages) = fmtFrom a.npages [] a.fullList)
  have hfree := Book.sum_map_sub (l := l) fun p hp => (hused p hp).2
  have hret : fmtFrom a.npages ([] ++ l.map fun p => { free := 63 - used p, used := used p }) none =
      .ret
        { blocksFree := 63 * l.length - total
          blocksUsed := total
          npages := a.npages
          pages := l.map fun p => { free := 63 - used p, used := used p } } := by
    have e : (l.map fun p => 63 - used p).sum = 63 * l.length - total := by omega
    rw [List.nil_append, fmtFrom, List.map_map, List.map_map, ← e, ← htotal]
    rfl
  apply Returns.completes
  apply Returns.head (congrArg (Prod.mk a) (rfl : a.fmt .loadPages = .goto (.loadFull a.npages)))
  exact hgoes.returns (.of_step (congrArg (Prod.mk a) (hend.trans hret)))

/-- After every run without `shrink_to_fit`, when no call is in progress: `full_list` is the pages
that were made, and `fmt` shows the handles on each of them. -/
theorem fmt_exact {s : SharedState} (h : machine.Reach (fun _ a => a.noShrink = true) s)
    (hq : s.quiescent = true) :
    ∃ listed : List Addr, Linked s.arena.next s.arena.fullList listed ∧
      (∀ p, p ∈ listed ↔ p < s.arena.heap.size) ∧
      listed.length % 2 ^ 64 = s.arena.npages % 2 ^ 64 ∧
      Completes (bounded (fun a pc => (a, a.fmt pc)) .loadPages) s.arena s.arena
        { blocksFree := 63 * listed.length - s.handles.length
          blocksUsed := s.handles.length
          npages := s.arena.npages
          pages := listed.map fun p => { free := 63 - s.usedOn p, used := s.usedOn p } } := by
  have hidle : ∀ t, s.threads.get t = .idle := fun t => of_decide_eq_true (Store.all_iff.mp hq t)
  obtain ⟨-, hb⟩ := SharedState.pointers_blocks h
  have hu := UnshrunkInv.of_noShrink h
  have ht := SharedTakenInv.of_noShrink h
  obtain ⟨listed, hl, hcovers, hcount⟩ :=
    (FullInv.of_noShrink h).covers fun t => by rw [hidle t]; rfl
  refine ⟨listed, hl, hcovers, hcount, ?_⟩
  have hhand : ∀ t, handOf s.threads t = none := fun t => congrArg SharedCall.hand (hidle t)
  have hlive : ∀ p i, s.Live p i ↔ (p, i) ∈ s.handles := fun p i => owned_empty hhand
  have htidy : (s.accounts listed).Tidy := by
    refine ⟨hl.nodup, ?_, List.nodup_nil, ?_, ?_, hb.ledger.nodup, ?_, ?_, ?_⟩
    · simpa [SharedState.accounts, Book.start] using hl.nodup
    · simp [SharedState.accounts, Book.start]
    · intro p hp
      cases hp
    · intro p i hp
      obtain ⟨hlt, hi, -⟩ := hb.live p i ((hlive p i).mpr hp)
      exact ⟨(hcovers p).mpr hlt, hi⟩
    · intro p hp _
      exact List.mem_append_left _ hp
    · intro p hp
      cases hp
  apply fmt_shows hl (fun p hp => ⟨?_, ?_⟩) htidy.sum_used
  · refine Book.countZeros_eq_used (b := s.accounts listed) (hu.arenaBit p) fun i hi => ?_
    rw [← ht.live_iff hb hi]
    exact hlive p i
  · exact (s.accounts listed).used_le p

/-- After the stale `compare_exchange` the free block of page 1 is on no free list: `stats` counts
128 blocks in use. -/
theorem fmt_exact_stalePop : ∃ (s : SharedState) (pages : List PageDebug), s.handles.length = 127 ∧
    (bounded (fun a pc => (a, a.stats pc)) .loadFree 7 s.arena).2 = .ret (128, 124) ∧
    Completes (bounded (fun a pc => (a, a.fmt pc)) .loadPages) s.arena s.arena
      { blocksFree := 125, blocksUsed := 127, npages := 4, pages } := by
  have hstart : machine.init (.start 126) := ⟨126, rfl⟩
  obtain ⟨s, hs, hp⟩ := Machine.Reach.exists_of_runIf hstart (fun _ a => a.noShrink)
    (SharedAct.stalePop ++ SharedAct.steps 1 3 ++ SharedAct.steps 0 24 ++ SharedAct.steps 1 6)
    (fun s => s.quiescent = true ∧ s.handles.length = 127 ∧ s.arena.npages = 4 ∧
      s.arena.heap.size = 4 ∧
      (bounded (fun a pc => (a, SharedArena.stats a pc)) .loadFree 7 s.arena).2 = .ret (128, 124))
    (fun _ _ h => h) (by decide +kernel)
  obtain ⟨hq, hlen, hnpages, hsize, hstats⟩ := of_decide_eq_true hp
  obtain ⟨listed, hl, hcovers, -, hshow⟩ := fmt_exact hs hq
  have hlisted : listed.length = 4 := by
    have hperm : listed.Perm (List.range 4) := by
      apply (List.perm_ext_iff_of_nodup hl.nodup List.nodup_range).mpr
      intro p
      rw [hcovers p, hsize, List.mem_range]
    exact hperm.length_eq
  rw [hlisted, hlen, hnpages] at hshow
  exact ⟨s, _, hlen, hstats, hshow⟩

end SharedArena

end MemoryPools
