import MemoryPools.ArenaTaken
import MemoryPools.Interleave.Progress

/-!
# An allocation is wait-free

`find_place` of an arena goes on until it finds a block. A page that is full leaves the free list
and comes back only by a drop, and while the owner allocates there are no new handles to drop. So
the drops that are left, and the pages that are listed, bound the operations of the call, whatever
the other threads do.
-/

namespace MemoryPools

open Interleave

namespace Arena

def ready (a : Arena) (p : Addr) : Bool := (a.words p).1.ctz.toNat ≠ 63

/-- What the owner has seen and no drop undoes. -/
def FindPc.Seen (a : Arena) : FindPc → Prop
  | .acquire p .swapAtomic => (a.words p).2 ≠ 0
  | .acquire _ (.merge v) => v ≠ 0
  | .swapPending => a.pendingFreeList ≠ none
  | .linkLast _ first _ _ | .swapFull _ first | .setFree _ first => a.ready first = true
  | _ => True

variable {a a' : Arena} {p : Addr} {pc : FindPc}

theorem ready_congr (h : (a'.words p).1 = (a.words p).1) : a'.ready p = a.ready p := by
  unfold ready
  rw [h]

theorem FindPc.Seen.mono (h : pc.Seen a) (hlocal : ∀ q, (a'.words q).1 = (a.words q).1)
    (hatomic : ∀ q, (a.words q).2 ≠ 0 → (a'.words q).2 ≠ 0)
    (hpending : a.pendingFreeList ≠ none → a'.pendingFreeList ≠ none) : pc.Seen a' := by
  cases pc with
  | getFree | unlink _ | clearInFree _ | loadPending | loadFull => trivial
  | acquire p pc =>
    cases pc with
    | scan | loadAtomic => trivial
    | swapAtomic => exact hatomic p h
    | merge v => exact h
  | swapPending => exact hpending h
  | linkLast _ first _ _ | swapFull _ first | setFree _ first =>
    exact (ready_congr (hlocal first)).trans h

theorem ready_of_bit {i : Nat} (h63 : (a.words p).1.getLsbD 63 = true) (hi : i < 63)
    (hbit : (a.words p).1.getLsbD i = true) : a.ready p = true := by
  refine decide_eq_true fun hctz => ?_
  have := (ctz_eq_iff_full h63).mp hctz i hi
  rw [hbit] at this
  cases this

theorem ready_makeList {n : Nat} (hn : 0 < n) :
    ({ a with heap := (a.heap.makeList PageArena.new n).1 } : Arena).ready
      (a.heap.size + (n - 1)) = true := by
  have hnew : (a.heap.makeList PageArena.new n).1.get (a.heap.size + (n - 1)) =
      PageArena.new (behind a.heap.size (n - 1)) := Heap.get_makeList_new (by omega)
  have hones : (({ a with heap := (a.heap.makeList PageArena.new n).1 } : Arena).words
      (a.heap.size + (n - 1))).1 = BitVec.allOnes 64 := by
    unfold words page
    rw [hnew]
    rfl
  refine ready_of_bit (i := 0) ?_ (by omega) ?_
  · rw [hones]
    simp
  · rw [hones]
    simp

theorem acquire_seen {pc : PageArena.AcquirePc} {pc' : FindPc}
    (h : (FindPc.acquire p pc).Seen a) (hs : a.findPlace (.acquire p pc) = (a', .goto pc')) :
    pc'.Seen a' := by
  cases pc with
  | scan =>
    simp only [findPlace, PageArena.acquireFreeBlock] at hs
    obtain ⟨-, e⟩ := Prod.mk.inj hs
    split at e
    · rename_i hc
      obtain rfl := Control.goto.inj e
      split at hc
      · obtain rfl := Control.goto.inj hc
        trivial
      · split at hc <;> cases hc
    · cases e
    · obtain rfl := Control.goto.inj e
      trivial
    · cases e
  | loadAtomic =>
    simp only [findPlace, PageArena.acquireFreeBlock] at hs
    obtain ⟨rfl, e⟩ := Prod.mk.inj hs
    by_cases hz : (a.page p).bitfieldAtomic ≠ 0
    · rw [if_pos hz] at e
      obtain rfl := Control.goto.inj e
      show ((a.setPage p (a.page p)).words p).2 ≠ 0
      rw [words_setPage_same rfl]
      exact hz
    · rw [if_neg hz] at e
      obtain rfl := Control.goto.inj e
      trivial
  | swapAtomic =>
    obtain ⟨-, e⟩ := Prod.mk.inj hs
    obtain rfl := Control.goto.inj e
    exact h
  | merge v =>
    obtain ⟨-, e⟩ := Prod.mk.inj hs
    obtain rfl := Control.goto.inj e
    trivial

/-- The step of the owner sees what the next one relies on. -/
theorem findPlace_seen {pc' : FindPc} (h : pc.Seen a) (hs : a.findPlace pc = (a', .goto pc')) :
    pc'.Seen a' := by
  cases pc with
  | acquire p pc => exact acquire_seen h hs
  | getFree =>
    simp only [findPlace] at hs
    split at hs <;> obtain ⟨-, e⟩ := Prod.mk.inj hs <;> obtain rfl := Control.goto.inj e
    · trivial
    · trivial
  | unlink p | clearInFree p | swapPending =>
    obtain ⟨-, e⟩ := Prod.mk.inj hs
    obtain rfl := Control.goto.inj e
    trivial
  | loadPending =>
    obtain ⟨rfl, e⟩ := Prod.mk.inj hs
    obtain rfl := Control.goto.inj e
    by_cases hp : a.pendingFreeList = none
    · rw [if_pos hp]
      trivial
    · rw [if_neg hp]
      exact hp
  | loadFull =>
    obtain ⟨rfl, e⟩ := Prod.mk.inj hs
    obtain rfl := Control.goto.inj e
    have hready := ready_makeList (a := a) (growth_pos a.npages)
    exact hready
  | linkLast n first last current =>
    obtain ⟨rfl, e⟩ := Prod.mk.inj hs
    obtain rfl := Control.goto.inj e
    have hwords : (a.setPage last { a.page last with next := current }).words first = a.words first :=
      words_setPage_same rfl
    show (a.setPage last { a.page last with next := current }).ready first = true
    rw [ready_congr (congrArg Prod.fst hwords)]
    exact h
  | swapFull n first =>
    obtain ⟨rfl, e⟩ := Prod.mk.inj hs
    obtain rfl := Control.goto.inj e
    exact h
  | setFree n first =>
    simp only [findPlace] at hs
    split at hs <;> obtain ⟨-, e⟩ := Prod.mk.inj hs
    · obtain rfl := Control.goto.inj e
      trivial
    · cases e

/-! ## What is left of a call -/

def headReady (a : Arena) : Bool :=
  match a.freeList with
  | some p => a.ready p
  | none => false

/-- The operations that the owner still takes; `w` counts the pages that it may look at: five
operations for one on the free list, eight for one that comes there through the pending list. -/
def FindPc.left (a : Arena) (w : Nat) : FindPc → Nat
  | .getFree => if a.headReady then 2 else w + 20
  | .acquire p .scan => if a.ready p then 1 else w + 19
  | .acquire _ .loadAtomic => w + 18
  | .acquire _ .swapAtomic => 3
  | .acquire _ (.merge _) => 2
  | .unlink _ => w + 17
  | .clearInFree _ => w + 21
  | .loadPending => w + 19
  | .swapPending => w + 18
  | .loadFull => 6
  | .linkLast _ _ _ _ => 5
  | .swapFull _ _ => 4
  | .setFree _ _ => 3

theorem FindPc.left_le (w : Nat) : pc.left a w ≤ w + 21 := by
  cases pc with
  | acquire p pc =>
    cases pc with
    | scan =>
      simp only [left]
      split <;> omega
    | loadAtomic | swapAtomic | merge _ => simp [left]
  | getFree =>
    simp only [left]
    split <;> omega
  | unlink | clearInFree | loadPending | swapPending | loadFull | linkLast | swapFull | setFree =>
    simp [left]

theorem FindPc.left_mono (pc : FindPc) {w w' : Nat} (hw : w' ≤ w) (hlocal : ∀ q, (a'.words q).1 = (a.words q).1)
    (hfree : a'.freeList = a.freeList) : pc.left a' w' ≤ pc.left a w := by
  have hready : ∀ q, a'.ready q = a.ready q := fun q => ready_congr (hlocal q)
  have hhead : a'.headReady = a.headReady := by
    unfold headReady
    rw [hfree]
    cases a.freeList with
    | none => rfl
    | some q => exact hready q
  cases pc with
  | acquire p pc =>
    cases pc with
    | scan =>
      simp only [left, hready]
      split <;> omega
    | loadAtomic | swapAtomic | merge _ => simp [left, hw]
  | getFree =>
    simp only [left, hhead]
    split <;> omega
  | unlink | clearInFree | loadPending | swapPending | loadFull | linkLast | swapFull | setFree =>
    simp [left, hw]

end Arena

/-! ## A step of a drop -/

structure Arena.Leaves (a a' : Arena) : Prop where
  words : ∀ q, (a'.words q).1 = (a.words q).1
  atomic : ∀ q, (a.words q).2 ≠ 0 → (a'.words q).2 ≠ 0
  pending : a.pendingFreeList ≠ none → a'.pendingFreeList ≠ none
  free : a'.freeList = a.freeList

def DropThread.busy : DropThread → Nat
  | .drop _ _ _ => 1
  | .idle => 0

/-- The drops that are in progress or can begin while the owner is in a call. -/
def ArenaState.drops (s : ArenaState) : Nat := s.handles.length + s.threads.total DropThread.busy

structure Arena.Chains (a : Arena) (F P : List Addr) : Prop where
  free : Linked a.nextFree a.freeList F
  pending : Linked a.nextFree a.pendingFreeList P

namespace ArenaProgress

variable {s s' : ArenaState} {t : Tid} {p : Addr} {i : Nat} {F P : List Addr}

def work (F P : List Addr) (d : Nat) : Nat := 5 * F.length + 8 * (P.length + d)

theorem work_set {arena : Arena} {c : DropThread} {P' : List Addr}
    (hle : P'.length + c.busy ≤ P.length + (s.threads.get t).busy) :
    work F P' ({ s with arena, threads := s.threads.set t c } : ArenaState).drops ≤
      work F P s.drops := by
  have := Store.total_set (f := DropThread.busy) rfl s.threads t c
  unfold work ArenaState.drops
  simp only
  omega

theorem leaves_of_words {a a' : Arena} (hw : ∀ q, a'.words q = a.words q)
    (hpending : a.pendingFreeList ≠ none → a'.pendingFreeList ≠ none)
    (hfree : a'.freeList = a.freeList) : a.Leaves a' :=
  ⟨fun q => congrArg Prod.fst (hw q), fun q h => hw q ▸ h, hpending, hfree⟩

theorem push_chains {place : Addr → Place (Option Tid) Aside} {carried listed : List Addr}
    (hl : ListsInv s place carried listed) {pc : PushPc} {upgraded : Bool} {links : PageLinks}
    {pending : Ptr} {control : Control PushPc Unit} (ht : s.threads.get t = .drop p i (.push pc))
    (hp : (s.arena.page p).toPageLinks.push p upgraded s.arena.pendingFreeList pc =
      (links, pending, control))
    (h : s.arena.Chains F P) :
    ∃ P', Arena.Chains { s.arena.setPage p { s.arena.page p with toPageLinks := links } with
        pendingFreeList := pending } F P' ∧
      P'.length + (ArenaState.afterDrop p i (control.map .push)).busy ≤ P.length + 1 := by
  have hstands := hl.stands t
  rw [ht] at hstands
  have hsame : links.nextFree = s.arena.nextFree p →
      (s.arena.setPage p { s.arena.page p with toPageLinks := links }).nextFree = s.arena.nextFree :=
    fun e => Arena.nextFree_setPage e
  have hbusy : (ArenaState.afterDrop p i (control.map .push)).busy ≤ 1 := by
    cases control <;> simp [ArenaState.afterDrop, Control.map, DropThread.busy]
  cases pc with
  | loadInFree | swapInFree | upgrade | loadPending =>
    obtain ⟨rfl, e⟩ := Prod.mk.inj hp
    obtain ⟨rfl, -⟩ := Prod.mk.inj e
    refine ⟨P, ⟨?_, ?_⟩, by omega⟩
    · exact (hsame rfl).symm ▸ h.free
    · exact (hsame rfl).symm ▸ h.pending
  | storeNextFree current =>
    obtain ⟨rfl, e⟩ := Prod.mk.inj hp
    obtain ⟨rfl, -⟩ := Prod.mk.inj e
    have hheld : place p = .held (some t) := Carries.single hstands.cargo
    obtain ⟨hfree, hpending⟩ := hl.circulates.held_offChain hheld
    have hnf : (s.arena.setPage p { s.arena.page p with nextFree := current }).nextFree =
        Function.update s.arena.nextFree p current := PageOps.nextFree_set ..
    refine ⟨P, ⟨?_, ?_⟩, by omega⟩
    · show Linked (s.arena.setPage p { s.arena.page p with nextFree := current }).nextFree _ _
      rw [hnf]
      exact h.free.update fun hm => hfree ⟨F, h.free, hm⟩
    · show Linked (s.arena.setPage p { s.arena.page p with nextFree := current }).nextFree _ _
      rw [hnf]
      exact h.pending.update fun hm => hpending ⟨P, h.pending, hm⟩
  | casPending current =>
    have hstored : s.arena.nextFree p = current := hstands.stored current rfl
    by_cases hcur : s.arena.pendingFreeList = current
    · simp only [PageLinks.push, if_pos hcur] at hp
      obtain ⟨rfl, e⟩ := Prod.mk.inj hp
      obtain ⟨rfl, rfl⟩ := Prod.mk.inj e
      refine ⟨p :: P, ⟨?_, rfl, ?_⟩, Nat.le_refl _⟩
      · exact (hsame rfl).symm ▸ h.free
      · show Linked (s.arena.setPage p (s.arena.page p)).nextFree
          ((s.arena.setPage p (s.arena.page p)).nextFree p) P
        rw [hsame rfl, hstored, ← hcur]
        exact h.pending
    · simp only [PageLinks.push, if_neg hcur] at hp
      obtain ⟨rfl, e⟩ := Prod.mk.inj hp
      obtain ⟨rfl, -⟩ := Prod.mk.inj e
      refine ⟨P, ⟨?_, ?_⟩, by omega⟩
      · exact (hsame rfl).symm ▸ h.free
      · exact (hsame rfl).symm ▸ h.pending

/-! ## A step of the owner -/

theorem place_of_mem {place : Addr → Place (Option Tid) Aside} {carried listed : List Addr}
    (hl : ListsInv s place carried listed) (h : s.arena.Chains F P) :
    (∀ q ∈ F, place q = .free) ∧ ∀ q ∈ P, place q = .pending := by
  obtain ⟨F', hF, hfree⟩ := hl.circulates.free
  obtain ⟨P', hP, hpending⟩ := hl.circulates.pending
  rw [Linked.unique h.free hF, Linked.unique h.pending hP]
  exact ⟨fun q hq => (hfree q).mp hq, fun q hq => (hpending q).mp hq⟩

/-- What was taken from the shared word holds a free block. -/
theorem ready_merge {v : Bitfield} (hb : BlocksInv s)
    (ho : s.owner = .alloc (.acquire p (.merge v))) (h63 : (s.arena.words p).2.getLsbD 63 = false)
    (hv : v ≠ 0) :
    (s.arena.setPage p { s.arena.page p with bitfield := (s.arena.page p).bitfield ||| v }).ready p =
      true := by
  have harena : (s.arena.page p).bitfield.getLsbD 63 = true := (hb.split p).arenaBit
  have hapart := (hb.split p).apart h63
  have hswapped : s.owner.swapped p = v := by
    rw [ho]
    simp [ArenaCall.swapped]
  rw [hswapped] at hapart
  obtain ⟨j, hj⟩ : ∃ j, v.getLsbD j = true := by
    by_contra hno
    apply hv
    apply BitVec.eq_of_getLsbD_eq
    intro j _
    simp only [not_exists, Bool.not_eq_true] at hno
    simp [hno j]
  have hj64 : j < 64 := BitVec.lt_of_getLsbD hj
  have hne : j ≠ 63 := by
    rintro rfl
    rw [hapart.xz 63 harena] at hj
    cases hj
  have hw : ((s.arena.setPage p { s.arena.page p with bitfield :=
      (s.arena.page p).bitfield ||| v }).words p).1 = (s.arena.page p).bitfield ||| v := by
    rw [Arena.words_setPage, if_pos rfl]
  refine Arena.ready_of_bit (i := j) ?_ (by omega) ?_
  · rw [hw]
    simp [harena]
  · rw [hw]
    simp [hj]

theorem acquire_left {arena : Arena} {pc : PageArena.AcquirePc} {pc' : Arena.FindPc} (w : Nat)
    (hb : BlocksInv s) (ho : s.owner = .alloc (.acquire p pc))
    (h63 : (s.arena.words p).2.getLsbD 63 = false)
    (hseen : (Arena.FindPc.acquire p pc).Seen s.arena)
    (hs : s.arena.findPlace (.acquire p pc) = (arena, .goto pc')) :
    pc'.left arena w + 1 ≤ (Arena.FindPc.acquire p pc).left s.arena w := by
  cases pc with
  | scan =>
    have harena : (s.arena.page p).bitfield.getLsbD 63 = true := (hb.split p).arenaBit
    by_cases hz : (s.arena.page p).bitfield.ctz.toNat = 63
    · simp only [Arena.findPlace, PageArena.acquireFreeBlock, blockPerPage_eq, hz, ite_true] at hs
      obtain ⟨rfl, e⟩ := Prod.mk.inj hs
      obtain rfl := Control.goto.inj e
      have hready : s.arena.ready p = false := decide_eq_false (not_not.mpr hz)
      simp [Arena.FindPc.left, hready]
    · obtain ⟨i, -, -, hacq⟩ := PageArena.acquire_scan harena hz
      simp only [Arena.findPlace, hacq] at hs
      cases (Prod.mk.inj hs).2
  | loadAtomic =>
    simp only [Arena.findPlace, PageArena.acquireFreeBlock] at hs
    obtain ⟨rfl, e⟩ := Prod.mk.inj hs
    by_cases hz : (s.arena.page p).bitfieldAtomic ≠ 0
    · rw [if_pos hz] at e
      obtain rfl := Control.goto.inj e
      simp [Arena.FindPc.left]
    · rw [if_neg hz] at e
      obtain rfl := Control.goto.inj e
      simp [Arena.FindPc.left]
  | swapAtomic =>
    obtain ⟨rfl, e⟩ := Prod.mk.inj hs
    obtain rfl := Control.goto.inj e
    simp [Arena.FindPc.left]
  | merge v =>
    obtain ⟨rfl, e⟩ := Prod.mk.inj hs
    obtain rfl := Control.goto.inj e
    have hready := ready_merge hb ho h63 hseen
    simp only [Arena.FindPc.left]
    rw [if_pos hready]

theorem findPlace_left {place : Addr → Place (Option Tid) Aside} {carried listed : List Addr}
    {arena : Arena} {pc pc' : Arena.FindPc} (d : Nat) (hi : ArenaInv s)
    (hl : ListsInv s place carried listed) (ho : s.owner = .alloc pc) (hseen : pc.Seen s.arena)
    (h : s.arena.Chains F P) (hs : s.arena.findPlace pc = (arena, .goto pc')) :
    ∃ F' P', arena.Chains F' P' ∧
      pc'.left arena (work F' P' d) + 1 ≤ pc.left s.arena (work F P d) := by
  have hshape := hl.shape
  rw [ho] at hshape
  have hempty : s.arena.freeList = none → F = [] := by
    intro e
    have hhead := h.free.head_eq
    rw [e] at hhead
    exact List.head?_eq_none_iff.mp hhead.symm
  cases pc with
  | acquire p pc =>
    refine ⟨F, P, ?_, acquire_left _ hi.blocks ho (hi.acquires p pc ho).2 hseen hs⟩
    obtain ⟨rfl, -⟩ := Prod.mk.inj hs
    have hnf : (s.arena.setPage p (PageArena.acquireFreeBlock (s.arena.page p) pc).1).nextFree =
        s.arena.nextFree :=
      Arena.nextFree_setPage (congrArg PageLinks.nextFree Arena.links_acquire)
    exact ⟨hnf.symm ▸ h.free, hnf.symm ▸ h.pending⟩
  | getFree =>
    cases hf : s.arena.freeList with
    | some p =>
      simp only [Arena.findPlace, hf] at hs
      obtain ⟨rfl, e⟩ := Prod.mk.inj hs
      obtain rfl := Control.goto.inj e
      refine ⟨F, P, h, ?_⟩
      have hhead : s.arena.headReady = s.arena.ready p := by simp [Arena.headReady, hf]
      simp only [Arena.FindPc.left, hhead]
      split <;> omega
    | none =>
      simp only [Arena.findPlace, hf] at hs
      obtain ⟨rfl, e⟩ := Prod.mk.inj hs
      obtain rfl := Control.goto.inj e
      refine ⟨F, P, h, ?_⟩
      have hhead : s.arena.headReady = false := by simp [Arena.headReady, hf]
      simp [Arena.FindPc.left, hhead]
  | unlink p =>
    obtain ⟨rfl, e⟩ := Prod.mk.inj hs
    obtain rfl := Control.goto.inj e
    -- the page leaves the list with its share of the work
    cases F with
    | nil => cases hshape.1.symm.trans h.free
    | cons q F =>
      obtain rfl : p = q := Option.some.inj (hshape.1.symm.trans h.free.1)
      refine ⟨F, P, ⟨h.free.2, h.pending⟩, ?_⟩
      simp only [Arena.FindPc.left, work, List.length_cons]
      omega
  | clearInFree p =>
    obtain ⟨rfl, e⟩ := Prod.mk.inj hs
    obtain rfl := Control.goto.inj e
    have hnf : (s.arena.setPage p { s.arena.page p with inFreeList := false }).nextFree =
        s.arena.nextFree := Arena.nextFree_setPage rfl
    refine ⟨F, P, ⟨hnf.symm ▸ h.free, hnf.symm ▸ h.pending⟩, ?_⟩
    simp only [Arena.FindPc.left]
    split <;> omega
  | loadPending =>
    obtain ⟨rfl, e⟩ := Prod.mk.inj hs
    obtain rfl := Control.goto.inj e
    refine ⟨F, P, h, ?_⟩
    split <;> simp [Arena.FindPc.left]
  | swapPending =>
    obtain ⟨rfl, e⟩ := Prod.mk.inj hs
    obtain rfl := Control.goto.inj e
    refine ⟨P, [], ⟨h.pending, rfl⟩, ?_⟩
    -- a page gets cheaper when it comes to the free list
    have hpos : 0 < P.length := by
      apply List.length_pos_of_ne_nil
      rintro rfl
      exact hseen h.pending
    simp only [Arena.FindPc.left, work, hempty hshape.1, List.length_nil]
    split <;> omega
  | loadFull =>
    obtain ⟨rfl, e⟩ := Prod.mk.inj hs
    obtain rfl := Control.goto.inj e
    have hold : ∀ q : Nat, place q ≠ .aside .fresh →
        PageArena.ops.nextFree (s.arena.heap.makeList PageArena.new (growth s.arena.npages)).1 q =
          s.arena.nextFree q :=
      fun q hq => (PageOps.links_makeList_old PageArena.ops PageArena.new _ (hl.lt_size hq)).1
    obtain ⟨hfree, hpending⟩ := place_of_mem hl h
    refine ⟨F, P, ⟨h.free.congr fun q hq => hold q ?_, h.pending.congr fun q hq => hold q ?_⟩,
      by simp [Arena.FindPc.left]⟩
    · simp [hfree q hq]
    · simp [hpending q hq]
  | linkLast n first last current =>
    obtain ⟨rfl, e⟩ := Prod.mk.inj hs
    obtain rfl := Control.goto.inj e
    have hnf : (s.arena.setPage last { s.arena.page last with next := current }).nextFree =
        s.arena.nextFree := Arena.nextFree_setPage rfl
    exact ⟨F, P, ⟨hnf.symm ▸ h.free, hnf.symm ▸ h.pending⟩, by simp [Arena.FindPc.left]⟩
  | swapFull n first =>
    obtain ⟨rfl, e⟩ := Prod.mk.inj hs
    obtain rfl := Control.goto.inj e
    exact ⟨F, P, ⟨h.free, h.pending⟩, by simp [Arena.FindPc.left]⟩
  | setFree n first =>
    simp only [Arena.findPlace, if_pos hshape.1] at hs
    obtain ⟨rfl, e⟩ := Prod.mk.inj hs
    obtain rfl := Control.goto.inj e
    refine ⟨carried, P, ⟨hshape.2, h.pending⟩, ?_⟩
    have hhead : ({ s.arena with freeList := some first, npages := s.arena.npages + n } : Arena).headReady =
        true := hseen
    simp [Arena.FindPc.left, hhead]

/-! ## Runs -/

/-- The threads undo nothing, and the owner gets no more to do by them. -/
theorem drop_left {place : Addr → Place (Option Tid) Aside} {carried listed : List Addr}
    (hb : BlocksInv s) (hl : ListsInv s place carried listed) {a : ArenaAct}
    (hm : ArenaState.Moves s a s') (ha : a ≠ .stepOwner) (ho : s.owner ≠ .idle)
    (h : s.arena.Chains F P) :
    s'.owner = s.owner ∧ s.arena.Leaves s'.arena ∧
      ∃ P', s'.arena.Chains F P' ∧ work F P' s'.drops ≤ work F P s.drops := by
  cases hm with
  | startAlloc e | startShrink e | startRelease e => exact absurd e ho
  | alloc | shrink | release => exact absurd rfl ha
  | @startDrop t p i ht hi =>
    refine ⟨rfl, leaves_of_words (fun _ => rfl) id rfl, P, h, ?_⟩
    have hset := Store.total_set (f := DropThread.busy) rfl s.threads t (.drop p i .fetchAdd)
    have hlen := List.length_erase_of_mem hi
    have hpos := List.length_pos_of_mem hi
    rw [ht] at hset
    simp only [ArenaState.drops, DropThread.busy, work] at hset ⊢
    rw [hlen]
    omega
  | @giveBlock t upgraded p i page last ht hg =>
    obtain ⟨rfl, rfl⟩ := Prod.mk.inj hg
    have hlive : s.Live p i := Or.inr ⟨t, handOf_get ht⟩
    have hnf : (s.arena.setPage p (PageArena.giveBlock i (s.arena.page p)).1).nextFree =
        s.arena.nextFree := Arena.nextFree_setPage rfl
    refine ⟨rfl, ⟨fun q => ?_, fun q hq => ?_, id, rfl⟩, P, ⟨hnf.symm ▸ h.free, hnf.symm ▸ h.pending⟩, ?_⟩
    · show ((s.arena.setPage p _).words q).1 = _
      rw [Arena.words_setPage]
      split
      · rename_i e
        subst e
        rfl
      · rfl
    · show ((s.arena.setPage p _).words q).2 ≠ 0
      rw [Arena.words_setPage]
      split
      · rename_i e
        subst e
        have hbit := getLsbD_add_bit (hb.index q i hlive) (hb.clear q i hlive).2.1 i
        intro hz
        rw [show (s.arena.words q).2 + bit i = 0 from hz] at hbit
        simp at hbit
      · exact hq
    · apply work_set
      rw [ht]
      exact Nat.le_refl _
  | @freeBlock t upgraded p i ht =>
    have hnf : (s.arena.setPage p (s.arena.page p)).nextFree = s.arena.nextFree :=
      Arena.nextFree_setPage rfl
    refine ⟨rfl, leaves_of_words (fun q => Arena.words_setPage_same rfl) id rfl, P,
      ⟨hnf.symm ▸ h.free, hnf.symm ▸ h.pending⟩, ?_⟩
    apply work_set
    rw [ht]
    simp [DropThread.busy]
  | @push t upgraded p i pc links pending control ht hp =>
    obtain ⟨P', hchains, hle⟩ := push_chains hl ht hp h
    refine ⟨rfl, leaves_of_words (fun q => Arena.words_setPage_same rfl) ?_ rfl, P', hchains, ?_⟩
    · intro hne
      rcases push_pending hp with rfl | ⟨-, rfl, -⟩
      · exact hne
      · simp
    · apply work_set
      rw [ht]
      exact hle

theorem exists_chains {place : Addr → Place (Option Tid) Aside} {carried listed : List Addr}
    (hl : ListsInv s place carried listed) : ∃ F P, s.arena.Chains F P := by
  obtain ⟨F, hF, -⟩ := hl.circulates.free
  obtain ⟨P, hP, -⟩ := hl.circulates.pending
  exact ⟨F, P, hF, hP⟩

theorem exists_lists (hi : ArenaInv s) {pc : Arena.FindPc} (ho : s.owner = .alloc pc) :
    ∃ place carried listed, ListsInv s place carried listed :=
  hi.lists (by rw [ho]; rfl)

def SeenInv (s : ArenaState) : Prop := ∀ pc, s.owner = .alloc pc → pc.Seen s.arena

theorem seen_step (h : SeenInv s) (hi : ArenaInv s) {a : ArenaAct} (hm : ArenaState.Moves s a s') :
    SeenInv s' := by
  by_cases ha : a = .stepOwner
  · subst ha
    intro pc' ho'
    cases hm with
    | @alloc pc arena control ho hs =>
      cases control with
      | goto pc'' =>
        obtain rfl := ArenaCall.alloc.inj ho'
        exact Arena.findPlace_seen (h pc ho) hs
      | ret block | panic => cases ho'
    | @shrink pc arena control ho hs => cases control <;> cases ho'
    | @release pc arena control ho hs => cases control <;> cases ho'
  · intro pc' ho'
    by_cases hidle : s.owner = .idle
    · cases hm with
      | startAlloc =>
        obtain rfl := ArenaCall.alloc.inj ho'
        trivial
      | startShrink | startRelease => cases ho'
      | alloc | shrink | release => exact absurd rfl ha
      | startDrop | giveBlock | freeBlock | push =>
        rw [show s.owner = .alloc pc' from ho'] at hidle
        cases hidle
    · have hown : ∀ hn : s.owner = .alloc pc', pc'.Seen s'.arena := by
        intro ho
        obtain ⟨place, carried, listed, hl⟩ := exists_lists hi ho
        obtain ⟨F, P, hchains⟩ := exists_chains hl
        obtain ⟨-, hleaves, -⟩ := drop_left hi.blocks hl hm ha hidle hchains
        exact (h pc' ho).mono hleaves.words hleaves.atomic hleaves.pending
      cases hm with
      | startAlloc e | startShrink e | startRelease e => exact absurd e hidle
      | alloc | shrink | release => exact absurd rfl ha
      | startDrop | giveBlock | freeBlock | push => exact hown ho'

theorem seen_of_reach {C : ArenaState → ArenaAct → Prop} (h : Arena.machine.Reach C s) :
    SeenInv s := by
  apply h.invariant
  · intro s hs
    obtain ⟨cap, rfl⟩ := hs
    exact nofun
  · intro s a s' hr hseen _ hs
    exact seen_step hseen (ArenaInv.of_reach hr) (ArenaState.moves_of_step hs)

def Left (s : ArenaState) (n : Nat) : Prop :=
  ∃ pc F P, s.owner = .alloc pc ∧ s.arena.Chains F P ∧ pc.left s.arena (work F P s.drops) ≤ n

end ArenaProgress

namespace Arena

def allocating (s : ArenaState) : Bool :=
  match s.owner with
  | .alloc _ => true
  | _ => false

def ownerSteps : ArenaAct → Bool
  | .stepOwner => true
  | _ => false

end Arena

namespace ArenaProgress

variable {s s' : ArenaState} {a : ArenaAct} {n : Nat}

theorem exists_alloc (h : Arena.allocating s = true) : ∃ pc, s.owner = .alloc pc := by
  unfold Arena.allocating at h
  split at h
  · exact ⟨_, ‹_›⟩
  · cases h

theorem left_step (hr : Arena.machine.Reach Machine.always s) (hs : Arena.machine.step s a = some s')
    (hc : Arena.allocating s' = true) (hleft : Left s n) :
    ∃ m, Left s' m ∧ m + (if Arena.ownerSteps a = true then 1 else 0) ≤ n := by
  obtain ⟨pc, F, P, ho, hchains, hle⟩ := hleft
  have hi := ArenaInv.of_reach hr
  have hm := ArenaState.moves_of_step hs
  obtain ⟨place, carried, listed, hl⟩ := exists_lists hi ho
  by_cases ha : a = .stepOwner
  · subst ha
    cases hm with
    | @alloc pc₁ arena control ho₁ hs₁ =>
      obtain rfl := ArenaCall.alloc.inj (ho.symm.trans ho₁)
      cases control with
      | goto pc' =>
        obtain ⟨F', P', hchains', hle'⟩ := findPlace_left s.drops hi hl ho
          (seen_of_reach hr pc ho) hchains hs₁
        exact ⟨_, ⟨pc', F', P', rfl, hchains', Nat.le_refl _⟩, hle'.trans hle⟩
      | ret block | panic => cases hc
    | shrink e => cases ho.symm.trans e
    | release e => cases ho.symm.trans e
  · obtain ⟨hown, hleaves, P', hchains', hwork⟩ := drop_left hi.blocks hl hm ha (by simp [ho]) hchains
    refine ⟨_, ⟨pc, F, P', hown.trans ho, hchains', Nat.le_refl _⟩, ?_⟩
    have hmono := Arena.FindPc.left_mono pc hwork hleaves.words hleaves.free
    have hown : Arena.ownerSteps a = false := by
      cases a with
      | stepOwner => exact absurd rfl ha
      | alloc | shrink | release | drop | step => rfl
    rw [hown]
    exact hmono.trans hle

theorem returns (hr : Arena.machine.Reach Machine.always s)
    (hr' : Arena.machine.Reach Machine.always s') (hc : Arena.allocating s = true)
    (hc' : Arena.allocating s' = false) (hs : Arena.machine.step s a = some s') :
    a = .stepOwner ∧ ∃ p i, s'.owner = .idle ∧ s'.handles = (p, i) :: s.handles ∧ ¬ s.Live p i := by
  obtain ⟨pc, ho⟩ := exists_alloc hc
  have hi := ArenaInv.of_reach hr
  have hm := ArenaState.moves_of_step hs
  have hpanic := (CountInv.of_reach hr').owner_ne_panicked
  by_cases ha : a = .stepOwner
  · subst ha
    refine ⟨rfl, ?_⟩
    cases hm with
    | @alloc pc₁ arena control ho₁ hs₁ =>
      cases control with
      | goto pc' => cases hc'
      | ret block => exact ⟨block.1, block.2, rfl, rfl, hi.blocks.not_live hs₁⟩
      | panic => exact absurd rfl hpanic
    | shrink e => cases ho.symm.trans e
    | release e => cases ho.symm.trans e
  · obtain ⟨place, carried, listed, hl⟩ := exists_lists hi ho
    obtain ⟨F, P, hchains⟩ := exists_chains hl
    obtain ⟨hown, -⟩ := drop_left hi.blocks hl hm ha (by simp [ho]) hchains
    simp [Arena.allocating, hown, ho] at hc'

theorem left_start (hr : Arena.machine.Reach Machine.always s) (ho : s.owner = .alloc .getFree) :
    Left s (8 * (s.arena.npages + s.drops) + 20) := by
  have hi := ArenaInv.of_reach hr
  obtain ⟨place, carried, listed, hl⟩ := exists_lists hi ho
  obtain ⟨F, P, hchains⟩ := exists_chains hl
  obtain ⟨hfree, hpending⟩ := place_of_mem hl hchains
  obtain ⟨pages, -, hcounts⟩ := CountInv.of_reach hr (by rw [ho]; rfl)
  rw [ho] at hcounts
  obtain ⟨hlen, hcovers⟩ := hcounts
  have hmem : ∀ q, place q = .free ∨ place q = .pending → q ∈ pages := by
    intro q hq
    refine hcovers q (hl.lt_size ?_) ?_
    · rcases hq with hq | hq <;> simp [hq]
    · by_contra h63
      have hgone := hl.given q (by simpa using h63)
      rcases hq with hq | hq <;> simp [hq] at hgone
  have hnodup : (F ++ P).Nodup := by
    refine List.nodup_append.mpr ⟨hchains.free.nodup, hchains.pending.nodup, fun q hq r hr e => ?_⟩
    have := hfree q hq
    rw [e, hpending r hr] at this
    cases this
  have hsub : F ++ P ⊆ pages := by
    intro q hq
    rcases List.mem_append.mp hq with hq | hq
    · exact hmem q (Or.inl (hfree q hq))
    · exact hmem q (Or.inr (hpending q hq))
  have hle := (List.subperm_of_subset hnodup hsub).length_le
  rw [List.length_append, hlen] at hle
  refine ⟨_, F, P, ho, hchains, ?_⟩
  have hwork : work F P s.drops ≤ 8 * (s.arena.npages + s.drops) := by
    unfold work
    omega
  simp only [Arena.FindPc.left]
  split <;> omega

end ArenaProgress

/-! ## The bound -/

/-- An allocation takes at most eight operations of the owner for each page of the arena and each
drop that is in progress or may begin, and 21 more, whatever the threads do meanwhile. It
returns a block that nobody has. -/
theorem Arena.find_place_wait_free {s s' : ArenaState} {as : List ArenaAct}
    (h : Arena.machine.Reach Machine.always s) (ho : s.owner = .alloc .getFree)
    (hr : Arena.machine.run s as = some s')
    (hmany : 8 * (s.arena.npages + s.drops) + 20 < as.countP Arena.ownerSteps) :
    ∃ pre post s₁ s₂ p i, as = pre ++ .stepOwner :: post ∧
      Arena.machine.run s pre = some s₁ ∧ Arena.machine.step s₁ .stepOwner = some s₂ ∧
      Arena.allocating s₁ = true ∧ s₂.owner = .idle ∧ s₂.handles = (p, i) :: s₁.handles ∧
      p < s₂.arena.heap.size ∧ i < 63 ∧ ¬ s₁.Live p i := by
  have hspent : 8 * (s.arena.npages + s.drops) + 20 +
      Arena.machine.spent (fun _ _ _ => 0) s as < as.countP Arena.ownerSteps := by
    rwa [Machine.spent_zero]
  have hends : Arena.machine.Ends Arena.allocating s as := by
    refine Machine.ends_of_spent (L := ArenaProgress.Left) ?_ h (by simp [allocating, ho])
      (ArenaProgress.left_start h ho) hr hspent
    intro s s' a n hr hs _ hc' hleft
    exact ArenaProgress.left_step hr hs hc' hleft
  obtain ⟨pre, a, post, s₁, s₂, rfl, hpre, hc, hstep, hc'⟩ := hends
  have hr₁ := h.of_run hpre
  have hr₂ := hr₁.step trivial hstep
  obtain ⟨rfl, p, i, hidle, hh, hlive⟩ := ArenaProgress.returns hr₁ hr₂ hc hc' hstep
  have hb := (ArenaInv.of_reach hr₂).blocks
  have hmem : s₂.Live p i := Or.inl (by rw [hh]; exact List.mem_cons_self)
  exact ⟨pre, post, s₁, s₂, p, i, rfl, hpre, hstep, hc, hidle, hh, hb.lt p i hmem, hb.index p i hmem,
    hlive⟩

def Arena.dropDuring : List ArenaAct :=
  [.stepOwner, .drop 1 0 0] ++ List.replicate 2 (.step 1 true) ++ [.stepOwner] ++
    (List.replicate 18 [.alloc, .stepOwner, .stepOwner]).flatten

theorem Arena.find_place_wait_free_dropDuring : ∃ (s s₁ s₂ : ArenaState) (p : Addr) (i : Nat),
    s.drops = 1 ∧ s₂.handles = (p, i) :: s₁.handles ∧ ¬ s₁.Live p i := by
  have hstart : machine.init (.start 63) := ⟨63, rfl⟩
  obtain ⟨s, hs, hp⟩ := Machine.Reach.exists_of_runIf hstart (fun _ _ => true)
    [.alloc, .stepOwner, .stepOwner, .alloc]
    (fun s => s.owner = .alloc .getFree ∧ s.arena.npages = 1 ∧ s.handles.length = 1 ∧
      s.threads.total DropThread.busy = 0 ∧ (machine.run s dropDuring).isSome = true)
    (fun _ _ _ => trivial) (by decide +kernel)
  obtain ⟨ho, hn, hlen, hidle, hr⟩ := of_decide_eq_true hp
  obtain ⟨s', hr⟩ := Option.isSome_iff_exists.mp hr
  have hdrops : s.drops = 1 := by
    unfold ArenaState.drops
    rw [hlen, hidle]
  have hmany : 8 * (s.arena.npages + s.drops) + 20 < dropDuring.countP ownerSteps := by
    rw [hn, hdrops]
    decide
  obtain ⟨_, _, s₁, s₂, p, i, -, -, -, -, -, hh, -, -, hlive⟩ := find_place_wait_free hs ho hr hmany
  exact ⟨s, s₁, s₂, p, i, hdrops, hh, hlive⟩

end MemoryPools
