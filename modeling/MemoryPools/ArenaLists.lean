import MemoryPools.ArenaBlocks
import MemoryPools.Lists

/-!
# The lists of an arena

Every page is in one place: on the free list, on the pending list, in the hands of
the owner or of a dropping thread, out of all lists with `in_free_list` down, or
aside. While the owner works on a list its pages are in its hands, and no drop
touches their links.
-/

namespace MemoryPools

open Interleave

/-- Why a page is on neither list and in nobody's hands. -/
inductive Aside
  | fresh
  -- taken out of the free list by `shrink_to_fit`
  | unlinked
  | gone
  deriving DecidableEq

/-! ## What the owner carries -/

namespace Arena

def ShrinkPc.unlinked : ShrinkPc → List Addr
  | .takeFree | .restore _ _ => []
  | .walk _ _ toDrop | .walkNext _ _ _ toDrop | .walkBits _ _ _ _ toDrop
  | .walkCas _ _ _ _ toDrop => toDrop
  | .full _ toDrop _ | .fullNext _ toDrop _ _ | .fullCas _ toDrop _ _ _ => toDrop
  | .recheck _ _ rest => rest
  | .dropPage _ _ page rest .fetch => page :: rest
  | .dropPage _ _ _ rest .deallocate => rest

def FindPc.Shape (a : Arena) (carried listed : List Addr) : FindPc → Prop
  | .getFree => carried = []
  | .acquire page _ | .unlink page => a.freeList = some page ∧ carried = []
  | .clearInFree page => carried = [page]
  | .loadPending | .swapPending | .loadFull => a.freeList = none ∧ carried = []
  | .linkLast _ first last current =>
    a.freeList = none ∧ current = a.fullList ∧ Linked a.nextFree (some first) carried ∧
      Linked a.next (some first) carried ∧ carried.getLast? = some last ∧ ∀ q ∈ carried, q ∉ listed
  | .swapFull _ first =>
    a.freeList = none ∧ Linked a.nextFree (some first) carried ∧ Linked a.next (some first)
      (carried ++ listed)
  | .setFree _ first => a.freeList = none ∧ Linked a.nextFree (some first) carried

def ShrinkPc.Shape (a : Arena) (carried listed : List Addr) : ShrinkPc → Prop
  | .takeFree => carried = []
  | .walk start current _ =>
    a.freeList = none ∧ ∃ pre rest, carried = pre ++ rest ∧ Walk a.nextFree start current pre rest
  | .walkNext start current value _ =>
    a.freeList = none ∧ ∃ pre rest, carried = pre ++ value :: rest ∧
      Walk a.nextFree start current pre (value :: rest)
  | .walkBits start current value nextValue _ =>
    a.freeList = none ∧ nextValue = a.nextFree value ∧
      ∃ pre rest, carried = pre ++ value :: rest ∧ Walk a.nextFree start current pre (value :: rest)
  | .walkCas start current value nextValue _ =>
    a.freeList = none ∧ nextValue = a.nextFree value ∧ a.unused value = true ∧
      ∃ pre rest, carried = pre ++ value :: rest ∧ Walk a.nextFree start current pre (value :: rest)
  | .full start toDrop current =>
    a.freeList = none ∧ Linked a.nextFree start carried ∧ ∃ pre rest, listed = pre ++ rest ∧
      Walk a.next a.fullList current pre rest ∧ ∀ q ∈ pre, q ∉ toDrop
  | .fullNext start toDrop current value =>
    a.freeList = none ∧ Linked a.nextFree start carried ∧ ∃ pre rest, listed =
      pre ++ value :: rest ∧
      Walk a.next a.fullList current pre (value :: rest) ∧ ∀ q ∈ pre, q ∉ toDrop
  | .fullCas start toDrop current value nextValue =>
    a.freeList = none ∧ Linked a.nextFree start carried ∧ nextValue = a.next value ∧
      ∃ pre rest, listed = pre ++ value :: rest ∧ Walk a.next a.fullList current pre
        (value :: rest) ∧
        ∀ q ∈ pre, q ∉ toDrop
  | .recheck start _ rest =>
      a.freeList = none ∧ Linked a.nextFree start carried ∧ ∀ q ∈ rest, q ∉ listed
  | .dropPage start _ page rest .fetch =>
    a.freeList = none ∧ Linked a.nextFree start carried ∧ ∀ q ∈ page :: rest, q ∉ listed
  | .dropPage start _ page rest .deallocate =>
    a.freeList = none ∧ Linked a.nextFree start carried ∧ (∀ q ∈ page :: rest, q ∉ listed) ∧
      (a.words page).2.getLsbD 63 = true
  | .restore start _ => a.freeList = none ∧ Linked a.nextFree start carried

end Arena

namespace ArenaCall

def unlinked : ArenaCall → List Addr
  | .shrink pc => pc.unlinked
  | _ => []

def Shape (a : Arena) (carried listed : List Addr) : ArenaCall → Prop
  | .idle | .panicked => carried = []
  | .alloc pc => pc.Shape a carried listed
  | .shrink pc => pc.Shape a carried listed
  | .release _ | .released => False

theorem Shape.congr {a a' : Arena} {carried listed : List Addr} {owner : ArenaCall}
    (h : owner.Shape a carried listed) (hfree : a'.freeList = a.freeList)
    (hfull : a'.fullList = a.fullList) (hnext : a'.next = a.next)
    (hn : ∀ q ∈ carried, a'.nextFree q = a.nextFree q)
    (hun : ∀ q, a.unused q = true → a'.unused q = true)
    (h63 : ∀ q, (a.words q).2.getLsbD 63 = true → (a'.words q).2.getLsbD 63 = true) :
    owner.Shape a' carried listed := by
  have hlink : ∀ {head : Ptr}, Linked a.nextFree head carried → Linked a'.nextFree head carried :=
    fun hl => hl.congr hn
  have hwalk : ∀ {start current : Ptr} {pre rest : List Addr}, carried = pre ++ rest →
      Walk a.nextFree start current pre rest → Walk a'.nextFree start current pre rest := by
    intro start current pre rest e hw
    exact hw.congr fun q hq => hn q (e ▸ hq)
  cases owner with
  | idle | panicked => exact h
  | release | released => exact h
  | alloc pc =>
    cases pc with
    | getFree | clearInFree => exact h
    | acquire | unlink | loadPending | swapPending | loadFull => exact ⟨hfree.trans h.1, h.2⟩
    | linkLast =>
      obtain ⟨h1, h2, h3, h4, h5⟩ := h
      exact ⟨hfree.trans h1, h2.trans hfull.symm, hlink h3, hnext ▸ h4, h5⟩
    | swapFull =>
      obtain ⟨h1, h2, h3⟩ := h
      exact ⟨hfree.trans h1, hlink h2, hnext ▸ h3⟩
    | setFree => exact ⟨hfree.trans h.1, hlink h.2⟩
  | shrink pc =>
    cases pc with
    | takeFree => exact h
    | walk =>
      obtain ⟨h1, pre, rest, e, hw⟩ := h
      exact ⟨hfree.trans h1, pre, rest, e, hwalk e hw⟩
    | walkNext =>
      obtain ⟨h1, pre, rest, e, hw⟩ := h
      exact ⟨hfree.trans h1, pre, rest, e, hwalk e hw⟩
    | walkBits start current value nextValue toDrop =>
      obtain ⟨h1, h2, pre, rest, e, hw⟩ := h
      exact ⟨hfree.trans h1, h2.trans (hn value (by simp [e])).symm, pre, rest, e, hwalk e hw⟩
    | walkCas start current value nextValue toDrop =>
      obtain ⟨h1, h2, h3, pre, rest, e, hw⟩ := h
      exact ⟨hfree.trans h1, h2.trans (hn value (by simp [e])).symm, hun value h3, pre, rest,
        e, hwalk e hw⟩
    | full =>
      obtain ⟨h1, h2, pre, rest, e, hw, h3⟩ := h
      exact ⟨hfree.trans h1, hlink h2, pre, rest, e, by rw [hnext, hfull]; exact hw, h3⟩
    | fullNext =>
      obtain ⟨h1, h2, pre, rest, e, hw, h3⟩ := h
      exact ⟨hfree.trans h1, hlink h2, pre, rest, e, by rw [hnext, hfull]; exact hw, h3⟩
    | fullCas =>
      obtain ⟨h1, h2, h3, pre, rest, e, hw, h4⟩ := h
      exact ⟨hfree.trans h1, hlink h2, by rw [hnext]; exact h3, pre, rest,
        e, by rw [hnext, hfull]; exact hw, h4⟩
    | recheck => exact ⟨hfree.trans h.1, hlink h.2.1, h.2.2⟩
    | dropPage start toDrop page rest pc =>
      cases pc with
      | fetch => exact ⟨hfree.trans h.1, hlink h.2.1, h.2.2⟩
      | deallocate => exact ⟨hfree.trans h.1, hlink h.2.1, h.2.2.1, h63 page h.2.2.2⟩
    | restore => exact ⟨hfree.trans h.1, hlink h.2⟩

end ArenaCall

def DropThread.Stands (nextFree : Addr → Ptr) (place : Addr → Place (Option Tid) Aside)
    (w : Option Tid) :
    DropThread → Prop
  | .idle => Carries place w []
  | .drop p _ pc => Drops nextFree place w p pc

/-! ## The invariant -/

/-- The owner of the arena is the worker `none`. -/
structure ListsInv (s : ArenaState) (place : Addr → Place (Option Tid) Aside)
    (carried listed : List Addr) : Prop where
  circulates : Circulates s.arena.nextFree s.arena.inFreeList s.arena.freeList
    s.arena.pendingFreeList place
  carries : Carries place none carried
  stands : ∀ t, (s.threads.get t).Stands s.arena.nextFree place (some t)
  shape : s.owner.Shape s.arena carried listed
  fresh : ∀ q, place q = .aside .fresh ↔ s.arena.heap.size ≤ q
  unlinked : ∀ q, place q = .aside .unlinked ↔ q ∈ s.owner.unlinked
  nodup : s.owner.unlinked.Nodup
  unused : ∀ q ∈ s.owner.unlinked, s.arena.unused q = true
  full : Linked s.arena.next s.arena.fullList listed
  listed : ∀ q ∈ listed, place q ≠ .aside .fresh ∧ place q ≠ .aside .gone
  -- the arena's bit is in the shared word only of pages that were given up
  given : ∀ q, (s.arena.words q).2.getLsbD 63 = true → place q = .aside .gone
  freed : ∀ q, .dropPage q ∈ s.arena.heap.freed → place q = .aside .gone

namespace Arena

variable {a : Arena} {p : Addr} {x : PageArena}

theorem nextFree_setPage (h : x.nextFree = a.nextFree p) : (a.setPage p x).nextFree = a.nextFree :=
  PageOps.nextFree_set_same h

theorem next_setPage (h : x.next = a.next p) : (a.setPage p x).next = a.next :=
  PageOps.next_set_same h

theorem inFreeList_setPage (h : x.inFreeList = a.inFreeList p) :
    (a.setPage p x).inFreeList = a.inFreeList :=
  PageOps.inFreeList_set_same h

theorem links_acquire {page : PageArena} {pc : PageArena.AcquirePc} :
    (PageArena.acquireFreeBlock page pc).1.toPageLinks = page.toPageLinks := by
  cases pc with
  | scan =>
    simp only [PageArena.acquireFreeBlock]
    split <;> rfl
  | loadAtomic | swapAtomic | merge => rfl

theorem atomic_acquire {page : PageArena} {pc : PageArena.AcquirePc}
    (h : (PageArena.acquireFreeBlock page pc).1.bitfieldAtomic.getLsbD 63 = true) :
    page.bitfieldAtomic.getLsbD 63 = true := by
  cases pc with
  | scan =>
    simp only [PageArena.acquireFreeBlock] at h
    split at h <;> exact h
  | swapAtomic => simp [PageArena.acquireFreeBlock] at h
  | loadAtomic | merge => exact h

/-- The arena's bit keeps `blocks[index_free]` in bounds. -/
theorem acquire_ne_panic {page : PageArena} {pc : PageArena.AcquirePc}
    (h : page.bitfield.getLsbD 63 = true) :
    (PageArena.acquireFreeBlock page pc).2 ≠ .panic := by
  cases pc with
  | scan =>
    by_cases hz : page.bitfield.ctz.toNat = 63
    · simp [PageArena.acquireFreeBlock, hz]
    · obtain ⟨i, -, -, hacq⟩ := PageArena.acquire_scan h hz
      simp [hacq]
  | loadAtomic =>
    simp only [PageArena.acquireFreeBlock]
    split <;> simp
  | swapAtomic | merge => simp [PageArena.acquireFreeBlock]

end Arena

namespace ListsInv

variable {s : ArenaState} {place place' : Addr → Place (Option Tid) Aside}
  {carried carried' listed listed' : List Addr}
  {arena : Arena} {owner : ArenaCall} {handles : List (Addr × Nat)}
    {control : Control Arena.FindPc (Addr × Nat)}

theorem stands_owner (h : ListsInv s place carried listed)
    (hheld : ∀ t q, place' q = .held (some t) ↔ place q = .held (some t))
    (hn : ∀ t q, place q = .held (some t) → arena.nextFree q = s.arena.nextFree q) (t : Tid) :
    (s.threads.get t).Stands arena.nextFree place' (some t) := by
  have ht := h.stands t
  cases hp : s.threads.get t with
  | idle =>
    rw [hp] at ht
    exact fun q => (hheld t q).trans (ht q)
  | drop p i pc =>
    rw [hp] at ht
    refine ⟨fun q => (hheld t q).trans (ht.cargo q), fun current e => ?_⟩
    subst e
    rw [hn t p (Carries.single ht.cargo)]
    exact ht.stored _ rfl

/-- The owner moves pages between lists and hands; no page goes aside. -/
theorem move (h : ListsInv s place carried listed) (hf : Frame none place place')
    (hcirc : Circulates arena.nextFree arena.inFreeList arena.freeList arena.pendingFreeList place')
    (hcarries : Carries place' none carried')
    (hn : ∀ t q, place q = .held (some t) → arena.nextFree q = s.arena.nextFree q)
    (hshape : owner.Shape arena carried' listed') (hun : owner.unlinked = s.owner.unlinked)
    (hwords : ∀ q ∈ s.owner.unlinked, arena.words q = s.arena.words q)
    (h63 : ∀ q, (arena.words q).2.getLsbD 63 = true → (s.arena.words q).2.getLsbD 63 = true)
    (hsize : arena.heap.size = s.arena.heap.size) (hfreed : arena.heap.freed = s.arena.heap.freed)
    (hfull : Linked arena.next arena.fullList listed')
    (hlisted : ∀ q ∈ listed', place' q ≠ .aside .fresh ∧ place' q ≠ .aside .gone) :
    ListsInv { s with arena, owner, handles } place' carried' listed' where
  circulates := hcirc
  carries := hcarries
  stands := h.stands_owner (fun t q => hf.held (some t) (by simp) q) hn
  shape := hshape
  fresh q := by rw [hf.aside, hsize]; exact h.fresh q
  unlinked q := by rw [hf.aside, hun]; exact h.unlinked q
  nodup := by rw [hun]; exact h.nodup
  unused q hq := by
    rw [hun] at hq
    rw [Arena.unused_congr (hwords q hq)]
    exact h.unused q hq
  full := hfull
  listed := hlisted
  given q hq := (hf.aside _ q).mpr (h.given q (h63 q hq))
  freed q hq := by rw [hf.aside]; rw [hfreed] at hq; exact h.freed q hq

theorem shift (h : ListsInv s place carried listed) (hf : Frame none place place')
    (hcirc : Circulates arena.nextFree arena.inFreeList arena.freeList arena.pendingFreeList place')
    (hcarries : Carries place' none carried')
    (hn : ∀ t q, place q = .held (some t) → arena.nextFree q = s.arena.nextFree q)
    (hshape : owner.Shape arena carried' listed) (hun : owner.unlinked = s.owner.unlinked)
    (hwords : ∀ q, arena.words q = s.arena.words q) (hsize : arena.heap.size = s.arena.heap.size)
    (hfreed : arena.heap.freed = s.arena.heap.freed)
    (hfull : Linked arena.next arena.fullList listed) :
    ListsInv { s with arena, owner, handles } place' carried' listed := by
  refine h.move hf hcirc hcarries hn hshape hun (fun q _ => hwords q) (fun q hq => ?_) hsize hfreed
    hfull fun q hq => ?_
  · rwa [hwords] at hq
  · rw [Ne, Ne, hf.aside, hf.aside]
    exact h.listed q hq

theorem quiet (h : ListsInv s place carried listed) (hshape : owner.Shape s.arena carried listed)
    (hun : owner.unlinked = s.owner.unlinked) :
    ListsInv { s with owner, handles } place carried listed :=
  h.shift Frame.refl h.circulates h.carries (fun _ _ _ => rfl) hshape hun
    (fun _ => rfl) rfl rfl h.full

theorem words (h : ListsInv s place carried listed) {p : Addr} {x : PageArena}
    (hx : x.toPageLinks = (s.arena.page p).toPageLinks)
    (hshape : owner.Shape (s.arena.setPage p x) carried listed) (hun : owner.unlinked = [])
    (hun' : s.owner.unlinked = [])
    (h63 : x.bitfieldAtomic.getLsbD 63 = true → (s.arena.words p).2.getLsbD 63 = true) :
    ListsInv { s with arena := s.arena.setPage p x, owner, handles } place carried listed := by
  have hnf : (s.arena.setPage p x).nextFree = s.arena.nextFree :=
    Arena.nextFree_setPage (congrArg PageLinks.nextFree hx)
  have hnext : (s.arena.setPage p x).next = s.arena.next :=
    Arena.next_setPage (congrArg PageLinks.next hx)
  have hflag : (s.arena.setPage p x).inFreeList = s.arena.inFreeList :=
    Arena.inFreeList_setPage (congrArg PageLinks.inFreeList hx)
  refine h.move Frame.refl ?_ h.carries (fun _ _ _ => by rw [hnf]) hshape (hun.trans hun'.symm)
    (fun q hq => ?_) (fun q hq => ?_)
    rfl rfl ?_ h.listed
  · rw [hnf, hflag]; exact h.circulates
  · rw [hun'] at hq; cases hq
  · rw [Arena.words_setPage] at hq
    split at hq
    · rename_i e; rw [e]; exact h63 hq
    · exact hq
  · rw [hnext]; exact h.full

/-! ### `find_place` -/

theorem acquire (h : ListsInv s place carried listed) {p : Addr} {pc : PageArena.AcquirePc}
    (ho : s.owner = .alloc (.acquire p pc)) {control : Control Arena.FindPc (Addr × Nat)}
    (hs : s.arena.findPlace (.acquire p pc) = (arena, control))
    (h63 : (s.arena.page p).bitfield.getLsbD 63 = true) :
    ListsInv (s.afterAlloc arena control) place carried listed := by
  have hshape : s.arena.freeList = some p ∧ carried = [] := by
    have := h.shape
    rw [ho] at this
    exact this
  have hun : s.owner.unlinked = [] := by rw [ho]; rfl
  simp only [Arena.findPlace] at hs
  obtain ⟨rfl, rfl⟩ := Prod.mk.inj hs
  cases hc : (PageArena.acquireFreeBlock (s.arena.page p) pc).2 with
  | goto pc' => exact h.words Arena.links_acquire hshape rfl hun Arena.atomic_acquire
  | ret r =>
    cases r with
    | some i => exact h.words Arena.links_acquire hshape.2 rfl hun Arena.atomic_acquire
    | none => exact h.words Arena.links_acquire hshape rfl hun Arena.atomic_acquire
  | panic => exact absurd hc (Arena.acquire_ne_panic h63)

theorem grow (h : ListsInv s place [] listed) (hun : s.owner.unlinked = [])
    (hfree : s.arena.freeList = none) {n : Nat} (hpos : 0 < n)
    (ha : arena = { s.arena with heap := (s.arena.heap.makeList PageArena.new n).1 }) :
    ∃ place carried listed, ListsInv { s with
      arena, owner :=
        .alloc (.linkLast n (s.arena.heap.size + (n - 1)) s.arena.heap.size s.arena.fullList) }
      place carried listed := by
  have hsize : ∀ q : Nat, place q ≠ .aside .fresh → q < s.arena.heap.size :=
    fun q hq => Nat.lt_of_not_le fun hle => hq ((h.fresh q).mpr hle)
  have hlinks : ∀ q : Nat, place q ≠ .aside .fresh → arena.nextFree q = s.arena.nextFree q ∧
      arena.next q = s.arena.next q := by
    intro q hq
    rw [ha]
    have := PageOps.links_makeList_old PageArena.ops PageArena.new n (hsize q hq)
    exact ⟨this.1, this.2.1⟩
  have hwords : ∀ q, arena.words q = s.arena.words q ∨ arena.words q = (BitVec.allOnes 64, 0) := by
    intro q
    rw [ha]
    exact Arena.words_makeList.imp_right And.right
  have hchain : Linked arena.nextFree (some (s.arena.heap.size + (n - 1)))
    (downFrom s.arena.heap.size n) ∧
      Linked arena.next (some (s.arena.heap.size + (n - 1))) (downFrom s.arena.heap.size n) := by
    rw [ha, ← behind_pos hpos]
    exact PageOps.linked_makeList _ _ _ fun _ => rfl
  have hflag : arena.inFreeList = s.arena.inFreeList := by
    rw [ha]
    apply PageOps.inFreeList_makeList (fun _ => rfl)
    intro q hq
    by_contra hne
    have hout := (h.circulates.out q).mp (Bool.eq_false_iff.mpr hne)
    rw [(h.fresh q).mpr hq] at hout; cases hout
  have hheap : arena.heap.size = s.arena.heap.size + n ∧ arena.heap.freed = s.arena.heap.freed := by
    rw [ha]; exact ⟨rfl, rfl⟩
  have hlists : arena.freeList = s.arena.freeList ∧ arena.pendingFreeList =
    s.arena.pendingFreeList ∧
      arena.fullList = s.arena.fullList := by
    rw [ha]; exact ⟨rfl, rfl, rfl⟩
  clear ha
  -- the new pages go from `fresh` into the hands of the owner
  have hnew : ∀ q ∈ downFrom s.arena.heap.size n, place q = .aside .fresh :=
    fun q hq => (h.fresh q).mpr (mem_downFrom.mp hq).1
  obtain ⟨place', hplace'⟩ : ∃ place', place' = relocate place (downFrom s.arena.heap.size n)
    (.held none) := ⟨_, rfl⟩
  have hkeep : ∀ q : Nat, place q ≠ .aside .fresh → place' q = place q := by
    intro q hq
    rw [hplace']
    exact relocate_not_mem fun hm => hq (hnew q hm)
  have hplace : ∀ (q : Nat) x, x ≠ .held none → x ≠ .aside .fresh →
      (place' q = x ↔ place q = x) := by
    intro q x hx hx'
    rw [hplace']
    exact relocate_other (fun p hp e => hx' (e.symm.trans (hnew p hp))) hx.symm q
  have hgone : ∀ q : Nat, place q = .aside .gone → place' q = .aside .gone :=
    fun q hq => (hplace q _ (by simp) (by simp)).mpr hq
  refine ⟨place', downFrom s.arena.heap.size n,
    listed, ?_, ?_, ?_, ?_, ?_, ?_, ?_, ?_, ?_, ?_, ?_, ?_⟩
  · show Circulates arena.nextFree arena.inFreeList arena.freeList arena.pendingFreeList place'
    rw [hflag, hlists.1, hlists.2.1]
    refine (h.circulates.retag (fun q => hplace q _ (by simp) (by simp))
      (fun q => hplace q _ (by simp) (by simp))
      fun q => hplace q _ (by simp) (by simp)).congr fun q hq => (hlinks q fun e => ?_).1
    rw [hplace q _ (by simp) (by simp), hplace q _ (by simp) (by simp), e] at hq
    rcases hq with hq | hq <;> cases hq
  · intro q
    rw [hplace', relocate_eq_iff, h.carries q]
    simp
  · exact h.stands_owner (fun t q => hplace q _ (by simp) (by simp)) fun t q hq =>
      (hlinks q (by simp [hq])).1
  · refine ⟨hlists.1.trans hfree, hlists.2.2.symm, hchain.1, hchain.2, ?_, fun q hq hl => ?_⟩
    · obtain ⟨k, rfl⟩ := Nat.exists_eq_succ_of_ne_zero (by omega : n ≠ 0)
      exact getLast_downFrom
    · have h1 := hsize q (h.listed q hl).1
      have h2 := (mem_downFrom.mp hq).1
      exact absurd h1 (Nat.not_lt.mpr h2)
  · intro q
    show place' q = _ ↔ arena.heap.size ≤ q
    rw [hheap.1]
    have hne : (.held none : Place (Option Tid) Aside) ≠ .aside .fresh := by simp
    rw [hplace', relocate_eq_iff, h.fresh q, mem_downFrom]
    simp only [hne, and_false, false_or]
    have hq : q < s.arena.heap.size + n ∨ s.arena.heap.size + n ≤ q := Nat.lt_or_ge _ _
    constructor
    · intro ⟨hnot, hle⟩
      exact hq.resolve_left fun hlt => hnot ⟨hle, hlt⟩
    · intro hle
      exact ⟨fun hlt => Nat.not_le.mpr hlt.2 hle, (Nat.le_add_right _ _).trans hle⟩
  · intro q
    rw [hplace q _ (by simp) (by simp), h.unlinked q, hun]
    rfl
  · exact List.nodup_nil
  · intro q hq; cases hq
  · show Linked arena.next arena.fullList listed
    rw [hlists.2.2]
    exact h.full.congr fun q hq => (hlinks q (h.listed q hq).1).2
  · intro q hq
    rw [hkeep q (h.listed q hq).1]
    exact h.listed q hq
  · intro q hq
    rcases hwords q with e | e
    · rw [e] at hq
      exact hgone q (h.given q hq)
    · rw [e] at hq
      simp at hq
  · intro q hq
    rw [hheap.2] at hq
    exact hgone q (h.freed q hq)

theorem alloc (h : ListsInv s place carried listed) (hb : BlocksInv s) {pc : Arena.FindPc}
    (ho : s.owner = .alloc pc) {control : Control Arena.FindPc (Addr × Nat)}
    (hs : s.arena.findPlace pc = (arena, control)) :
    ∃ place carried listed, ListsInv (s.afterAlloc arena control) place carried listed := by
  have hshape := h.shape
  rw [ho] at hshape
  have hun : s.owner.unlinked = [] := by rw [ho]; rfl
  have hcarries := h.carries
  have hcirc := h.circulates
  cases pc with
  | acquire p pc => exact ⟨_, _, _, h.acquire ho hs (hb.split p).arenaBit⟩
  | getFree =>
    simp only [Arena.findPlace] at hs
    split at hs
    · rename_i p hp
      obtain ⟨rfl, rfl⟩ := Prod.mk.inj hs
      exact ⟨_, _, _, h.quiet ⟨hp, hshape⟩ hun.symm⟩
    · rename_i hp
      obtain ⟨rfl, rfl⟩ := Prod.mk.inj hs
      exact ⟨_, _, _, h.quiet ⟨hp, hshape⟩ hun.symm⟩
  | unlink p =>
    obtain ⟨rfl, rfl⟩ := Prod.mk.inj hs
    obtain ⟨hfree, rfl⟩ := hshape
    rw [hfree] at hcirc
    have hp := hcirc.head_free
    have hf : Frame none place (Function.update place p (.held none)) :=
      Frame.update (by rw [hp]; rfl) (by simp [Place.movable])
    exact ⟨_, _, _, h.shift hf (hcirc.pop none) (Carries.add hcarries) (fun _ _ _ => rfl) rfl
      hun.symm (fun _ => rfl) rfl
      rfl h.full⟩
  | clearInFree p =>
    obtain ⟨rfl, rfl⟩ := Prod.mk.inj hs
    obtain rfl : carried = [p] := hshape
    have hp := Carries.single hcarries
    have hf : Frame none place (Function.update place p .out) :=
      Frame.update (by rw [hp]; simp [Place.movable]) rfl
    have hnf : (s.arena.setPage p { s.arena.page p with inFreeList := false }).nextFree =
      s.arena.nextFree :=
      Arena.nextFree_setPage rfl
    have hnext : (s.arena.setPage p { s.arena.page p with inFreeList := false }).next =
      s.arena.next :=
      Arena.next_setPage rfl
    have hcirc' := hcirc.letOut hp
    refine ⟨_, _, _, h.shift hf ?_ (Carries.remove hcarries (by simp) (by simp))
      (fun _ _ _ => by rw [hnf]) rfl hun.symm
      (fun q => Arena.words_setPage_same rfl) rfl rfl ?_⟩
    · have hflag : (s.arena.setPage p { s.arena.page p with inFreeList := false }).inFreeList =
          Function.update s.arena.inFreeList p false := PageOps.inFreeList_set ..
      rw [hnf, hflag]
      exact hcirc'
    · rw [hnext]; exact h.full
  | loadPending =>
    obtain ⟨rfl, rfl⟩ := Prod.mk.inj hs
    split
    · exact ⟨_, _, _, h.quiet hshape hun.symm⟩
    · exact ⟨_, _, _, h.quiet hshape hun.symm⟩
  | swapPending =>
    obtain ⟨rfl, rfl⟩ := Prod.mk.inj hs
    obtain ⟨hfree, rfl⟩ := hshape
    rw [hfree] at hcirc
    obtain ⟨l, hl, hmem⟩ := hcirc.pending
    have hf : Frame none place (sweep (sweep place .pending (.held none)) (.held none) .free) :=
      Frame.trans (Frame.sweep rfl (by simp [Place.movable]))
        (Frame.sweep (by simp [Place.movable]) rfl)
    have hcirc' := (hcirc.takePending none).giveAll hl (Carries.sweep_in hcarries hmem)
    exact ⟨_, _, _, h.shift hf hcirc' (Carries.sweep_out (by simp)) (fun _ _ _ => rfl) rfl hun.symm
      (fun _ => rfl) rfl rfl
      h.full⟩
  | loadFull =>
    obtain ⟨rfl, rfl⟩ := Prod.mk.inj hs
    obtain ⟨hfree, rfl⟩ := hshape
    exact h.grow hun hfree (growth_pos _) rfl
  | linkLast n first last current =>
    obtain ⟨rfl, rfl⟩ := Prod.mk.inj hs
    obtain ⟨hfree, rfl, hl, hnext, hlast, hnew⟩ := hshape
    have hnf : (s.arena.setPage last { s.arena.page last with next := s.arena.fullList }).nextFree =
      s.arena.nextFree :=
      Arena.nextFree_setPage rfl
    have hflag : (s.arena.setPage last
      { s.arena.page last with next := s.arena.fullList }).inFreeList =
        s.arena.inFreeList := Arena.inFreeList_setPage rfl
    have hnext' : (s.arena.setPage last { s.arena.page last with next := s.arena.fullList }).next =
        Function.update s.arena.next last s.arena.fullList := PageOps.next_set ..
    obtain ⟨hjoin, hfull⟩ := hnext.join hlast h.full hnew
    refine ⟨_, _, _, h.shift Frame.refl ?_ hcarries (fun _ _ _ => by rw [hnf])
      ⟨hfree, ?_, ?_⟩ hun.symm
      (fun q => Arena.words_setPage_same rfl) rfl rfl ?_⟩
    · rw [hnf, hflag]; exact hcirc
    · rw [hnf]; exact hl
    · rw [hnext']; exact hjoin
    · rw [hnext']; exact hfull
  | swapFull n first =>
    obtain ⟨rfl, rfl⟩ := Prod.mk.inj hs
    obtain ⟨hfree, hl, hnext⟩ := hshape
    refine ⟨_, carried, carried ++ listed, h.move Frame.refl hcirc hcarries (fun _ _ _ => rfl)
      ⟨hfree, hl⟩ hun.symm
      (fun _ _ => rfl) (fun _ hq => hq) rfl rfl hnext fun q hq => ?_⟩
    rcases List.mem_append.mp hq with hq | hq
    · rw [(hcarries q).mpr hq]; simp
    · exact h.listed q hq
  | setFree n first =>
    obtain ⟨hfree, hl⟩ := hshape
    simp only [Arena.findPlace, hfree, ite_true] at hs
    obtain ⟨rfl, rfl⟩ := Prod.mk.inj hs
    rw [hfree] at hcirc
    have hf : Frame none place (sweep place (.held none) .free) :=
      Frame.sweep (by simp [Place.movable]) rfl
    exact ⟨_, _, _, h.shift hf (hcirc.giveAll hl hcarries) (Carries.sweep_out (by simp))
      (fun _ _ _ => rfl) rfl hun.symm
      (fun _ => rfl) rfl rfl h.full⟩

/-! ### `shrink_to_fit` -/

theorem unlink (h : ListsInv s place carried listed) {v : Addr} (hv : v ∈ carried)
    (hcarried : ∀ q, q ∈ carried' ↔ q ∈ carried ∧ q ≠ v)
    (hn : ∀ q, q ∉ carried → arena.nextFree q = s.arena.nextFree q)
    (hnext : arena.next = s.arena.next) (hflag : arena.inFreeList = s.arena.inFreeList)
    (hlists : arena.freeList = s.arena.freeList ∧ arena.pendingFreeList = s.arena.pendingFreeList ∧
      arena.fullList = s.arena.fullList)
    (hwords : ∀ q, arena.words q = s.arena.words q)
    (hheap : arena.heap.size = s.arena.heap.size ∧ arena.heap.freed = s.arena.heap.freed)
    (hshape : owner.Shape arena carried' listed) (hun : owner.unlinked = s.owner.unlinked ++ [v])
    (hunused : s.arena.unused v = true) :
    ListsInv { s with arena, owner } (Function.update place v (.aside .unlinked))
    carried' listed := by
  have hheld := (h.carries v).mpr hv
  have hplace : ∀ q x, x ≠ .held none → x ≠ .aside .unlinked →
      (Function.update place v (.aside .unlinked) q = x ↔ place q = x) := by
    intro q x hx hx'
    exact (update_other (fun q => Iff.rfl) (by rw [hheld]; exact Ne.symm hx) (Ne.symm hx') q).symm
  have hnotin : v ∉ s.owner.unlinked := by
    intro hm
    have := (h.unlinked v).mpr hm
    rw [hheld] at this; cases this
  have hnf : ∀ q, place q ≠ .held none → arena.nextFree q = s.arena.nextFree q :=
    fun q hq => hn q fun hm => hq ((h.carries q).mpr hm)
  refine ⟨?_, fun q => ?_, ?_, hshape, fun q => ?_, fun q => ?_, ?_, fun q hq => ?_, ?_,
    fun q hq => ?_, fun q hq => ?_,
    fun q hq => ?_⟩
  · show Circulates arena.nextFree arena.inFreeList arena.freeList arena.pendingFreeList _
    rw [hflag, hlists.1, hlists.2.1]
    refine (h.circulates.retag (fun q => hplace q _ (by simp) (by simp))
      (fun q => hplace q _ (by simp) (by simp))
      fun q => hplace q _ (by simp) (by simp)).congr fun q hq => hnf q fun e => ?_
    rw [hplace q _ (by simp) (by simp), hplace q _ (by simp) (by simp), e] at hq
    rcases hq with hq | hq <;> cases hq
  · rw [hcarried q, ← h.carries q]
    by_cases e : q = v
    · subst e; simp
    · rw [Function.update_of_ne e]; simp [e]
  · exact h.stands_owner (fun t q => hplace q _ (by simp) (by simp)) fun t q hq => hnf q
      (by simp [hq])
  · rw [hplace q _ (by simp) (by simp), hheap.1]
    exact h.fresh q
  · rw [hun, List.mem_append, ← h.unlinked q]
    by_cases e : q = v
    · subst e; simp
    · rw [Function.update_of_ne e]; simp [e]
  · rw [hun]
    exact List.nodup_append.mpr
      ⟨h.nodup, List.nodup_singleton v, fun q hq r hr e => hnotin (by simp_all)⟩
  · rw [hun, List.mem_append] at hq
    rw [Arena.unused_congr (hwords q)]
    rcases hq with hq | hq
    · exact h.unused q hq
    · rw [List.mem_singleton.mp hq]; exact hunused
  · show Linked arena.next arena.fullList listed
    rw [hnext, hlists.2.2]
    exact h.full
  · by_cases e : q = v
    · subst e; simp
    · rw [Function.update_of_ne e]; exact h.listed q hq
  · rw [hwords] at hq
    exact (hplace q _ (by simp) (by simp)).mpr (h.given q hq)
  · rw [hheap.2] at hq
    exact (hplace q _ (by simp) (by simp)).mpr (h.freed q hq)

theorem giveUp (h : ListsInv s place carried listed) {p : Addr} {rest : List Addr} {x : PageArena}
    (ho : s.owner.unlinked = p :: rest) (hun : owner.unlinked = rest)
    (hx : x.toPageLinks = (s.arena.page p).toPageLinks) (hnot : p ∉ listed)
    (hshape : owner.Shape (s.arena.setPage p x) carried listed) :
    ListsInv { s with arena := s.arena.setPage p x, owner } (Function.update place p (.aside .gone))
    carried listed := by
  have hp : place p = .aside .unlinked := (h.unlinked p).mpr (by rw [ho]; simp)
  have hnodup := h.nodup
  rw [ho, List.nodup_cons] at hnodup
  have hplace : ∀ q x, x ≠ .aside .unlinked → x ≠ .aside .gone →
      (Function.update place p (.aside .gone) q = x ↔ place q = x) := by
    intro q x hx hx'
    exact (update_other (fun q => Iff.rfl) (by rw [hp]; exact Ne.symm hx) (Ne.symm hx') q).symm
  have hgone : ∀ q, place q = .aside .gone → Function.update place p (.aside .gone) q =
    .aside .gone := by
    intro q hq
    by_cases e : q = p
    · subst e; simp
    · rwa [Function.update_of_ne e]
  have hnf : (s.arena.setPage p x).nextFree = s.arena.nextFree :=
    Arena.nextFree_setPage (congrArg PageLinks.nextFree hx)
  have hnext : (s.arena.setPage p x).next = s.arena.next :=
    Arena.next_setPage (congrArg PageLinks.next hx)
  have hflag : (s.arena.setPage p x).inFreeList = s.arena.inFreeList :=
    Arena.inFreeList_setPage (congrArg PageLinks.inFreeList hx)
  refine ⟨?_, fun q => ?_, ?_, hshape, fun q => ?_, fun q => ?_, ?_, fun q hq => ?_, ?_,
    fun q hq => ?_, fun q hq => ?_,
    fun q hq => ?_⟩
  · rw [hnf, hflag]
    exact h.circulates.retag (fun q => hplace q _ (by simp) (by simp))
      (fun q => hplace q _ (by simp) (by simp))
      fun q => hplace q _ (by simp) (by simp)
  · rw [hplace q _ (by simp) (by simp)]
    exact h.carries q
  · exact h.stands_owner (fun t q => hplace q _ (by simp) (by simp)) fun t q hq => by rw [hnf]
  · rw [hplace q _ (by simp) (by simp)]
    exact h.fresh q
  · rw [hun]
    have hq := h.unlinked q
    rw [ho] at hq
    by_cases e : q = p
    · subst e; simp [hnodup.1]
    · rw [Function.update_of_ne e, hq]; simp [e]
  · rw [hun]; exact hnodup.2
  · rw [hun] at hq
    have hne : q ≠ p := fun e => hnodup.1 (e ▸ hq)
    have hu := h.unused q (by rw [ho]; simp [hq])
    unfold Arena.unused at hu ⊢
    rw [Arena.page_setPage, if_neg hne]
    exact hu
  · rw [hnext]; exact h.full
  · have hne : q ≠ p := fun e => hnot (e ▸ hq)
    rw [Function.update_of_ne hne]
    exact h.listed q hq
  · by_cases e : q = p
    · subst e; simp
    · rw [Arena.words_setPage, if_neg e] at hq
      exact hgone q (h.given q hq)
  · exact hgone q (h.freed q hq)

theorem freePage (h : ListsInv s place carried listed) {p : Addr}
    (h63 : (s.arena.words p).2.getLsbD 63 = true)
    (ha : arena = { s.arena with heap := (s.arena.heap.set p (s.arena.page p)).free (.dropPage p) })
    (hshape : owner.Shape s.arena carried listed) (hun : owner.unlinked = s.owner.unlinked) :
    ListsInv { s with arena, owner } place carried listed := by
  subst ha
  have hnf : (s.arena.setPage p (s.arena.page p)).nextFree = s.arena.nextFree :=
    Arena.nextFree_setPage rfl
  have hnext : (s.arena.setPage p (s.arena.page p)).next = s.arena.next := Arena.next_setPage rfl
  have hflag : (s.arena.setPage p (s.arena.page p)).inFreeList = s.arena.inFreeList :=
    Arena.inFreeList_setPage rfl
  have hwords : ∀ q, (s.arena.setPage p (s.arena.page p)).words q = s.arena.words q :=
    fun q => Arena.words_setPage_same rfl
  have hunused := fun q => Arena.unused_congr (hwords q)
  refine ⟨?_, h.carries, ?_, ?_, h.fresh, fun q => ?_, ?_, fun q hq => ?_, ?_, h.listed,
    fun q hq => ?_, fun q hq => ?_⟩
  · show Circulates (s.arena.setPage p (s.arena.page p)).nextFree
      (s.arena.setPage p (s.arena.page p)).inFreeList _ _ _
    rw [hnf, hflag]
    exact h.circulates
  · exact h.stands_owner (fun _ _ => Iff.rfl) fun _ q _ => congrFun hnf q
  · exact hshape.congr rfl rfl hnext (fun q _ => congrFun hnf q) (fun q hq => (hunused q).trans hq)
      fun q hq => (congrArg (fun w => w.2.getLsbD 63) (hwords q)).trans hq
  · rw [hun]; exact h.unlinked q
  · rw [hun]; exact h.nodup
  · rw [hun] at hq
    exact (hunused q).trans (h.unused q hq)
  · show Linked (s.arena.setPage p (s.arena.page p)).next _ _
    rw [hnext]; exact h.full
  · exact h.given q ((congrArg (fun w => w.2.getLsbD 63) (hwords q)).symm.trans hq)
  · rcases List.mem_cons.mp hq with e | hq
    · rw [(Freed.dropPage.inj e)]
      exact h.given p h63
    · exact h.freed q hq

theorem walkCas (h : ListsInv s place carried listed) {start current nextValue : Ptr}
    {value : Addr} {toDrop : List Addr}
    (ho : s.owner = .shrink (.walkCas start current value nextValue toDrop))
    {control : Control Arena.ShrinkPc Bool}
    (hs : s.arena.shrinkToFit (.walkCas start current value nextValue toDrop) = (arena, control)) :
    ∃ place carried listed, ListsInv (s.afterShrink arena control) place carried listed := by
  have hshape := h.shape
  rw [ho] at hshape
  obtain ⟨hfree, rfl, hunused, pre, rest, rfl, hw⟩ := hshape
  have hnodup := hw.chain.nodup
  have hread : readLink s.arena.nextFree start current = some value := hw.read
  have hcarried : ∀ q, q ∈ pre ++ rest ↔ q ∈ pre ++ value :: rest ∧ q ≠ value := by
    intro q
    have hne : value ∉ pre ++ rest := by
      have := List.nodup_middle.mp hnodup
      exact (List.nodup_cons.mp this).1
    constructor
    · intro hq
      exact ⟨by rcases List.mem_append.mp hq with hq | hq <;> simp [hq], fun e => hne (e ▸ hq)⟩
    · intro ⟨hq, hq'⟩
      rcases List.mem_append.mp hq with hq | hq
      · simp [hq]
      · rcases List.mem_cons.mp hq with hq | hq
        · exact absurd hq hq'
        · simp [hq]
  simp only [Arena.shrinkToFit, hread, ite_true] at hs
  cases current with
  | none =>
    obtain ⟨rfl, rfl⟩ := Prod.mk.inj hs
    exact ⟨_, _, _, h.unlink (by simp) hcarried (fun _ _ => rfl) rfl rfl ⟨rfl, rfl, rfl⟩
      (fun _ => rfl) ⟨rfl, rfl⟩
      ⟨hfree, pre, rest, rfl, hw.unlink_head⟩ (by rw [ho]; rfl) hunused⟩
  | some c =>
    obtain ⟨rfl, rfl⟩ := Prod.mk.inj hs
    obtain ⟨hc, hw'⟩ := hw.unlink
    have hnf : (s.arena.setPage c
      { s.arena.page c with nextFree := s.arena.nextFree value }).nextFree =
        Function.update s.arena.nextFree c (s.arena.nextFree value) := PageOps.nextFree_set ..
    refine ⟨_, _, _, h.unlink (by simp) hcarried (fun q hq => ?_) (Arena.next_setPage rfl)
      (Arena.inFreeList_setPage rfl)
      ⟨rfl, rfl, rfl⟩ (fun _ => Arena.words_setPage_same rfl) ⟨rfl, rfl⟩ ⟨hfree, pre, rest, rfl, ?_⟩
        (by rw [ho]; rfl)
      hunused⟩
    · have hne : q ≠ c := fun e => hq (by rw [e]; simp [hc])
      rw [hnf, Function.update_of_ne hne]
    · rw [hnf]; exact hw'

theorem fullCas (h : ListsInv s place carried listed) {start current nextValue : Ptr}
    {value : Addr} {toDrop : List Addr}
    (ho : s.owner = .shrink (.fullCas start toDrop current value nextValue))
    {control : Control Arena.ShrinkPc Bool}
    (hs : s.arena.shrinkToFit (.fullCas start toDrop current value nextValue) = (arena, control)) :
    ∃ place carried listed, ListsInv (s.afterShrink arena control) place carried listed := by
  have hshape := h.shape
  rw [ho] at hshape
  obtain ⟨hfree, hl, rfl, pre, rest, rfl, hw, hpre⟩ := hshape
  have hread : readLink s.arena.next s.arena.fullList current = some value := hw.read
  have hun : (ArenaCall.shrink (.full start toDrop current)).unlinked = s.owner.unlinked := by
    rw [ho]; rfl
  have hlisted : ∀ q ∈ pre ++ rest, place q ≠ .aside .fresh ∧ place q ≠ .aside .gone := by
    intro q hq
    apply h.listed q
    rcases List.mem_append.mp hq with hq | hq <;> simp [hq]
  simp only [Arena.shrinkToFit, hread, ite_true] at hs
  cases current with
  | none =>
    obtain ⟨rfl, rfl⟩ := Prod.mk.inj hs
    have hw' := hw.unlink_head
    exact ⟨_, _, _, h.move Frame.refl h.circulates h.carries (fun _ _ _ => rfl)
      ⟨hfree, hl, pre, rest, rfl, hw', hpre⟩ hun (fun _ _ => rfl) (fun _ hq => hq) rfl rfl
        hw'.chain hlisted⟩
  | some c =>
    obtain ⟨rfl, rfl⟩ := Prod.mk.inj hs
    obtain ⟨hc, hw'⟩ := hw.unlink
    have hnf : (s.arena.setPage c { s.arena.page c with next := s.arena.next value }).nextFree =
      s.arena.nextFree :=
      Arena.nextFree_setPage rfl
    have hflag : (s.arena.setPage c { s.arena.page c with next := s.arena.next value }).inFreeList =
      s.arena.inFreeList :=
      Arena.inFreeList_setPage rfl
    have hnext : (s.arena.setPage c { s.arena.page c with next := s.arena.next value }).next =
        Function.update s.arena.next c (s.arena.next value) := PageOps.next_set ..
    rw [← hnext] at hw'
    have hwords := fun q => Arena.words_setPage_same (a := s.arena) (p := c) (q := q)
      (x := { s.arena.page c with next := s.arena.next value }) rfl
    refine ⟨_, _, _, h.move Frame.refl ?_ h.carries (fun _ _ _ => by rw [hnf])
      ⟨hfree, ?_, pre, rest, rfl, hw', hpre⟩ hun
      (fun q _ => hwords q) (fun q hq => ?_) rfl rfl hw'.chain hlisted⟩
    · rw [hnf, hflag]; exact h.circulates
    · rw [hnf]; exact hl
    · rwa [hwords] at hq

theorem dropPage (h : ListsInv s place carried listed) {start : Ptr} {p : Addr}
    {toDrop rest : List Addr} {pc : DropPagePc}
    (ho : s.owner = .shrink (.dropPage start toDrop p rest pc))
    {control : Control Arena.ShrinkPc Bool}
    (hs : s.arena.shrinkToFit (.dropPage start toDrop p rest pc) = (arena, control)) :
    ∃ place carried listed, ListsInv (s.afterShrink arena control) place carried listed := by
  have hshape := h.shape
  rw [ho] at hshape
  cases pc with
  | fetch =>
    obtain ⟨hfree, hl, hnot⟩ := hshape
    have hun : s.owner.unlinked = p :: rest := by rw [ho]; rfl
    have hunused := h.unused p (by rw [hun]; simp)
    have hones : (s.arena.page p).bitfieldAtomic ||| (s.arena.page p).bitfield =
      BitVec.allOnes 64 := by
      unfold Arena.unused at hunused
      rw [BitVec.or_comm]
      exact of_decide_eq_true hunused
    have hs' : s.arena.dropPage p .fetch = (s.arena.setPage p { s.arena.page p with
        bitfieldAtomic := (s.arena.page p).bitfieldAtomic ||| (s.arena.page p).bitfield },
          .goto .deallocate) := by
      simp only [Arena.dropPage, PageArena.dropPage, PageOps.dropPage, PageArena.ops,
        PageArena.givePage, hones,
        decide_true, ite_true]
      rfl
    simp only [Arena.shrinkToFit, hs'] at hs
    obtain ⟨rfl, rfl⟩ := Prod.mk.inj hs
    have hnf : (s.arena.setPage p { s.arena.page p with
        bitfieldAtomic :=
          (s.arena.page p).bitfieldAtomic ||| (s.arena.page p).bitfield }).nextFree =
          s.arena.nextFree :=
      Arena.nextFree_setPage rfl
    refine ⟨_, _, _, h.giveUp hun rfl rfl (hnot p (by simp)) ⟨hfree, ?_, hnot, ?_⟩⟩
    · rw [hnf]; exact hl
    · rw [Arena.words_setPage, if_pos rfl, hones]; simp
  | deallocate =>
    obtain ⟨hfree, hl, hnot, h63⟩ := hshape
    obtain ⟨rfl, rfl⟩ := Prod.mk.inj hs
    exact ⟨_, _, _, h.freePage h63 rfl ⟨hfree, hl, fun q hq => hnot q (by simp [hq])⟩
      (by rw [ho]; rfl)⟩

theorem shrink (h : ListsInv s place carried listed) {pc : Arena.ShrinkPc}
    (ho : s.owner = .shrink pc) {control : Control Arena.ShrinkPc Bool}
    (hs : s.arena.shrinkToFit pc = (arena, control)) :
    ∃ place carried listed, ListsInv (s.afterShrink arena control) place carried listed := by
  have hshape := h.shape
  rw [ho] at hshape
  have hcirc := h.circulates
  cases pc with
  | takeFree =>
    obtain ⟨rfl, rfl⟩ := Prod.mk.inj hs
    obtain rfl : carried = [] := hshape
    obtain ⟨l, hl, hmem⟩ := hcirc.free
    exact ⟨_, _, _, h.shift (Frame.sweep rfl (by simp [Place.movable])) (hcirc.takeFree none)
      (Carries.sweep_in h.carries hmem) (fun _ _ _ => rfl) ⟨rfl, [], l, rfl, Walk.start hl⟩
        (by rw [ho]; rfl)
      (fun _ => rfl) rfl rfl h.full⟩
  | walk start current toDrop =>
    obtain ⟨hfree, pre, rest, rfl, hw⟩ := hshape
    have hread := hw.read
    cases rest with
    | nil =>
      simp only [Arena.shrinkToFit, hread, List.head?_nil] at hs
      obtain ⟨rfl, rfl⟩ := Prod.mk.inj hs
      exact ⟨_, _, _, h.quiet ⟨hfree, hw.chain, [], listed, rfl, Walk.start h.full, by simp⟩
        (by rw [ho]; rfl)⟩
    | cons value rest =>
      simp only [Arena.shrinkToFit, hread, List.head?_cons] at hs
      obtain ⟨rfl, rfl⟩ := Prod.mk.inj hs
      exact ⟨_, _, _, h.quiet ⟨hfree, pre, rest, rfl, hw⟩ (by rw [ho]; rfl)⟩
  | walkNext start current value toDrop =>
    obtain ⟨rfl, rfl⟩ := Prod.mk.inj hs
    obtain ⟨hfree, hw⟩ := hshape
    exact ⟨_, _, _, h.quiet ⟨hfree, rfl, hw⟩ (by rw [ho]; rfl)⟩
  | walkBits start current value nextValue toDrop =>
    obtain ⟨hfree, hnext, pre, rest, rfl, hw⟩ := hshape
    simp only [Arena.shrinkToFit] at hs
    split at hs <;> obtain ⟨rfl, rfl⟩ := Prod.mk.inj hs
    · rename_i hunused
      exact ⟨_, _, _, h.quiet ⟨hfree, hnext, hunused, pre, rest, rfl, hw⟩ (by rw [ho]; rfl)⟩
    · exact ⟨_, _, _, h.quiet ⟨hfree, pre ++ [value], rest, by simp, hw.advance⟩ (by rw [ho]; rfl)⟩
  | walkCas start current value nextValue toDrop => exact h.walkCas ho hs
  | full start toDrop current =>
    obtain ⟨hfree, hl, pre, rest, rfl, hw, hpre⟩ := hshape
    have hread := hw.read
    cases rest with
    | nil =>
      simp only [Arena.shrinkToFit, hread, List.head?_nil] at hs
      obtain ⟨rfl, rfl⟩ := Prod.mk.inj hs
      exact ⟨_, _, _, h.quiet ⟨hfree, hl, fun q hq hq' => hpre q (by simpa using hq') hq⟩
        (by rw [ho]; rfl)⟩
    | cons value rest =>
      simp only [Arena.shrinkToFit, hread, List.head?_cons] at hs
      obtain ⟨rfl, rfl⟩ := Prod.mk.inj hs
      exact ⟨_, _, _, h.quiet ⟨hfree, hl, pre, rest, rfl, hw, hpre⟩ (by rw [ho]; rfl)⟩
  | fullNext start toDrop current value =>
    obtain ⟨hfree, hl, pre, rest, rfl, hw, hpre⟩ := hshape
    simp only [Arena.shrinkToFit] at hs
    split at hs <;> obtain ⟨rfl, rfl⟩ := Prod.mk.inj hs
    · exact ⟨_, _, _, h.quiet ⟨hfree, hl, rfl, pre, rest, rfl, hw, hpre⟩ (by rw [ho]; rfl)⟩
    · rename_i hvalue
      refine ⟨_, _, _, h.quiet ⟨hfree, hl, pre ++ [value], rest, by simp, hw.advance,
        fun q hq => ?_⟩ (by rw [ho]; rfl)⟩
      rcases List.mem_append.mp hq with hq | hq
      · exact hpre q hq
      · rw [List.mem_singleton.mp hq]; exact hvalue
  | fullCas start toDrop current value nextValue => exact h.fullCas ho hs
  | recheck start toDrop rest =>
    obtain ⟨hfree, hl, hnot⟩ := hshape
    cases rest with
    | nil =>
      obtain ⟨rfl, rfl⟩ := Prod.mk.inj hs
      exact ⟨_, _, _, h.quiet ⟨hfree, hl⟩ (by rw [ho]; rfl)⟩
    | cons p rest =>
      have hunused := h.unused p (by rw [ho]; simp [ArenaCall.unlinked, Arena.ShrinkPc.unlinked])
      simp only [Arena.shrinkToFit, hunused, ite_true] at hs
      obtain ⟨rfl, rfl⟩ := Prod.mk.inj hs
      exact ⟨_, _, _, h.quiet ⟨hfree, hl, hnot⟩ (by rw [ho]; rfl)⟩
  | dropPage start toDrop p rest pc => exact h.dropPage ho hs
  | restore start toDrop =>
    obtain ⟨hfree, hl⟩ := hshape
    rw [hfree] at hcirc
    simp only [Arena.shrinkToFit] at hs
    split at hs <;> obtain ⟨rfl, rfl⟩ := Prod.mk.inj hs
    · exact ⟨_, _, _, h.shift (Frame.sweep (by simp [Place.movable]) rfl)
        (hcirc.giveAll hl h.carries)
        (Carries.sweep_out (by simp)) (fun _ _ _ => rfl) rfl (by rw [ho]; rfl)
          (fun _ => rfl) rfl rfl h.full⟩
    · exact ⟨_, _, _, h.shift (Frame.sweep (by simp [Place.movable]) rfl)
        (hcirc.giveAll hl h.carries)
        (Carries.sweep_out (by simp)) (fun _ _ _ => rfl) rfl (by rw [ho]; rfl)
          (fun _ => rfl) rfl rfl h.full⟩

/-! ### `drop_block` -/

theorem thread (h : ListsInv s place carried listed) {t : Tid} {p : DropThread}
    (hf : Frame (some t) place place')
    (hcirc : Circulates arena.nextFree arena.inFreeList arena.freeList arena.pendingFreeList place')
    (hstands : p.Stands arena.nextFree place' (some t))
    (hn : ∀ q, place q ≠ .held (some t) → arena.nextFree q = s.arena.nextFree q)
    (hfree : arena.freeList = s.arena.freeList) (hfull : arena.fullList = s.arena.fullList)
    (hnext : arena.next = s.arena.next)
    (hun : ∀ q, s.arena.unused q = true → arena.unused q = true)
    (h63 : ∀ q, (arena.words q).2.getLsbD 63 = true ↔ (s.arena.words q).2.getLsbD 63 = true)
    (hsize : arena.heap.size = s.arena.heap.size)
    (hfreed : ∀ q, .dropPage q ∈ arena.heap.freed → .dropPage q ∈ s.arena.heap.freed) :
    ListsInv { s with arena, threads := s.threads.set t p, handles } place' carried listed := by
  have hcarried : ∀ q ∈ carried, arena.nextFree q = s.arena.nextFree q :=
    fun q hq => hn q (by rw [(h.carries q).mpr hq]; simp)
  refine ⟨hcirc, hf.carries (by simp) h.carries, fun u => ?_, ?_, fun q => ?_, fun q => ?_, h.nodup,
    fun q hq => ?_, ?_,
    fun q hq => ?_, fun q hq => ?_, fun q hq => ?_⟩
  · show ((s.threads.set t p).get u).Stands arena.nextFree place' (some u)
    rw [Store.get_set]
    split
    · rename_i e; rw [e]; exact hstands
    · rename_i e
      have hu := h.stands u
      have hne : some u ≠ some t := fun e' => e (Option.some.inj e')
      cases hp : s.threads.get u with
      | idle =>
        rw [hp] at hu
        exact hf.carries hne hu
      | drop q i pc =>
        rw [hp] at hu
        exact Drops.frame hu hf hne fun r hr => hn r (by rw [hr]; simpa using e)
  · exact h.shape.congr hfree hfull hnext hcarried hun fun q hq => (h63 q).mpr hq
  · rw [hf.aside, hsize]; exact h.fresh q
  · rw [hf.aside]; exact h.unlinked q
  · exact hun q (h.unused q hq)
  · show Linked arena.next arena.fullList listed
    rw [hnext, hfull]; exact h.full
  · rw [Ne, Ne, hf.aside, hf.aside]
    exact h.listed q hq
  · rw [hf.aside]
    exact h.given q ((h63 q).mp hq)
  · rw [hf.aside]
    exact h.freed q (hfreed q hq)

theorem thread_quiet (h : ListsInv s place carried listed) {t : Tid} {p : DropThread} {q : Addr}
    {x : PageArena} (hstands : p.Stands s.arena.nextFree place (some t))
    (hx : x.toPageLinks = (s.arena.page q).toPageLinks)
    (hun : s.arena.unused q = true → x.bitfield ||| x.bitfieldAtomic = BitVec.allOnes 64)
    (h63 : x.bitfieldAtomic.getLsbD 63 = (s.arena.words q).2.getLsbD 63) {freed : List Freed}
    (hfreed : ∀ q, .dropPage q ∈ freed → .dropPage q ∈ s.arena.heap.freed) :
    ListsInv { s with
      arena := { s.arena with heap := { s.arena.heap.set q x with freed } }, threads :=
      s.threads.set t p, handles }
      place carried listed := by
  have hnf : (s.arena.setPage q x).nextFree = s.arena.nextFree :=
    Arena.nextFree_setPage (congrArg PageLinks.nextFree hx)
  have hnext : (s.arena.setPage q x).next = s.arena.next :=
    Arena.next_setPage (congrArg PageLinks.next hx)
  have hflag : (s.arena.setPage q x).inFreeList = s.arena.inFreeList :=
    Arena.inFreeList_setPage (congrArg PageLinks.inFreeList hx)
  refine h.thread Frame.refl ?_ ?_ (fun r _ => congrFun hnf r) rfl rfl hnext (fun r hr => ?_)
    (fun r => ?_) rfl hfreed
  · show Circulates (s.arena.setPage q x).nextFree (s.arena.setPage q x).inFreeList _ _ _
    rw [hnf, hflag]; exact h.circulates
  · show p.Stands (s.arena.setPage q x).nextFree place (some t)
    rw [hnf]; exact hstands
  · show decide
      (((s.arena.setPage q x).page r).bitfield |||
      ((s.arena.setPage q x).page r).bitfieldAtomic = _) = true
    rw [Arena.page_setPage]
    split
    · rename_i e; rw [e] at hr; exact decide_eq_true (hun hr)
    · exact hr
  · show ((s.arena.setPage q x).words r).2.getLsbD 63 = true ↔ _
    rw [Arena.words_setPage]
    split
    · rename_i e; rw [e, ← h63]
    · exact Iff.rfl

theorem drops (h : ListsInv s place carried listed) (hb : BlocksInv s) {s' : ArenaState} {t : Tid}
    {upgraded : Bool} (hm : ArenaState.Moves s (.step t upgraded) s') :
    ∃ place, ListsInv s' place carried listed := by
  have ht := h.stands t
  cases hm with
  | @giveBlock _ _ p i page last hp hg =>
    obtain ⟨rfl, rfl⟩ := Prod.mk.inj hg
    rw [hp] at ht
    have hlive : s.Live p i := Or.inr ⟨t, handOf_get hp⟩
    have hi := hb.index p i hlive
    have ha : (s.arena.page p).bitfieldAtomic.getLsbD i = false := (hb.clear p i hlive).2.1
    refine ⟨place, h.thread_quiet (q := p)
      (x := { s.arena.page p with bitfieldAtomic := (s.arena.page p).bitfieldAtomic + bit i }) ?_
        rfl (fun hun => ?_) ?_
      fun _ hq => hq⟩
    · refine ⟨?_, fun current e => ?_⟩
      · split <;> exact ht.cargo
      · split at e <;> cases e
    · -- the block is live, so the page was in use
      have hun : (s.arena.page p).bitfield ||| (s.arena.page p).bitfieldAtomic =
        BitVec.allOnes 64 := of_decide_eq_true hun
      have hbit := congrArg (fun x => x.getLsbD i) hun
      simp only [BitVec.getLsbD_or, ha, Bool.or_false, BitVec.getLsbD_allOnes] at hbit
      rw [show (s.arena.page p).bitfield.getLsbD i = false from (hb.clear p i hlive).1] at hbit
      simp at hbit; omega
    · show ((s.arena.page p).bitfieldAtomic + bit i).getLsbD 63 = _
      rw [getLsbD_add_bit hi ha]
      have hne : i ≠ 63 := by omega
      simp [hne, Arena.words]
  | @freeBlock _ _ p i hp =>
    rw [hp] at ht
    refine ⟨place, h.thread_quiet (q := p) (x := s.arena.page p) ?_ rfl
      (fun hun => of_decide_eq_true hun) rfl fun q hq => ?_⟩
    · exact ht.cargo
    · rcases List.mem_cons.mp hq with e | hq
      · cases e
      · exact hq
  | @push _ _ p i pc links pending control hp hs =>
    rw [hp] at ht
    have halive : s.owner ≠ .released := by
      intro e
      have := h.shape
      rw [e] at this
      exact this
    simp only [ne_eq, halive, not_false_eq_true, decide_true, Bool.true_or] at hs
    obtain ⟨place', hcirc, hf, hafter, hn⟩ := push_step h.circulates ht rfl rfl hs
    have hnf : (s.arena.setPage p { s.arena.page p with toPageLinks := links }).nextFree =
        Function.update s.arena.nextFree p links.nextFree := PageOps.nextFree_set ..
    have hflag : (s.arena.setPage p { s.arena.page p with toPageLinks := links }).inFreeList =
        Function.update s.arena.inFreeList p links.inFreeList := PageOps.inFreeList_set ..
    have hnext : (s.arena.setPage p { s.arena.page p with toPageLinks := links }).next =
      s.arena.next :=
      Arena.next_setPage (PageLinks.next_push hs)
    rw [← hnf] at hcirc hafter
    rw [← hflag] at hcirc
    have hwords : ∀ q, (s.arena.setPage p { s.arena.page p with toPageLinks := links }).words q =
      s.arena.words q :=
      fun q => Arena.words_setPage_same rfl
    refine ⟨place', h.thread hf hcirc ?_ (fun q hq => ?_) rfl rfl hnext (fun q hq => ?_)
      (fun q => ?_) rfl fun _ hq => hq⟩
    · cases control <;> exact hafter
    · exact (congrFun hnf q).trans (hn q hq)
    · exact (Arena.unused_congr (hwords q)).trans hq
    · exact Iff.of_eq (congrArg (fun w => w.2.getLsbD 63 = true) (hwords q))

theorem startDrop (h : ListsInv s place carried listed) {t : Tid} {p : Addr} {i : Nat}
    (ht : s.threads.get t = .idle) :
    ListsInv { s with handles, threads := s.threads.set t (.drop p i .fetchAdd) } place
    carried listed := by
  have hcargo := h.stands t
  rw [ht] at hcargo
  exact h.thread Frame.refl h.circulates ⟨hcargo, fun _ e => by cases e⟩ (fun _ _ => rfl) rfl rfl
    rfl (fun _ hq => hq)
    (fun _ => Iff.rfl) rfl fun _ hq => hq

end ListsInv

/-! ## Runs -/

def ArenaCall.ends : ArenaCall → Bool
  | .release _ | .released => true
  | _ => false

structure ArenaInv (s : ArenaState) : Prop where
  blocks : BlocksInv s
  lists : s.owner.ends = false → ∃ place carried listed, ListsInv s place carried listed

theorem Arena.release_ne_panic {a : Arena} {pc : ReleasePc} : (a.release pc).2 ≠ .panic := by
  have hfrom : ∀ next, releaseFrom next ≠ .panic := by
    intro next
    cases next <;> simp [releaseFrom]
  cases pc with
  | loadFull => exact hfrom _
  | loadNext p => simp [release]
  | dropPage p next pc =>
    simp only [release]
    cases hc : (a.dropPage p pc).2 with
    | goto pc => simp
    | ret => exact hfrom next
    | panic =>
      cases pc with
      | fetch =>
        simp only [dropPage, PageArena.dropPage, PageOps.dropPage] at hc
        split at hc <;> cases hc
      | deallocate => cases hc

theorem ListsInv.start (cap : Nat) :
    ∃ place carried listed, ListsInv (.start cap) place carried listed := by
  have hchain := PageOps.linked_makeList PageArena.ops (pagesFor cap) Heap.empty
    fun p => (rfl : PageArena.ops.links (PageArena.new p) = _)
  rw [behind_pos (pagesFor_pos cap)] at hchain
  have hsize : (ArenaState.start cap).arena.heap.size = pagesFor cap := Nat.zero_add _
  refine ⟨relocate (fun _ => .aside .fresh) (downFrom 0 (pagesFor cap)) .free, [],
    downFrom 0 (pagesFor cap),
    .start hchain.1 (PageOps.inFreeList_makeList_empty (fun _ => rfl) rfl) _, fun q => ?_,
    fun t => ?_, rfl, fun q => ?_, fun q => ?_, List.nodup_nil, fun q hq => ?_, hchain.2,
    fun q hq => ?_, fun q hq => ?_, fun q hq => ?_⟩
  · simp [relocate_eq_iff]
  · show ((Store.empty : Store DropThread).get t).Stands _ _ _
    rw [Store.get_empty]
    intro q
    simp [relocate_eq_iff]
  · simp [hsize, relocate_eq_iff, mem_downFrom]
  · simp [relocate_eq_iff, ArenaState.start, ArenaCall.unlinked]
  · cases hq
  · simp [relocate_mem hq]
  · rw [BlocksInv.words_start] at hq
    simp at hq
  · cases hq

namespace ArenaInv

variable {s s' : ArenaState}

theorem acquires (h : ArenaInv s) (p : Addr) (pc : PageArena.AcquirePc)
    (ho : s.owner = .alloc (.acquire p pc)) :
    p < s.arena.heap.size ∧ (s.arena.words p).2.getLsbD 63 = false := by
  obtain ⟨place, carried, listed, hl⟩ := h.lists (by rw [ho]; rfl)
  have hshape := hl.shape
  rw [ho] at hshape
  have hcirc := hl.circulates
  rw [hshape.1] at hcirc
  have hp := hcirc.head_free
  constructor
  · apply Nat.lt_of_not_le
    intro hle
    rw [(hl.fresh p).mpr hle] at hp; cases hp
  · by_contra h63
    rw [hl.given p (by simpa using h63)] at hp; cases hp

theorem step (h : ArenaInv s) {a : ArenaAct} (hm : ArenaState.Moves s a s') : ArenaInv s' := by
  refine ⟨h.blocks.step h.acquires hm, fun he => ?_⟩
  cases hm with
  | startAlloc ho =>
    obtain ⟨place, carried, listed, hl⟩ := h.lists (by rw [ho]; rfl)
    have hshape := hl.shape
    rw [ho] at hshape
    exact ⟨_, _, _, hl.quiet hshape (by rw [ho]; rfl)⟩
  | startShrink ho =>
    obtain ⟨place, carried, listed, hl⟩ := h.lists (by rw [ho]; rfl)
    have hshape := hl.shape
    rw [ho] at hshape
    exact ⟨_, _, _, hl.quiet hshape (by rw [ho]; rfl)⟩
  | startRelease => cases he
  | alloc ho hs =>
    obtain ⟨place, carried, listed, hl⟩ := h.lists (by rw [ho]; rfl)
    exact hl.alloc h.blocks ho hs
  | shrink ho hs =>
    obtain ⟨place, carried, listed, hl⟩ := h.lists (by rw [ho]; rfl)
    exact hl.shrink ho hs
  | @release pc arena control ho hs =>
    have hpanic : control ≠ .panic := (Prod.mk.inj hs).2 ▸ Arena.release_ne_panic
    cases control with
    | goto | ret => cases he
    | panic => exact absurd rfl hpanic
  | startDrop ht hi =>
    obtain ⟨place, carried, listed, hl⟩ := h.lists he
    exact ⟨_, _, _, hl.startDrop ht⟩
  | giveBlock ht hg =>
    obtain ⟨place, carried, listed, hl⟩ := h.lists he
    obtain ⟨place', hl'⟩ :=
      hl.drops h.blocks (.giveBlock ht hg : ArenaState.Moves s (.step _ true) _)
    exact ⟨place', _, _, hl'⟩
  | freeBlock ht =>
    obtain ⟨place, carried, listed, hl⟩ := h.lists he
    obtain ⟨place', hl'⟩ := hl.drops h.blocks (.freeBlock ht : ArenaState.Moves s (.step _ true) _)
    exact ⟨place', _, _, hl'⟩
  | push ht hp =>
    obtain ⟨place, carried, listed, hl⟩ := h.lists he
    obtain ⟨place', hl'⟩ := hl.drops h.blocks (.push ht hp)
    exact ⟨place', _, _, hl'⟩

theorem of_reach {C : ArenaState → ArenaAct → Prop} (h : Arena.machine.Reach C s) : ArenaInv s := by
  refine h.invariant (fun s hs => ?_) fun _ _ _ _ hi _ hs => hi.step (ArenaState.moves_of_step hs)
  obtain ⟨cap, rfl⟩ := hs
  exact ⟨BlocksInv.start cap, fun _ => ListsInv.start cap⟩

theorem onChain (h : ArenaInv s) (hq : s.quiescent = true) {p : Addr}
    (hp : OnChain s.arena.next s.arena.fullList p) (hflag : s.arena.inFreeList p = true) :
    OnChain s.arena.nextFree s.arena.freeList p ∨
    OnChain s.arena.nextFree s.arena.pendingFreeList p := by
  obtain ⟨howner, hthreads⟩ := Bool.and_eq_true_iff.mp hq
  have howner := of_decide_eq_true howner
  obtain ⟨place, carried, listed, hl⟩ := h.lists (by rw [howner]; rfl)
  have hshape := hl.shape
  have hunlinked := hl.unlinked p
  rw [howner] at hshape hunlinked
  have hlisted := hl.listed p ((OnChain.iff_mem hl.full).mp hp)
  refine hl.circulates.onChain hflag (fun w hw => ?_) fun r hr => ?_
  · cases w with
    | none =>
      have := (hl.carries p).mp hw
      rw [show carried = [] from hshape] at this
      cases this
    | some t =>
      have hst := hl.stands t
      rw [of_decide_eq_true (Store.all_iff.mp hthreads t)] at hst
      have := (hst p).mp hw
      cases this
  · cases r with
    | fresh => exact hlisted.1 hr
    | unlinked =>
      have := hunlinked.mp hr
      cases this
    | gone => exact hlisted.2 hr

end ArenaInv

end MemoryPools
