import MemoryPools.ArenaLists

/-!
# The page counter of an arena

`npages` and `full_list` are written by different operations of the owner. Between
them the counter is off by the pages that are on their way in or out, which is enough
for the assertions of `alloc_new_page`, `shrink_to_fit` and `stats`.
-/

namespace MemoryPools

open Interleave

namespace Arena

def Covers (a : Arena) (l : List Addr) : Prop :=
  ∀ q < a.heap.size, (a.words q).2.getLsbD 63 = false → q ∈ l

def FindPc.Counts (a : Arena) (listed : List Addr) : FindPc → Prop
  | .linkLast n first _ _ =>
    listed.length = a.npages ∧
      ∃ l, Linked a.next (some first) l ∧ l.length = n ∧ a.Covers (l ++ listed)
  | .swapFull n first =>
    ∃ l, Linked a.next (some first) l ∧ l.length = a.npages + n ∧ a.Covers l
  | .setFree n _ => listed.length = a.npages + n ∧ a.Covers listed
  | .getFree | .acquire .. | .unlink _ | .clearInFree _ | .loadPending | .swapPending
  | .loadFull => listed.length = a.npages ∧ a.Covers listed

/-- From the walk over `full_list` on, the pages of `toDrop` are not counted on it. -/
def ShrinkPc.Counts (a : Arena) (listed : List Addr) : ShrinkPc → Prop
  | .takeFree | .walk .. | .walkNext .. | .walkBits .. | .walkCas .. =>
    listed.length = a.npages ∧ a.Covers listed
  | .full _ toDrop _ | .fullNext _ toDrop _ _ =>
    (listed.filter (· ∉ toDrop)).length + toDrop.length = a.npages ∧ a.Covers (toDrop ++ listed)
  | .fullCas _ toDrop _ value _ =>
    value ∈ toDrop ∧ (listed.filter (· ∉ toDrop)).length + toDrop.length = a.npages ∧
      a.Covers (toDrop ++ listed)
  | .recheck _ toDrop rest =>
    listed.length + toDrop.length = a.npages ∧ a.Covers (rest ++ listed)
  | .dropPage _ toDrop page rest .fetch =>
    listed.length + toDrop.length = a.npages ∧ a.Covers (page :: rest ++ listed)
  | .dropPage _ toDrop _ rest .deallocate =>
    listed.length + toDrop.length = a.npages ∧ a.Covers (rest ++ listed)
  | .restore _ toDrop => listed.length + toDrop.length = a.npages ∧ a.Covers listed

end Arena

def ArenaCall.Counts (a : Arena) (listed : List Addr) : ArenaCall → Prop
  | .idle => listed.length = a.npages ∧ a.Covers listed
  | .alloc pc => pc.Counts a listed
  | .shrink pc => pc.Counts a listed
  | .release _ | .released => True
  | .panicked => False

def CountInv (s : ArenaState) : Prop :=
  s.owner.ends = false → ∃ listed, Linked s.arena.next s.arena.fullList listed ∧
    s.owner.Counts s.arena listed

namespace Arena

variable {a a' : Arena} {l listed : List Addr}

theorem Covers.mono {l' : List Addr} (h : a.Covers l) (hsize : a'.heap.size = a.heap.size)
    (h63 : ∀ q, (a'.words q).2.getLsbD 63 = false → (a.words q).2.getLsbD 63 = false)
    (hl : ∀ q ∈ l, (a'.words q).2.getLsbD 63 = false → q ∈ l') : a'.Covers l' := by
  intro q hq hq63
  rw [hsize] at hq
  exact hl q (h q hq (h63 q hq63)) hq63

theorem Covers.congr (h : a.Covers l) (hsize : a'.heap.size = a.heap.size)
    (h63 : ∀ q, (a'.words q).2.getLsbD 63 = (a.words q).2.getLsbD 63) : a'.Covers l :=
  h.mono hsize (fun q hq => by rwa [h63] at hq) fun _ hq _ => hq

theorem dropPage_control {p : Addr} {pc : DropPagePc} {control : Control DropPagePc Unit}
    (h : a.dropPage p pc = (a', control)) :
    control = .ret () ∨ pc = .fetch ∧ control = .goto .deallocate := by
  obtain ⟨-, rfl⟩ := Prod.mk.inj h
  cases pc with
  | fetch =>
    simp only [PageArena.dropPage, PageOps.dropPage]
    split
    · exact Or.inr ⟨trivial, rfl⟩
    · exact Or.inl rfl
  | deallocate => exact Or.inl rfl

theorem Covers.setLinks {p : Addr} {x : PageArena} (h : a.Covers l)
    (hx : (x.bitfield, x.bitfieldAtomic) = a.words p) : (a.setPage p x).Covers l :=
  h.congr rfl fun _ => congrArg (fun w => w.2.getLsbD 63) (words_setPage_same hx)

end Arena

theorem ArenaCall.Counts.congr {a a' : Arena} {listed : List Addr} {owner : ArenaCall}
    (h : owner.Counts a listed) (hnpages : a'.npages = a.npages)
    (hsize : a'.heap.size = a.heap.size) (hnext : a'.next = a.next)
    (h63 : ∀ q, (a'.words q).2.getLsbD 63 = (a.words q).2.getLsbD 63) :
    owner.Counts a' listed := by
  have hcount : ∀ {n : Nat} {l : List Addr}, n = a.npages ∧ a.Covers l →
      n = a'.npages ∧ a'.Covers l :=
    fun h => ⟨h.1.trans hnpages.symm, h.2.congr hsize h63⟩
  cases owner with
  | idle => exact hcount h
  | release | released => trivial
  | panicked => exact h
  | alloc pc =>
    cases pc with
    | linkLast =>
      obtain ⟨h1, l, hl, hn, hc⟩ := h
      exact ⟨h1.trans hnpages.symm, l, hnext ▸ hl, hn, hc.congr hsize h63⟩
    | swapFull =>
      obtain ⟨l, hl, hn, hc⟩ := h
      exact ⟨l, hnext ▸ hl, by rw [hnpages]; exact hn, hc.congr hsize h63⟩
    | setFree => exact ⟨by rw [hnpages]; exact h.1, h.2.congr hsize h63⟩
    | getFree | acquire | unlink | clearInFree | loadPending | swapPending | loadFull =>
      exact hcount h
  | shrink pc =>
    cases pc with
    | dropPage start toDrop page rest pc =>
      cases pc with
      | fetch | deallocate => exact hcount h
    | fullCas => exact ⟨h.1, hcount h.2⟩
    | takeFree | walk | walkNext | walkBits | walkCas | full | fullNext | recheck | restore =>
      exact hcount h

namespace ListsInv

variable {s : ArenaState} {place : Addr → Place (Option Tid) Aside} {carried listed : List Addr}
  {arena : Arena}

theorem counts (h : ListsInv s place carried listed) (hc : CountInv s)
    (he : s.owner.ends = false) : s.owner.Counts s.arena listed := by
  obtain ⟨l, hl, hcount⟩ := hc he
  rwa [h.full.unique hl]

theorem lt_size (h : ListsInv s place carried listed) {q : Addr} (hq : place q ≠ .aside .fresh) :
    q < s.arena.heap.size :=
  Nat.lt_of_not_le fun hle => hq ((h.fresh q).mpr hle)

/-! ### `find_place` -/

theorem grow_counts (h : ListsInv s place carried listed) {n : Nat} (hpos : 0 < n)
    (hc : listed.length = s.arena.npages ∧ s.arena.Covers listed)
    (ha : arena = { s.arena with heap := (s.arena.heap.makeList PageArena.new n).1 }) :
    Linked arena.next arena.fullList listed ∧
      Arena.FindPc.Counts arena listed
        (.linkLast n (s.arena.heap.size + (n - 1)) s.arena.heap.size s.arena.fullList) := by
  have hold : ∀ q : Nat, q < s.arena.heap.size → arena.next q = s.arena.next q := by
    intro q hq
    rw [ha]
    exact (PageOps.links_makeList_old PageArena.ops PageArena.new n hq).2.1
  have hchain : Linked arena.next (some (s.arena.heap.size + (n - 1)))
      (downFrom s.arena.heap.size n) := by
    rw [ha, ← behind_pos hpos]
    exact (PageOps.linked_makeList PageArena.ops _ _ fun _ => rfl).2
  refine ⟨?_, ?_, downFrom s.arena.heap.size n, hchain, length_downFrom, ?_⟩
  · rw [show arena.fullList = s.arena.fullList by rw [ha]]
    apply h.full.congr
    intro q hq
    exact hold q (h.lt_size (h.listed q hq).1)
  · rw [hc.1, ha]
  · intro q hq h63
    rw [List.mem_append, mem_downFrom]
    by_cases hlt : q < s.arena.heap.size
    · right
      apply hc.2 q hlt
      rw [ha] at h63
      rcases Arena.words_makeList (a := s.arena) (n := n) (q := q) with e | ⟨hle, -⟩
      · rwa [e] at h63
      · exact absurd hlt (Nat.not_lt.mpr hle)
    · left
      rw [ha] at hq
      exact ⟨Nat.le_of_not_lt hlt, hq⟩

theorem alloc_counts (h : ListsInv s place carried listed) (ha : ArenaInv s) (hc : CountInv s)
    {pc : Arena.FindPc} (ho : s.owner = .alloc pc) {control : Control Arena.FindPc (Addr × Nat)}
    (hs : s.arena.findPlace pc = (arena, control)) : CountInv (s.afterAlloc arena control) := by
  have hcount := h.counts hc (by rw [ho]; rfl)
  have hshape := h.shape
  rw [ho] at hcount hshape
  cases pc with
  | getFree =>
    simp only [Arena.findPlace] at hs
    split at hs <;> obtain ⟨rfl, rfl⟩ := Prod.mk.inj hs
    · exact fun _ => ⟨listed, h.full, hcount⟩
    · exact fun _ => ⟨listed, h.full, hcount⟩
  | acquire p pc =>
    have hpanic : (PageArena.acquireFreeBlock (s.arena.page p) pc).2 ≠ .panic :=
      Arena.acquire_ne_panic (ha.blocks.split p).arenaBit
    have hp63 := (ha.acquires p pc ho).2
    simp only [Arena.findPlace] at hs
    obtain ⟨rfl, rfl⟩ := Prod.mk.inj hs
    generalize hx : (PageArena.acquireFreeBlock (s.arena.page p) pc).1 = x
    have hlinks : x.toPageLinks = (s.arena.page p).toPageLinks := hx ▸ Arena.links_acquire
    have hnext : (s.arena.setPage p x).next = s.arena.next :=
      Arena.next_setPage (congrArg PageLinks.next hlinks)
    have hfull : Linked (s.arena.setPage p x).next (s.arena.setPage p x).fullList listed := by
      rw [hnext]
      exact h.full
    have hcovers : (s.arena.setPage p x).Covers listed := by
      refine Arena.Covers.mono hcount.2 rfl (fun q hq => ?_) fun _ hq _ => hq
      by_cases e : q = p
      · rw [e, hp63]
      · rwa [Arena.words_setPage, if_neg e] at hq
    intro _
    refine ⟨listed, ?_, ?_⟩
    · cases hr : (PageArena.acquireFreeBlock (s.arena.page p) pc).2 with
      | goto pc' => exact hfull
      | ret r => cases r <;> exact hfull
      | panic => exact hfull
    · cases hr : (PageArena.acquireFreeBlock (s.arena.page p) pc).2 with
      | goto pc' => exact ⟨hcount.1, hcovers⟩
      | ret r => cases r <;> exact ⟨hcount.1, hcovers⟩
      | panic => exact absurd hr hpanic
  | unlink p =>
    obtain ⟨rfl, rfl⟩ := Prod.mk.inj hs
    exact fun _ => ⟨listed, h.full, hcount⟩
  | clearInFree p =>
    obtain ⟨rfl, rfl⟩ := Prod.mk.inj hs
    have hnext : (s.arena.setPage p { s.arena.page p with inFreeList := false }).next =
        s.arena.next := Arena.next_setPage rfl
    refine fun _ => ⟨listed, ?_, hcount.1, hcount.2.setLinks rfl⟩
    show Linked (s.arena.setPage p { s.arena.page p with inFreeList := false }).next _ _
    rw [hnext]
    exact h.full
  | loadPending =>
    obtain ⟨rfl, rfl⟩ := Prod.mk.inj hs
    split
    · exact fun _ => ⟨listed, h.full, hcount⟩
    · exact fun _ => ⟨listed, h.full, hcount⟩
  | swapPending =>
    obtain ⟨rfl, rfl⟩ := Prod.mk.inj hs
    exact fun _ => ⟨listed, h.full, hcount⟩
  | loadFull =>
    obtain ⟨rfl, rfl⟩ := Prod.mk.inj hs
    exact fun _ => ⟨listed, h.grow_counts (growth_pos _) hcount rfl⟩
  | linkLast n first last current =>
    obtain ⟨rfl, rfl⟩ := Prod.mk.inj hs
    obtain ⟨-, rfl, -, hnext, hlast, hnew⟩ := hshape
    obtain ⟨hlen, l, hl, hn, hcovers⟩ := hcount
    obtain rfl := hl.unique hnext
    have hnext' : (s.arena.setPage last { s.arena.page last with next := s.arena.fullList }).next =
        Function.update s.arena.next last s.arena.fullList := PageOps.next_set ..
    obtain ⟨hjoin, hfull⟩ := hnext.join hlast h.full hnew
    rw [← hnext'] at hjoin hfull
    refine fun _ => ⟨listed, hfull, _, hjoin, ?_, hcovers.setLinks rfl⟩
    rw [List.length_append, hlen, hn]
    exact Nat.add_comm _ _
  | swapFull n first =>
    obtain ⟨rfl, rfl⟩ := Prod.mk.inj hs
    obtain ⟨l, hl, hlen, hcovers⟩ := hcount
    exact fun _ => ⟨l, hl, hlen, hcovers⟩
  | setFree n first =>
    simp only [Arena.findPlace, hshape.1, ite_true] at hs
    obtain ⟨rfl, rfl⟩ := Prod.mk.inj hs
    exact fun _ => ⟨listed, h.full, hcount⟩

/-! ### `shrink_to_fit` -/

/-- The pages that leave the free list are on `full_list`. -/
theorem unlinked_listed (h : ListsInv s place carried listed) (hcovers : s.arena.Covers listed) :
    ∀ q ∈ s.owner.unlinked, q ∈ listed := by
  intro q hq
  have hplace := (h.unlinked q).mpr hq
  apply hcovers q
  · apply h.lt_size
    rw [hplace]
    simp
  · by_contra h63
    rw [h.given q (by simpa using h63)] at hplace
    cases hplace

theorem fullCas_counts (h : ListsInv s place carried listed) {start current nextValue : Ptr}
    {value : Addr} {toDrop : List Addr}
    (ho : s.owner = .shrink (.fullCas start toDrop current value nextValue))
    (hc : Arena.ShrinkPc.Counts s.arena listed (.fullCas start toDrop current value nextValue))
    {control : Control Arena.ShrinkPc Bool}
    (hs : s.arena.shrinkToFit (.fullCas start toDrop current value nextValue) = (arena, control)) :
    CountInv (s.afterShrink arena control) := by
  have hshape := h.shape
  rw [ho] at hshape
  obtain ⟨-, -, rfl, pre, rest, rfl, hw, -⟩ := hshape
  obtain ⟨hvalue, hlen, hcovers⟩ := hc
  have hread : readLink s.arena.next s.arena.fullList current = some value := hw.read
  have hlen' : ((pre ++ rest).filter (· ∉ toDrop)).length + toDrop.length = s.arena.npages := by
    rw [← hlen]
    simp [List.filter_append, hvalue]
  have hcovers' : ∀ q ∈ toDrop ++ (pre ++ value :: rest), q ∈ toDrop ++ (pre ++ rest) := by
    intro q hq
    by_cases e : q = value
    · simp [e, hvalue]
    · simpa [e] using hq
  simp only [Arena.shrinkToFit, hread, ite_true] at hs
  cases current with
  | none =>
    obtain ⟨rfl, rfl⟩ := Prod.mk.inj hs
    exact fun _ => ⟨pre ++ rest, hw.unlink_head.chain, hlen',
      hcovers.mono rfl (fun _ hq => hq) fun q hq _ => hcovers' q hq⟩
  | some c =>
    obtain ⟨rfl, rfl⟩ := Prod.mk.inj hs
    have hw' := hw.unlink.2
    have hnext : (s.arena.setPage c { s.arena.page c with next := s.arena.next value }).next =
        Function.update s.arena.next c (s.arena.next value) := PageOps.next_set ..
    rw [← hnext] at hw'
    have hcovers : s.arena.Covers (toDrop ++ (pre ++ rest)) :=
      hcovers.mono rfl (fun _ hq => hq) fun q hq _ => hcovers' q hq
    exact fun _ => ⟨pre ++ rest, hw'.chain, hlen', hcovers.setLinks rfl⟩

theorem dropPage_counts (h : ListsInv s place carried listed) (hb : BlocksInv s) {start : Ptr}
    {p : Addr} {toDrop rest : List Addr} {pc : DropPagePc}
    (hc : Arena.ShrinkPc.Counts s.arena listed (.dropPage start toDrop p rest pc))
    {control : Control Arena.ShrinkPc Bool}
    (hs : s.arena.shrinkToFit (.dropPage start toDrop p rest pc) = (arena, control)) :
    CountInv (s.afterShrink arena control) := by
  cases hd : s.arena.dropPage p pc with
  | mk a c =>
    have hw := fun q => Arena.words_dropPage (q := q) hd
    have hkeep : a.npages = s.arena.npages ∧ a.heap.size = s.arena.heap.size ∧
        Linked a.next a.fullList listed := by
      obtain ⟨rfl, -⟩ := Prod.mk.inj hd
      have hnext : ∀ x : PageArena, x.next = s.arena.next p →
          Linked (s.arena.setPage p x).next s.arena.fullList listed := by
        intro x hx
        rw [Arena.next_setPage hx]
        exact h.full
      cases pc with
      | fetch => exact ⟨rfl, rfl, hnext _ rfl⟩
      | deallocate => exact ⟨rfl, rfl, hnext _ rfl⟩
    obtain ⟨hnpages, hsize, hfull⟩ := hkeep
    have hcovers : a.Covers (rest ++ listed) := by
      cases pc with
      | fetch =>
        refine hc.2.mono hsize (fun q hq => ?_) fun q hq h63 => ?_
        · rw [hw] at hq
          split at hq
          · rw [BitVec.getLsbD_or] at hq
            rename_i e
            rw [e.2]
            exact (Bool.or_eq_false_iff.mp hq).1
          · exact hq
        · -- the arena's bit of the page that was given up is in the shared word now
          have hne : q ≠ p := by
            rintro rfl
            rw [hw, if_pos ⟨rfl, rfl⟩, BitVec.getLsbD_or, (hb.split q).arenaBit] at h63
            simp at h63
          simpa [hne] using hq
      | deallocate =>
        apply hc.2.congr hsize
        intro q
        rw [hw, if_neg fun e => by cases e.1]
    have hlen : listed.length + toDrop.length = a.npages := by
      rw [hnpages]
      cases pc with
      | fetch | deallocate => exact hc.1
    simp only [Arena.shrinkToFit, hd] at hs
    obtain ⟨rfl, rfl⟩ := Prod.mk.inj hs
    intro _
    rcases Arena.dropPage_control hd with rfl | ⟨rfl, rfl⟩
    · exact ⟨listed, hfull, hlen, hcovers⟩
    · exact ⟨listed, hfull, hlen, hcovers⟩

theorem shrink_counts (h : ListsInv s place carried listed) (hb : BlocksInv s) (hc : CountInv s)
    {pc : Arena.ShrinkPc} (ho : s.owner = .shrink pc) {control : Control Arena.ShrinkPc Bool}
    (hs : s.arena.shrinkToFit pc = (arena, control)) : CountInv (s.afterShrink arena control) := by
  have hcount := h.counts hc (by rw [ho]; rfl)
  have hshape := h.shape
  rw [ho] at hcount hshape
  cases pc with
  | takeFree =>
    obtain ⟨rfl, rfl⟩ := Prod.mk.inj hs
    exact fun _ => ⟨listed, h.full, hcount⟩
  | walk start current toDrop =>
    have hsub := h.unlinked_listed hcount.2
    have hnodup := h.nodup
    rw [ho] at hsub hnodup
    simp only [Arena.shrinkToFit] at hs
    split at hs <;> obtain ⟨rfl, rfl⟩ := Prod.mk.inj hs
    · exact fun _ => ⟨listed, h.full, hcount⟩
    · refine fun _ => ⟨listed, h.full, ?_, ?_⟩
      · exact (length_filter_not_mem h.full.nodup hnodup hsub).trans hcount.1
      · exact hcount.2.mono rfl (fun _ hq => hq) fun q hq _ => List.mem_append_right _ hq
  | walkNext start current value toDrop =>
    obtain ⟨rfl, rfl⟩ := Prod.mk.inj hs
    exact fun _ => ⟨listed, h.full, hcount⟩
  | walkBits start current value nextValue toDrop =>
    simp only [Arena.shrinkToFit] at hs
    split at hs <;> obtain ⟨rfl, rfl⟩ := Prod.mk.inj hs
    · exact fun _ => ⟨listed, h.full, hcount⟩
    · exact fun _ => ⟨listed, h.full, hcount⟩
  | walkCas start current value nextValue toDrop =>
    simp only [Arena.shrinkToFit] at hs
    split at hs
    · split at hs <;> obtain ⟨rfl, rfl⟩ := Prod.mk.inj hs
      · exact fun _ => ⟨listed, h.full, hcount⟩
      · rename_i c _
        have hnext : (s.arena.setPage c { s.arena.page c with nextFree := nextValue }).next =
            s.arena.next := Arena.next_setPage rfl
        refine fun _ => ⟨listed, ?_, hcount.1, hcount.2.setLinks rfl⟩
        show Linked (s.arena.setPage c { s.arena.page c with nextFree := nextValue }).next _ _
        rw [hnext]
        exact h.full
    · obtain ⟨rfl, rfl⟩ := Prod.mk.inj hs
      exact fun _ => ⟨listed, h.full, hcount⟩
  | full start toDrop current =>
    obtain ⟨-, -, pre, rest, rfl, hw, hpre⟩ := hshape
    have hread := hw.read
    cases rest with
    | nil =>
      simp only [Arena.shrinkToFit, hread, List.head?_nil] at hs
      obtain ⟨rfl, rfl⟩ := Prod.mk.inj hs
      -- the walk is over: no page of `toDrop` is left
      have hall : (pre ++ []).filter (· ∉ toDrop) = pre ++ [] := by
        rw [List.filter_eq_self]
        intro q hq
        simpa using hpre q (by simpa using hq)
      obtain ⟨hlen, hcovers⟩ := hcount
      rw [hall] at hlen
      exact fun _ => ⟨_, h.full, hlen, hcovers⟩
    | cons value rest =>
      simp only [Arena.shrinkToFit, hread, List.head?_cons] at hs
      obtain ⟨rfl, rfl⟩ := Prod.mk.inj hs
      exact fun _ => ⟨_, h.full, hcount⟩
  | fullNext start toDrop current value =>
    simp only [Arena.shrinkToFit] at hs
    split at hs <;> obtain ⟨rfl, rfl⟩ := Prod.mk.inj hs
    · rename_i hvalue
      exact fun _ => ⟨listed, h.full, hvalue, hcount⟩
    · exact fun _ => ⟨listed, h.full, hcount⟩
  | fullCas start toDrop current value nextValue => exact h.fullCas_counts ho hcount hs
  | recheck start toDrop rest =>
    cases rest with
    | nil =>
      obtain ⟨rfl, rfl⟩ := Prod.mk.inj hs
      exact fun _ => ⟨listed, h.full, hcount⟩
    | cons p rest =>
      have hunused := h.unused p (by rw [ho]; simp [ArenaCall.unlinked, Arena.ShrinkPc.unlinked])
      simp only [Arena.shrinkToFit, hunused, ite_true] at hs
      obtain ⟨rfl, rfl⟩ := Prod.mk.inj hs
      exact fun _ => ⟨listed, h.full, hcount⟩
  | dropPage start toDrop p rest pc => exact h.dropPage_counts hb hcount hs
  | restore start toDrop =>
    obtain ⟨hlen, hcovers⟩ := hcount
    have hle : toDrop.length ≤ s.arena.npages := by omega
    simp only [Arena.shrinkToFit, hle, ite_true] at hs
    obtain ⟨rfl, rfl⟩ := Prod.mk.inj hs
    refine fun _ => ⟨listed, h.full, ?_, hcovers⟩
    show listed.length = s.arena.npages - toDrop.length
    omega

end ListsInv

namespace CountInv

variable {s s' : ArenaState}

theorem owner_ne_panicked (h : CountInv s) : s.owner ≠ .panicked := by
  intro e
  obtain ⟨listed, -, hc⟩ := h (by rw [e]; rfl)
  rw [e] at hc
  exact hc

theorem thread (h : CountInv s) {arena : Arena} {handles : List (Addr × Nat)}
    {threads : Store DropThread} (hnpages : arena.npages = s.arena.npages)
    (hsize : arena.heap.size = s.arena.heap.size) (hfull : arena.fullList = s.arena.fullList)
    (hnext : arena.next = s.arena.next)
    (h63 : ∀ q, (arena.words q).2.getLsbD 63 = (s.arena.words q).2.getLsbD 63) :
    CountInv { s with arena, handles, threads } := by
  intro he
  obtain ⟨listed, hl, hc⟩ := h he
  refine ⟨listed, ?_, hc.congr hnpages hsize hnext h63⟩
  rw [hnext, hfull]
  exact hl

theorem thread_quiet (h : CountInv s) {arena : Arena} {threads : Store DropThread}
    (hnpages : arena.npages = s.arena.npages) (hsize : arena.heap.size = s.arena.heap.size)
    (hfull : arena.fullList = s.arena.fullList) (hnext : arena.next = s.arena.next)
    (hw : ∀ q, arena.words q = s.arena.words q) : CountInv { s with arena, threads } :=
  h.thread hnpages hsize hfull hnext fun q => by rw [hw]

theorem step (h : CountInv s) (ha : ArenaInv s) {a : ArenaAct} (hm : ArenaState.Moves s a s') :
    CountInv s' := by
  cases hm with
  | startAlloc ho | startShrink ho =>
    intro _
    have hc := h (by rw [ho]; rfl)
    rw [ho] at hc
    exact hc
  | startRelease => exact fun he => by cases he
  | alloc ho hs =>
    obtain ⟨place, carried, listed, hl⟩ := ha.lists (by rw [ho]; rfl)
    exact hl.alloc_counts ha h ho hs
  | shrink ho hs =>
    obtain ⟨place, carried, listed, hl⟩ := ha.lists (by rw [ho]; rfl)
    exact hl.shrink_counts ha.blocks h ho hs
  | @release pc arena control ho hs =>
    have hpanic : control ≠ .panic := (Prod.mk.inj hs).2 ▸ Arena.release_ne_panic
    intro he
    cases control with
    | goto | ret => cases he
    | panic => exact absurd rfl hpanic
  | startDrop => exact h.thread rfl rfl rfl rfl fun _ => rfl
  | @giveBlock t upgraded p i page last ht hg =>
    obtain ⟨rfl, rfl⟩ := Prod.mk.inj hg
    have hlive : s.Live p i := Or.inr ⟨t, handOf_get ht⟩
    have hi := ha.blocks.index p i hlive
    have hclear : (s.arena.page p).bitfieldAtomic.getLsbD i = false :=
      (ha.blocks.clear p i hlive).2.1
    refine h.thread rfl rfl rfl (Arena.next_setPage rfl) fun q => ?_
    by_cases e : q = p
    · rw [Arena.words_setPage, if_pos e, e]
      show ((s.arena.page p).bitfieldAtomic + bit i).getLsbD 63 = _
      rw [getLsbD_add_bit hi hclear]
      have hne : i ≠ 63 := by omega
      simp [hne, Arena.words]
    · rw [Arena.words_setPage, if_neg e]
  | freeBlock ht =>
    exact h.thread_quiet rfl rfl rfl (Arena.next_setPage (a := s.arena) rfl) fun q =>
      Arena.words_setPage_same (a := s.arena) rfl
  | @push t upgraded p i pc links pending control ht hp =>
    have hnext : (s.arena.setPage p { s.arena.page p with toPageLinks := links }).next =
        s.arena.next := Arena.next_setPage (PageLinks.next_push hp)
    exact h.thread_quiet rfl rfl rfl hnext fun q => Arena.words_setPage_same (a := s.arena) rfl

theorem start (cap : Nat) : CountInv (.start cap) := by
  have hchain := (PageOps.linked_makeList PageArena.ops (pagesFor cap) Heap.empty
    fun p => (rfl : PageArena.ops.links (PageArena.new p) = _)).2
  rw [behind_pos (pagesFor_pos cap)] at hchain
  refine fun _ => ⟨downFrom 0 (pagesFor cap), hchain, length_downFrom, fun q hq _ => ?_⟩
  exact mem_downFrom.mpr ⟨Nat.zero_le q, hq⟩

theorem of_reach {C : ArenaState → ArenaAct → Prop} (h : Arena.machine.Reach C s) :
    CountInv s := by
  apply h.invariant
  · intro s hs
    obtain ⟨cap, rfl⟩ := hs
    exact start cap
  · intro s a s' hr hi _ hs
    exact hi.step (ArenaInv.of_reach hr) (ArenaState.moves_of_step hs)

end CountInv

end MemoryPools
