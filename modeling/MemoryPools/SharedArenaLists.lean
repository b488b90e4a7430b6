import MemoryPools.SharedArenaPlaces
import MemoryPools.SharedArenaGuard

/-!
# The lists of a shared arena

A thread holds a chain of linked pages and a bag of loose ones. In every run whose
successful `compare_exchange` on `free_list` installs the link that the page has at
that time, every page is in one place.
-/

namespace MemoryPools

open Interleave

namespace SharedArena

variable {a : SharedArena} {p : Addr} {x : PageSharedArena}

def lists (a : SharedArena) : Lists where
  nextFree := a.nextFree
  next := a.next
  inFreeList := a.inFreeList
  free := a.freeList
  pending := a.pendingFreeList
  full := a.fullList
  toFree := a.toFree
  size := a.heap.size
  freed := a.heap.freed

theorem lists_setPage : (a.setPage p x).lists = { a.lists with
    nextFree := Function.update a.nextFree p x.nextFree
    next := Function.update a.next p x.next
    inFreeList := Function.update a.inFreeList p x.inFreeList } := by
  unfold lists nextFree next inFreeList
  simp only [setPage, PageOps.nextFree_set, PageOps.next_set, PageOps.inFreeList_set, Heap.size_set,
    Heap.freed_set]
  rfl

theorem lists_setPage_same (h : x.toPageLinks = (a.page p).toPageLinks) :
    (a.setPage p x).lists = a.lists := by
  rw [lists_setPage, h]
  show ({ a.lists with
    nextFree := Function.update a.nextFree p (a.nextFree p)
    next := Function.update a.next p (a.next p)
    inFreeList := Function.update a.inFreeList p (a.inFreeList p) } : Lists) = _
  simp only [Function.update_eq_self]
  rfl

theorem lists_writeFree {c : Ptr} : (a.setPage p { a.page p with nextFree := c }).lists =
    { a.lists with nextFree := Function.update a.lists.nextFree p c } := by
  rw [lists_setPage]
  show ({ a.lists with
    nextFree := Function.update a.nextFree p c
    next := Function.update a.next p (a.next p)
    inFreeList := Function.update a.inFreeList p (a.inFreeList p) } : Lists) = _
  simp only [Function.update_eq_self]
  rfl

theorem lists_writeNext {c : Ptr} : (a.setPage p { a.page p with next := c }).lists =
    { a.lists with next := Function.update a.lists.next p c } := by
  rw [lists_setPage]
  show ({ a.lists with
    nextFree := Function.update a.nextFree p (a.nextFree p)
    next := Function.update a.next p c
    inFreeList := Function.update a.inFreeList p (a.inFreeList p) } : Lists) = _
  simp only [Function.update_eq_self]
  rfl

theorem lists_writeFlag {b : Bool} : (a.setPage p { a.page p with inFreeList := b }).lists =
    { a.lists with inFreeList := Function.update a.lists.inFreeList p b } := by
  rw [lists_setPage]
  show ({ a.lists with
    nextFree := Function.update a.nextFree p (a.nextFree p)
    next := Function.update a.next p (a.next p)
    inFreeList := Function.update a.inFreeList p b } : Lists) = _
  simp only [Function.update_eq_self]
  rfl

end SharedArena

/-! ## What the threads hold -/

namespace SharedArena

def PutPc.Shape (v : Lists) (listed : List Addr) (first last : Addr) (chain : List Addr) :
    PutPc → Prop
  | .loadFull | .storeNext _ =>
    Linked v.nextFree (some first) chain ∧ Linked v.next (some first) chain ∧
      chain.getLast? = some last ∧
      ∀ q ∈ chain, q ∉ listed
  | .swapFull _ =>
      Linked v.nextFree (some first) chain ∧ Linked v.next (some first) (chain ++ listed)
  | .loadFree | .swapFree => Linked v.nextFree (some first) chain
  | .addPages => chain = []

structure Relinked (v : Lists) (listed chain bag kept reinsert free next : List Addr) : Prop where
  chain : chain = reinsert
  bag : bag = kept
  free : ∃ l, reinsert = l ++ free ∧ LinkedUpTo v.nextFree l free
  next : ∃ l, reinsert = l ++ next ∧ LinkedUpTo v.next l next
  unlisted : ∀ q ∈ reinsert ++ kept, q ∉ listed

def TakePc.Shape (v : Lists) (listed chain bag : List Addr) : TakePc → Prop
  | .swapToFree | .storeDelay _ => chain = [] ∧ bag = []
  | .loadPages l => chain = [] ∧ bag = l ∧ ∀ q ∈ bag, q ∉ listed
  | .linkFree kept reinsert rest => Relinked v listed chain bag kept reinsert rest rest
  | .link kept reinsert rest => Relinked v listed chain bag kept reinsert rest.tail rest
  | .setInFree kept reinsert rest =>
    Relinked v listed chain bag kept reinsert rest.tail rest.tail ∧ ∀ q ∈ rest, q ∈ reinsert
  | .put kept _ first last pc =>
      bag = kept ∧ pc.Shape v listed first last chain ∧ ∀ q ∈ bag, q ∉ listed
  | .storeToFree kept => chain = [] ∧ bag = kept ∧ ∀ q ∈ bag, q ∉ listed

def MaybePc.Shape (place : Addr → Place Tid Shelf) (listed chain bag : List Addr) : MaybePc → Prop
  | .dropPage p rest .fetch => chain = [] ∧ bag = p :: rest ∧ ∀ q ∈ bag, q ∉ listed
  | .dropPage p rest .deallocate =>
      chain = [] ∧ bag = rest ∧ (∀ q ∈ bag, q ∉ listed) ∧ place p = .aside .gone
  | _ => chain = [] ∧ bag = []

def FindPc.Shape (v : Lists) (place : Addr → Place Tid Shelf) (listed chain bag : List Addr) :
    FindPc → Prop
  | .clearInFree p => chain = [] ∧ bag = [p]
  | .swapFree pending => Linked v.nextFree pending chain ∧ bag = []
  | .maybeFree _ pc => pc.Shape place listed chain bag
  | .take pc => pc.Shape v listed chain bag
  | .put _ first last pc => pc.Shape v listed first last chain ∧ bag = []
  | _ => chain = [] ∧ bag = []

def ShrinkPc.Shape (v : Lists) (listed chain bag : List Addr) : ShrinkPc → Prop
  | .loadPages start | .restore start _ => Linked v.nextFree start chain ∧ bag = []
  | .walk start current toDrop =>
      bag = toDrop ∧ ∃ pre rest, chain = pre ++ rest ∧ Walk v.nextFree start current pre rest
  | .walkNext start current value toDrop =>
    bag = toDrop ∧ ∃ pre rest, chain = pre ++ value :: rest ∧ Walk v.nextFree start current pre
      (value :: rest)
  | .walkBits start current value nextValue toDrop
  | .walkCas start current value nextValue toDrop =>
    bag = toDrop ∧ nextValue = v.nextFree value ∧
      ∃ pre rest, chain = pre ++ value :: rest ∧ Walk v.nextFree start current pre (value :: rest)
  | .retain start kept page rest => bag = kept ++ page :: rest ∧ Linked v.nextFree start chain
  | .full start toDrop current =>
    bag = toDrop ∧ Linked v.nextFree start chain ∧
      ∃ pre rest, listed = pre ++ rest ∧ Walk v.next v.full current pre rest ∧ ∀ q ∈ pre, q ∉ toDrop
  | .fullNext start toDrop current value =>
    bag = toDrop ∧ Linked v.nextFree start chain ∧
      ∃ pre rest, listed = pre ++ value :: rest ∧ Walk v.next v.full current pre (value :: rest) ∧
        ∀ q ∈ pre, q ∉ toDrop
  | .fullCas start toDrop current value nextValue =>
    bag = toDrop ∧ Linked v.nextFree start chain ∧ nextValue = v.next value ∧
      ∃ pre rest, listed = pre ++ value :: rest ∧ Walk v.next v.full current pre (value :: rest) ∧
        ∀ q ∈ pre, q ∉ toDrop
  | .storeDelay start toDrop | .swapToFree start toDrop =>
    bag = toDrop ∧ Linked v.nextFree start chain ∧ ∀ q ∈ bag, q ∉ listed
  | .storeToFree start _ toFree =>
      bag = toFree ∧ Linked v.nextFree start chain ∧ ∀ q ∈ bag, q ∉ listed
  | _ => chain = [] ∧ bag = []

end SharedArena

namespace SharedCall

def Shape (v : Lists) (place : Addr → Place Tid Shelf) (listed chain bag : List Addr) :
    SharedCall → Prop
  | .alloc pc => pc.Shape v place listed chain bag
  | .shrink pc => pc.Shape v listed chain bag
  | .drop p _ pc =>
      chain = [] ∧ bag = pc.cargo p ∧ ∀ current, pc = .push (.casPending current) →
        v.nextFree p = current
  | .idle | .panicked => chain = [] ∧ bag = []

def Stands (v : Lists) (place : Addr → Place Tid Shelf) (listed : List Addr) (t : Tid)
    (c : SharedCall) : Prop :=
  ∃ chain bag, Holds place t (chain ++ bag) ∧ c.Shape v place listed chain bag

end SharedCall

section
variable {strict : Prop} {t u : Tid} {writes : Bool} {v v' : Lists}
  {place place' : Addr → Place Tid Shelf}
  {listed listed' chain bag held : List Addr} {c : SharedCall}

open SharedArena

theorem SharedArena.PutPc.Shape.congr {pc : PutPc} {first last : Addr}
    (h : pc.Shape v listed first last chain) (hn : ∀ q ∈ chain, v'.nextFree q = v.nextFree q)
    (hnext : v'.next = v.next) :
    pc.Shape v' listed first last chain := by
  cases pc with
  | loadFull | storeNext => exact ⟨h.1.congr hn, by rw [hnext]; exact h.2.1, h.2.2⟩
  | swapFull => exact ⟨h.1.congr hn, by rw [hnext]; exact h.2⟩
  | loadFree | swapFree => exact Linked.congr hn h
  | addPages => exact h

theorem SharedArena.Relinked.congr {kept reinsert free next : List Addr}
    (h : Relinked v listed chain bag kept reinsert free next)
    (hn : ∀ q ∈ chain, v'.nextFree q = v.nextFree q) (hnext : v'.next = v.next) :
    Relinked v' listed chain bag kept reinsert free next := by
  obtain ⟨hc, hb, ⟨l, hl, hf⟩, hx, hu⟩ := h
  refine ⟨hc, hb, ⟨l, hl, hf.congr fun q hq => hn q ?_⟩, by rw [hnext]; exact hx, hu⟩
  rw [hc, hl]; simp [hq]

/-- What another thread does leaves a thread where it stands. -/
theorem SharedCall.Shape.frame (h : c.Shape v place listed chain bag)
    (hm : Moved strict t writes v v' place place' listed listed') (hu : u ≠ t)
    (hh : Holds place u (chain ++ bag)) (hw : c.writes = true → writes = false) :
    c.Shape v' place' listed' chain bag := by
  have hn : ∀ q ∈ chain ++ bag, v'.nextFree q = v.nextFree q :=
    fun q hq => hm.nextFree u hu q (hh.mem hq)
  have hc : ∀ q ∈ chain, v'.nextFree q = v.nextFree q := fun q hq => hn q (by simp [hq])
  have hb : (∀ q ∈ bag, q ∉ listed) → ∀ q ∈ bag, q ∉ listed' :=
    fun hq q hq' hl => hq q hq' (hm.unlisted u hu q (hh.mem (by simp [hq'])) hl)
  have hquiet : c.writes = true → v'.full = v.full ∧ v'.next = v.next ∧ listed' = listed :=
    fun e => hm.quiet (hw e)
  cases c with
  | idle | panicked => exact h
  | drop p i pc =>
    obtain ⟨h1, h2, h3⟩ := h
    refine ⟨h1, h2, fun current e => ?_⟩
    subst e
    rw [hn p (by rw [h2]; simp [DropPc.cargo, PushPc.cargo, PushPc.inTransit])]
    exact h3 _ rfl
  | alloc pc =>
    cases pc with
    | swapFree => exact ⟨h.1.congr hc, h.2⟩
    | maybeFree guarded pc =>
      cases pc with
      | dropPage p rest pc =>
        cases pc with
        | fetch => exact ⟨h.1, h.2.1, hb h.2.2⟩
        | deallocate => exact ⟨h.1, h.2.1, hb h.2.2.1, hm.gone p h.2.2.2⟩
      | loadDelay | fetchAdd | swapToFree => exact h
    | take pc =>
      obtain ⟨hfull, hnext, rfl⟩ := hquiet rfl
      cases pc with
      | swapToFree | loadPages | storeToFree | storeDelay => exact h
      | linkFree => exact Relinked.congr h hc hnext
      | link => exact Relinked.congr h hc hnext
      | setInFree => exact ⟨Relinked.congr h.1 hc hnext, h.2⟩
      | put => exact ⟨h.1, h.2.1.congr hc hnext, h.2.2⟩
    | put =>
      obtain ⟨hfull, hnext, rfl⟩ := hquiet rfl
      exact ⟨h.1.congr hc hnext, h.2⟩
    | loadFree | acquire | loadNext | casFree | clearInFree | loadWriter | swapWriter
    | loadContended | recheckFree
      | loadPending | swapPending | loadToFree | loadPages | unlock => exact h
  | shrink pc =>
    have hwalk : ∀ {start current : Ptr} {pre rest : List Addr}, chain = pre ++ rest →
        Walk v.nextFree start current pre rest → Walk v'.nextFree start current pre rest := by
      intro start current pre rest e hw
      exact hw.congr fun q hq => hc q (e ▸ hq)
    cases pc with
    | loadPages | restore => exact ⟨h.1.congr hc, h.2⟩
    | walk | walkNext =>
      obtain ⟨h1, pre, rest, e, hw⟩ := h
      exact ⟨h1, pre, rest, e, hwalk e hw⟩
    | walkBits start current value | walkCas start current value =>
      obtain ⟨h1, h2, pre, rest, e, hw⟩ := h
      exact ⟨h1, h2.trans (hc value (by simp [e])).symm, pre, rest, e, hwalk e hw⟩
    | retain => exact ⟨h.1, h.2.congr hc⟩
    | full | fullNext =>
      obtain ⟨hfull, hnext, rfl⟩ := hquiet rfl
      obtain ⟨h1, h2, h3⟩ := h
      exact ⟨h1, h2.congr hc, by rw [hfull, hnext]; exact h3⟩
    | fullCas =>
      obtain ⟨hfull, hnext, rfl⟩ := hquiet rfl
      obtain ⟨h1, h2, h3⟩ := h
      exact ⟨h1, h2.congr hc, by rw [hfull, hnext]; exact h3⟩
    | storeDelay | swapToFree | storeToFree => exact ⟨h.1, h.2.1.congr hc, hb h.2.2⟩
    | swapShrinking | swapWriter | swapFree | subPages | clearShrinking | unlock => exact h

theorem SharedCall.Stands.frame (h : c.Stands v place listed u)
    (hm : Moved strict t writes v v' place place' listed listed') (hu : u ≠ t)
    (hw : c.writes = true → writes = false) : c.Stands v' place' listed' u := by
  obtain ⟨chain, bag, hh, hs⟩ := h
  exact ⟨chain, bag, ⟨fun q => (hm.held u hu q).trans (hh.carries q), hh.nodup⟩,
    hs.frame hm hu hh hw⟩

def Arrives (strict : Prop) (t : Tid) (writes : Bool) (v v' : Lists)
    (place : Addr → Place Tid Shelf) (listed : List Addr) (c : SharedCall) : Prop :=
  ∃ place' listed', Placed v' place' listed' ∧ Moved strict t writes v v' place place'
    listed listed' ∧
    c.Stands v' place' listed' t

theorem Outcome.arrives (h : Outcome strict t writes v v' place listed held place' listed')
    (chain bag : List Addr) (hp : held.Perm (chain ++ bag))
    (hs : c.Shape v' place' listed' chain bag) : Arrives strict t writes v v' place listed c :=
  ⟨place', listed', h.placed, h.moved, chain, bag, h.holds.perm hp, hs⟩

theorem Placed.stay (h : Placed v place listed) (ht : Holds place t (chain ++ bag))
    (hs : c.Shape v place listed chain bag) :
    Arrives strict t writes v v place listed c :=
  ⟨place, listed, h, .refl, chain, bag, ht, hs⟩

end

namespace SharedArena

variable {strict : Prop} {t : Tid} {a a' : SharedArena} {place : Addr → Place Tid Shelf}
  {listed chain bag : List Addr}

/-! ## New pages -/

theorem putPages_lists (n : Nat) {first last : Addr} {pc : PutPc}
    (h : Placed a.lists place listed) (ht : Holds place t (chain ++ bag)) (hk : pc.Knows a)
    (hs : pc.Shape a.lists listed first last chain) (hb : ∀ q ∈ bag, q ∉ listed) :
    ∃ chain' place' listed',
      Outcome strict t true a.lists (a.putPages n first last pc).1.lists place listed
      (chain' ++ bag) place' listed' ∧
      (∀ q ∈ bag, q ∉ listed') ∧ match (a.putPages n first last pc).2 with
        | .goto pc' => pc'.Shape (a.putPages n first last pc).1.lists listed' first last chain'
        | .ret () => chain' = []
        | .panic => False := by
  cases pc with
  | loadFull => exact ⟨chain, place, listed, ⟨h, .refl, ht⟩, hb, hs⟩
  | storeNext current =>
    obtain ⟨hfree, hnext, hlast, hnew⟩ := hs
    obtain ⟨-, rfl⟩ := hk
    obtain ⟨hjoin, hfull⟩ := hnext.join hlast h.full hnew
    refine ⟨chain, place, listed, ?_, hb, ?_⟩
    · show Outcome strict t true a.lists (a.setPage last _).lists _ _ _ _ _
      rw [lists_writeNext]
      exact h.setFull ht hfull fun q hq => Or.inl hq
    · show PutPc.Shape (a.setPage last _).lists _ _ _ _ (.swapFull _)
      rw [lists_writeNext]
      exact ⟨hfree, hjoin⟩
  | swapFull current =>
    obtain ⟨hfree, hnext⟩ := hs
    have hcurrent : current = a.fullList := hk.2
    have hnot : ∀ q ∈ bag, q ∉ chain :=
      fun q hq hq' => (List.nodup_append.mp ht.nodup).2.2 q hq' q hq rfl
    refine ⟨chain, place, chain ++ listed, h.setFull ht hnext fun q hq => ?_,
      fun q hq hq' => ?_, ?_⟩
    · rcases List.mem_append.mp hq with hq | hq
      · exact Or.inr (by simp [hq])
      · exact Or.inl hq
    · rcases List.mem_append.mp hq' with hq' | hq'
      · exact hnot q hq hq'
      · exact hb q hq hq'
    · simp only [putPages, hcurrent, ite_true]
      exact hfree
  | loadFree =>
    have hf : a.freeList = none := hk
    refine ⟨chain, place, listed, ⟨h, .refl, ht⟩, hb, ?_⟩
    simp only [putPages, hf, ite_true]
    exact hs
  | swapFree =>
    have hf : a.freeList = none := hk
    refine ⟨[], _, listed, h.giveFree ht hf hs, hb, ?_⟩
    simp only [putPages, hf, ite_true]
    rfl
  | addPages => exact ⟨chain, place, listed, ⟨h, .refl, ht⟩, hb, hs⟩

/-! ## Parked pages -/

theorem linkFrom_shape {v : Lists} {kept reinsert rest : List Addr} (hne : reinsert ≠ [])
    (h : Relinked v listed chain bag kept reinsert rest rest) :
    ∃ pc, linkFrom kept reinsert rest = .goto pc ∧ pc.Shape v listed chain bag := by
  cases rest with
  | cons p rest => exact ⟨_, rfl, h⟩
  | nil =>
    obtain ⟨rfl, rfl, ⟨l, hl, hfree⟩, ⟨l', hl', hnext⟩, hu⟩ := h
    rw [List.append_nil] at hl hl'
    rw [← hl] at hfree
    rw [← hl'] at hnext
    cases chain with
    | nil => exact absurd rfl hne
    | cons q chain =>
      cases hlast : (q :: chain).getLast? with
      | none => simp at hlast
      | some last =>
        refine ⟨.put bag (q :: chain) q last .loadFull, ?_, rfl,
          ⟨hfree.linked, hnext.linked, hlast, fun r hr => hu r (by simp_all)⟩,
            fun r hr => hu r (by simp [hr])⟩
        unfold linkFrom
        rw [hlast]
        rfl

theorem lists_setInFree {l : List Addr} {p : Addr} (h : Placed a.lists place listed)
    (ht : Holds place t l) (hp : p ∈ l) :
    (a.setPage p { a.page p with inFreeList := true }).lists = a.lists := by
  have hflag : a.inFreeList p = true := by
    by_contra hne
    have hout := (h.circulates.out p).mp (Bool.eq_false_iff.mpr hne)
    rw [ht.mem hp] at hout; cases hout
  exact lists_setPage_same
    (congrArg (fun b => { (a.page p).toPageLinks with inFreeList := b }) hflag.symm)

theorem takePages_arrives {pc : TakePc} (h : Placed a.lists place listed)
    (ht : Holds place t (chain ++ bag)) (hk : pc.Knows a) (hs : pc.Shape a.lists listed chain bag) :
    Arrives strict t true a.lists (a.takePages pc).1.lists place listed
    (.afterAlloc (match (a.takePages pc).2 with
      | .goto pc => .goto (.take pc)
      | .ret () => .goto .unlock
      | .panic => .panic)) := by
  cases pc with
  | swapToFree =>
    obtain ⟨rfl, rfl⟩ := hs
    have hl := h.parked_unlisted
    apply (h.takeToFree ht).arrives [] (a.toFree.getD []) (by simp [lists])
    cases htf : a.toFree with
    | none => simp only [takePages, htf]; exact ⟨rfl, rfl⟩
    | some l =>
      simp only [takePages, htf]
      refine ⟨rfl, rfl, fun q hq => hl q ?_⟩
      simpa [lists, htf] using hq
  | loadPages l =>
    obtain ⟨rfl, rfl, hl⟩ := hs
    obtain ⟨-, -, hne⟩ := hk
    have hpos := List.length_pos_iff.mpr hne
    have hdrop : bag.drop (bag.length - max a.npages 1) ≠ [] := by
      rw [Ne, List.drop_eq_nil_iff]
      omega
    have hmem : ∀ q ∈ bag.drop (bag.length - max a.npages 1) ++ bag.take
      (bag.length - max a.npages 1), q ∉ listed := by
      intro q hq
      rcases List.mem_append.mp hq with hq | hq
      · exact hl q (List.mem_of_mem_drop hq)
      · exact hl q (List.mem_of_mem_take hq)
    have hr : Relinked a.lists listed (bag.drop (bag.length - max a.npages 1))
      (bag.take (bag.length - max a.npages 1))
        _ _ _ _ := ⟨rfl, rfl, ⟨[], rfl, trivial⟩, ⟨[], rfl, trivial⟩, hmem⟩
    obtain ⟨pc', he, hshape⟩ := linkFrom_shape hdrop hr
    have hperm : ([] ++ bag).Perm
        (bag.drop (bag.length - max a.npages 1) ++ bag.take (bag.length - max a.npages 1)) := by
      rw [List.nil_append]
      exact (List.perm_append_comm.trans (by rw [List.take_append_drop])).symm
    simp only [takePages, he]
    exact h.stay (ht.perm hperm) hshape
  | linkFree kept reinsert rest =>
    obtain ⟨rfl, rfl, ⟨l, hl, hfree⟩, hnext, hu⟩ := hs
    cases rest with
    | nil => exact absurd rfl hk.2.2.2
    | cons p rest =>
      have hp : p ∉ l := by
        have := (List.nodup_append.mp ht.nodup).1
        rw [hl] at this
        exact fun hp => (List.nodup_append.mp this).2.2 p hp p (by simp) rfl
      show Arrives strict t true a.lists (a.setPage p _).lists _ _ _
      rw [lists_writeFree]
      exact (h.writeFree ht (by simp [hl]) _).arrives _ _ (.refl _)
        ⟨rfl, rfl, ⟨l ++ [p], by simp [hl], hfree.write hp⟩, hnext, hu⟩
  | link kept reinsert rest =>
    obtain ⟨rfl, rfl, hfree, ⟨l, hl, hnext⟩, hu⟩ := hs
    cases rest with
    | nil => exact absurd rfl hk.2.2.2
    | cons p rest =>
      have hp : p ∉ l := by
        have := (List.nodup_append.mp ht.nodup).1
        rw [hl] at this
        exact fun hp => (List.nodup_append.mp this).2.2 p hp p (by simp) rfl
      have hfull : Linked (Function.update a.lists.next p rest.head?) a.lists.full listed :=
        h.full.update (hu p (by simp [hl]))
      show Arrives strict t true a.lists (a.setPage p _).lists _ _ _
      rw [lists_writeNext]
      exact (h.setFull ht hfull fun q hq => Or.inl hq).arrives _ _ (.refl _)
        ⟨⟨rfl, rfl, hfree, ⟨l ++ [p], by simp [hl], hnext.write hp⟩, hu⟩,
          fun q hq => by rw [hl]; simp_all⟩
  | setInFree kept reinsert rest =>
    cases rest with
    | nil => exact absurd rfl hk.2.2.2
    | cons p rest =>
      obtain ⟨hr, hmem⟩ : Relinked a.lists listed chain bag kept reinsert rest rest ∧ _ := hs
      have hp : p ∈ chain := hr.chain ▸ hmem p (by simp)
      obtain ⟨pc', he, hshape⟩ := linkFrom_shape hk.2.2.1 hr
      show Arrives strict t true a.lists (a.setPage p _).lists _ _ _
      rw [lists_setInFree h ht (by simp [hp])]
      simp only [takePages, he]
      exact h.stay ht hshape
  | put kept reinsert first last pc =>
    obtain ⟨rfl, hs, hb⟩ := hs
    obtain ⟨chain', place', listed', hout, hb', hc⟩ :=
      putPages_lists reinsert.length h ht hk.1 hs hb
    apply hout.arrives _ _ (.refl _)
    simp only [takePages]
    cases hcontrol : (a.putPages reinsert.length first last pc).2 with
    | goto pc' =>
      rw [hcontrol] at hc
      exact ⟨rfl, hc, hb'⟩
    | ret =>
      rw [hcontrol] at hc
      obtain rfl : chain' = [] := hc
      by_cases hbag : bag = []
      · subst hbag; exact ⟨rfl, rfl⟩
      · simp only [hbag, ne_eq, not_false_eq_true, ite_true]
        exact ⟨rfl, rfl, hb'⟩
    | panic =>
      rw [hcontrol] at hc
      exact hc.elim
  | storeToFree kept =>
    obtain ⟨rfl, rfl, hb⟩ := hs
    obtain ⟨htf, -⟩ := hk
    have ht' : Holds place t (bag ++ []) := by simpa using ht
    simp only [takePages, htf, ite_true]
    exact (h.storeToFree ht' htf hb).arrives _ _ (.refl _) ⟨rfl, rfl⟩
  | storeDelay delay => exact h.stay ht hs

/-! ## Deallocation -/

theorem dropPages_shape {rest : List Addr} (hb : ∀ q ∈ rest, q ∉ listed) :
    dropPages rest = .ret () ∧ rest = [] ∨ ∃ pc, dropPages rest = .goto pc ∧ pc.Shape place listed
    [] rest := by
  cases rest with
  | nil => exact Or.inl ⟨rfl, rfl⟩
  | cons p rest => exact Or.inr ⟨_, rfl, rfl, rfl, hb⟩

theorem dropPages_after {guarded : Bool} {rest : List Addr} {v : Lists}
    (hb : ∀ q ∈ rest, q ∉ listed) :
    SharedCall.Shape v place listed [] rest (.afterAlloc (match dropPages rest with
      | .goto pc => .goto (.maybeFree guarded pc)
      | .ret () => .goto (if guarded then .unlock else .loadFree)
      | .panic => .panic)) := by
  rcases dropPages_shape hb with ⟨e, rfl⟩ | ⟨pc', e, hshape⟩
  · rw [e]
    cases guarded <;> exact ⟨rfl, rfl⟩
  · rw [e]
    exact hshape

/-- `drop_page` gives the page up, whether a handle keeps it or not. -/
theorem fetch_gone {guarded writes : Bool} {p : Addr} {rest : List Addr}
    (h : Placed a.lists place listed) (ht : Holds place t (p :: rest))
    (hb : ∀ q ∈ p :: rest, q ∉ listed) :
    Outcome strict t writes a.lists (a.maybeFreePages (.dropPage p rest .fetch)).1.lists place listed
      rest (relocate place [p] (.aside .gone)) listed ∧
    SharedCall.Shape (a.maybeFreePages (.dropPage p rest .fetch)).1.lists
      (relocate place [p] (.aside .gone)) listed [] rest
      (.afterAlloc (match (a.maybeFreePages (.dropPage p rest .fetch)).2 with
        | .goto pc => .goto (.maybeFree guarded pc)
        | .ret () => .goto (if guarded then .unlock else .loadFree)
        | .panic => .panic)) := by
  have hlists : (a.dropPage p .fetch).1.lists = a.lists := lists_setPage_same rfl
  have hrest : ∀ q ∈ rest, q ∉ listed := fun q hq => hb q (by simp [hq])
  simp only [maybeFreePages]
  rw [hlists]
  refine ⟨h.giveUp ht (hb p (by simp)), ?_⟩
  rcases dropPage_control a p .fetch with e | ⟨-, e⟩
  · rw [e]
    exact dropPages_after hrest
  · rw [e]
    exact ⟨rfl, rfl, hrest, relocate_mem (by simp)⟩

theorem maybeFree_arrives {guarded writes : Bool} {pc : MaybePc} (h : Placed a.lists place listed)
    (ht : Holds place t (chain ++ bag)) (hs : pc.Shape place listed chain bag) :
    Arrives strict t writes a.lists (a.maybeFreePages pc).1.lists place listed
      (.afterAlloc (match (a.maybeFreePages pc).2 with
        | .goto pc => .goto (.maybeFree guarded pc)
        | .ret () => .goto (if guarded then .unlock else .loadFree)
        | .panic => .panic)) := by
  have hret : SharedCall.Shape a.lists place listed [] []
      (.afterAlloc (.goto (if guarded then .unlock else .loadFree))) := by
    cases guarded <;> exact ⟨rfl, rfl⟩
  cases pc with
  | loadDelay =>
    obtain ⟨rfl, rfl⟩ := hs
    by_cases hd : a.toFreeDelay < delayDropShrink
    · simp only [maybeFreePages, hd, ite_true]
      exact h.stay ht ⟨rfl, rfl⟩
    · simp only [maybeFreePages, hd, ite_false]
      exact h.stay ht hret
  | fetchAdd =>
    obtain ⟨rfl, rfl⟩ := hs
    by_cases hd : a.toFreeDelay = delayDropShrink - 1
    · simp only [maybeFreePages, hd, ite_true]
      exact h.stay ht ⟨rfl, rfl⟩
    · simp only [maybeFreePages, hd, ite_false]
      exact h.stay ht hret
  | swapToFree =>
    obtain ⟨rfl, rfl⟩ := hs
    have hout : Outcome strict t writes a.lists _ place listed (a.lists.toFree.getD [] ++ [])
      _ listed := h.takeToFree ht
    rw [List.append_nil] at hout
    exact hout.arrives [] _ (.refl _) (dropPages_after h.parked_unlisted)
  | dropPage p rest pc =>
    cases pc with
    | fetch =>
      obtain ⟨rfl, rfl, hb⟩ := hs
      obtain ⟨hout, hshape⟩ := fetch_gone h (by simpa using ht) hb
      exact hout.arrives [] rest (.refl _) hshape
    | deallocate =>
      obtain ⟨rfl, rfl, hb, hp⟩ := hs
      have hlists : (a.dropPage p .deallocate).1.lists =
        { a.lists with freed := .dropPage p :: a.lists.freed } := by
        have : (a.setPage p (a.page p)).lists = a.lists := lists_setPage_same rfl
        show ({ (a.setPage p (a.page p)).lists with freed := .dropPage p :: a.heap.freed } :
          Lists) = _
        rw [this]
        rfl
      have hout : Outcome strict t writes a.lists _ place listed ([] ++ bag) place listed :=
        h.free ht hp
      simp only [maybeFreePages]
      rw [hlists]
      exact hout.arrives [] bag (.refl _) (dropPages_after hb)

/-! ## Allocation -/

theorem grow_arrives {n : Nat} (h : Placed a.lists place listed) (ht : Holds place t [])
    (hpos : 0 < n) :
    Arrives strict t true a.lists { a with heap := (a.heap.makeList PageSharedArena.new n).1 }.lists
    place listed
      (.alloc (.put n (a.heap.size + (n - 1)) a.heap.size .loadFull)) := by
  have hflag : PageSharedArena.ops.inFreeList (a.heap.makeList PageSharedArena.new n).1 =
    a.inFreeList := by
    apply PageOps.inFreeList_makeList (fun _ => rfl)
    intro q hq
    by_contra hne
    have hout := (h.circulates.out q).mp (Bool.eq_false_iff.mpr hne)
    rw [(h.fresh q).mpr hq] at hout; cases hout
  have hchain := PageOps.linked_makeList PageSharedArena.ops n a.heap
    fun p => (rfl : PageSharedArena.ops.links (PageSharedArena.new p) = _)
  rw [behind_pos hpos] at hchain
  have hout : Outcome strict t true a.lists
    { a with heap := (a.heap.makeList PageSharedArena.new n).1 }.lists place listed
      (downFrom a.heap.size n) _ listed :=
    h.grow ht
      (fun q hq =>
      ⟨(PageOps.links_makeList_old _ _ n hq).1, (PageOps.links_makeList_old _ _ n hq).2.1⟩) hflag
      ⟨rfl, rfl, rfl, rfl⟩ rfl rfl
  refine hout.arrives _ [] (by simp) ⟨⟨hchain.1, hchain.2, ?_, fun q hq hl => ?_⟩, rfl⟩
  · obtain ⟨k, rfl⟩ := Nat.exists_eq_succ_of_ne_zero (Nat.ne_of_gt hpos)
    exact getLast_downFrom
  · exact (h.listed q hl).1 ((h.fresh q).mpr (mem_downFrom.mp hq).1)

def FindPc.current (a : SharedArena) : FindPc → Bool
  | .casFree p next => a.freeList = some p → a.nextFree p = next
  | _ => true

theorem findPlace_arrives {pc : FindPc} {control : Control FindPc (Addr × Nat)}
    (h : Placed a.lists place listed) (ht : SharedCall.Stands a.lists place listed t (.alloc pc))
    (hk : pc.Knows a) (hc : pc.current a = true) (hs : a.findPlace pc = (a', control)) :
    Arrives strict t pc.writes a.lists a'.lists place listed (.afterAlloc control) := by
  obtain ⟨chain, bag, ht, hshape⟩ := ht
  cases pc with
  | loadFree =>
    simp only [findPlace] at hs
    split at hs <;> obtain ⟨rfl, rfl⟩ := Prod.mk.inj hs
    · exact h.stay ht hshape
    · exact h.stay ht hshape
  | acquire p pc =>
    simp only [findPlace] at hs
    obtain ⟨rfl, rfl⟩ := Prod.mk.inj hs
    rw [lists_setPage_same links_acquire]
    cases hc : (PageSharedArena.acquireFreeBlock (a.page p) pc).2 with
    | goto pc' => exact h.stay ht hshape
    | ret r =>
      cases r with
      | some i => exact h.stay ht hshape
      | none => exact h.stay ht hshape
    | panic => exact h.stay ht hshape
  | loadNext p =>
    obtain ⟨rfl, rfl⟩ := Prod.mk.inj hs
    exact h.stay ht hshape
  | casFree p next =>
    obtain ⟨rfl, rfl⟩ := hshape
    simp only [findPlace] at hs
    split at hs <;> obtain ⟨rfl, rfl⟩ := Prod.mk.inj hs
    · rename_i hp
      obtain rfl := of_decide_eq_true hc hp
      exact (h.pop ht hp).arrives [] [p] (.refl _) ⟨rfl, rfl⟩
    · exact h.stay ht ⟨rfl, rfl⟩
  | clearInFree p =>
    obtain ⟨rfl, rfl⟩ := hshape
    obtain ⟨rfl, rfl⟩ := Prod.mk.inj hs
    rw [lists_writeFlag]
    exact (h.letOut ht).arrives [] [] (.refl _) ⟨rfl, rfl⟩
  | loadWriter | loadContended =>
    obtain ⟨rfl, rfl⟩ := Prod.mk.inj hs
    split
    · exact h.stay ht hshape
    · exact h.stay ht hshape
  | swapWriter =>
    obtain ⟨rfl, rfl⟩ := Prod.mk.inj hs
    cases a.writer with
    | true => exact h.stay ht hshape
    | false => exact h.stay ht hshape
  | maybeFree guarded pc =>
    simp only [findPlace] at hs
    obtain ⟨rfl, rfl⟩ := Prod.mk.inj hs
    exact maybeFree_arrives h ht hshape
  | recheckFree | loadPending | loadToFree =>
    obtain ⟨rfl, rfl⟩ := Prod.mk.inj hs
    split
    · exact h.stay ht hshape
    · exact h.stay ht hshape
  | swapPending =>
    obtain ⟨rfl, rfl⟩ := hshape
    obtain ⟨rfl, rfl⟩ := Prod.mk.inj hs
    obtain ⟨chain, hl, hout⟩ := h.takePending ht
    exact hout.arrives chain [] (.refl _) ⟨hl, rfl⟩
  | swapFree pending =>
    obtain ⟨hl, rfl⟩ := hshape
    have hf : a.freeList = none := hk
    simp only [findPlace, hf, ite_true] at hs
    obtain ⟨rfl, rfl⟩ := Prod.mk.inj hs
    exact (h.giveFree ht hf hl).arrives [] [] (.refl _) ⟨rfl, rfl⟩
  | take pc =>
    simp only [findPlace] at hs
    obtain ⟨rfl, rfl⟩ := Prod.mk.inj hs
    exact takePages_arrives h ht hk hshape
  | loadPages =>
    obtain ⟨rfl, rfl⟩ := hshape
    obtain ⟨rfl, rfl⟩ := Prod.mk.inj hs
    exact grow_arrives h ht (growth_pos _)
  | put n first last pc =>
    obtain ⟨hshape, rfl⟩ := hshape
    simp only [findPlace] at hs
    obtain ⟨rfl, rfl⟩ := Prod.mk.inj hs
    obtain ⟨chain', place', listed', hout, -, hc⟩ := putPages_lists n h ht hk hshape (by simp)
    apply hout.arrives _ _ (.refl _)
    cases hcontrol : (a.putPages n first last pc).2 with
    | goto pc' =>
      rw [hcontrol] at hc
      exact ⟨hc, rfl⟩
    | ret =>
      rw [hcontrol] at hc
      exact ⟨hc, rfl⟩
    | panic =>
      rw [hcontrol] at hc
      exact hc.elim
  | unlock =>
    obtain ⟨rfl, rfl⟩ := Prod.mk.inj hs
    exact h.stay ht hshape

/-! ## Shrinking -/

/-- `retain` finds the page unused as it was when it was taken out. -/
def ShrinkPc.retains (a : SharedArena) : ShrinkPc → Bool
  | .retain _ _ page _ => a.unused page
  | _ => true

theorem retainFrom_shape {v : Lists} {start : Ptr} {kept rest : List Addr}
    (hl : Linked v.nextFree start chain) (hfull : Linked v.next v.full listed)
    (hb : bag = kept ++ rest) :
    (retainFrom start kept rest).Shape v listed chain bag := by
  cases rest with
  | cons p rest => exact ⟨hb, hl⟩
  | nil =>
    refine ⟨by rw [hb, List.append_nil], hl, [], listed, rfl, .start hfull, ?_⟩
    intro q hq; cases hq

theorem perm_unlink {α : Type} {pre rest l : List α} {p : α} :
    (pre ++ p :: rest ++ l).Perm (pre ++ rest ++ (l ++ [p])) := by
  have h1 : (pre ++ p :: rest ++ l).Perm (p :: (pre ++ rest ++ l)) := by
    rw [← List.cons_append]
    exact List.perm_middle.append_right l
  apply h1.trans
  rw [← List.append_assoc]
  have : ([p] ++ (pre ++ rest ++ l)).Perm (pre ++ rest ++ l ++ [p]) := List.perm_append_comm
  exact this

theorem walkCas_arrives {start current : Ptr} {value : Addr} {nextValue : Ptr}
    {toDrop : List Addr} {control : Control ShrinkPc Bool} (h : Placed a.lists place listed)
    (ht : Holds place t (chain ++ bag))
    (hs : (ShrinkPc.walkCas start current value nextValue toDrop).Shape a.lists listed chain bag)
    (hstep : a.shrinkToFit (.walkCas start current value nextValue toDrop) = (a', control)) :
    Arrives strict t true a.lists a'.lists place listed (.afterShrink control) := by
  obtain ⟨rfl, rfl, pre, rest, rfl, hw⟩ := hs
  have hread : readLink a.nextFree start current = some value := hw.read
  simp only [shrinkToFit, hread, ite_true] at hstep
  cases current with
  | none =>
    obtain ⟨rfl, rfl⟩ := Prod.mk.inj hstep
    exact h.stay (ht.perm perm_unlink) ⟨rfl, pre, rest, rfl, hw.unlink_head⟩
  | some c =>
    obtain ⟨rfl, rfl⟩ := Prod.mk.inj hstep
    obtain ⟨hc, hw'⟩ := hw.unlink
    rw [lists_writeFree]
    exact (h.writeFree ht (by simp [hc]) _).arrives _ _ perm_unlink ⟨rfl, pre, rest, rfl, hw'⟩

theorem fullCas_arrives {start current : Ptr} {value : Addr} {nextValue : Ptr}
    {toDrop : List Addr} {control : Control ShrinkPc Bool} (h : Placed a.lists place listed)
    (ht : Holds place t (chain ++ bag))
    (hs : (ShrinkPc.fullCas start toDrop current value nextValue).Shape a.lists listed chain bag)
    (hstep : a.shrinkToFit (.fullCas start toDrop current value nextValue) = (a', control)) :
    Arrives strict t true a.lists a'.lists place listed (.afterShrink control) := by
  obtain ⟨rfl, hl, rfl, pre, rest, rfl, hw, hpre⟩ := hs
  have hread : readLink a.next a.fullList current = some value := hw.read
  simp only [shrinkToFit, hread, ite_true] at hstep
  have hsub : ∀ q ∈ pre ++ rest, q ∈ pre ++ value :: rest ∨ q ∈ chain ++ bag := by
    intro q hq
    apply Or.inl
    rcases List.mem_append.mp hq with hq | hq <;> simp [hq]
  cases current with
  | none =>
    obtain ⟨rfl, rfl⟩ := Prod.mk.inj hstep
    have hw' := hw.unlink_head
    exact (h.setFull ht hw'.chain hsub).arrives _ _ (.refl _) ⟨rfl, hl, pre, rest, rfl, hw', hpre⟩
  | some c =>
    obtain ⟨rfl, rfl⟩ := Prod.mk.inj hstep
    obtain ⟨-, hw'⟩ := hw.unlink
    rw [lists_writeNext]
    exact (h.setFull ht hw'.chain hsub).arrives _ _ (.refl _) ⟨rfl, hl, pre, rest, rfl, hw', hpre⟩

theorem shrinkToFit_arrives {pc : ShrinkPc} {control : Control ShrinkPc Bool}
    (h : Placed a.lists place listed) (ht : SharedCall.Stands a.lists place listed t (.shrink pc))
    (hk : pc.Knows a) (hc : strict → pc.retains a = true) (hs : a.shrinkToFit pc = (a', control)) :
    Arrives strict t pc.writes a.lists a'.lists place listed (.afterShrink control) := by
  obtain ⟨chain, bag, ht, hshape⟩ := ht
  cases pc with
  | walkCas => exact walkCas_arrives h ht hshape hs
  | fullCas => exact fullCas_arrives h ht hshape hs
  | swapShrinking =>
    obtain ⟨rfl, rfl⟩ := Prod.mk.inj hs
    cases a.shrinking with
    | true => exact h.stay ht hshape
    | false => exact h.stay ht hshape
  | swapWriter =>
    obtain ⟨rfl, rfl⟩ := Prod.mk.inj hs
    cases a.writer with
    | true => exact h.stay ht hshape
    | false => exact h.stay ht hshape
  | swapFree =>
    obtain ⟨rfl, rfl⟩ := hshape
    obtain ⟨rfl, rfl⟩ := Prod.mk.inj hs
    obtain ⟨chain, hl, hout⟩ := h.takeFree ht
    exact hout.arrives chain [] (.refl _) ⟨hl, rfl⟩
  | loadPages start =>
    obtain ⟨hl, rfl⟩ := hshape
    obtain ⟨rfl, rfl⟩ := Prod.mk.inj hs
    exact h.stay ht ⟨rfl, [], chain, rfl, .start hl⟩
  | walk start current toDrop =>
    obtain ⟨rfl, pre, rest, rfl, hw⟩ := hshape
    have hread : readLink a.nextFree start current = rest.head? := hw.read
    cases rest with
    | nil =>
      simp only [shrinkToFit, hread, List.head?_nil] at hs
      obtain ⟨rfl, rfl⟩ := Prod.mk.inj hs
      exact h.stay ht (retainFrom_shape hw.chain h.full rfl)
    | cons value rest =>
      simp only [shrinkToFit, hread, List.head?_cons] at hs
      obtain ⟨rfl, rfl⟩ := Prod.mk.inj hs
      exact h.stay ht ⟨rfl, pre, rest, rfl, hw⟩
  | walkNext start current value toDrop =>
    obtain ⟨rfl, pre, rest, rfl, hw⟩ := hshape
    obtain ⟨rfl, rfl⟩ := Prod.mk.inj hs
    exact h.stay ht ⟨rfl, rfl, pre, rest, rfl, hw⟩
  | walkBits start current value nextValue toDrop =>
    obtain ⟨rfl, hn, pre, rest, rfl, hw⟩ := hshape
    simp only [shrinkToFit] at hs
    split at hs <;> obtain ⟨rfl, rfl⟩ := Prod.mk.inj hs
    · exact h.stay ht ⟨rfl, hn, pre, rest, rfl, hw⟩
    · exact h.stay ht ⟨rfl, pre ++ [value], rest, by simp, hw.advance⟩
  | retain start kept page rest =>
    obtain ⟨rfl, hl⟩ := hshape
    obtain ⟨rfl, rfl⟩ := Prod.mk.inj hs
    cases hu : a.unused page with
    | true => exact h.stay ht (retainFrom_shape hl h.full (by simp))
    | false =>
      have hperm : (chain ++ (kept ++ page :: rest)).Perm (page :: (chain ++ (kept ++ rest))) := by
        rw [← List.append_assoc, ← List.append_assoc]
        exact List.perm_middle
      have hout : Outcome strict t true a.lists a.lists place listed
        (chain ++ (kept ++ rest)) _ listed :=
        h.lose (ht.perm hperm) fun hstrict => by
          have : a.unused page = true := hc hstrict
          rw [hu] at this; cases this
      exact hout.arrives _ _ (.refl _) (retainFrom_shape hl h.full rfl)
  | full start toDrop current =>
    obtain ⟨rfl, hl, pre, rest, rfl, hw, hpre⟩ := hshape
    have hread : readLink a.next a.fullList current = rest.head? := hw.read
    cases rest with
    | nil =>
      simp only [shrinkToFit, hread, List.head?_nil] at hs
      obtain ⟨rfl, rfl⟩ := Prod.mk.inj hs
      by_cases hb : bag = []
      · subst hb
        exact h.stay ht ⟨hl, rfl⟩
      · simp only [hb, ne_eq, not_false_eq_true, ite_true]
        exact h.stay ht ⟨rfl, hl, fun q hq hq' => hpre q (by simpa using hq') hq⟩
    | cons value rest =>
      simp only [shrinkToFit, hread, List.head?_cons] at hs
      obtain ⟨rfl, rfl⟩ := Prod.mk.inj hs
      exact h.stay ht ⟨rfl, hl, pre, rest, rfl, hw, hpre⟩
  | fullNext start toDrop current value =>
    obtain ⟨rfl, hl, pre, rest, rfl, hw, hpre⟩ := hshape
    simp only [shrinkToFit] at hs
    split at hs <;> obtain ⟨rfl, rfl⟩ := Prod.mk.inj hs
    · exact h.stay ht ⟨rfl, hl, rfl, pre, rest, rfl, hw, hpre⟩
    · rename_i hvalue
      refine h.stay ht ⟨rfl, hl, pre ++ [value], rest, by simp, hw.advance, fun q hq => ?_⟩
      rcases List.mem_append.mp hq with hq | hq
      · exact hpre q hq
      · rw [List.mem_singleton.mp hq]; exact hvalue
  | storeDelay start toDrop =>
    obtain ⟨rfl, rfl⟩ := Prod.mk.inj hs
    exact h.stay ht hshape
  | swapToFree start toDrop =>
    obtain ⟨rfl, hl, hb⟩ := hshape
    obtain ⟨rfl, rfl⟩ := Prod.mk.inj hs
    have hperm : (a.lists.toFree.getD [] ++ (chain ++ bag)).Perm
      (chain ++ (a.toFree.getD [] ++ bag)) := by
      rw [← List.append_assoc, ← List.append_assoc]
      exact List.perm_append_comm.append_right bag
    refine (h.takeToFree ht).arrives chain _ hperm ⟨rfl, hl, fun q hq => ?_⟩
    rcases List.mem_append.mp hq with hq | hq
    · exact h.parked_unlisted q hq
    · exact hb q hq
  | storeToFree start nfreed toFree =>
    obtain ⟨rfl, hl, hb⟩ := hshape
    obtain ⟨-, htf, -⟩ := hk
    simp only [shrinkToFit, htf, ite_true] at hs
    obtain ⟨rfl, rfl⟩ := Prod.mk.inj hs
    exact (h.storeToFree (ht.perm List.perm_append_comm) htf hb).arrives chain []
      (by simp) ⟨hl, rfl⟩
  | restore start nfreed =>
    obtain ⟨hl, rfl⟩ := hshape
    have hf : a.freeList = none := hk
    simp only [shrinkToFit, hf, ite_true] at hs
    obtain ⟨rfl, rfl⟩ := Prod.mk.inj hs
    exact (h.giveFree ht hf hl).arrives [] [] (.refl _) ⟨rfl, rfl⟩
  | subPages | clearShrinking | unlock =>
    obtain ⟨rfl, rfl⟩ := Prod.mk.inj hs
    exact h.stay ht hshape

/-! ## Drops -/

theorem push_arrives {p : Addr} {i : Nat} {pc : PushPc} {links : PageLinks} {pending : Ptr}
    {control : Control PushPc Unit} (h : Placed a.lists place listed)
    (ht : SharedCall.Stands a.lists place listed t (.drop p i (.push pc)))
    (hp : (a.page p).toPageLinks.push p true a.pendingFreeList pc = (links, pending, control)) :
    Arrives strict t false a.lists
      { a.setPage p { a.page p with toPageLinks := links } with pendingFreeList := pending }.lists
      place listed
      (.afterDrop p i (control.map .push)) := by
  obtain ⟨chain, bag, hh, rfl, rfl, hstored⟩ := ht
  have hd : Drops a.lists.nextFree place t p (.push pc) := ⟨hh.carries, hstored⟩
  obtain ⟨place', hcirc, hf, hafter, hn⟩ := push_step h.circulates hd rfl rfl hp
  have hlists :
    ({ a.setPage p { a.page p with toPageLinks := links } with pendingFreeList := pending } :
    SharedArena).lists =
      { a.lists with
        nextFree := Function.update a.lists.nextFree p links.nextFree
        inFreeList := Function.update a.lists.inFreeList p links.inFreeList
        pending } := by
    have hset := lists_setPage (a := a) (p := p) (x := { a.page p with toPageLinks := links })
    have hnext : Function.update a.next p links.next = a.next := by
      rw [PageLinks.next_push hp]
      exact Function.update_eq_self ..
    show ({ (a.setPage p { a.page p with toPageLinks := links }).lists with pending } : Lists) = _
    rw [hset, hnext]
    rfl
  rw [hlists]
  have hplaced : Placed { a.lists with
      nextFree := Function.update a.lists.nextFree p links.nextFree
      inFreeList := Function.update a.lists.inFreeList p links.inFreeList
      pending } place' listed := h.shift hf hcirc rfl rfl rfl h.full fun q hq => Or.inl hq
  refine ⟨place', listed, hplaced, .shift hf hn (fun q hq => Or.inl hq) fun _ => ⟨rfl, rfl, rfl⟩,
    [], ?_⟩
  cases control with
  | goto pc' =>
    exact ⟨_, ⟨hafter.cargo, DropPc.nodup_cargo p (.push pc')⟩, rfl, rfl, hafter.stored⟩
  | ret => exact ⟨[], ⟨hafter, List.nodup_nil⟩, rfl, rfl⟩
  | panic => exact ⟨[], ⟨hafter, List.nodup_nil⟩, rfl, rfl⟩

end SharedArena

/-! ## The invariant -/

namespace SharedState

/-- A successful `compare_exchange` of `find_place` installs the link that the page has now. -/
def popsCurrent (s : SharedState) : SharedAct → Bool
  | .step t => match s.threads.get t with
    | .alloc pc => pc.current s.arena
    | _ => true
  | _ => true

/-- `retain` drops no page. -/
def retainsAll (s : SharedState) : SharedAct → Bool
  | .step t => match s.threads.get t with
    | .shrink pc => pc.retains s.arena
    | _ => true
  | _ => true

end SharedState

structure SharedListsInv (strict : Prop) (s : SharedState) (place : Addr → Place Tid Shelf)
    (listed : List Addr) : Prop where
  placed : Placed s.arena.lists place listed
  stands : ∀ t, (s.threads.get t).Stands s.arena.lists place listed t
  lost : strict → ∀ q, place q ≠ .aside .lost

def SharedAct.thread : SharedAct → Tid
  | .alloc t | .shrink t | .drop t _ _ | .step t => t

def Turn (strict : Prop) (t : Tid) (s s' : SharedState) (place : Addr → Place Tid Shelf)
    (listed : List Addr) : Prop :=
  ∃ place' listed', SharedListsInv strict s' place' listed' ∧
    Moved strict t (s.threads.get t).writes s.arena.lists s'.arena.lists place place' listed listed'

namespace SharedListsInv

variable {strict : Prop} {s s' : SharedState} {arena : SharedArena} {handles : List (Addr × Nat)}
  {t : Tid} {c : SharedCall}
  {place place' : Addr → Place Tid Shelf} {listed listed' : List Addr}

theorem of_moved (h : SharedListsInv strict s place listed) (hg : GuardInv s)
    (hplaced : Placed arena.lists place' listed')
    (hm : Moved strict t (s.threads.get t).writes s.arena.lists arena.lists place place' listed
      listed') (hstands : c.Stands arena.lists place' listed' t) :
    SharedListsInv strict { arena, handles, threads := s.threads.set t c } place' listed' := by
  refine ⟨hplaced, fun u => ?_, fun hs q hq => h.lost hs q (hm.lost hs q hq)⟩
  show ((s.threads.set t c).get u).Stands arena.lists place' listed' u
  rw [Store.get_set]
  split
  · rename_i e; rw [e]; exact hstands
  · rename_i e
    apply (h.stands u).frame hm e
    intro hu
    -- the writer is another thread
    by_contra ht
    exact e (hg.lock.one u t hu (by simpa using ht))

theorem thread (h : SharedListsInv strict s place listed) (hg : GuardInv s)
    (ha : Arrives strict t (s.threads.get t).writes s.arena.lists arena.lists place listed c) :
    Turn strict t s { arena, handles, threads := s.threads.set t c } place listed := by
  obtain ⟨place', listed', hplaced, hm, hstands⟩ := ha
  exact ⟨place', listed', h.of_moved hg hplaced hm hstands, hm⟩

theorem enter (h : SharedListsInv strict s place listed) (hg : GuardInv s)
    (ht : s.threads.get t = .idle) (hc : ∀ v place, c.Shape v place listed [] []) :
    Turn strict t s { s with handles, threads := s.threads.set t c } place listed := by
  obtain ⟨chain, bag, hh, hs⟩ := h.stands t
  rw [ht] at hs
  obtain ⟨rfl, rfl⟩ := hs
  exact h.thread hg (h.placed.stay hh (hc _ _))

theorem turn (h : SharedListsInv strict s place listed) (hg : GuardInv s) {a : SharedAct}
    (hpop : s.popsCurrent a = true) (hret : strict → s.retainsAll a = true)
    (hm : SharedState.Moves s a s') : Turn strict a.thread s s' place listed := by
  cases hm with
  | startAlloc ht => exact h.enter hg ht fun _ _ => ⟨rfl, rfl⟩
  | startShrink ht => exact h.enter hg ht fun _ _ => ⟨rfl, rfl⟩
  | startDrop ht hi => exact h.enter hg ht fun _ _ => ⟨rfl, rfl, fun _ e => by cases e⟩
  | @alloc t pc arena control ht hs =>
    have hk := hg.knows t
    have hst := h.stands t
    rw [ht] at hk hst
    have hc : pc.current s.arena = true := by
      simp only [SharedState.popsCurrent, ht] at hpop
      exact hpop
    apply h.thread (t := t) hg
    rw [ht]
    exact SharedArena.findPlace_arrives h.placed hst hk hc hs
  | @shrink t pc arena control ht hs =>
    have hk := hg.knows t
    have hst := h.stands t
    rw [ht] at hk hst
    apply h.thread (t := t) hg
    rw [ht]
    refine SharedArena.shrinkToFit_arrives h.placed hst hk (fun hstrict => ?_) hs
    have := hret hstrict
    simp only [SharedState.retainsAll, ht] at this
    exact this
  | @giveBlock t p i page last ht hg' =>
    obtain ⟨rfl, rfl⟩ := Prod.mk.inj hg'
    obtain ⟨chain, bag, hh, hs⟩ := h.stands t
    rw [ht] at hs
    obtain ⟨rfl, rfl, -⟩ := hs
    have hlists : (s.arena.setPage p
      { s.arena.page p with bitfield := (s.arena.page p).bitfield + bit i }).lists =
        s.arena.lists := SharedArena.lists_setPage_same rfl
    apply h.thread (t := t) hg
    rw [hlists]
    apply h.placed.stay hh
    split
    · exact ⟨rfl, rfl, fun _ e => by cases e⟩
    · exact ⟨rfl, rfl, fun _ e => by cases e⟩
  | @freeBlock t p i ht =>
    obtain ⟨chain, bag, hh, hs⟩ := h.stands t
    rw [ht] at hs
    obtain ⟨rfl, rfl, -⟩ := hs
    apply h.thread (t := t) hg
    have hlists :
      ({ s.arena with heap := (s.arena.heap.set p (s.arena.page p)).free (.dropBlock p) } :
      SharedArena).lists =
        { s.arena.lists with freed := .dropBlock p :: s.arena.lists.freed } := by
      have hset : (s.arena.setPage p (s.arena.page p)).lists = s.arena.lists :=
        SharedArena.lists_setPage_same rfl
      show ({ (s.arena.setPage p (s.arena.page p)).lists with
        freed := .dropBlock p :: s.arena.heap.freed } : Lists) = _
      rw [hset]
      rfl
    rw [hlists]
    exact (h.placed.freeBlock hh).arrives [] [] (.refl _) ⟨rfl, rfl⟩
  | @push t p i pc links pending control ht hp =>
    have hst := h.stands t
    rw [ht] at hst
    apply h.thread (t := t) hg
    rw [ht]
    exact SharedArena.push_arrives h.placed hst hp

theorem step (h : SharedListsInv strict s place listed) (hg : GuardInv s) {a : SharedAct}
    (hpop : s.popsCurrent a = true) (hret : strict → s.retainsAll a = true)
    (hm : SharedState.Moves s a s') :
    ∃ place listed, SharedListsInv strict s' place listed := by
  obtain ⟨place', listed', h', -⟩ := h.turn hg hpop hret hm
  exact ⟨place', listed', h'⟩

theorem start (cap : Nat) : ∃ place listed, SharedListsInv strict (.start cap) place listed := by
  have hchain := PageOps.linked_makeList PageSharedArena.ops (pagesFor cap) Heap.empty
    fun p => (rfl : PageSharedArena.ops.links (PageSharedArena.new p) = _)
  rw [behind_pos (pagesFor_pos cap)] at hchain
  have hsize : (SharedState.start cap).arena.heap.size = pagesFor cap := Nat.zero_add _
  refine ⟨relocate (fun _ => .aside .fresh) (downFrom 0 (pagesFor cap)) .free,
    downFrom 0 (pagesFor cap),
    ⟨.start hchain.1 (PageOps.inFreeList_makeList_empty (fun _ => rfl) rfl) _, fun q => ?_,
      fun q => ?_, List.nodup_nil, hchain.2, fun q hq => ?_, fun q hq => ?_⟩,
    fun t => ⟨[], [], ⟨fun q => ?_, List.nodup_nil⟩, ?_⟩, fun _ q => ?_⟩
  · show _ ↔ (SharedState.start cap).arena.heap.size ≤ q
    simp [hsize, relocate_eq_iff, mem_downFrom]
  · simp [relocate_eq_iff, SharedState.start, SharedArena.withCapacity, SharedArena.lists]
  · simp [relocate_mem hq]
  · cases hq
  · simp [relocate_eq_iff]
  · show SharedCall.Shape _ _ _ [] [] ((Store.empty : Store SharedCall).get t)
    rw [Store.get_empty]
    exact ⟨rfl, rfl⟩
  · simp [relocate_eq_iff]

theorem of_reach {C : SharedState → SharedAct → Prop} (hpop : ∀ s a, C s a → s.popsCurrent a = true)
    (hret : strict → ∀ s a, SharedArena.machine.Reach C s → C s a → s.retainsAll a = true)
    (h : SharedArena.machine.Reach C s) : ∃ place listed, SharedListsInv strict s place listed := by
  refine h.invariant (I := fun s => ∃ place listed, SharedListsInv strict s place listed) ?_
    fun s a s' hr hi hc hs => ?_
  · intro s hs
    obtain ⟨cap, rfl⟩ := hs
    exact start cap
  · obtain ⟨place, listed, hl⟩ := hi
    exact hl.step (GuardInv.of_reach hr) (hpop s a hc) (fun hstrict => hret hstrict s a hr hc)
      (SharedState.moves_of_step hs)

theorem of_popsCurrent {C : SharedState → SharedAct → Prop}
    (hpop : ∀ s a, C s a → s.popsCurrent a = true) (h : SharedArena.machine.Reach C s) :
    ∃ place listed, SharedListsInv False s place listed :=
  of_reach hpop (fun e => e.elim) h

theorem onChain (h : SharedListsInv True s place listed) (hq : s.quiescent = true) {p : Addr}
    (hp : OnChain s.arena.next s.arena.fullList p) (hflag : s.arena.inFreeList p = true) :
    OnChain s.arena.nextFree s.arena.freeList p ∨
    OnChain s.arena.nextFree s.arena.pendingFreeList p := by
  have hmem : p ∈ listed := (OnChain.iff_mem h.placed.full).mp hp
  refine h.placed.circulates.onChain hflag (fun t ht => ?_) fun shelf hs => ?_
  · have hidle : s.threads.get t = .idle := of_decide_eq_true (Store.all_iff.mp hq t)
    obtain ⟨chain, bag, hh, hshape⟩ := h.stands t
    rw [hidle] at hshape
    obtain ⟨rfl, rfl⟩ := hshape
    have := (hh.carries p).mp ht
    cases this
  · have hlisted := h.placed.listed p hmem
    cases shelf with
    | fresh => exact hlisted.1 hs
    | parked => exact hlisted.2.1 hs
    | lost => exact h.lost trivial p hs
    | gone => exact hlisted.2.2 hs

end SharedListsInv

end MemoryPools
