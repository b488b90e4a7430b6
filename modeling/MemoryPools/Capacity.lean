import MemoryPools.ArenaSound
import MemoryPools.SharedArenaSound
import MemoryPools.SharedArenaBlocks

/-!
# Lost capacity

`find_place` takes a page that it found full out of the free list and then clears
`in_free_list`. A drop that comes in between finds the flag up and does not push the
page. A page with the flag down is therefore safe if it is full, or if a drop on it
did not look at the flag for the last time; then every page with a free block is on
a list when no call is in progress (`capacity_kept`).
-/

namespace MemoryPools

open Interleave

def DropPc.beforeSwap : DropPc → Bool
  | .fetchAdd | .push .loadInFree | .push .swapInFree => true
  | _ => false

/-- A push that leaves the flag down did not try to raise it. -/
theorem PageLinks.push_beforeSwap {links links' : PageLinks} {p : Addr} {upgraded : Bool}
    {pending pending' : Ptr} {pc : PushPc} {control : Control PushPc Unit}
    (h : links.push p upgraded pending pc = (links', pending', control))
    (hf : links'.inFreeList = false) :
    links.inFreeList = false ∧ ((DropPc.push pc).beforeSwap = true →
      ∃ pc', control = .goto pc' ∧ (DropPc.push pc').beforeSwap = true) := by
  cases pc with
  | loadInFree =>
    simp only [PageLinks.push] at h
    obtain ⟨rfl, hrest⟩ := Prod.mk.inj h
    obtain ⟨-, rfl⟩ := Prod.mk.inj hrest
    refine ⟨hf, fun _ => ⟨.swapInFree, ?_, rfl⟩⟩
    rw [hf]; rfl
  | swapInFree =>
    obtain ⟨rfl, -⟩ := Prod.mk.inj h
    cases hf
  | casPending current =>
    simp only [PageLinks.push] at h
    split at h <;> obtain ⟨rfl, -⟩ := Prod.mk.inj h
    · exact ⟨hf, fun e => by cases e⟩
    · exact ⟨hf, fun e => by cases e⟩
  | upgrade | loadPending | storeNextFree =>
    obtain ⟨rfl, -⟩ := Prod.mk.inj h
    exact ⟨hf, fun e => by cases e⟩

/-! ## Flags that are down -/

/-- A page with the flag down is full, or a thread recalls it. -/
def Kept {θ : Type} [Inhabited θ] (flag full : Addr → Bool) (recalls : Addr → θ → Bool)
    (m : Store θ) : Prop :=
  ∀ p, flag p = false → full p = true ∨ m.any (recalls p) = true

namespace Kept

variable {θ : Type} [Inhabited θ] {flag flag' full full' : Addr → Bool} {recalls : Addr → θ → Bool}
  {m : Store θ}
  {t : Tid} {c : θ} {p : Addr}

theorem set (h : Kept flag full recalls m)
    (hp : ∀ q, flag' q = false → recalls q c = true ∨ flag q = false ∧
      (full q = true → full' q = true) ∧ (recalls q (m.get t) = true → recalls q c = true)) :
    Kept flag' full' recalls (m.set t c) := by
  intro q hq
  rcases hp q hq with hc | ⟨hf, hfull, hr⟩
  · exact Or.inr (Store.any_iff.mpr ⟨t, by rw [Store.get_set_self]; exact hc⟩)
  · exact (h q hf).imp hfull (Store.any_set hr)

theorem quiet (h : Kept flag full recalls m) (hr : ∀ q, recalls q (m.get t) = false)
    (hflag : ∀ q, flag' q = false → flag q = false)
    (hfull : ∀ q, flag q = false → full q = true → full' q = true) :
    Kept flag' full' recalls (m.set t c) := by
  refine h.set fun q hq => Or.inr ⟨hflag q hq, hfull q (hflag q hq), fun e => ?_⟩
  rw [hr] at e
  cases e

theorem give (h : Kept flag full recalls m) (hr : ∀ q, q ≠ p → recalls q (m.get t) = false)
    (hfull : ∀ q, q ≠ p → full' q = full q) (hc : flag p = false → recalls p c = true) :
    Kept flag full' recalls (m.set t c) := by
  apply h.set
  intro q hq
  by_cases e : q = p
  · subst e
    exact Or.inl (hc hq)
  · refine Or.inr ⟨hq, fun hf => by rw [hfull q e]; exact hf, fun hr' => ?_⟩
    rw [hr q e] at hr'
    cases hr'

theorem push (h : Kept flag full recalls m) {links links' : PageLinks} {upgraded : Bool}
    {pending pending' : Ptr} {pc : PushPc} {control : Control PushPc Unit}
    (hs : links.push p upgraded pending pc = (links', pending', control))
    (hlinks : links.inFreeList = flag p)
    (hr : ∀ q, recalls q (m.get t) = (decide (p = q) && (DropPc.push pc).beforeSwap))
    (hr' : ∀ pc', control = .goto pc' → recalls p c = (DropPc.push pc').beforeSwap) :
    Kept (Function.update flag p links'.inFreeList) full recalls (m.set t c) := by
  apply h.set
  intro q hq
  by_cases e : q = p
  · subst e
    rw [Function.update_self] at hq
    obtain ⟨hf, hpc⟩ := PageLinks.push_beforeSwap hs hq
    rw [hlinks] at hf
    refine Or.inr ⟨hf, id, fun hrecall => ?_⟩
    rw [hr, Bool.and_eq_true] at hrecall
    obtain ⟨pc', hcontrol, hbefore⟩ := hpc hrecall.2
    rw [hr' pc' hcontrol]
    exact hbefore
  · rw [Function.update_of_ne e] at hq
    refine Or.inr ⟨hq, id, fun hrecall => ?_⟩
    rw [hr] at hrecall
    simp [Ne.symm e] at hrecall

end Kept

/-! ## The arena of one owner -/

def Arena.full (a : Arena) (p : Addr) : Bool :=
  ((a.words p).1 ||| (a.words p).2) &&& ~~~maskArenaBit = 0

def DropThread.recalls (p : Addr) : DropThread → Bool
  | .drop q _ pc => q = p && pc.beforeSwap
  | .idle => false

namespace ArenaState

def recalled (s : ArenaState) (p : Addr) : Bool := s.threads.any (DropThread.recalls p)

/-- The owner clears the flag of a page that is full, or that a drop will push. -/
def clearsInTime (s : ArenaState) : ArenaAct → Bool
  | .stepOwner => match s.owner with
    | .alloc (.clearInFree p) => s.arena.full p || s.recalled p
    | _ => true
  | _ => true

end ArenaState

namespace Arena

variable {a a' : Arena} {p : Addr}

theorem full_congr (h : a'.words p = a.words p) : a'.full p = a.full p := by
  unfold full
  rw [h]

theorem full_dropPage {q : Addr} {pc : DropPagePc} {control : Control DropPagePc Unit}
    (h : a.dropPage q pc = (a', control)) : a'.full p = a.full p := by
  unfold full
  rw [words_dropPage h]
  split
  · rename_i e
    rw [e.2, BitVec.or_comm (a.words q).2, ← BitVec.or_assoc, BitVec.or_self]
  · rfl

theorem inFreeList_dropPage {q : Addr} {pc : DropPagePc} {control : Control DropPagePc Unit}
    (h : a.dropPage q pc = (a', control)) : a'.inFreeList = a.inFreeList := by
  obtain ⟨rfl, -⟩ := Prod.mk.inj h
  cases pc with
  | fetch => exact inFreeList_setPage (a := a) rfl
  | deallocate => exact inFreeList_setPage (a := a) rfl

theorem findPlace_flag {pc : FindPc} {control : Control FindPc (Addr × Nat)}
    (hs : a.findPlace pc = (a', control)) (hf : a'.inFreeList p = false) :
    a.inFreeList p = false ∨ pc = .clearInFree p := by
  cases pc with
  | clearInFree q =>
    obtain ⟨rfl, -⟩ := Prod.mk.inj hs
    by_cases e : p = q
    · exact Or.inr (by rw [e])
    · apply Or.inl
      have : (a.setPage q { a.page q with inFreeList := false }).inFreeList p = a.inFreeList p := by
        show PageOps.inFreeList PageArena.ops (a.heap.set q _) p = _
        rw [PageOps.inFreeList_set, Function.update_of_ne e]
        rfl
      rw [← this]; exact hf
  | acquire q pc =>
    simp only [findPlace] at hs
    obtain ⟨rfl, -⟩ := Prod.mk.inj hs
    rw [inFreeList_setPage
      (by rw [show (PageArena.acquireFreeBlock (a.page q) pc).1.inFreeList = (a.page q).inFreeList from
      congrArg PageLinks.inFreeList links_acquire]; rfl)] at hf
    exact Or.inl hf
  | linkLast n first last current =>
    obtain ⟨rfl, -⟩ := Prod.mk.inj hs
    exact Or.inl ((congrFun (inFreeList_setPage (by rfl)) p).symm.trans hf)
  | loadFull =>
    obtain ⟨rfl, -⟩ := Prod.mk.inj hs
    -- new pages are flagged
    have hflag : ∀ page, (a.heap.makeList PageArena.new (growth a.npages)).1.get p = page →
      page.inFreeList = false := by
      intro page e
      rw [← e]; exact hf
    rcases Heap.get_makeList PageArena.new (growth a.npages) a.heap p with e | ⟨-, next, e⟩
    · exact Or.inl (hflag _ e)
    · have := hflag _ e
      cases this
  | getFree | setFree =>
    simp only [findPlace] at hs
    split at hs <;> obtain ⟨rfl, -⟩ := Prod.mk.inj hs
    · exact Or.inl hf
    · exact Or.inl hf
  | unlink | loadPending | swapPending | swapFull =>
    obtain ⟨rfl, -⟩ := Prod.mk.inj hs
    exact Or.inl hf

theorem shrinkToFit_full {pc : ShrinkPc} {control : Control ShrinkPc Bool}
    (hs : a.shrinkToFit pc = (a', control)) :
    a'.inFreeList = a.inFreeList ∧ a'.full p = a.full p := by
  cases pc with
  | dropPage start toDrop q rest pc =>
    cases hd : a.dropPage q pc with
    | mk b c =>
      simp only [shrinkToFit, hd] at hs
      obtain ⟨rfl, -⟩ := Prod.mk.inj hs
      exact ⟨inFreeList_dropPage hd, full_dropPage hd⟩
  | walkCas start current | fullCas start _ current =>
    simp only [shrinkToFit] at hs
    split at hs
    · cases current with
      | none => obtain ⟨rfl, -⟩ := Prod.mk.inj hs; exact ⟨rfl, rfl⟩
      | some c =>
        obtain ⟨rfl, -⟩ := Prod.mk.inj hs
        exact ⟨inFreeList_setPage rfl, full_congr (words_setPage_same rfl)⟩
    · obtain ⟨rfl, -⟩ := Prod.mk.inj hs; exact ⟨rfl, rfl⟩
  | walk | walkBits | full | fullNext | restore =>
    simp only [shrinkToFit] at hs
    split at hs <;> · obtain ⟨rfl, -⟩ := Prod.mk.inj hs; exact ⟨rfl, rfl⟩
  | recheck start toDrop rest =>
    cases rest with
    | nil => obtain ⟨rfl, -⟩ := Prod.mk.inj hs; exact ⟨rfl, rfl⟩
    | cons q rest =>
      simp only [shrinkToFit] at hs
      split at hs <;> · obtain ⟨rfl, -⟩ := Prod.mk.inj hs; exact ⟨rfl, rfl⟩
  | takeFree | walkNext =>
    obtain ⟨rfl, -⟩ := Prod.mk.inj hs
    exact ⟨rfl, rfl⟩

end Arena

namespace ArenaState

def KeptInv (s : ArenaState) : Prop :=
  Kept s.arena.inFreeList s.arena.full DropThread.recalls s.threads

variable {s s' : ArenaState}

theorem KeptInv.alloc (h : s.KeptInv) (hi : ArenaInv s) {pc : Arena.FindPc} {arena : Arena}
    {control : Control Arena.FindPc (Addr × Nat)} (ho : s.owner = .alloc pc)
    (hc : s.clearsInTime .stepOwner = true) (hs : s.arena.findPlace pc = (arena, control)) :
    (s.afterAlloc arena control).KeptInv := by
  obtain ⟨place, carried, listed, hl⟩ := hi.lists (by rw [ho]; rfl)
  have hshape := hl.shape
  rw [ho] at hshape
  have hframe := (Arena.findPlace_frame hs).2.1
  -- pages with the flag down are neither new nor at the head of the free list
  have hwords : ∀ p, s.arena.inFreeList p = false → arena.words p = s.arena.words p := by
    intro p hp
    have hout := (hl.circulates.out p).mp hp
    have hpc : ∀ pc', pc ≠ .acquire p pc' := by
      intro pc' e
      subst e
      have hcirc := hl.circulates
      rw [hshape.1] at hcirc
      have := hcirc.head_free
      rw [hout] at this
      cases this
    rcases hframe p hpc with e | hsize
    · exact e
    · rw [(hl.fresh p).mpr hsize] at hout
      cases hout
  have hkept : Kept arena.inFreeList arena.full DropThread.recalls s.threads := by
    intro p hp
    rcases Arena.findPlace_flag hs hp with hf | rfl
    · rw [Arena.full_congr (hwords p hf)]
      exact h p hf
    · obtain ⟨rfl, -⟩ := Prod.mk.inj hs
      simp only [clearsInTime, ho, Bool.or_eq_true] at hc
      exact hc.imp_left (Arena.full_congr (Arena.words_setPage_same (by rfl))).trans
  cases control <;> exact hkept

theorem KeptInv.step (h : s.owner.ends = false → s.KeptInv) (hi : ArenaInv s) {a : ArenaAct}
    (hc : s.clearsInTime a = true) (hm : Moves s a s') (he : s'.owner.ends = false) :
    s'.KeptInv := by
  cases hm with
  | startAlloc ho | startShrink ho => exact h (by rw [ho]; rfl)
  | startRelease => cases he
  | alloc ho hs => exact (h (by rw [ho]; rfl)).alloc hi ho hc hs
  | @shrink pc arena control ho hs =>
    have hkept : Kept arena.inFreeList arena.full DropThread.recalls s.threads := by
      intro p hp
      rw [(Arena.shrinkToFit_full (p := p) hs).1] at hp
      rw [(Arena.shrinkToFit_full hs).2]
      exact h (by rw [ho]; rfl) p hp
    cases control <;> exact hkept
  | @release pc arena control ho hs =>
    have hpanic : control ≠ .panic := (Prod.mk.inj hs).2 ▸ Arena.release_ne_panic
    cases control with
    | goto | ret => cases he
    | panic => exact absurd rfl hpanic
  | @startDrop t p i ht hi =>
    exact (h he).quiet (fun q => by rw [ht]; rfl) (fun _ hq => hq) fun _ _ hq => hq
  | @giveBlock t _ p i page last ht hg =>
    obtain ⟨rfl, rfl⟩ := Prod.mk.inj hg
    have hflag : (s.arena.setPage p { s.arena.page p with
        bitfieldAtomic := (s.arena.page p).bitfieldAtomic + bit i }).inFreeList =
          s.arena.inFreeList :=
      Arena.inFreeList_setPage rfl
    unfold KeptInv
    rw [hflag]
    refine (h he).give (p := p) (fun q hq => ?_) (fun q hq => Arena.full_congr ?_) fun hf => ?_
    · rw [ht]; simp [DropThread.recalls, Ne.symm hq]
    · rw [Arena.words_setPage, if_neg hq]
    · -- the page is out of all lists, so it was not given up
      obtain ⟨place, carried, listed, hl⟩ := hi.lists he
      have hlive : s.Live p i := Or.inr ⟨t, handOf_get ht⟩
      have hlast : (PageArena.giveBlock i (s.arena.page p)).2 = false := by
        by_contra hne
        have h63 := ReclaimInv.ones_of_last (hi.blocks.index p i hlive)
          (hi.blocks.clear p i hlive).2.1
          (by simpa using hne)
        have hout := (hl.circulates.out p).mp hf
        rw [hl.given p h63] at hout
        cases hout
      rw [show decide _ = false from hlast]
      simp [DropThread.recalls, DropPc.beforeSwap]
  | @freeBlock t _ p i ht =>
    have hflag :
      ({ s.arena with heap := (s.arena.heap.set p (s.arena.page p)).free (.dropBlock p) } :
      Arena).inFreeList =
        s.arena.inFreeList := Arena.inFreeList_setPage (a := s.arena) rfl
    unfold KeptInv
    rw [hflag]
    refine (h he).quiet (fun q => ?_) (fun _ hq => hq) fun q _ hq => ?_
    · rw [ht]; simp [DropThread.recalls, DropPc.beforeSwap]
    · exact (Arena.full_congr (Arena.words_setPage_same (a := s.arena) rfl)).trans hq
  | @push t _ p i pc links pending control ht hp =>
    have hflag : ({ s.arena.setPage p { s.arena.page p with toPageLinks := links } with
        pendingFreeList := pending } : Arena).inFreeList = Function.update s.arena.inFreeList p
          links.inFreeList :=
      PageOps.inFreeList_set ..
    have hfull : ({ s.arena.setPage p { s.arena.page p with toPageLinks := links } with
        pendingFreeList := pending } : Arena).full = s.arena.full :=
      funext fun q => Arena.full_congr (Arena.words_setPage_same (a := s.arena) rfl)
    unfold KeptInv
    rw [hflag, hfull]
    apply (h he).push hp rfl (fun q => by rw [ht]; rfl)
    intro pc' e
    subst e
    simp [afterDrop, Control.map, DropThread.recalls]

theorem KeptInv.start (cap : Nat) : (start cap).KeptInv := by
  intro p hp
  have hflag : ∀ page, (Heap.empty.makeList PageArena.new (pagesFor cap)).1.get p = page →
    page.inFreeList = false := by
    intro page e
    rw [← e]; exact hp
  rcases Heap.get_makeList PageArena.new (pagesFor cap) Heap.empty p with e | ⟨-, next, e⟩
  · have := hflag _ (e.trans (Heap.get_empty p))
    cases this
  · have := hflag _ e
    cases this

theorem KeptInv.of_reach (h : Arena.machine.Reach (fun s a => s.clearsInTime a = true) s)
    (he : s.owner.ends = false) : s.KeptInv := by
  refine h.invariant (I := fun s => s.owner.ends = false → s.KeptInv) ?_
    (fun s a s' hr hk hc hs he => ?_) he
  · intro s hs _
    obtain ⟨cap, rfl⟩ := hs
    exact start cap
  · exact KeptInv.step hk (.of_reach hr) hc (moves_of_step hs) he

end ArenaState

/-! ## The arena of many threads -/

def SharedArena.full (a : SharedArena) (p : Addr) : Bool := a.word p &&& ~~~maskArenaBit = 0

def SharedCall.recalls (p : Addr) : SharedCall → Bool
  | .drop q _ pc => q = p && pc.beforeSwap
  | _ => false

namespace SharedState

def recalled (s : SharedState) (p : Addr) : Bool := s.threads.any (SharedCall.recalls p)

def clearsInTime (s : SharedState) : SharedAct → Bool
  | .step t => match s.threads.get t with
    | .alloc (.clearInFree p) => s.arena.full p || s.recalled p
    | _ => true
  | _ => true

end SharedState

namespace SharedArena

variable {a a' : SharedArena} {p : Addr}

theorem full_congr (h : a'.word p = a.word p) : a'.full p = a.full p := by
  unfold full
  rw [h]

theorem full_mono (h : ∀ i < 63, (a.word p).getLsbD i = false → (a'.word p).getLsbD i = false)
    (hf : a.full p = true) :
    a'.full p = true := by
  unfold full at hf ⊢
  rw [decide_eq_true_eq, and_not_mask_eq_zero_iff] at hf ⊢
  exact fun i hi => h i hi (hf i hi)

theorem inFreeList_putPages {n : Nat} {first last : Addr} {pc : PutPc} :
    (a.putPages n first last pc).1.inFreeList = a.inFreeList := by
  cases pc with
  | storeNext => exact inFreeList_setPage (by rfl)
  | loadFull | swapFull | loadFree | swapFree | addPages => rfl

theorem inFreeList_takePages {pc : TakePc} (hf : (a.takePages pc).1.inFreeList p = false) :
    a.inFreeList p = false := by
  cases pc with
  | linkFree kept reinsert rest | link kept reinsert rest =>
    cases rest with
    | nil => exact hf
    | cons => exact (congrFun (inFreeList_setPage (by rfl)) p).symm.trans hf
  | setInFree kept reinsert rest =>
    cases rest with
    | nil => exact hf
    | cons q rest =>
      have hflag : (a.takePages (.setInFree kept reinsert (q :: rest))).1.inFreeList =
          Function.update a.inFreeList q true := PageOps.inFreeList_set ..
      rw [hflag, Function.update_apply] at hf
      split at hf
      · cases hf
      · exact hf
  | put => rw [← inFreeList_putPages]; exact hf
  | swapToFree | loadPages | storeToFree | storeDelay => exact hf

theorem findPlace_flag {pc : FindPc} {control : Control FindPc (Addr × Nat)}
    (hs : a.findPlace pc = (a', control)) (hf : a'.inFreeList p = false) :
    a.inFreeList p = false ∨ pc = .clearInFree p := by
  cases pc with
  | clearInFree q =>
    obtain ⟨rfl, -⟩ := Prod.mk.inj hs
    have hflag : (a.setPage q { a.page q with inFreeList := false }).inFreeList =
      Function.update a.inFreeList q false :=
      PageOps.inFreeList_set ..
    by_cases e : p = q
    · exact Or.inr (by rw [e])
    · exact Or.inl ((Function.update_of_ne e ..).symm.trans ((congrFun hflag p).symm.trans hf))
  | acquire q pc =>
    simp only [findPlace] at hs
    obtain ⟨rfl, -⟩ := Prod.mk.inj hs
    have hflag : (PageSharedArena.acquireFreeBlock (a.page q) pc).1.inFreeList = a.inFreeList q :=
      congrArg PageLinks.inFreeList links_acquire
    exact Or.inl ((congrFun (inFreeList_setPage hflag) p).symm.trans hf)
  | maybeFree guarded pc =>
    simp only [findPlace] at hs
    obtain ⟨rfl, -⟩ := Prod.mk.inj hs
    cases pc with
    | dropPage q rest pc =>
      cases pc with
      | fetch => exact Or.inl ((congrFun (inFreeList_setPage (a := a) (by rfl)) p).symm.trans hf)
      | deallocate =>
        exact Or.inl ((congrFun (inFreeList_setPage (a := a) (by rfl)) p).symm.trans hf)
    | loadDelay | fetchAdd | swapToFree => exact Or.inl hf
  | take pc =>
    simp only [findPlace] at hs
    obtain ⟨rfl, -⟩ := Prod.mk.inj hs
    exact Or.inl (inFreeList_takePages hf)
  | put n first last pc =>
    simp only [findPlace] at hs
    obtain ⟨rfl, -⟩ := Prod.mk.inj hs
    rw [inFreeList_putPages] at hf
    exact Or.inl hf
  | loadPages =>
    obtain ⟨rfl, -⟩ := Prod.mk.inj hs
    -- new pages are flagged
    have hflag : ∀ page, (a.heap.makeList PageSharedArena.new (growth a.npages)).1.get p = page →
        page.inFreeList = false := by
      intro page e
      rw [← e]; exact hf
    rcases Heap.get_makeList PageSharedArena.new (growth a.npages) a.heap p with e | ⟨-, next, e⟩
    · exact Or.inl (hflag _ e)
    · have := hflag _ e
      cases this
  | loadFree | casFree =>
    simp only [findPlace] at hs
    split at hs <;> obtain ⟨rfl, -⟩ := Prod.mk.inj hs
    · exact Or.inl hf
    · exact Or.inl hf
  | loadNext | loadWriter | swapWriter | loadContended | recheckFree | loadPending | swapPending
  | swapFree | loadToFree
    | unlock =>
    obtain ⟨rfl, -⟩ := Prod.mk.inj hs
    exact Or.inl hf

end SharedArena

namespace SharedState

def KeptInv (s : SharedState) : Prop :=
  Kept s.arena.inFreeList s.arena.full SharedCall.recalls s.threads

variable {s s' : SharedState} {place : Addr → Place Tid Shelf} {listed : List Addr}

theorem KeptInv.alloc (h : s.KeptInv) (hl : SharedListsInv True s place listed) {t : Tid}
    {pc : SharedArena.FindPc} {arena : SharedArena} {handles : List (Addr × Nat)}
    {control : Control SharedArena.FindPc (Addr × Nat)} (ht : s.threads.get t = .alloc pc)
    (hc : s.clearsInTime (.step t) = true) (hs : s.arena.findPlace pc = (arena, control)) :
    KeptInv { arena, handles, threads := s.threads.set t (.afterAlloc control) } := by
  -- no block becomes free
  have hword : ∀ p, place p ≠ .aside .fresh → ∀ i < 63, (s.arena.word p).getLsbD i = false →
      (arena.word p).getLsbD i = false := by
    intro p hp i hi hb
    cases (SharedArena.findPlace_word hs).1 with
    | look _ hw | scan _ _ hw | keep hw => rw [hw]; exact hb
    | take hw =>
      rw [hw, Function.update_apply]
      split
      · rename_i e
        rw [← e, BitVec.getLsbD_and, hb]; rfl
      · exact hb
    | giveUp hw =>
      rw [hw, Function.update_apply]
      split
      · rename_i e
        rw [← e, getLsbD_sub_mask_lt hi]; exact hb
      · exact hb
    | grow hw =>
      rcases hw p with e | ⟨hle, -⟩
      · rw [e]; exact hb
      · exact absurd ((hl.placed.fresh p).mpr hle) hp
  have hkeep : ∀ p, place p ≠ .aside .fresh → s.arena.full p = true ∨ s.recalled p = true →
      arena.full p = true ∨ (s.threads.set t (.afterAlloc control)).any
        (SharedCall.recalls p) = true := by
    intro p hp hk
    refine hk.imp (SharedArena.full_mono (hword p hp)) (Store.any_set fun e => ?_)
    rw [ht] at e
    cases e
  intro p hp
  rcases SharedArena.findPlace_flag hs hp with hf | rfl
  · refine hkeep p (fun e => ?_) (h p hf)
    have hout := (hl.placed.circulates.out p).mp hf
    rw [e] at hout
    cases hout
  · refine hkeep p (fun e => ?_) ?_
    · obtain ⟨chain, bag, hh, hshape⟩ := hl.stands t
      rw [ht] at hshape
      obtain ⟨rfl, rfl⟩ := hshape
      have := hh.mem (p := p) (by simp)
      rw [e] at this
      cases this
    · simpa only [clearsInTime, ht, Bool.or_eq_true] using hc

theorem KeptInv.step (h : s.KeptInv) (hl : SharedListsInv True s place listed)
    (hu : UnshrunkInv s) {a : SharedAct} (ha : a.noShrink = true) (hc : s.clearsInTime a = true)
    (hm : Moves s a s') : s'.KeptInv := by
  cases hm with
  | startShrink => cases ha
  | startAlloc ht | startDrop ht =>
    exact Kept.quiet h (fun q => by rw [ht]; rfl) (fun _ hq => hq) fun _ _ hq => hq
  | alloc ht hs => exact h.alloc hl ht hc hs
  | @shrink t pc arena control ht hs =>
    have := hu.calls t
    rw [ht] at this
    cases this
  | @giveBlock t p i page last ht hg =>
    obtain ⟨rfl, rfl⟩ := Prod.mk.inj hg
    have hflag : (s.arena.setPage p { s.arena.page p with
        bitfield := (s.arena.page p).bitfield + bit i }).inFreeList = s.arena.inFreeList :=
      SharedArena.inFreeList_setPage rfl
    unfold KeptInv
    rw [hflag]
    refine Kept.give (p := p) h (fun q hq => ?_) (fun q hq => SharedArena.full_congr ?_) fun _ => ?_
    · rw [ht]; simp [SharedCall.recalls, Ne.symm hq]
    · rw [SharedArena.word_setPage, Function.update_of_ne hq]
    · -- the arena still owns the page
      have hlast : (PageSharedArena.giveBlock i (s.arena.page p)).2 = false := by
        by_contra hne
        have htrue : (PageSharedArena.giveBlock i (s.arena.page p)).2 = true := by simpa using hne
        have hmask : ~~~((s.arena.page p).bitfield ||| bit i) = maskArenaBit :=
          of_decide_eq_true htrue
        have h63 := (not_eq_mask_iff.mp hmask).1
        have harena : (s.arena.page p).bitfield.getLsbD 63 = true := hu.arenaBit p
        rw [BitVec.getLsbD_or, harena] at h63
        cases h63
      rw [show decide _ = false from hlast]
      simp [SharedCall.recalls, DropPc.beforeSwap]
  | @freeBlock t p i ht =>
    have hflag :
      ({ s.arena with heap := (s.arena.heap.set p (s.arena.page p)).free (.dropBlock p) } :
        SharedArena).inFreeList = s.arena.inFreeList := SharedArena.inFreeList_setPage
          (a := s.arena) rfl
    have hword :
      ({ s.arena with heap := (s.arena.heap.set p (s.arena.page p)).free (.dropBlock p) } :
        SharedArena).word = s.arena.word := SharedArena.word_setPage_same (a := s.arena) rfl
    unfold KeptInv
    rw [hflag]
    refine Kept.quiet h (fun q => ?_) (fun _ hq => hq) fun q _ hq =>
      (SharedArena.full_congr (congrFun hword q)).trans hq
    rw [ht]; simp [SharedCall.recalls, DropPc.beforeSwap]
  | @push t p i pc links pending control ht hp =>
    have hflag : ({ s.arena.setPage p { s.arena.page p with toPageLinks := links } with
        pendingFreeList := pending } : SharedArena).inFreeList =
        Function.update s.arena.inFreeList p links.inFreeList := PageOps.inFreeList_set ..
    have hword : ({ s.arena.setPage p { s.arena.page p with toPageLinks := links } with
        pendingFreeList := pending } : SharedArena).word = s.arena.word :=
      SharedArena.word_setPage_same (a := s.arena) rfl
    have hfull : ({ s.arena.setPage p { s.arena.page p with toPageLinks := links } with
        pendingFreeList := pending } : SharedArena).full = s.arena.full :=
      funext fun q => SharedArena.full_congr (congrFun hword q)
    unfold KeptInv
    rw [hflag, hfull]
    apply Kept.push h hp rfl (fun q => by rw [ht]; rfl)
    intro pc' e
    subst e
    simp [SharedCall.afterDrop, Control.map, SharedCall.recalls]

theorem KeptInv.start (cap : Nat) : (start cap).KeptInv := by
  intro p hp
  have hflag : ∀ page, (Heap.empty.makeList PageSharedArena.new (pagesFor cap)).1.get p = page →
      page.inFreeList = false := by
    intro page e
    rw [← e]; exact hp
  rcases Heap.get_makeList PageSharedArena.new (pagesFor cap) Heap.empty p with e | ⟨-, next, e⟩
  · have := hflag _ (e.trans (Heap.get_empty p))
    cases this
  · have := hflag _ e
    cases this

/-- What the steps of a run without `shrink_to_fit` meet that loses no capacity. -/
def capacityStep (s : SharedState) (a : SharedAct) : Bool :=
  a.noShrink && s.popsCurrent a && s.clearsInTime a

theorem noShrink_of_capacityStep {a : SharedAct} (h : s.capacityStep a = true) :
    a.noShrink = true ∧ s.popsCurrent a = true ∧ s.clearsInTime a = true := by
  unfold capacityStep at h
  simp only [Bool.and_eq_true] at h
  exact ⟨h.1.1, h.1.2, h.2⟩

theorem lists_of_capacityStep
    (h : SharedArena.machine.Reach (fun s a => s.capacityStep a = true) s) :
    ∃ place listed, SharedListsInv True s place listed :=
  SharedListsInv.of_reach (fun _ _ hc => (noShrink_of_capacityStep hc).2.1) (fun _ _ a hr _ =>
    (UnshrunkInv.of_reach (fun _ _ hc => (noShrink_of_capacityStep hc).2.1)
      (fun _ _ hc => (noShrink_of_capacityStep hc).1)
      hr).retainsAll a) h

theorem KeptInv.of_reach (h : SharedArena.machine.Reach (fun s a => s.capacityStep a = true) s) :
    s.KeptInv := by
  refine h.invariant ?_ fun s a s' hr hk hc hs => ?_
  · intro s hs
    obtain ⟨cap, rfl⟩ := hs
    exact start cap
  · obtain ⟨ha, hpop, hclear⟩ := noShrink_of_capacityStep hc
    obtain ⟨place, listed, hl⟩ := lists_of_capacityStep hr
    have hu : UnshrunkInv s := .of_reach (fun _ _ hc => (noShrink_of_capacityStep hc).2.1)
      (fun _ _ hc => (noShrink_of_capacityStep hc).1) hr
    exact hk.step hl hu ha hclear (moves_of_step hs)

end SharedState

/-! ## Every page with a free block is on a list -/

/-- In both arenas, if the flag of a page is only cleared while the page is full or a drop
on it is still to look at the flag, no page with a free block is off the lists when no
call is in progress. -/
theorem capacity_kept {s : ArenaState} {s' : SharedState}
    (h : Arena.machine.Reach (fun s a => s.clearsInTime a = true) s)
    (h' : SharedArena.machine.Reach (fun s a => s.capacityStep a = true) s') :
    (s.quiescent = true → ∀ p, OnChain s.arena.next s.arena.fullList p → s.arena.full p = false →
      OnChain s.arena.nextFree s.arena.freeList p ∨
      OnChain s.arena.nextFree s.arena.pendingFreeList p) ∧
    (s'.quiescent = true → ∀ p, OnChain s'.arena.next s'.arena.fullList p →
    s'.arena.full p = false →
      OnChain s'.arena.nextFree s'.arena.freeList p ∨
      OnChain s'.arena.nextFree s'.arena.pendingFreeList p) := by
  constructor
  · intro hq p hp hfull
    obtain ⟨howner, hthreads⟩ := Bool.and_eq_true_iff.mp hq
    apply (ArenaInv.of_reach h).onChain hq hp
    by_contra hflag
    have hends : s.owner.ends = false := by rw [of_decide_eq_true howner]; rfl
    rcases ArenaState.KeptInv.of_reach h hends p (by simpa using hflag) with hf | hr
    · rw [hfull] at hf; cases hf
    · obtain ⟨t, ht⟩ := Store.any_iff.mp hr
      rw [of_decide_eq_true (Store.all_iff.mp hthreads t)] at ht
      cases ht
  · intro hq p hp hfull
    obtain ⟨place, listed, hl⟩ := SharedState.lists_of_capacityStep h'
    apply hl.onChain hq hp
    by_contra hflag
    rcases SharedState.KeptInv.of_reach h' p (by simpa using hflag) with hf | hr
    · rw [hfull] at hf; cases hf
    · obtain ⟨t, ht⟩ := Store.any_iff.mp hr
      rw [of_decide_eq_true (Store.all_iff.mp hq t)] at ht
      cases ht

/-! ## Runs around a full page -/

/-- The owner found its page full; then thread 0 drops block 7, by `n` operations. -/
def Arena.fullThenDrop (n : Nat) : List ArenaAct :=
  takePage ++ .alloc :: List.replicate 3 .stepOwner ++ .drop 0 0 7 :: List.replicate n
    (.step 0 true)

/-- Thread 0 took its page out of the free list; then thread 1 drops block 7, by `n` operations. -/
def SharedAct.fullThenDrop (n : Nat) : List SharedAct := takes 0 63 ++ allocs 0 4 ++ drops 1 0 7 n

/-- The flag is cleared before the drop looks at it, so the drop pushes the page. -/
theorem capacity_kept_recalled :
    (∃ s : ArenaState, OnChain s.arena.nextFree s.arena.freeList 0 ∨
    OnChain s.arena.nextFree s.arena.pendingFreeList 0) ∧
    ∃ s : SharedState, OnChain s.arena.nextFree s.arena.freeList 0 ∨
    OnChain s.arena.nextFree s.arena.pendingFreeList 0 := by
  have hstart : Arena.machine.init (.start 63) := ⟨63, rfl⟩
  have hstart' : SharedArena.machine.init (.start 63) := ⟨63, rfl⟩
  obtain ⟨s, hs, hp⟩ := Machine.Reach.exists_of_runIf hstart (fun s a => s.clearsInTime a)
    (Arena.fullThenDrop 1 ++ List.replicate 2 .stepOwner ++ List.replicate 6 (.step 0 true) ++
      .drop 1 0 8 :: List.replicate 2 (.step 1 true) ++ List.replicate 9 .stepOwner)
    (fun s => decide (s.quiescent = true ∧ s.arena.fullList = some 0 ∧ s.arena.next 0 = none ∧
      s.arena.full 0 = false))
    (fun _ _ h => h) (by decide +kernel)
  obtain ⟨hq, hfull, hnext, hfree⟩ := of_decide_eq_true hp
  obtain ⟨s', hs', hp'⟩ := Machine.Reach.exists_of_runIf hstart' (fun s a => s.capacityStep a)
    (SharedAct.fullThenDrop 1 ++ SharedAct.steps 0 1 ++ SharedAct.steps 1 6 ++
      SharedAct.drops 2 0 8 2 ++
      SharedAct.steps 0 12)
    (fun s => decide (s.quiescent = true ∧ s.arena.fullList = some 0 ∧ s.arena.next 0 = none ∧
      s.arena.full 0 = false))
    (fun _ _ h => h) (by decide +kernel)
  obtain ⟨hq', hfull', hnext', hfree'⟩ := of_decide_eq_true hp'
  have hkept := capacity_kept hs hs'
  exact ⟨⟨s, hkept.1 hq 0 ⟨[0], ⟨hfull, hnext⟩, by simp⟩ hfree⟩,
    ⟨s', hkept.2 hq' 0 ⟨[0], ⟨hfull', hnext'⟩, by simp⟩ hfree'⟩⟩

def ArenaAct.noShrink : ArenaAct → Bool
  | .shrink => false
  | _ => true

/-- The drop finds the flag up and returns; then the flag is cleared. The page has a free
block and is on no list, and no call is in progress. -/
theorem capacity_lost :
    (∃ s : ArenaState, Arena.machine.Reach (fun _ a => a.noShrink = true) s ∧ s.quiescent = true ∧
      OnChain s.arena.next s.arena.fullList 0 ∧ s.arena.full 0 = false ∧
      ¬ OnChain s.arena.nextFree s.arena.freeList 0 ∧
      ¬ OnChain s.arena.nextFree s.arena.pendingFreeList 0) ∧
    ∃ s : SharedState, SharedArena.machine.Reach (fun _ a => a.noShrink = true) s ∧
    s.quiescent = true ∧
      OnChain s.arena.next s.arena.fullList 0 ∧ s.arena.full 0 = false ∧
      ¬ OnChain s.arena.nextFree s.arena.freeList 0 ∧
      ¬ OnChain s.arena.nextFree s.arena.pendingFreeList 0 := by
  have hstart : Arena.machine.init (.start 63) := ⟨63, rfl⟩
  have hstart' : SharedArena.machine.init (.start 63) := ⟨63, rfl⟩
  -- page 1 is new and alone on the free list
  have hoff : ∀ {nextFree : Addr → Ptr} {l : List Addr} {head : Ptr}, Linked nextFree head l →
    (0 : Addr) ∉ l →
      ¬ OnChain nextFree head 0 := fun hl h0 hc => h0 ((OnChain.iff_mem hl).mp hc)
  constructor
  · obtain ⟨s, hs, hp⟩ := Machine.Reach.exists_of_runIf hstart (fun _ a => a.noShrink)
      (Arena.fullThenDrop 2 ++ List.replicate 10 .stepOwner)
      (fun s => decide
        (s.quiescent = true ∧
        (s.arena.fullList = some 1 ∧ s.arena.next 1 = some 0 ∧ s.arena.next 0 = none) ∧
        s.arena.full 0 = false ∧ (s.arena.freeList = some 1 ∧ s.arena.nextFree 1 = none) ∧
          s.arena.pendingFreeList = none))
      (fun _ _ h => h) (by decide +kernel)
    obtain ⟨hq, hfull, hfree, hlist, hpending⟩ := of_decide_eq_true hp
    exact ⟨s, hs, hq, ⟨[1, 0], ⟨hfull.1, hfull.2.1, hfull.2.2⟩, by simp⟩, hfree,
      hoff (l := [1]) ⟨hlist.1, hlist.2⟩ (by simp), hoff (l := []) hpending (by simp)⟩
  · obtain ⟨s, hs, hp⟩ := Machine.Reach.exists_of_runIf hstart' (fun _ a => a.noShrink)
      (SharedAct.fullThenDrop 2 ++ SharedAct.steps 0 18)
      (fun s => decide
        (s.quiescent = true ∧
        (s.arena.fullList = some 1 ∧ s.arena.next 1 = some 0 ∧ s.arena.next 0 = none) ∧
        s.arena.full 0 = false ∧ (s.arena.freeList = some 1 ∧ s.arena.nextFree 1 = none) ∧
          s.arena.pendingFreeList = none))
      (fun _ _ h => h) (by decide +kernel)
    obtain ⟨hq, hfull, hfree, hlist, hpending⟩ := of_decide_eq_true hp
    exact ⟨s, hs, hq, ⟨[1, 0], ⟨hfull.1, hfull.2.1, hfull.2.2⟩, by simp⟩, hfree,
      hoff (l := [1]) ⟨hlist.1, hlist.2⟩ (by simp), hoff (l := []) hpending (by simp)⟩

end MemoryPools
