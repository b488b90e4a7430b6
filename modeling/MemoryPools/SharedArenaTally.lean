import MemoryPools.SharedArenaCount
import MemoryPools.SharedArenaStats
import MemoryPools.SharedArenaSound

/-!
# What `stats` counts

`stats` walks `free_list` and then `pending_free_list` while other threads run, and reads
`npages` last. The subtraction does not underflow in the runs where nobody moves a page that
the walk has counted, or still has ahead of it (`stats_never_underflows`).
-/

namespace MemoryPools

open Interleave SharedArena

/-! ## The machine -/

namespace SharedArena.StatsPc

def front : StatsPc → Ptr
  | .loadNext _ page _ => some page
  | .loadBits _ _ next _ => next
  | _ => none

def early : StatsPc → Bool
  | .loadNext pending _ _ | .loadBits pending _ _ _ => !pending
  | .loadPending _ => true
  | _ => false

def sees (seen : List Addr) : StatsPc → List Addr
  | .loadNext _ page _ => seen ++ [page]
  | .loadPages _ => []
  | _ => seen

end SharedArena.StatsPc

inductive SharedStatsCall
  | idle
  | running (pc : StatsPc)
  | panicked
  deriving DecidableEq

namespace SharedStatsCall

def after : Control StatsPc (Nat × Nat) → SharedStatsCall
  | .goto pc => .running pc
  | .ret _ => .idle
  | .panic => .panicked

def front : SharedStatsCall → Ptr
  | .running pc => pc.front
  | _ => none

def early : SharedStatsCall → Bool
  | .running pc => pc.early
  | _ => false

end SharedStatsCall

/-- `seen` is history: no step depends on it. -/
structure SharedStatsState where
  state : SharedState
  stats : SharedStatsCall
  seen : List Addr

inductive SharedStatsAct
  | stats
  | stepStats
  | act (a : SharedAct)
  deriving DecidableEq

namespace SharedStatsState

def step (s : SharedStatsState) : SharedStatsAct → Option SharedStatsState
  | .stats => if s.stats = .idle then some { s with stats := .running .loadFree } else none
  | .stepStats =>
    match s.stats with
    | .running pc =>
      some { s with stats := .after (s.state.arena.stats pc), seen := pc.sees s.seen }
    | .idle | .panicked => none
  | .act a => (s.state.step a).map fun state => { s with state }

def start (cap : Nat) : SharedStatsState where
  state := .start cap
  stats := .idle
  seen := []

end SharedStatsState

def SharedArena.statsMachine : Machine SharedStatsState SharedStatsAct where
  init s := ∃ cap < 2 ^ 64, s = .start cap
  step := SharedStatsState.step

/-! ## What others leave alone -/

namespace SharedCall

/-- `drop_block` is about to write the `next_free` of page `q`. -/
def Relinks (q : Addr) : SharedCall → Prop
  | .drop p _ (.push (.storeNextFree _)) => p = q
  | _ => False

/-- `drop_block` is about to put page `q` on `pending_free_list`. -/
def Pushes (pending : Ptr) (q : Addr) : SharedCall → Prop
  | .drop p _ (.push (.casPending current)) => p = q ∧ pending = current
  | _ => False

def calm : SharedCall → Bool
  | .drop _ _ (.push (.storeNextFree _)) | .drop _ _ (.push (.casPending _))
  | .shrink (.swapToFree ..) => false
  | _ => true

end SharedCall

namespace SharedStatsState

def Ahead (s : SharedStatsState) (q : Addr) : Prop :=
  OnChain s.state.arena.nextFree s.stats.front q

def Walks (s : SharedStatsState) (q : Addr) : Prop := q ∈ s.seen ∨ s.Ahead q

structure Spares (s : SharedStatsState) (c : SharedCall) : Prop where
  relinks : ∀ q, s.Ahead q → ¬ c.Relinks q
  pushes : s.stats.early = true → ∀ q, s.Walks q → ¬ c.Pushes s.state.arena.pendingFreeList q
  parks : ∀ q, s.Walks q → ¬ c.Parks q

/-- `stats` loads `npages` when no page that it counted is still to be added. -/
def Settled (s : SharedStatsState) : Prop :=
  ∀ free, s.stats = .running (.loadPages free) →
    ∀ t, ∀ q ∈ (s.state.threads.get t).adding, q ∉ s.seen

def Undisturbed (s : SharedStatsState) : SharedStatsAct → Prop
  | .stats => True
  | .stepStats => s.Settled
  | .act a => s.state.popsCurrent a = true ∧ s.state.addsFit a = true ∧
      s.Spares (s.state.threads.get a.thread)

theorem Spares.of_calm {s : SharedStatsState} {c : SharedCall} (h : c.calm = true) : s.Spares c := by
  refine ⟨fun q _ hq => ?_, fun _ q _ hq => ?_, fun q _ hq => ?_⟩
  · unfold SharedCall.Relinks at hq
    split at hq
    · cases h
    · exact hq
  · unfold SharedCall.Pushes at hq
    split at hq
    · cases h
    · exact hq
  · unfold SharedCall.Parks at hq
    split at hq
    · cases h
    · exact hq

/-- No call pushes or parks a page, and none is about to add pages when `stats` goes on. -/
def calm (s : SharedStatsState) : SharedStatsAct → Bool
  | .stats => true
  | .stepStats => s.state.threads.all fun c => c.adding = []
  | .act a => s.state.popsCurrent a && s.state.addsFit a && (s.state.threads.get a.thread).calm

theorem Settled.of_all {s : SharedStatsState}
    (h : (s.state.threads.all fun c => c.adding = []) = true) : s.Settled := by
  intro free _ t q hq
  have hnil : (s.state.threads.get t).adding = [] := of_decide_eq_true (Store.all_iff.mp h t)
  rw [hnil] at hq
  cases hq

theorem undisturbed_of_calm {s : SharedStatsState} {a : SharedStatsAct} (h : s.calm a = true) :
    s.Undisturbed a := by
  cases a with
  | stats => trivial
  | stepStats => exact .of_all h
  | act a =>
    unfold calm at h
    rw [Bool.and_eq_true, Bool.and_eq_true] at h
    exact ⟨h.1.1, h.1.2, .of_calm h.2⟩

end SharedStatsState

/-! ## What a step does to the links -/

namespace SharedArena

variable {a a' : SharedArena}

theorem nextFree_setPage {p : Addr} {x : PageSharedArena} :
    (a.setPage p x).nextFree = Function.update a.nextFree p x.nextFree :=
  PageOps.nextFree_set ..

theorem nextFree_setPage_same {p : Addr} {x : PageSharedArena} (h : x.nextFree = a.nextFree p) :
    (a.setPage p x).nextFree = a.nextFree :=
  PageOps.nextFree_set_same h

theorem nextFree_putPages {n : Nat} {first last : Addr} {pc : PutPc} :
    (a.putPages n first last pc).1.nextFree = a.nextFree ∧
    (a.putPages n first last pc).1.pendingFreeList = a.pendingFreeList := by
  cases pc with
  | storeNext => exact ⟨nextFree_setPage_same rfl, rfl⟩
  | loadFull | swapFull | loadFree | swapFree | addPages => exact ⟨rfl, rfl⟩

def TakePc.Links (q : Addr) : TakePc → Prop
  | .linkFree _ _ rest => rest.head? = some q
  | _ => False

theorem takePages_links {pc : TakePc} :
    (a.takePages pc).1.pendingFreeList = a.pendingFreeList ∧
    ∀ q, ¬ pc.Links q → (a.takePages pc).1.nextFree q = a.nextFree q := by
  cases pc with
  | linkFree kept reinsert rest =>
    cases rest with
    | nil => exact ⟨rfl, fun _ _ => rfl⟩
    | cons p rest =>
      refine ⟨rfl, fun q hq => ?_⟩
      have hne : q ≠ p := fun e => hq (congrArg some e.symm)
      show (a.setPage p _).nextFree q = _
      rw [nextFree_setPage, Function.update_of_ne hne]
  | link kept reinsert rest | setInFree kept reinsert rest =>
    cases rest with
    | nil => exact ⟨rfl, fun _ _ => rfl⟩
    | cons p rest =>
      suffices h : (a.takePages _).1.nextFree = a.nextFree from ⟨rfl, fun q _ => congrFun h q⟩
      exact nextFree_setPage_same rfl
  | put => exact ⟨nextFree_putPages.2, fun q _ => congrFun nextFree_putPages.1 q⟩
  | swapToFree | loadPages | storeToFree | storeDelay => exact ⟨rfl, fun _ _ => rfl⟩

theorem maybeFree_links {pc : MaybePc} :
    (a.maybeFreePages pc).1.nextFree = a.nextFree ∧
    (a.maybeFreePages pc).1.pendingFreeList = a.pendingFreeList := by
  cases pc with
  | dropPage p rest pc =>
    cases pc with
    | fetch => exact ⟨nextFree_setPage_same rfl, rfl⟩
    | deallocate => exact ⟨nextFree_setPage_same (a := a) rfl, rfl⟩
  | loadDelay | fetchAdd | swapToFree => exact ⟨rfl, rfl⟩

theorem findPlace_links {pc : FindPc} {control : Control FindPc (Addr × Nat)}
    (hs : a.findPlace pc = (a', control)) :
    (a'.pendingFreeList = a.pendingFreeList ∨ a'.pendingFreeList = none) ∧
    ∀ q : Addr, q < a.heap.size → (∀ take, pc = .take take → ¬ take.Links q) →
      a'.nextFree q = a.nextFree q := by
  cases pc with
  | loadFree | casFree =>
    simp only [findPlace] at hs
    split at hs <;> obtain ⟨rfl, -⟩ := Prod.mk.inj hs
    · exact ⟨Or.inl rfl, fun _ _ _ => rfl⟩
    · exact ⟨Or.inl rfl, fun _ _ _ => rfl⟩
  | acquire p pc =>
    have ha := congrArg Prod.fst hs
    subst ha
    have hlinks : (PageSharedArena.acquireFreeBlock (a.page p) pc).1.nextFree = a.nextFree p :=
      congrArg PageLinks.nextFree links_acquire
    exact ⟨Or.inl rfl, fun q _ _ => congrFun (nextFree_setPage_same hlinks) q⟩
  | clearInFree p =>
    obtain ⟨rfl, -⟩ := Prod.mk.inj hs
    suffices h : (a.setPage p _).nextFree = a.nextFree from ⟨Or.inl rfl, fun q _ _ => congrFun h q⟩
    exact nextFree_setPage_same rfl
  | loadNext | loadWriter | swapWriter | loadContended | recheckFree | loadPending | swapFree
  | loadToFree | unlock =>
    obtain ⟨rfl, -⟩ := Prod.mk.inj hs
    exact ⟨Or.inl rfl, fun _ _ _ => rfl⟩
  | swapPending =>
    obtain ⟨rfl, -⟩ := Prod.mk.inj hs
    exact ⟨Or.inr rfl, fun _ _ _ => rfl⟩
  | maybeFree guarded pc =>
    have ha := congrArg Prod.fst hs
    subst ha
    exact ⟨Or.inl maybeFree_links.2, fun q _ _ => congrFun maybeFree_links.1 q⟩
  | take pc =>
    have ha := congrArg Prod.fst hs
    subst ha
    exact ⟨Or.inl takePages_links.1, fun q _ hq => takePages_links.2 q (hq pc rfl)⟩
  | loadPages =>
    obtain ⟨rfl, -⟩ := Prod.mk.inj hs
    exact ⟨Or.inl rfl, fun q hold _ => (PageOps.links_makeList_old _ _ _ hold).1⟩
  | put n first last pc =>
    have ha := congrArg Prod.fst hs
    subst ha
    exact ⟨Or.inl nextFree_putPages.2, fun q _ _ => congrFun nextFree_putPages.1 q⟩

theorem shrinkToFit_links {pc : ShrinkPc} {control : Control ShrinkPc Bool}
    (hs : a.shrinkToFit pc = (a', control)) :
    a'.pendingFreeList = a.pendingFreeList ∧ (a'.nextFree = a.nextFree ∨
      ∃ start c value nextValue toDrop, pc = .walkCas start (some c) value nextValue toDrop ∧
        a.nextFree c = some value ∧ a'.nextFree = Function.update a.nextFree c nextValue) := by
  cases pc with
  | walkCas start current value nextValue toDrop =>
    simp only [shrinkToFit] at hs
    split at hs
    · rename_i hread
      cases current with
      | none =>
        obtain ⟨rfl, -⟩ := Prod.mk.inj hs
        exact ⟨rfl, Or.inl rfl⟩
      | some c =>
        obtain ⟨rfl, -⟩ := Prod.mk.inj hs
        exact ⟨rfl, Or.inr ⟨start, c, value, nextValue, toDrop, rfl, hread, nextFree_setPage⟩⟩
    · obtain ⟨rfl, -⟩ := Prod.mk.inj hs
      exact ⟨rfl, Or.inl rfl⟩
  | fullCas start toDrop current =>
    simp only [shrinkToFit] at hs
    split at hs
    · cases current with
      | none =>
        obtain ⟨rfl, -⟩ := Prod.mk.inj hs
        exact ⟨rfl, Or.inl rfl⟩
      | some c =>
        obtain ⟨rfl, -⟩ := Prod.mk.inj hs
        exact ⟨rfl, Or.inl (nextFree_setPage_same rfl)⟩
    · obtain ⟨rfl, -⟩ := Prod.mk.inj hs
      exact ⟨rfl, Or.inl rfl⟩
  | walk | walkBits | full | fullNext =>
    simp only [shrinkToFit] at hs
    split at hs <;> · obtain ⟨rfl, -⟩ := Prod.mk.inj hs; exact ⟨rfl, Or.inl rfl⟩
  | swapShrinking | swapWriter | swapFree | loadPages | walkNext | retain | storeDelay | swapToFree
  | storeToFree | restore | subPages | clearShrinking | unlock =>
    obtain ⟨rfl, -⟩ := Prod.mk.inj hs
    exact ⟨rfl, Or.inl rfl⟩

end SharedArena

/-! ## Chains that a step leaves -/

namespace Counted

variable {s s' : SharedState} {place : Addr → Place Tid Shelf} {listed un : List Addr}

/-- A chain of counted pages loses at most the page that `shrink_to_fit` unlinks. -/
theorem follow (h : Counted s place listed un) {a : SharedAct} (hm : SharedState.Moves s a s')
    {head : Ptr} {l : List Addr} (hl : Linked s.arena.nextFree head l)
    (hknown : ∀ q ∈ l, q < s.arena.heap.size ∧ q ∉ un ∧ ¬ (s.threads.get a.thread).Relinks q) :
    ∃ l', Linked s'.arena.nextFree head l' ∧ l' ⊆ l := by
  cases hm with
  | startAlloc | startShrink | startDrop => exact ⟨l, hl, List.Subset.refl l⟩
  | @alloc t pc arena control ht hs =>
    refine ⟨l, hl.congr fun q hq => (findPlace_links hs).2 q (hknown q hq).1 fun take e hlink => ?_,
      List.Subset.refl l⟩
    -- the page would be in the hands of the thread, and not counted
    subst e
    obtain ⟨chain, bag, hh, hshape⟩ := h.lists.stands t
    rw [ht] at hshape
    cases take with
    | linkFree kept reinsert rest =>
      obtain ⟨rfl, -, ⟨pre, hpre, -⟩, -⟩ := hshape
      have hmem : q ∈ chain := by
        rw [hpre]
        exact List.mem_append_right _ (List.mem_of_mem_head? hlink)
      have hheld := hh.mem (List.mem_append_left bag hmem)
      exact (hknown q hq).2.1 (h.uncounted.hidden t q hheld (by rw [ht]; trivial))
    | swapToFree | loadPages | link | setInFree | put | storeToFree | storeDelay => exact hlink
  | @shrink t pc arena control ht hs =>
    rcases (shrinkToFit_links hs).2 with e | ⟨start, c, value, nextValue, toDrop, rfl, hc, e⟩
    · refine ⟨l, ?_, List.Subset.refl l⟩
      show Linked arena.nextFree head l
      rwa [e]
    · obtain ⟨chain, bag, hh, hshape⟩ := h.lists.stands t
      rw [ht] at hshape
      obtain ⟨-, hnext, -⟩ := hshape
      have hnext : nextValue = s.arena.nextFree value := hnext
      show ∃ l', Linked arena.nextFree head l' ∧ l' ⊆ l
      rw [e, hnext]
      exact hl.skip hc
  | @giveBlock t p i page last ht hg =>
    obtain ⟨rfl, -⟩ := Prod.mk.inj hg
    have e : (s.arena.setPage p { s.arena.page p with
        bitfield := (s.arena.page p).bitfield + bit i }).nextFree = s.arena.nextFree :=
      nextFree_setPage_same rfl
    exact ⟨l, e ▸ hl, List.Subset.refl l⟩
  | @freeBlock t p i ht =>
    have e : (s.arena.setPage p (s.arena.page p)).nextFree = s.arena.nextFree :=
      nextFree_setPage_same rfl
    exact ⟨l, e ▸ hl, List.Subset.refl l⟩
  | @push t p i pc links pending control ht hp =>
    refine ⟨l, ?_, List.Subset.refl l⟩
    show Linked (s.arena.setPage p { s.arena.page p with toPageLinks := links }).nextFree head l
    rw [nextFree_setPage]
    refine hl.congr fun q hq => ?_
    have hq : ¬ (s.threads.get t).Relinks q := (hknown q hq).2.2
    rw [ht] at hq
    rcases push_links hp with e | ⟨current, rfl⟩
    · rw [e]
      exact congrFun (Function.update_eq_self p s.arena.nextFree) q
    · exact Function.update_of_ne (fun e => hq e.symm) _ _

theorem pending_cases (h : Counted s place listed un) {a : SharedAct}
    (hm : SharedState.Moves s a s') :
    s'.arena.pendingFreeList = s.arena.pendingFreeList ∨ s'.arena.pendingFreeList = none ∨
    ∃ p, (s.threads.get a.thread).Pushes s.arena.pendingFreeList p ∧
      s'.arena.pendingFreeList = some p ∧ s'.arena.nextFree p = s.arena.pendingFreeList := by
  cases hm with
  | startAlloc | startShrink | startDrop | giveBlock | freeBlock => exact Or.inl rfl
  | alloc ht hs =>
    exact (findPlace_links hs).1.imp_right Or.inl
  | shrink ht hs => exact Or.inl (shrinkToFit_links hs).1
  | @push t p i pc links pending control ht hp =>
    rcases push_pending hp with e | ⟨rfl, rfl, rfl⟩
    · exact Or.inl e
    · obtain ⟨chain, bag, hh, hshape⟩ := h.lists.stands t
      rw [ht] at hshape
      obtain ⟨-, -, hstored⟩ := hshape
      refine Or.inr (Or.inr ⟨p, ?_, rfl, ?_⟩)
      · show (s.threads.get t).Pushes _ p
        rw [ht]
        exact ⟨rfl, rfl⟩
      · show (s.arena.setPage p _).nextFree p = _
        rw [nextFree_setPage, Function.update_self]
        exact hstored _ rfl

theorem known (h : Counted s place listed un) {q : Addr} (haside : ∀ shelf, place q ≠ .aside shelf)
    (hheld : ∀ t, place q ≠ .held t) :
    q < s.arena.heap.size ∧ q ∉ un ∧ (s.arena.word q).getLsbD 63 = true ∧
      ∀ t, ¬ (s.threads.get t).Relinks q := by
  refine ⟨Nat.lt_of_not_le fun hle => haside _ ((h.lists.placed.fresh q).mpr hle), fun hq => ?_,
    h.bits q (haside _), fun t ht => ?_⟩
  · rcases h.uncounted.aside q hq with e | e | ⟨t, e, -⟩
    · exact haside _ e
    · exact haside _ e
    · exact hheld t e
  · obtain ⟨chain, bag, hh, hshape⟩ := h.lists.stands t
    unfold SharedCall.Relinks at ht
    split at ht
    · rename_i p i current hc
      subst ht
      rw [hc] at hshape
      obtain ⟨-, rfl, -⟩ := hshape
      exact hheld t (hh.mem (List.mem_append_right _ List.mem_cons_self))
    · exact ht

theorem fetched (h : Counted s place listed un) {t : Tid} {q : Addr}
    (hq : (s.threads.get t).Fetches q) : q ∈ un := by
  obtain ⟨guarded, rest, ht⟩ := SharedCall.fetches_iff.mp hq
  obtain ⟨chain, bag, hh, hshape⟩ := h.lists.stands t
  rw [ht] at hshape
  obtain ⟨-, rfl, -⟩ := hshape
  have hheld := hh.mem (List.mem_append_right chain List.mem_cons_self)
  exact h.uncounted.hidden t q hheld (by rw [ht]; trivial)

theorem pending_chain (h : Counted s place listed un) :
    ∃ l, Linked s.arena.nextFree s.arena.pendingFreeList l ∧ ∀ q ∈ l, place q = .pending :=
  (h.lists.placed.circulates.pending).imp fun _ hl => ⟨hl.1, fun q => (hl.2 q).mp⟩

theorem free_chain (h : Counted s place listed un) :
    ∃ l, Linked s.arena.nextFree s.arena.freeList l ∧ ∀ q ∈ l, place q = .free :=
  (h.lists.placed.circulates.free).imp fun _ hl => ⟨hl.1, fun q => (hl.2 q).mp⟩

end Counted

/-! ## The walk -/

/-- `l` is what the walk has ahead, `seen` what it has counted. Every page is there once,
and is one of the pages in `npages`. -/
structure Tally (s : SharedState) (un seen l : List Addr) (front : Ptr) (early : Bool) : Prop where
  ahead : Linked s.arena.nextFree front l
  nodup : (seen ++ l).Nodup
  known : ∀ q ∈ seen ++ l, q < s.arena.heap.size ∧ q ∉ un ∧ (s.arena.word q).getLsbD 63 = true
  apart : early = true → ∀ q ∈ seen ++ l, ¬ OnChain s.arena.nextFree s.arena.pendingFreeList q

theorem SharedState.Moves.size_le {s s' : SharedState} {a : SharedAct} (hm : s.Moves a s') :
    s.arena.heap.size ≤ s'.arena.heap.size := by
  cases hm with
  | startAlloc | startShrink | startDrop | freeBlock | push => exact Nat.le_refl _
  | giveBlock ht hg =>
    obtain ⟨rfl, -⟩ := Prod.mk.inj hg
    exact Nat.le_refl _
  | alloc ht hs => exact (findPlace_word hs).2
  | shrink ht hs => exact Nat.le_of_eq (shrinkToFit_word hs).2.symm

namespace Tally

variable {s s' : SharedState} {place : Addr → Place Tid Shelf} {listed un un' seen l : List Addr}
  {front : Ptr} {early : Bool} {a : SharedAct}

/-- A page comes to `pending_free_list` only by a push. -/
theorem apart_step (hc : Counted s place listed un) (hm : SharedState.Moves s a s') {q : Addr}
    (hq : ¬ OnChain s.arena.nextFree s.arena.pendingFreeList q)
    (hpush : ¬ (s.threads.get a.thread).Pushes s.arena.pendingFreeList q) :
    ¬ OnChain s'.arena.nextFree s'.arena.pendingFreeList q := by
  rintro ⟨m, hm', hqm⟩
  obtain ⟨l, hl, hplace⟩ := hc.pending_chain
  have hknown : ∀ r ∈ l, _ :=
    fun r hr => hc.known (q := r) (by simp [hplace r hr]) (by simp [hplace r hr])
  obtain ⟨l', hl', hsub⟩ := hc.follow hm hl fun r hr =>
    ⟨(hknown r hr).1, (hknown r hr).2.1, (hknown r hr).2.2.2 a.thread⟩
  have hnot : q ∉ l' := fun hq' => hq ⟨l, hl, hsub hq'⟩
  rcases hc.pending_cases hm with e | e | ⟨p, hp, e, hn⟩
  · rw [e] at hm'
    exact hnot (hm'.unique hl' ▸ hqm)
  · rw [e] at hm'
    cases m with
    | nil => cases hqm
    | cons => cases hm'.1
  · rw [e] at hm'
    cases m with
    | nil => cases hqm
    | cons r m =>
      obtain ⟨hr, hm'⟩ := hm'
      obtain rfl := Option.some.inj hr
      rw [hn] at hm'
      rcases List.mem_cons.mp hqm with rfl | hqm
      · exact hpush hp
      · exact hnot (hm'.unique hl' ▸ hqm)

theorem step (h : Tally s un seen l front early) (hc : Counted s place listed un)
    (hb : SharedBlocksInv s) (hm : SharedState.Moves s a s')
    (hrelinks : ∀ q ∈ l, ¬ (s.threads.get a.thread).Relinks q)
    (hpushes : early = true → ∀ q ∈ seen ++ l,
      ¬ (s.threads.get a.thread).Pushes s.arena.pendingFreeList q)
    (hparks : ∀ q ∈ seen ++ l, ¬ (s.threads.get a.thread).Parks q)
    (hgrows : ∀ q ∈ un', q ∈ un ∨ s.arena.heap.size ≤ q ∨ (s.threads.get a.thread).Parks q) :
    ∃ l', Tally s' un' seen l' front early ∧ l' ⊆ l := by
  obtain ⟨l', hl', hsub⟩ := hc.follow hm h.ahead fun q hq =>
    ⟨(h.known q (List.mem_append_right _ hq)).1, (h.known q (List.mem_append_right _ hq)).2.1,
      hrelinks q hq⟩
  have hall : ∀ q ∈ seen ++ l', q ∈ seen ++ l := by
    intro q hq
    rcases List.mem_append.mp hq with hq | hq
    · exact List.mem_append_left _ hq
    · exact List.mem_append_right _ (hsub hq)
  obtain ⟨hseen, -, hdisj⟩ := List.nodup_append.mp h.nodup
  refine ⟨l', ⟨hl', List.nodup_append.mpr ⟨hseen, hl'.nodup, fun q hq r hr => hdisj q hq r (hsub hr)⟩,
    fun q hq => ?_, fun hearly q hq => ?_⟩, hsub⟩
  · obtain ⟨hlt, hun, hbit⟩ := h.known q (hall q hq)
    refine ⟨Nat.lt_of_lt_of_le hlt hm.size_le, fun hq' => ?_, hb.arenaBit hm hbit fun hf => ?_⟩
    · rcases hgrows q hq' with hq' | hq' | hq'
      · exact hun hq'
      · exact Nat.not_lt.mpr hq' hlt
      · exact hparks q (hall q hq) hq'
    · exact hun (hc.fetched hf)
  · exact apart_step hc hm (h.apart hearly q (hall q hq)) (hpushes hearly q (hall q hq))

end Tally

/-! ## The count -/

def SharedArena.StatsPc.Counts (seen : List Addr) : StatsPc → Prop
  | .loadFree => seen = []
  | .loadNext _ _ free | .loadPending free | .loadPages free => free ≤ seen.length * blockPerPage
  | .loadBits _ page _ free => page ∈ seen ∧ free + blockPerPage ≤ seen.length * blockPerPage

def SharedStatsCall.Tallies (state : SharedState) (un seen : List Addr) : SharedStatsCall → Prop
  | .idle => seen = []
  | .running pc => pc.Counts seen ∧ ∃ l, Tally state un seen l pc.front pc.early
  | .panicked => False

theorem SharedArena.statsFrom_cases {seen : List Addr} {free : Nat} (pending : Bool) (next : Ptr)
    (h : free ≤ seen.length * blockPerPage) :
    ∃ pc, statsFrom pending free next = .goto pc ∧ pc.front = next ∧ pc.early = !pending ∧
      pc.Counts seen := by
  cases next with
  | some page => exact ⟨.loadNext pending page free, rfl, rfl, rfl, h⟩
  | none =>
    cases pending with
    | true => exact ⟨.loadPages free, rfl, rfl, rfl, h⟩
    | false => exact ⟨.loadPending free, rfl, rfl, rfl, h⟩

namespace Tally

variable {s : SharedState} {place : Addr → Place Tid Shelf} {listed un seen : List Addr}

theorem of_free (h : Counted s place listed un) :
    ∃ l, Tally s un [] l s.arena.freeList true := by
  obtain ⟨l, hl, hplace⟩ := h.free_chain
  refine ⟨l, hl, hl.nodup, fun q hq => ?_, fun _ q hq hchain => ?_⟩
  · obtain ⟨hlt, hun, hbit, -⟩ :=
      h.known (q := q) (by simp [hplace q hq]) (by simp [hplace q hq])
    exact ⟨hlt, hun, hbit⟩
  · obtain ⟨m, hm, hqm⟩ := hchain
    obtain ⟨m', hm', hplace'⟩ := h.pending_chain
    have e := hplace' q (hm.unique hm' ▸ hqm)
    rw [hplace q hq] at e
    cases e

theorem then_pending (ht : Tally s un seen [] none true) (h : Counted s place listed un) :
    ∃ l, Tally s un seen l s.arena.pendingFreeList false := by
  obtain ⟨l, hl, hplace⟩ := h.pending_chain
  obtain ⟨-, hnodup, hknown, hapart⟩ := ht
  rw [List.append_nil] at hnodup hknown hapart
  refine ⟨l, hl, List.nodup_append.mpr ⟨hnodup, hl.nodup, fun q hq r hr e => ?_⟩, fun q hq => ?_,
    nofun⟩
  · exact hapart rfl q hq ⟨l, hl, e ▸ hr⟩
  · rcases List.mem_append.mp hq with hq | hq
    · exact hknown q hq
    · obtain ⟨hlt, hun, hbit, -⟩ :=
        h.known (q := q) (by simp [hplace q hq]) (by simp [hplace q hq])
      exact ⟨hlt, hun, hbit⟩

/-- The pages that were counted are in `npages`, if none of them is still to be added. -/
theorem length_le {l : List Addr} {front : Ptr} {early : Bool} (ht : Tally s un seen l front early)
    (h : Counted s place listed un) (hg : GuardInv s)
    (hsettled : ∀ t, ∀ q ∈ (s.threads.get t).adding, q ∉ seen) :
    seen.length ≤ s.arena.npages := by
  have hknown := fun q (hq : q ∈ seen) => ht.known q (List.mem_append_left l hq)
  -- the pages of the thread that adds, if there is one
  obtain ⟨lot, hlot, hnodup, hout⟩ : ∃ lot : List Addr, s.threads.total SharedCall.toAdd = lot.length ∧
      lot.Nodup ∧ ∀ q ∈ lot, q ∉ seen ∧ q ∉ un ∧ q < s.arena.heap.size := by
    by_cases hw : ∃ t, (s.threads.get t).adding ≠ []
    · obtain ⟨t, hne⟩ := hw
      obtain ⟨q, hq⟩ := List.exists_mem_of_ne_nil _ hne
      obtain ⟨hnodup, hout⟩ := h.adds t
      exact ⟨_, Counted.total_toAdd hg (SharedCall.writes_of_adding hq), hnodup,
        fun r hr => ⟨hsettled t r hr, hout r hr⟩⟩
    · refine ⟨[], Store.total_eq_zero fun t => List.length_eq_zero_iff.mpr ?_, List.nodup_nil, nofun⟩
      by_contra hne
      exact hw ⟨t, hne⟩
  have hall : (seen ++ (lot ++ un)).Nodup := by
    refine List.nodup_append.mpr ⟨(List.nodup_append.mp ht.nodup).1, List.nodup_append.mpr
      ⟨hnodup, h.uncounted.nodup, fun q hq r hr e => (hout q hq).2.1 (e ▸ hr)⟩, fun q hq r hr e => ?_⟩
    subst e
    rcases List.mem_append.mp hr with hr | hr
    · exact (hout q hr).1 hq
    · exact (hknown q hq).2.1 hr
  have hsub : seen ++ (lot ++ un) ⊆ List.range s.arena.heap.size := by
    intro q hq
    apply List.mem_range.mpr
    rcases List.mem_append.mp hq with hq | hq
    · exact (hknown q hq).1
    · rcases List.mem_append.mp hq with hq | hq
      · exact (hout q hq).2.2
      · exact h.lt_size q hq
  have hle := (hall.subperm hsub).length_le
  rw [List.length_range, List.length_append, List.length_append] at hle
  have hcount := h.count
  omega

end Tally

theorem stats_tallies {s : SharedState} {place : Addr → Place Tid Shelf} {listed un seen : List Addr}
    {pc : StatsPc} (h : Counted s place listed un) (hg : GuardInv s) (hcounts : pc.Counts seen)
    (ht : ∃ l, Tally s un seen l pc.front pc.early)
    (hsettled : ∀ free, pc = .loadPages free → ∀ t, ∀ q ∈ (s.threads.get t).adding, q ∉ seen) :
    (SharedStatsCall.after (s.arena.stats pc)).Tallies s un (pc.sees seen) := by
  obtain ⟨l, ht⟩ := ht
  cases pc with
  | loadFree =>
    obtain rfl : seen = [] := hcounts
    have hzero : 0 ≤ ([] : List Addr).length * blockPerPage := Nat.zero_le _
    obtain ⟨pc', e, hfront, hearly, hcounts'⟩ := statsFrom_cases false s.arena.freeList hzero
    show (SharedStatsCall.after (statsFrom false 0 s.arena.freeList)).Tallies s un []
    rw [e]
    refine ⟨hcounts', ?_⟩
    rw [hfront, hearly]
    exact Tally.of_free h
  | loadNext pending page free =>
    obtain ⟨hahead, hnodup, hknown, hapart⟩ := ht
    cases l with
    | nil => cases hahead
    | cons q l =>
      obtain ⟨e, hahead⟩ := hahead
      obtain rfl := Option.some.inj e
      rw [List.append_cons] at hnodup hknown hapart
      have hcounts : free ≤ seen.length * blockPerPage := hcounts
      have hlen : (seen ++ [page]).length * blockPerPage = seen.length * blockPerPage + blockPerPage := by
        rw [List.length_append, List.length_singleton, Nat.succ_mul]
      refine ⟨⟨List.mem_append_right _ List.mem_cons_self, ?_⟩, l, hahead, hnodup, hknown, hapart⟩
      show free + blockPerPage ≤ (seen ++ [page]).length * blockPerPage
      omega
  | loadBits pending page next free =>
    obtain ⟨hpage, hfree⟩ := hcounts
    have hbit := (ht.known page (List.mem_append_left l hpage)).2.2
    have hzeros : countZeros (s.arena.page page).bitfield < 64 := countZeros_lt (by omega) hbit
    have hones := countOnes_add_countZeros (s.arena.page page).bitfield
    have hle : free + (countOnes (s.arena.page page).bitfield - 1) ≤ seen.length * blockPerPage := by
      rw [blockPerPage_eq] at hfree ⊢
      omega
    obtain ⟨pc', e, hfront, hearly, hcounts'⟩ := statsFrom_cases pending next hle
    show (SharedStatsCall.after (if _ then _ else _)).Tallies s un seen
    rw [if_neg (by omega), e]
    refine ⟨hcounts', l, ?_⟩
    rw [hfront, hearly]
    exact ht
  | loadPending free =>
    obtain rfl : l = [] := by
      cases l with
      | nil => rfl
      | cons q l => cases ht.ahead.1
    obtain ⟨pc', e, hfront, hearly, hcounts'⟩ := statsFrom_cases true s.arena.pendingFreeList
      hcounts
    show (SharedStatsCall.after (statsFrom true free s.arena.pendingFreeList)).Tallies s un seen
    rw [e]
    refine ⟨hcounts', ?_⟩
    rw [hfront, hearly]
    exact ht.then_pending h
  | loadPages free =>
    have hle := ht.length_le h hg (hsettled free rfl)
    have hfree : free ≤ seen.length * blockPerPage := hcounts
    have hnot : ¬ s.arena.npages * blockPerPage < free :=
      Nat.not_lt.mpr (Nat.le_trans hfree (Nat.mul_le_mul_right _ hle))
    show (SharedStatsCall.after (if _ then _ else _)).Tallies s un []
    rw [if_neg hnot]
    rfl

/-! ## Runs -/

namespace SharedStatsState

variable {s : SharedStatsState}

theorem reach_state (h : SharedArena.statsMachine.Reach Undisturbed s) :
    SharedArena.machine.Reach (fun s a => s.popsCurrent a = true) s.state := by
  induction h with
  | init h0 =>
    obtain ⟨cap, -, rfl⟩ := h0
    exact .init ⟨cap, rfl⟩
  | @step s s' a hr hc hs ih =>
    cases a with
    | stats =>
      simp only [SharedArena.statsMachine, step] at hs
      split at hs
      · obtain rfl := Option.some.inj hs
        exact ih
      · cases hs
    | stepStats =>
      simp only [SharedArena.statsMachine, step] at hs
      split at hs
      · obtain rfl := Option.some.inj hs
        exact ih
      · cases hs
      · cases hs
    | act a =>
      obtain ⟨state, hstate, rfl⟩ := Option.map_eq_some_iff.mp hs
      exact ih.step hc.1 hstate

def Tallies (s : SharedStatsState) : Prop :=
  ∃ place listed un, Counted s.state place listed un ∧ s.stats.Tallies s.state un s.seen

theorem tallies_act {place : Addr → Place Tid Shelf} {listed un : List Addr} {a : SharedAct}
    {state : SharedState} (hc : Counted s.state place listed un)
    (ht : s.stats.Tallies s.state un s.seen) (hg : GuardInv s.state) (hb : SharedBlocksInv s.state)
    (hu : s.Undisturbed (.act a)) (hs : s.state.step a = some state) :
    Tallies { s with state } := by
  obtain ⟨hpop, hfit, hspares⟩ := hu
  have hm := SharedState.moves_of_step hs
  obtain ⟨place', listed', un', hc', hgrows⟩ := hc.step hg hb hpop hfit hm
  refine ⟨place', listed', un', hc', ?_⟩
  show s.stats.Tallies state un' s.seen
  cases hstats : s.stats with
  | idle =>
    rw [hstats] at ht
    exact ht
  | panicked =>
    rw [hstats] at ht
    exact ht
  | running pc =>
    rw [hstats] at ht
    obtain ⟨hcounts, l, ht⟩ := ht
    have hahead : ∀ q ∈ l, s.Ahead q := by
      intro q hq
      refine ⟨l, ?_, hq⟩
      rw [hstats]
      exact ht.ahead
    have hwalks : ∀ q ∈ s.seen ++ l, s.Walks q :=
      fun q hq => (List.mem_append.mp hq).imp_right (hahead q)
    obtain ⟨l', ht', -⟩ := ht.step hc hb hm (fun q hq => hspares.relinks q (hahead q hq))
      (fun he q hq => hspares.pushes (by rw [hstats]; exact he) q (hwalks q hq))
      (fun q hq => hspares.parks q (hwalks q hq)) hgrows
    exact ⟨hcounts, l', ht'⟩

theorem Tallies.of_reach (h : SharedArena.statsMachine.Reach Undisturbed s) : s.Tallies := by
  apply h.invariant
  · intro s hs
    obtain ⟨cap, hcap, rfl⟩ := hs
    obtain ⟨place, listed, hc⟩ := Counted.start hcap
    exact ⟨place, listed, [], hc, rfl⟩
  · intro s a s' hr ⟨place, listed, un, hc, ht⟩ hu hs
    have hreach := reach_state hr
    have hg := GuardInv.of_reach hreach
    cases a with
    | stats =>
      simp only [SharedArena.statsMachine, step] at hs
      split at hs
      · rename_i hidle
        obtain rfl := Option.some.inj hs
        rw [hidle] at ht
        have hseen : s.seen = [] := ht
        refine ⟨place, listed, un, hc, ht, [], rfl, ?_, fun q hq => ?_, nofun⟩
        · rw [hseen]
          exact List.nodup_nil
        · rw [hseen] at hq
          cases hq
      · cases hs
    | stepStats =>
      simp only [SharedArena.statsMachine, step] at hs
      split at hs
      · rename_i pc hpc
        obtain rfl := Option.some.inj hs
        rw [hpc] at ht
        exact ⟨place, listed, un, hc, stats_tallies hc hg ht.1 ht.2 fun free e => hu free (e ▸ hpc)⟩
      · cases hs
      · cases hs
    | act a =>
      obtain ⟨state, hstate, rfl⟩ := Option.map_eq_some_iff.mp hs
      exact tallies_act hc ht hg (SharedBlocksInv.of_reach (fun _ _ hpop => hpop) hreach) hu hstate

end SharedStatsState

namespace SharedArena

/-- While the pages of the walk are left alone, the free blocks that `stats` collects are no
more than those of `npages` pages. -/
theorem stats_never_underflows {s : SharedStatsState}
    (h : statsMachine.Reach SharedStatsState.Undisturbed s) :
    s.stats ≠ .panicked ∧ ∀ free, s.stats = .running (.loadPages free) → s.Settled →
      free ≤ s.state.arena.npages * blockPerPage := by
  obtain ⟨place, listed, un, hc, ht⟩ := SharedStatsState.Tallies.of_reach h
  refine ⟨fun e => ?_, fun free e hsettled => ?_⟩
  · rw [e] at ht
    exact ht
  · rw [e] at ht
    obtain ⟨hcounts, l, ht⟩ := ht
    have hg := GuardInv.of_reach (SharedStatsState.reach_state h)
    have hle := ht.length_le hc hg (hsettled free e)
    have hfree : free ≤ s.seen.length * blockPerPage := hcounts
    exact Nat.le_trans hfree (Nat.mul_le_mul_right _ hle)

/-- A handle is dropped and `shrink_to_fit` takes `free_list`, while `stats` walks over it. -/
theorem stats_never_underflows_walk : ∃ s : SharedStatsState,
    s.stats = .running (.loadPages 126) ∧ s.seen = [1, 0] ∧ s.state.arena.freeList = none ∧
    126 ≤ s.state.arena.npages * blockPerPage := by
  have hstart : statsMachine.init (.start 126) := ⟨126, by decide, rfl⟩
  obtain ⟨s, hs, hp⟩ := Machine.Reach.exists_of_runIf hstart SharedStatsState.calm
    ((SharedAct.allocs 0 3).map .act ++ [.stats, .stepStats, .stepStats] ++
      (SharedAct.drops 1 1 0 2 ++ .shrink 2 :: SharedAct.steps 2 4).map .act ++
      [.stepStats, .stepStats, .stepStats, .stepStats])
    (fun s => s.stats = .running (.loadPages 126) ∧ s.seen = [1, 0] ∧
      s.state.arena.freeList = none ∧ s.state.threads.all fun c => c.adding = [])
    (fun _ _ => SharedStatsState.undisturbed_of_calm) (by decide +kernel)
  obtain ⟨hstats, hseen, hfree, hall⟩ := of_decide_eq_true hp
  exact ⟨s, hstats, hseen, hfree, (stats_never_underflows hs).2 126 hstats (.of_all hall)⟩

/-- `shrink_to_fit` parks both pages after `stats` counted their blocks. -/
theorem stats_underflows : ∃ s : SharedStatsState, statsMachine.Reach Machine.always s ∧
    s.stats = .panicked := by
  have hstart : statsMachine.init (.start 126) := ⟨126, by decide, rfl⟩
  obtain ⟨s, hs, hp⟩ := Machine.Reach.exists_of_runIf hstart (fun _ _ => true)
    (.stats :: List.replicate 6 .stepStats ++ (.shrink 0 :: SharedAct.steps 0 29).map .act ++
      [.stepStats])
    (fun s => s.stats = .panicked) (fun _ _ _ => trivial) (by decide +kernel)
  exact ⟨s, hs, of_decide_eq_true hp⟩

end SharedArena

end MemoryPools
