import MemoryPools.SharedArenaBook
import MemoryPools.SharedArenaCount
import MemoryPools.SharedArenaPointers
import MemoryPools.Interleave.Progress

/-!
# An allocation that runs alone

Threads may stop anywhere in their calls. Where that leaves the free list, an `alloc` of another
thread ends as soon as it runs alone, unless a stopped thread is the writer.
-/

namespace MemoryPools

open Interleave

namespace SharedArena

open PageSharedArena (ops refs face AcquirePc)

variable {a a' : SharedArena} {p : Addr} {free pending rest : List Addr}

/-! ## What the others left -/

def Room (a : SharedArena) (p : Addr) : Prop := ∃ i < 63, (a.word p).getLsbD i = true

instance : Decidable (a.Room p) :=
  inferInstanceAs (Decidable (∃ i, i < 63 ∧ (a.word p).getLsbD i = true))

structure Standing (a : SharedArena) (free pending : List Addr) : Prop where
  freeList : Linked a.nextFree a.freeList free
  pendingFreeList : Linked a.nextFree a.pendingFreeList pending
  parked : a.toFree ≠ some []
  nodup : (a.toFree.getD []).Nodup
  apart : ∀ q ∈ a.toFree.getD [], q ∉ free ++ pending
  arenaBit : ∀ q ∈ free ++ pending ++ a.toFree.getD [], refs.owned (a.page q)

theorem held_of_not_room (h : ¬ a.Room p) : ∀ j < 63, refs.held (a.page p) j := by
  intro j hj
  refine ⟨hj, ?_⟩
  show (a.word p).getLsbD j = false
  by_contra e
  exact h ⟨j, hj, by simpa using e⟩

theorem not_held_of_room (h : a.Room p) : ∃ j < 63, ¬ refs.held (a.page p) j := by
  obtain ⟨j, hj, hbit⟩ := h
  refine ⟨j, hj, fun hheld => ?_⟩
  have hclear : (a.word p).getLsbD j = false := hheld.2
  rw [hbit] at hclear
  cases hclear

theorem room_congr (h : a'.word = a.word) : a'.Room p ↔ a.Room p := by
  unfold Room
  rw [h]

/-! ## The pages of the free list -/

namespace Standing

theorem head (h : Standing a (p :: rest) pending) : a.freeList = some p := h.freeList.head_eq

theorem owned (h : Standing a (p :: rest) pending) : refs.owned (a.page p) :=
  h.arenaBit p (by simp)

theorem pop (h : Standing a (p :: rest) pending) (hfull : ¬ a.Room p) :
    ∃ a', Goes findPlace a .loadFree a' .loadFree ∧ Standing a' rest pending ∧
      a'.word = a.word ∧ a'.toFree = a.toFree ∧ a'.writer = a.writer := by
  have hget : a.findPlace .loadFree = (a, .goto (.acquire p .load)) := by
    simp only [findPlace, h.head]
  have hload := acquire_none (PageSharedArena.load_full h.owned (held_of_not_room hfull))
  have hnext : (a.setPage p (a.page p)).findPlace (.loadNext p) =
      (a.setPage p (a.page p), .goto (.casFree p (a.page p).nextFree)) := by
    simp only [findPlace, nextFree, PageOps.nextFree, setPage, Heap.get_set_self]
    rfl
  have hcas : (a.setPage p (a.page p)).findPlace (.casFree p (a.page p).nextFree) =
      ({ a.setPage p (a.page p) with freeList := (a.page p).nextFree }, .goto (.clearInFree p)) := by
    have hhead : (a.setPage p (a.page p)).freeList = some p := h.head
    simp only [findPlace, hhead, ite_true]
  let a' : SharedArena :=
    { a.setPage p { a.page p with inFreeList := false } with freeList := (a.page p).nextFree }
  have hclear : findPlace { a.setPage p (a.page p) with freeList := (a.page p).nextFree }
      (.clearInFree p) = (a', .goto .loadFree) := by
    simp only [findPlace, setPage, page, Heap.set_set, Heap.get_set_self]
    rfl
  have hlinks : a'.nextFree = a.nextFree := PageOps.nextFree_set_same rfl
  have hword : a'.word = a.word := word_setPage_same rfl
  have hbits : ∀ q, refs.owned (a'.page q) ↔ refs.owned (a.page q) := fun q =>
    iff_of_eq (congrArg (fun w : Bitfield => w.getLsbD 63 = true) (congrFun hword q))
  refine ⟨a', .head hget (.head hload (.head hnext (.head hcas (.single hclear)))), ?_, hword, rfl,
    rfl⟩
  refine ⟨hlinks ▸ h.freeList.2, hlinks ▸ h.pendingFreeList, h.parked, h.nodup,
    fun q hq hm => ?_, fun q hq => ?_⟩
  · exact h.apart q hq (List.mem_cons_of_mem p hm)
  · exact (hbits q).mpr (h.arenaBit q (List.mem_cons_of_mem p hq))

theorem takeBlock (h : Standing a (p :: rest) pending) (hroom : a.Room p) :
    ∃ a' i, Returns findPlace a .loadFree a' (p, i) := by
  have hget : a.findPlace .loadFree = (a, .goto (.acquire p .load)) := by
    simp only [findPlace, h.head]
  obtain ⟨i, x, -, hload, hfetch, -⟩ :=
    PageSharedArena.load_room h.owned (not_held_of_room hroom)
  have hfetch' : PageSharedArena.acquireFreeBlock ((a.setPage p (a.page p)).page p) (.fetchAnd i) =
      (x, .ret (some i)) := by
    rw [page_setPage_self]
    exact hfetch
  exact ⟨_, i, .head hget (.head (acquire_goto hload) (.of_step (acquire_some hfetch')))⟩

/-- The walk down the free list ends at a page with room, or nothing is left of the list. -/
theorem walk (h : Standing a free pending) :
    ((∃ p ∈ free, a.Room p) ∧ ∃ a' x, Returns findPlace a .loadFree a' x) ∨
    ((∀ p ∈ free, ¬ a.Room p) ∧ ∃ a', Goes findPlace a .loadFree a' .loadFree ∧
      Standing a' [] pending ∧ a'.word = a.word ∧ a'.toFree = a.toFree ∧ a'.writer = a.writer) := by
  induction free generalizing a with
  | nil => exact Or.inr ⟨(fun p hp => by cases hp), a, .refl, h, rfl, rfl, rfl⟩
  | cons p rest ih =>
    by_cases hroom : a.Room p
    · obtain ⟨a', i, hret⟩ := h.takeBlock hroom
      exact Or.inl ⟨⟨p, List.mem_cons_self, hroom⟩, a', _, hret⟩
    · obtain ⟨a₁, hgoes, h₁, hword, htf, hw⟩ := h.pop hroom
      rcases ih h₁ with ⟨⟨q, hq, hroom'⟩, a', x, hret⟩ | ⟨hfull, a', hgoes', h', hword', htf', hw'⟩
      · refine Or.inl ⟨⟨q, List.mem_cons_of_mem p hq, (room_congr hword).mp hroom'⟩, a', x, ?_⟩
        exact hgoes.returns hret
      · refine Or.inr ⟨fun q hq => ?_, a', hgoes.trans hgoes', h', hword'.trans hword,
          htf'.trans htf, hw'.trans hw⟩
        rcases List.mem_cons.mp hq with rfl | hq
        · exact hroom
        · exact fun e => hfull q hq ((room_congr hword).mpr e)

end Standing

/-! ## Parked pages that are dropped -/

structure Spares (a a' : SharedArena) (l : List Addr) : Prop where
  nextFree : a'.nextFree = a.nextFree
  freeList : a'.freeList = a.freeList
  pendingFreeList : a'.pendingFreeList = a.pendingFreeList
  toFree : a'.toFree = a.toFree
  word : ∀ q, q ∉ l → a'.word q = a.word q

theorem Spares.trans {a'' : SharedArena} {l l' : List Addr} (h : Spares a a' l)
    (h' : Spares a' a'' l') : Spares a a'' (l ++ l') where
  nextFree := h'.nextFree.trans h.nextFree
  freeList := h'.freeList.trans h.freeList
  pendingFreeList := h'.pendingFreeList.trans h.pendingFreeList
  toFree := h'.toFree.trans h.toFree
  word q hq := by
    rw [List.mem_append, not_or] at hq
    exact (h'.word q hq.2).trans (h.word q hq.1)

theorem dropPage_spares {pc : DropPagePc} {control : Control DropPagePc Unit}
    (h : a.dropPage p pc = (a', control)) : Spares a a' [p] := by
  obtain ⟨rfl, -⟩ := Prod.mk.inj h
  have hword : ∀ x : PageSharedArena, ∀ q, q ∉ [p] → (a.setPage p x).word q = a.word q := by
    intro x q hq
    rw [word_setPage, Function.update_of_ne (List.ne_of_not_mem_cons hq)]
  cases pc with
  | fetch => exact ⟨PageOps.nextFree_set_same rfl, rfl, rfl, rfl, hword _⟩
  | deallocate => exact ⟨PageOps.nextFree_set_same rfl, rfl, rfl, rfl, hword _⟩

theorem dropPage_returns (a : SharedArena) (p : Addr) :
    ∃ a', Returns (fun a => dropPage a p) a .fetch a' () ∧ Spares a a' [p] := by
  cases hd : a.dropPage p .fetch with
  | mk b control =>
    have hb := dropPage_spares hd
    rcases dropPage_control a p .fetch with e | ⟨-, e⟩
    · rw [hd] at e
      obtain rfl : control = .ret () := e
      exact ⟨b, .of_step hd, hb⟩
    · rw [hd] at e
      obtain rfl : control = .goto .deallocate := e
      have hd' : b.dropPage p .deallocate = ((b.dropPage p .deallocate).1, .ret ()) := rfl
      have hb' := hb.trans (dropPage_spares hd')
      refine ⟨_, .head hd (.of_step hd'), hb'.nextFree, hb'.freeList, hb'.pendingFreeList, hb'.toFree,
        fun q hq => hb'.word q ?_⟩
      simpa using hq

theorem dropPages_returns (a : SharedArena) (p : Addr) (rest : List Addr) :
    ∃ a', Returns maybeFreePages a (.dropPage p rest .fetch) a' () ∧ Spares a a' (p :: rest) := by
  induction rest generalizing a p with
  | nil =>
    have hin : Nests (fun a => dropPage a p) maybeFreePages id (.dropPage p [])
        fun _ => dropPages [] := by
      intro a pc
      simp only [maybeFreePages, id]
      cases (a.dropPage p pc).2 <;> rfl
    obtain ⟨a', hret, hs⟩ := dropPage_returns a p
    exact ⟨a', hret.lift hin rfl, hs⟩
  | cons q rest ih =>
    have hin : Nests (fun a => dropPage a p) maybeFreePages id (.dropPage p (q :: rest))
        fun _ => dropPages (q :: rest) := by
      intro a pc
      simp only [maybeFreePages, id]
      cases (a.dropPage p pc).2 <;> rfl
    obtain ⟨b, hret, hs⟩ := dropPage_returns a p
    obtain ⟨a', hret', hs'⟩ := ih b q
    exact ⟨a', (hret.nest hin rfl).returns hret', hs.trans hs'⟩

/-- `maybe_free_pages` drops all parked pages or none. -/
theorem maybeFree_alone (a : SharedArena) :
    ∃ a', Returns maybeFreePages a .loadDelay a' () ∧ a'.nextFree = a.nextFree ∧
      a'.freeList = a.freeList ∧ a'.pendingFreeList = a.pendingFreeList ∧
      (a'.toFree = a.toFree ∧ a'.word = a.word ∨
        a'.toFree = none ∧ ∀ q, q ∉ a.toFree.getD [] → a'.word q = a.word q) := by
  by_cases hdelay : a.toFreeDelay < delayDropShrink
  · have hload : a.maybeFreePages .loadDelay = (a, .goto .fetchAdd) := by
      simp only [maybeFreePages, hdelay, ite_true]
    let b : SharedArena := { a with toFreeDelay := (a.toFreeDelay + 1) % 2 ^ 16 }
    by_cases hlast : a.toFreeDelay = delayDropShrink - 1
    · have hadd : a.maybeFreePages .fetchAdd = (b, .goto .swapToFree) := by
        simp only [maybeFreePages, if_pos hlast]
        rfl
      have hswap : b.maybeFreePages .swapToFree =
          ({ b with toFree := none }, dropPages (a.toFree.getD [])) := rfl
      cases hl : a.toFree.getD [] with
      | nil =>
        rw [hl] at hswap
        exact ⟨_, .head hload (.head hadd (.of_step hswap)), rfl, rfl, rfl,
          Or.inr ⟨rfl, fun _ _ => rfl⟩⟩
      | cons p rest =>
        rw [hl] at hswap
        obtain ⟨a', hret, hs⟩ := dropPages_returns { b with toFree := none } p rest
        exact ⟨a', .head hload (.head hadd (.head hswap hret)), hs.nextFree, hs.freeList,
          hs.pendingFreeList, Or.inr ⟨hs.toFree, hs.word⟩⟩
    · have hadd : a.maybeFreePages .fetchAdd = (b, .ret ()) := by
        simp only [maybeFreePages, hlast, ite_false]
        rfl
      exact ⟨b, .head hload (.of_step hadd), rfl, rfl, rfl, Or.inl ⟨rfl, rfl⟩⟩
  · have hload : a.maybeFreePages .loadDelay = (a, .ret ()) := by
      simp only [maybeFreePages, hdelay, ite_false]
    exact ⟨a, .of_step hload, rfl, rfl, rfl, Or.inl ⟨rfl, rfl⟩⟩

/-! ## More pages -/

theorem enters_alone (hnone : a.freeList = none) (hwriter : a.writer = false) :
    Goes findPlace a .loadFree { a with writer := true } .loadPending := by
  have hload : a.findPlace .loadFree = (a, .goto .loadWriter) := by
    simp only [findPlace, hnone]
  have hguard : a.findPlace .loadWriter = (a, .goto .swapWriter) := by
    simp only [findPlace, hwriter, Bool.false_eq_true, ite_false]
  have hswap : a.findPlace .swapWriter = ({ a with writer := true }, .goto .recheckFree) := by
    simp only [findPlace, hwriter, Bool.false_eq_true, ite_false]
  have hcheck : SharedArena.findPlace { a with writer := true } .recheckFree =
      ({ a with writer := true }, .goto .loadPending) := by
    simp only [findPlace, hnone, ite_true]
  exact .head hload (.head hguard (.head hswap (.single hcheck)))

namespace Standing

/-- The parked pages may go, the listed ones stay. -/
theorem drops (h : Standing a free pending) {free' pending' : List Addr}
    (hsame : free' ++ pending' = free ++ pending)
    (hfree : Linked a'.nextFree a'.freeList free')
    (hpending : Linked a'.nextFree a'.pendingFreeList pending')
    (hor : a'.toFree = a.toFree ∧ a'.word = a.word ∨
      a'.toFree = none ∧ ∀ q, q ∉ a.toFree.getD [] → a'.word q = a.word q) :
    Standing a' free' pending' ∧ (a'.toFree.getD []).length ≤ (a.toFree.getD []).length := by
  have hbit : ∀ q, a'.word q = a.word q → refs.owned (a.page q) → refs.owned (a'.page q) :=
    fun q e ho => (congrArg (fun w : Bitfield => w.getLsbD 63) e).trans ho
  rcases hor with ⟨htf, hword⟩ | ⟨htf, hword⟩
  · refine ⟨⟨hfree, hpending, htf ▸ h.parked, htf ▸ h.nodup, ?_, fun q hq => ?_⟩, ?_⟩
    · rw [hsame, htf]
      exact h.apart
    · rw [hsame, htf] at hq
      exact hbit q (congrFun hword q) (h.arenaBit q hq)
    · rw [htf]
  · refine ⟨⟨hfree, hpending, fun e => ?_, ?_, fun q hq => ?_, fun q hq => ?_⟩, ?_⟩
    · rw [htf] at e
      cases e
    · rw [htf]
      exact List.nodup_nil
    · rw [htf] at hq
      cases hq
    · -- a page that was dropped is on no list
      rw [hsame, htf, Option.getD_none, List.append_nil] at hq
      exact hbit q (hword q fun hm => h.apart q hm hq) (h.arenaBit q (List.mem_append_left _ hq))
    · rw [htf]
      exact Nat.zero_le _

theorem refill (h : Standing a [] pending) (hwriter : a.writer = false) (hne : pending ≠ []) :
    ∃ a', Goes findPlace a .loadFree a' .loadFree ∧ Standing a' pending [] ∧ a'.writer = false ∧
      (a'.toFree.getD []).length ≤ (a.toFree.getD []).length := by
  have hnone : a.freeList = none := h.freeList
  have hsome : a.pendingFreeList ≠ none := by
    rw [h.pendingFreeList.head_eq]
    intro e
    exact hne (List.head?_eq_none_iff.mp e)
  let a₁ : SharedArena := { a with
    writer := true, freeList := a.pendingFreeList, pendingFreeList := none }
  have hload : SharedArena.findPlace { a with writer := true } .loadPending =
      ({ a with writer := true }, .goto .swapPending) := by
    simp only [findPlace, hsome, ite_false]
  have hswap : SharedArena.findPlace { a with writer := true, pendingFreeList := none }
      (.swapFree a.pendingFreeList) = (a₁, .goto (.maybeFree true .loadDelay)) := by
    simp only [findPlace, hnone, ite_true]
    rfl
  have hin : Nests maybeFreePages findPlace id (.maybeFree true) fun _ => .goto .unlock := by
    intro a pc
    simp only [findPlace, id]
    cases (a.maybeFreePages pc).2 <;> rfl
  obtain ⟨a₂, hret, hnext, hfree, hpending, hor⟩ := maybeFree_alone a₁
  have hnest : Goes findPlace a₁ (.maybeFree true .loadDelay) a₂ .unlock := hret.nest hin rfl
  have hlinked : Linked a₂.nextFree a₂.freeList pending := by
    rw [hnext, hfree]
    exact h.pendingFreeList
  let a' : SharedArena := { a₂ with writer := false }
  have hdrops : Standing a' pending [] ∧ (a'.toFree.getD []).length ≤ (a.toFree.getD []).length :=
    h.drops (List.append_nil pending) hlinked hpending hor
  refine ⟨a', ?_, hdrops.1, rfl, hdrops.2⟩
  apply (enters_alone hnone hwriter).trans
  exact .head hload (.head rfl (.head hswap (hnest.trans (leaves_guard a₂))))

theorem unpark (h : Standing a [] []) (hwriter : a.writer = false) (hne : a.toFree ≠ none) :
    ∃ a' free, Goes findPlace a .loadFree a' .loadFree ∧ Standing a' free [] ∧ a'.writer = false ∧
      (a'.toFree.getD []).length < (a.toFree.getD []).length := by
  obtain ⟨parked, hsome⟩ := Option.ne_none_iff_exists'.mp hne
  have hpos : 0 < parked.length := by
    rw [List.length_pos_iff]
    rintro rfl
    exact h.parked hsome
  have hparked : a.toFree.getD [] = parked := by rw [hsome]; rfl
  obtain ⟨kept, hkept⟩ : ∃ kept, kept = parked.take (parked.length - max a.npages 1) := ⟨_, rfl⟩
  obtain ⟨again, hagain⟩ : ∃ again, again = parked.drop (parked.length - max a.npages 1) := ⟨_, rfl⟩
  have hsplit : parked = kept ++ again := by rw [hkept, hagain, List.take_append_drop]
  have hcount : 0 < again.length := by
    rw [hagain, List.length_drop]
    omega
  have hagain' : again ≠ [] := List.ne_nil_of_length_pos hcount
  obtain ⟨first, hfirst⟩ : ∃ first, again.head? = some first := ⟨_, List.head?_eq_some_head hagain'⟩
  obtain ⟨last, hlast⟩ : ∃ last, again.getLast? = some last :=
    ⟨_, List.getLast?_eq_some_getLast hagain'⟩
  have hnodup : (kept ++ again).Nodup := by
    rw [← hsplit, ← hparked]
    exact h.nodup
  have hload : SharedArena.findPlace { a with writer := true } .loadPending =
      ({ a with writer := true }, .goto .loadToFree) := by
    have hnone : a.pendingFreeList = none := h.pendingFreeList
    simp only [findPlace, hnone, ite_true]
  have hload' : SharedArena.findPlace { a with writer := true } .loadToFree =
      ({ a with writer := true }, .goto (.take .swapToFree)) := by
    simp only [findPlace, hsome, reduceCtorEq, ite_false]
  have hnone : a.freeList = none := h.freeList
  obtain ⟨heap, next, nextFree, flag, delay, htake, hview, hchain, -, -, -⟩ :=
    takePages_returns (a := { a with writer := true }) hsome hkept hagain
      (List.nodup_append.mp hnodup).2.1 hfirst hlast hnone
  have hin : Nests takePages findPlace id .take fun _ => .goto .unlock := by
    intro s pc
    simp only [findPlace, id]
    cases (s.takePages pc).2 <;> rfl
  let a' : SharedArena := { a with
    heap, freeList := some first, fullList := some first
    npages := (a.npages + again.length) % 2 ^ 64
    toFree := if kept = [] then none else some kept
    toFreeDelay := delay, writer := false }
  have hgoes : Goes findPlace { a with writer := true } (.take .swapToFree)
      { a' with writer := true } .unlock := htake.nest hin rfl
  have hgetD : a'.toFree.getD [] = kept := by
    show (if kept = [] then none else some kept).getD [] = kept
    by_cases hk : kept = []
    · rw [if_pos hk, hk]
      rfl
    · rw [if_neg hk]
      rfl
  have hbits : ∀ q, refs.owned (a'.page q) ↔ refs.owned (a.page q) := by
    intro q
    have hword : refs.word (a'.page q) = refs.word (a.page q) :=
      congrFun (congrArg View.word hview) q
    have howned := iff_of_eq (congrArg PageWord.owned hword)
    exact ⟨fun ho => (howned.mp ⟨trivial, ho⟩).2, fun ho => (howned.mpr ⟨trivial, ho⟩).2⟩
  have hlinks : a'.nextFree = nextFree := congrArg View.nextFree hview
  have hmem : ∀ q, q ∈ again ++ [] ++ kept → q ∈ parked := by
    intro q hq
    rw [hsplit]
    simpa [or_comm] using hq
  refine ⟨a', again, ?_, ⟨?_, ?_, ?_, ?_, ?_, fun q hq => ?_⟩, rfl, ?_⟩
  · apply (enters_alone hnone hwriter).trans
    exact .head hload (.head hload' (hgoes.trans (leaves_guard _)))
  · rw [hlinks]
    show Linked nextFree (some first) again
    rw [← hfirst]
    exact hchain
  · exact h.pendingFreeList
  · show (if kept = [] then none else some kept) ≠ some []
    by_cases hk : kept = []
    · rw [if_pos hk]
      exact fun e => by cases e
    · rw [if_neg hk]
      exact fun e => hk (Option.some.inj e)
  · rw [hgetD]
    exact (List.nodup_append.mp hnodup).1
  · rw [hgetD, List.append_nil]
    exact fun q hq hm => (List.nodup_append.mp hnodup).2.2 q hq q hm rfl
  · rw [hgetD] at hq
    refine (hbits q).mpr (h.arenaBit q ?_)
    rw [hparked]
    exact hmem q hq
  · rw [hgetD, hparked, hsplit, List.length_append]
    omega

theorem grow (h : Standing a [] []) (hwriter : a.writer = false) (hnone : a.toFree = none) :
    ∃ a' free, Goes findPlace a .loadFree a' .loadFree ∧ Standing a' free [] ∧
      ∃ p ∈ free, a'.Room p := by
  have hfree : a.freeList = none := h.freeList
  have hpending : a.pendingFreeList = none := h.pendingFreeList
  let n : Nat := growth a.npages
  let first : Addr := a.heap.size + (n - 1)
  let a₁ : SharedArena :=
    { a with heap := (a.heap.makeList PageSharedArena.new n).1, writer := true }
  have hload : SharedArena.findPlace { a with writer := true } .loadPending =
      ({ a with writer := true }, .goto .loadToFree) := by
    simp only [findPlace, hpending, ite_true]
  have hload' : SharedArena.findPlace { a with writer := true } .loadToFree =
      ({ a with writer := true }, .goto .loadPages) := by
    simp only [findPlace, hnone, ite_true]
  have hmake : SharedArena.findPlace { a with writer := true } .loadPages =
      (a₁, .goto (.put n first a.heap.size .loadFull)) := rfl
  have hput := put_returns (a := a₁) n first a.heap.size hfree
  have hin : Nests (putPages n first a.heap.size) findPlace id (.put n first a.heap.size)
      fun _ => .goto .unlock := by
    intro s pc
    simp only [findPlace, id]
    cases (putPages n first a.heap.size s pc).2 <;> rfl
  let a' : SharedArena :=
    { a₁.setPage a.heap.size { a₁.page a.heap.size with next := a.fullList } with
      fullList := some first
      freeList := some first
      npages := (a.npages + n) % 2 ^ 64
      writer := false }
  have hgoes : Goes findPlace a₁ (.put n first a.heap.size .loadFull) { a' with writer := true }
      .unlock := hput.nest hin rfl
  have hlinks : a'.nextFree = a₁.nextFree := PageOps.nextFree_set_same rfl
  have hword : a'.word = a₁.word := word_setPage_same rfl
  have hchain : Linked a₁.nextFree (behind a.heap.size n) (downFrom a.heap.size n) :=
    (PageOps.linked_makeList PageSharedArena.ops n a.heap fun _ => rfl).1
  have hfirst : behind a.heap.size n = some first := by
    have hpos : 0 < n := growth_pos a.npages
    obtain ⟨k, hk⟩ := Nat.exists_eq_succ_of_ne_zero hpos.ne'
    show behind a.heap.size n = some (a.heap.size + (n - 1))
    rw [hk]
    rfl
  have hones : ∀ q ∈ downFrom a.heap.size n, a'.word q = BitVec.allOnes 64 := by
    intro q hq
    obtain ⟨hle, hlt⟩ := mem_downFrom.mp hq
    obtain ⟨k, rfl⟩ := Nat.exists_eq_add_of_le hle
    have hk : k < n := by omega
    rw [hword]
    show ((a.heap.makeList PageSharedArena.new n).1.get (a.heap.size + k)).bitfield = _
    rw [Heap.get_makeList_new hk]
    rfl
  have hmem : first ∈ downFrom a.heap.size n := by
    apply mem_downFrom.mpr
    have hpos : 0 < n := growth_pos a.npages
    show a.heap.size ≤ a.heap.size + (n - 1) ∧ a.heap.size + (n - 1) < a.heap.size + n
    omega
  refine ⟨a', downFrom a.heap.size n, ?_, ⟨?_, hpending, ?_, ?_, ?_, fun q hq => ?_⟩, first, hmem, 0,
    by omega, ?_⟩
  · apply (enters_alone hfree hwriter).trans
    exact .head hload (.head hload' (.head hmake (hgoes.trans (leaves_guard _))))
  · rw [hlinks]
    show Linked a₁.nextFree (some first) _
    rw [← hfirst]
    exact hchain
  · show a.toFree ≠ some []
    rw [hnone]
    exact fun e => by cases e
  · show (a.toFree.getD []).Nodup
    rw [hnone]
    exact List.nodup_nil
  · intro q hq
    have hq : q ∈ a.toFree.getD [] := hq
    rw [hnone] at hq
    cases hq
  · have htf : a'.toFree.getD [] = [] := by
      show a.toFree.getD [] = []
      rw [hnone]
      rfl
    rw [htf, List.append_nil, List.append_nil] at hq
    show (a'.word q).getLsbD 63 = true
    rw [hones q hq]
    decide
  · rw [hones first hmem]
    decide

/-! ## The search -/

/-- The parked pages run out, and new pages have room. -/
theorem searches (h : Standing a free []) (hwriter : a.writer = false) :
    ∃ a' x, Returns findPlace a .loadFree a' x := by
  induction hn : (a.toFree.getD []).length using Nat.strongRecOn generalizing a free with
  | ind n ih =>
    rcases h.walk with ⟨-, hret⟩ | ⟨-, a₁, hgoes, h₁, -, htf, hw⟩
    · exact hret
    · have hwriter₁ : a₁.writer = false := hw.trans hwriter
      by_cases hnone : a₁.toFree = none
      · obtain ⟨a₂, free', hgrow, h₂, hroom⟩ := h₁.grow hwriter₁ hnone
        rcases h₂.walk with ⟨-, a', x, hret⟩ | ⟨hfull, -⟩
        · exact ⟨a', x, (hgoes.trans hgrow).returns hret⟩
        · obtain ⟨p, hp, hroom⟩ := hroom
          exact absurd hroom (hfull p hp)
      · obtain ⟨a₂, free', hback, h₂, hwriter₂, hlt⟩ := h₁.unpark hwriter₁ hnone
        rw [htf, hn] at hlt
        obtain ⟨a', x, hret⟩ := ih _ hlt h₂ hwriter₂ rfl
        exact ⟨a', x, (hgoes.trans hback).returns hret⟩

theorem finds (h : Standing a free pending) (hwriter : a.writer = false) :
    ∃ a' x, Returns findPlace a .loadFree a' x := by
  rcases h.walk with ⟨-, hret⟩ | ⟨-, a₁, hgoes, h₁, -, -, hw⟩
  · exact hret
  · have hwriter₁ : a₁.writer = false := hw.trans hwriter
    by_cases hp : pending = []
    · subst hp
      obtain ⟨a', x, hret⟩ := h₁.searches hwriter₁
      exact ⟨a', x, hgoes.returns hret⟩
    · obtain ⟨a₂, hback, h₂, hwriter₂, -⟩ := h₁.refill hwriter₁ hp
      obtain ⟨a', x, hret⟩ := h₂.searches hwriter₂
      exact ⟨a', x, (hgoes.trans hback).returns hret⟩

end Standing

/-! ## Behind the writer -/

/-- There is a writer, and what it left of the free list is full. -/
structure Stuck (a : SharedArena) (free : List Addr) : Prop where
  writer : a.writer = true
  freeList : Linked a.nextFree a.freeList free
  full : ∀ p ∈ free, ¬ a.Room p
  arenaBit : ∀ p ∈ free, refs.owned (a.page p)

def FindPc.Spins (a : SharedArena) : FindPc → Prop
  | .loadFree | .clearInFree _ => True
  | .acquire p .load | .loadNext p => a.freeList = some p
  | .casFree p next => a.freeList = some p ∧ next = a.nextFree p
  | .loadWriter | .loadContended => a.freeList = none
  | _ => False

theorem Stuck.congr (h : Stuck a free) (hwriter : a'.writer = a.writer)
    (hfree : a'.freeList = a.freeList) (hnext : a'.nextFree = a.nextFree) (hword : a'.word = a.word) :
    Stuck a' free where
  writer := hwriter.trans h.writer
  freeList := by
    rw [hnext, hfree]
    exact h.freeList
  full p hp hr := h.full p hp ((room_congr hword).mp hr)
  arenaBit p hp :=
    (congrArg (fun w : Bitfield => w.getLsbD 63) (congrFun hword p)).trans (h.arenaBit p hp)

theorem Stuck.step {pc : FindPc} (h : Stuck a free) (hpc : pc.Spins a) :
    ∃ a' pc' free', a.findPlace pc = (a', .goto pc') ∧ Stuck a' free' ∧ pc'.Spins a' := by
  cases pc with
  | loadFree =>
    cases hf : a.freeList with
    | none =>
      refine ⟨a, .loadWriter, free, ?_, h, hf⟩
      simp only [findPlace, hf]
    | some p =>
      refine ⟨a, .acquire p .load, free, ?_, h, hf⟩
      simp only [findPlace, hf]
  | acquire p pc =>
    cases pc with
    | fetchAnd => exact hpc.elim
    | load =>
      have hf : a.freeList = some p := hpc
      have hp : p ∈ free := by
        have hhead := h.freeList.head_eq.symm.trans hf
        exact List.mem_of_mem_head? hhead
      have hload := acquire_none
        (PageSharedArena.load_full (h.arenaBit p hp) (held_of_not_room (h.full p hp)))
      exact ⟨_, .loadNext p, free, hload,
        h.congr rfl rfl (PageOps.nextFree_set_same rfl) (word_setPage_same rfl), hf⟩
  | loadNext p => exact ⟨a, .casFree p (a.nextFree p), free, rfl, h, hpc, rfl⟩
  | casFree p next =>
    obtain ⟨hf, rfl⟩ := hpc
    have hcas : a.findPlace (.casFree p (a.nextFree p)) =
        ({ a with freeList := a.nextFree p }, .goto (.clearInFree p)) := by
      simp only [findPlace, hf, ite_true]
    cases free with
    | nil =>
      have hnone : a.freeList = none := h.freeList
      rw [hf] at hnone
      cases hnone
    | cons q rest =>
      obtain rfl : p = q := Option.some.inj (hf.symm.trans h.freeList.head_eq)
      exact ⟨_, _, rest, hcas, ⟨h.writer, h.freeList.2,
        fun r hr => h.full r (List.mem_cons_of_mem p hr),
        fun r hr => h.arenaBit r (List.mem_cons_of_mem p hr)⟩, trivial⟩
  | clearInFree p =>
    exact ⟨_, .loadFree, free, rfl,
      h.congr rfl rfl (PageOps.nextFree_set_same rfl) (word_setPage_same rfl), trivial⟩
  | loadWriter =>
    refine ⟨a, .loadContended, free, ?_, h, hpc⟩
    simp only [findPlace, h.writer, ite_true]
  | loadContended =>
    have hf : a.freeList = none := hpc
    refine ⟨a, .loadFree, free, ?_, h, trivial⟩
    simp only [findPlace, hf, ite_true]
  | _ => exact hpc.elim

end SharedArena

/-! ## The machine -/

/-- The arena's bit is set, but on the pages that were given up. -/
structure StandsInv (s : SharedState) (place : Addr → Place Tid Shelf) (listed : List Addr) :
    Prop where
  lists : SharedListsInv False s place listed
  arenaBit : ∀ q, place q ≠ .aside .gone → (s.arena.word q).getLsbD 63 = true

namespace StandsInv

variable {s s' : SharedState} {place : Addr → Place Tid Shelf} {listed : List Addr}

theorem step (h : StandsInv s place listed) (hg : GuardInv s) (hb : SharedBlocksInv s)
    {a : SharedAct} (hpop : s.popsCurrent a = true) (hm : SharedState.Moves s a s') :
    ∃ place listed, StandsInv s' place listed := by
  obtain ⟨place', listed', h', hmoved, hgone⟩ := Counted.turn h.lists hg hpop hm
  refine ⟨place', listed', h', fun q hq => ?_⟩
  exact hb.arenaBit hm (h.arenaBit q fun e => hq (hmoved.gone q e)) fun e => hq (hgone q e)

theorem of_reach (h : SharedArena.machine.Reach (fun s a => s.popsCurrent a = true) s) :
    ∃ place listed, StandsInv s place listed := by
  refine h.invariant (I := fun s => ∃ place listed, StandsInv s place listed) ?_
    fun s a s' hr hi hc hs => ?_
  · rintro s ⟨cap, rfl⟩
    obtain ⟨place, listed, hlists⟩ : ∃ place listed, SharedListsInv False (.start cap) place listed :=
      SharedListsInv.start cap
    exact ⟨place, listed, hlists, fun q _ => (UnshrunkInv.start cap).arenaBit q⟩
  · obtain ⟨place, listed, hi⟩ := hi
    obtain ⟨-, hb⟩ := SharedState.pointers_blocks hr
    exact hi.step (GuardInv.of_reach hr) hb hc (SharedState.moves_of_step hs)

theorem standing (h : StandsInv s place listed) (hg : GuardInv s) :
    ∃ free pending, s.arena.Standing free pending := by
  have hplaced := h.lists.placed
  obtain ⟨free, hfree, hmem⟩ := hplaced.circulates.free
  obtain ⟨pending, hpending, hmem'⟩ := hplaced.circulates.pending
  refine ⟨free, pending, hfree, hpending, hg.toFree, hplaced.nodup, fun q hq hl => ?_, fun q hq => ?_⟩
  · have hparked := (hplaced.parked q).mpr hq
    rcases List.mem_append.mp hl with hl | hl
    · rw [(hmem q).mp hl] at hparked
      cases hparked
    · rw [(hmem' q).mp hl] at hparked
      cases hparked
  · apply h.arenaBit q
    rcases List.mem_append.mp hq with hl | hl
    · rcases List.mem_append.mp hl with hl | hl
      · rw [(hmem q).mp hl]
        exact fun e => by cases e
      · rw [(hmem' q).mp hl]
        exact fun e => by cases e
    · rw [(hplaced.parked q).mpr hl]
      exact fun e => by cases e

end StandsInv

namespace SharedState

open SharedArena

variable {a a' : SharedArena} {pc : FindPc} {x : Addr × Nat} {free : List Addr}

theorem step_alloc {handles : List (Addr × Nat)} {threads : Store SharedCall} {t : Tid}
    {control : Control FindPc (Addr × Nat)} (hs : a.findPlace pc = (a', control)) :
    machine.step { arena := a, handles, threads := threads.set t (.alloc pc) } (.step t) =
      some { arena := a', handles := made control ++ handles
             threads := threads.set t (.afterAlloc control) } := by
  show stepThread _ t = _
  simp only [stepThread, Store.get_set_self, hs, Store.set_set]

/-- A call that returns alone returns in the run where no other thread moves. -/
theorem run_returns (h : Returns findPlace a pc a' x) (handles : List (Addr × Nat))
    (threads : Store SharedCall) (t : Tid) :
    ∃ n, machine.run { arena := a, handles, threads := threads.set t (.alloc pc) }
      (SharedAct.steps t n) =
        some { arena := a', handles := x :: handles, threads := threads.set t .idle } := by
  obtain ⟨a₁, pc₁, hgoes, hret⟩ := h
  induction hgoes with
  | refl =>
    refine ⟨1, ?_⟩
    simp only [SharedAct.steps, List.replicate_one, Machine.run, step_alloc hret]
    rfl
  | head hs _ ih =>
    obtain ⟨n, hn⟩ := ih hret
    refine ⟨n + 1, ?_⟩
    simp only [SharedAct.steps, List.replicate_succ, Machine.run, step_alloc hs]
    exact hn

theorem run_stuck (h : Stuck a free) (hpc : pc.Spins a) (handles : List (Addr × Nat))
    (threads : Store SharedCall) (t : Tid) (n : Nat) :
    ∃ a' pc', machine.run { arena := a, handles, threads := threads.set t (.alloc pc) }
      (SharedAct.steps t n) =
        some { arena := a', handles, threads := threads.set t (.alloc pc') } := by
  induction n generalizing a pc free with
  | zero => exact ⟨a, pc, rfl⟩
  | succ n ih =>
    obtain ⟨a₁, pc₁, free₁, hs, h₁, hpc₁⟩ := h.step hpc
    obtain ⟨a', pc', hn⟩ := ih h₁ hpc₁
    refine ⟨a', pc', ?_⟩
    simp only [SharedAct.steps, List.replicate_succ, Machine.run, step_alloc hs]
    exact hn

theorem run_allocs {s : SharedState} {t : Tid} {n : Nat} (ht : s.threads.get t = .idle) :
    machine.run s (SharedAct.allocs t n) =
      machine.run { s with threads := s.threads.set t (.alloc .loadFree) } (SharedAct.steps t n) := by
  have hstart : machine.step s (.alloc t) =
      some { s with threads := s.threads.set t (.alloc .loadFree) } := if_pos ht
  simp only [SharedAct.allocs, Machine.run, hstart]

end SharedState

namespace SharedArena

variable {s : SharedState} {t : Tid}

theorem alloc_returns (h : machine.Reach (fun s a => s.popsCurrent a = true) s)
    (ht : s.threads.get t = .idle)
    (hor : s.arena.writer = false ∨
      ∃ p, OnChain s.arena.nextFree s.arena.freeList p ∧ s.arena.Room p) :
    ∃ n s' p i, machine.run s (SharedAct.allocs t n) = some s' ∧ s'.threads.get t = .idle ∧
      s'.handles = (p, i) :: s.handles ∧ ¬ s.Live p i ∧ p < s'.arena.heap.size ∧ i < 63 := by
  obtain ⟨place, listed, hstands⟩ := StandsInv.of_reach h
  obtain ⟨free, pending, hs⟩ := hstands.standing (GuardInv.of_reach h)
  obtain ⟨a', ⟨p, i⟩, hret⟩ : ∃ a' x, Returns findPlace s.arena .loadFree a' x := by
    rcases hor with hwriter | ⟨p, hp, hroom⟩
    · exact hs.finds hwriter
    · rcases hs.walk with ⟨-, hret⟩ | ⟨hfull, -⟩
      · exact hret
      · exact absurd hroom (hfull p ((OnChain.iff_mem hs.freeList).mp hp))
  obtain ⟨n, hn⟩ := SharedState.run_returns hret s.handles s.threads t
  have hrun : machine.run s (SharedAct.allocs t n) = some _ := (SharedState.run_allocs ht).trans hn
  obtain ⟨-, hb⟩ := SharedState.pointers_blocks (h.of_run hrun)
  refine ⟨n, _, p, i, hrun, Store.get_set_self _ _ _, rfl, ?_, ?_⟩
  · rintro (hl | ⟨u, hu⟩)
    · exact (List.nodup_cons.mp hb.ledger.nodup).1 hl
    · -- the thread itself has no block
      have hne : u ≠ t := by
        rintro rfl
        rw [handOf_get ht] at hu
        cases hu
      refine hb.ledger.apart u (p, i) ?_ List.mem_cons_self
      rwa [handOf_set_ne _ u hne]
  · obtain ⟨hlt, hi, -⟩ := hb.live p i (Or.inl List.mem_cons_self)
    exact ⟨hlt, hi⟩

theorem alloc_waits (h : machine.Reach (fun s a => s.popsCurrent a = true) s)
    (ht : s.threads.get t = .idle) (hwriter : s.arena.writer = true)
    (hfull : ∀ p, OnChain s.arena.nextFree s.arena.freeList p → ¬ s.arena.Room p) (n : Nat) :
    ∃ s' pc, machine.run s (SharedAct.allocs t n) = some s' ∧ s'.threads.get t = .alloc pc ∧
      s'.handles = s.handles := by
  obtain ⟨place, listed, hstands⟩ := StandsInv.of_reach h
  obtain ⟨free, pending, hs⟩ := hstands.standing (GuardInv.of_reach h)
  have hstuck : Stuck s.arena free :=
    ⟨hwriter, hs.freeList, fun p hp => hfull p ((OnChain.iff_mem hs.freeList).mpr hp),
      fun p hp => hs.arenaBit p (by simp [hp])⟩
  have hspins : FindPc.loadFree.Spins s.arena := trivial
  obtain ⟨a', pc', hn⟩ := SharedState.run_stuck hstuck hspins s.handles s.threads t n
  exact ⟨_, pc', (SharedState.run_allocs ht).trans hn, Store.get_set_self _ _ _, rfl⟩

/-- The other threads stand still, wherever they are. Then a call of `alloc` returns a block that
nobody had, if there is no writer or a page with room in the free list; else it goes on for ever.
The cells of a page that `maybe_free_pages` deallocated, which the others may still read, stay in the
model, and its address is not used again. -/
theorem alloc_alone (h : machine.Reach (fun s a => s.popsCurrent a = true) s)
    (ht : s.threads.get t = .idle) :
    ((s.arena.writer = false ∨
        ∃ p, OnChain s.arena.nextFree s.arena.freeList p ∧ s.arena.Room p) →
      ∃ n s' p i, machine.run s (SharedAct.allocs t n) = some s' ∧ s'.threads.get t = .idle ∧
        s'.handles = (p, i) :: s.handles ∧ ¬ s.Live p i ∧ p < s'.arena.heap.size ∧ i < 63) ∧
    (s.arena.writer = true →
      (∀ p, OnChain s.arena.nextFree s.arena.freeList p → ¬ s.arena.Room p) →
      ∀ n, ∃ s' pc, machine.run s (SharedAct.allocs t n) = some s' ∧
        s'.threads.get t = .alloc pc ∧ s'.handles = s.handles) :=
  ⟨alloc_returns h ht, alloc_waits h ht⟩

/-- Thread 0 stands before the new pages: the only page is full, and thread 1 waits for it. -/
theorem alloc_alone_behind : ∃ s : SharedState, s.threads.get 0 = .alloc .loadPages ∧
    ∀ n, ∃ s' pc, machine.run s (SharedAct.allocs 1 n) = some s' ∧
      s'.threads.get 1 = .alloc pc ∧ s'.handles = s.handles := by
  have hstart : machine.init (.start 1) := ⟨1, rfl⟩
  obtain ⟨s, hs, hp⟩ := Machine.Reach.exists_of_runIf hstart (fun s a => s.popsCurrent a)
    (SharedAct.takes 0 63 ++ SharedAct.allocs 0 11)
    (fun s => s.threads.get 0 = .alloc .loadPages ∧ s.threads.get 1 = .idle ∧
      s.arena.writer = true ∧ s.arena.freeList = none) (fun _ _ hok => hok) (by decide +kernel)
  obtain ⟨ht, hidle, hwriter, hnone⟩ := of_decide_eq_true hp
  refine ⟨s, ht, (alloc_alone hs hidle).2 hwriter fun p hp => ?_⟩
  have hnil : Linked s.arena.nextFree s.arena.freeList [] := hnone
  have hmem := (OnChain.iff_mem hnil).mp hp
  cases hmem

end SharedArena

end MemoryPools
