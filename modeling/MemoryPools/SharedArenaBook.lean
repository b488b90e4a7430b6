import MemoryPools.SharedArenaStats
import MemoryPools.Page.SharedArenaSound
import MemoryPools.Kind
import MemoryPools.Alone
import MemoryPools.Interleave.Sweep

/-!
# The book of a shared arena

The calls of a `SharedArena` that run alone return, and do to its book what a
`Kind.Lawful` kind does. The parked pages are those of `to_free`.
-/

namespace MemoryPools

open Interleave

namespace PageSharedArena

theorem ops_links : ops.Links :=
  ⟨fun _ _ => rfl, fun _ => rfl, fun _ _ => rfl, fun _ _ _ => rfl, fun _ => rfl⟩

def face : PageFace PageSharedArena := ops.face refs

variable {page : PageSharedArena} {i : Nat}

theorem not_held_new (next : Ptr) : (∀ i, ¬ (face.word (new next)).held i) ∧
    (face.word (new next)).owned := by
  have hones : (new next).bitfield = BitVec.allOnes 64 := rfl
  obtain ⟨h63, hbit⟩ := eq_ones_iff.mp hones
  refine ⟨fun i hi => ?_, trivial, h63⟩
  obtain ⟨hlt, hclear⟩ := hi
  rw [blockPerPage_eq] at hlt
  rw [hbit i hlt] at hclear
  cases hclear

theorem load_full (ho : refs.owned page) (h : ∀ j < 63, refs.held page j) :
    acquireFreeBlock page .load = (page, .ret none) := by
  have hctz : page.bitfield.ctz.toNat = 63 := (ctz_eq_iff_full ho).mpr fun j hj => (h j hj).2
  simp only [acquireFreeBlock, hctz, blockPerPage_eq, ite_true]

theorem load_room (ho : refs.owned page) (h : ∃ j < 63, ¬ refs.held page j) :
    ∃ i page', i < 63 ∧ acquireFreeBlock page .load = (page, .goto (.fetchAnd i)) ∧
      acquireFreeBlock page (.fetchAnd i) = (page', .ret (some i)) ∧ ¬ refs.held page i ∧
      (∀ j, refs.held page' j ↔ refs.held page j ∨ j = i) ∧ refs.owned page' ∧
      page'.toPageLinks = page.toPageLinks := by
  have hne : page.bitfield.ctz.toNat ≠ 63 := by
    intro e
    obtain ⟨j, hj, hnot⟩ := h
    exact hnot ⟨hj, (ctz_eq_iff_full ho).mp e j hj⟩
  obtain ⟨hlt, hone⟩ := ctz_free ho hne
  have hload : acquireFreeBlock page .load = (page, .goto (.fetchAnd page.bitfield.ctz.toNat)) := by
    simp only [acquireFreeBlock, blockPerPage_eq, hne, ite_false]
  rw [hload]
  generalize page.bitfield.ctz.toNat = i at hlt hone
  have hset : page.bitfield &&& bit i ≠ 0 := by
    rw [Ne, and_bit_eq_zero hlt, hone]
    simp
  have hfetch : acquireFreeBlock page (.fetchAnd i) =
      ({ page with bitfield := page.bitfield &&& ~~~bit i }, .ret (some i)) := by
    simp only [acquireFreeBlock, ne_eq, hset, not_false_eq_true, ite_true, blockPerPage_eq, hlt]
  have hbit := fun j => getLsbD_and_not_bit (x := page.bitfield) hlt j
  refine ⟨i, _, hlt, rfl, hfetch, ?_, fun j => ?_, ?_, rfl⟩
  · intro hheld
    rw [hheld.2] at hone
    cases hone
  · simp only [refs, blockPerPage_eq, hbit]
    grind
  · exact arenaBit_and_not_bit hlt ho

theorem ones_iff (ho : refs.owned page) :
    page.bitfield = BitVec.allOnes 64 ↔ ∀ i, ¬ refs.held page i := by
  have ho : page.bitfield.getLsbD 63 = true := ho
  rw [eq_ones_iff, ho]
  simp only [refs, blockPerPage_eq]
  grind

end PageSharedArena

namespace SharedArena

open PageSharedArena (ops refs face ops_links refs_lawful AcquirePc)

/-- `free` is the list that `shrink_to_fit` holds, `parked` are the pages of `to_free` or those
that a call is about to drop. -/
def viewWith (a : SharedArena) (free : Ptr) (parked : List Addr) (npages : Nat) : View :=
  a.heap.view face free a.pendingFreeList a.fullList parked npages

def view (a : SharedArena) : View := a.viewWith a.freeList (a.toFree.getD []) a.npages

/-- No call is in progress, and `to_free` is null or has a page. -/
def Quiet (a : SharedArena) : Prop := a.writer = false ∧ a.shrinking = false ∧ a.toFree ≠ some []

def kind : Kind SharedArena where
  withCapacity
  findPlace := bounded findPlace .loadFree
  dropBlock alive x := bounded (fun a => a.dropBlockOf x.1 x.2 alive) .fetchAdd
  shrunk := Bool
  shrinkToFit := bounded shrinkToFit .swapShrinking
  release := bounded release .loadToFree
  stats := bounded (fun a pc => (a, a.stats pc)) .loadFree
  handle
    | .alloc => some .arenaBox
    | .allocRc => some .arenaRc
    | .allocArc => some .arenaArc
  view
  Quiet
  onFree := false
  parks := true

variable {a a' : SharedArena} {b : Book} {p : Addr} {i : Nat} {rest : List Addr}

theorem held_iff (h : kind.Alive a b) (hp : p ∈ b.listed) : refs.held (a.page p) i ↔ (p, i) ∈ b.live :=
  h.shows.held p (List.mem_append_left _ hp) i

theorem owned (h : kind.Alive a b) (hp : p ∈ b.listed) : refs.owned (a.page p) :=
  (h.shows.owned p (List.mem_append_left _ hp)).2

theorem unused_eq (h : kind.Alive a b) (hp : p ∈ b.listed) : a.unused p = b.unused p := by
  show decide _ = _
  rw [Bool.eq_iff_iff, decide_eq_true_eq, Book.unused_iff]
  apply (PageSharedArena.ones_iff (owned h hp)).trans
  exact forall_congr' fun i => not_congr (held_iff h hp)

theorem parked_eq (h : kind.Alive a b) : a.toFree.getD [] = b.parked := h.shows.parked

theorem toFree_eq (h : kind.Alive a b) :
    a.toFree = if b.parked = [] then none else some b.parked := by
  have hp := parked_eq h
  cases hf : a.toFree with
  | none =>
    rw [hf] at hp
    have hnil : b.parked = [] := hp.symm
    rw [if_pos hnil]
  | some l =>
    rw [hf] at hp
    have hl : l = b.parked := hp
    have hne := h.quiet.2.2
    rw [hf, hl] at hne
    rw [hl, if_neg fun e => hne (congrArg some e)]

theorem free_eq (h : kind.Alive a b) : a.freeList = b.free.head? := h.shows.free.head_eq

theorem pending_eq (h : kind.Alive a b) : a.pendingFreeList = b.pending.head? :=
  h.shows.pending.head_eq

theorem start (cap : Nat) : ∃ pages, kind.Alive (withCapacity cap) (.start pages) ∧
    pages.length = pagesFor cap := by
  refine ⟨downFrom 0 (pagesFor cap),
    ⟨Book.Tidy.start nodup_downFrom, ?_, rfl, rfl, by simp [withCapacity]⟩,
    length_downFrom⟩
  exact View.Shows.start (pagesFor_pos cap) (fun _ => rfl) PageSharedArena.not_held_new

theorem setPage_setPage {x y : PageSharedArena} : (a.setPage p x).setPage p y = a.setPage p y := by
  unfold setPage
  rw [Heap.set_set]

theorem page_setPage_self {x : PageSharedArena} : (a.setPage p x).page p = x := Heap.get_set_self _ _ _

/-! ## The pages of the free list -/

theorem view_word {x : PageSharedArena} {free : Ptr} {parked : List Addr} {npages : Nat}
    (hl : x.toPageLinks = (a.page p).toPageLinks) :
    (a.setPage p x).viewWith free parked npages = { a.viewWith free parked npages with
      word := Function.update (a.viewWith free parked npages).word p (face.word x) } :=
  Heap.view_set_word hl

theorem view_pop {c : Ptr} :
    ({ a.setPage p { a.page p with inFreeList := false } with freeList := c } : SharedArena).view =
      { a.view with free := c, inFreeList := Function.update a.view.inFreeList p false } :=
  Heap.view_set_flag rfl rfl

theorem acquire_goto {pc pc' : AcquirePc} {x : PageSharedArena}
    (h : PageSharedArena.acquireFreeBlock (a.page p) pc = (x, .goto pc')) :
    a.findPlace (.acquire p pc) = (a.setPage p x, .goto (.acquire p pc')) := by
  simp only [findPlace, h]

theorem acquire_none {pc : AcquirePc} {x : PageSharedArena}
    (h : PageSharedArena.acquireFreeBlock (a.page p) pc = (x, .ret none)) :
    a.findPlace (.acquire p pc) = (a.setPage p x, .goto (.loadNext p)) := by
  simp only [findPlace, h]

theorem acquire_some {pc : AcquirePc} {x : PageSharedArena}
    (h : PageSharedArena.acquireFreeBlock (a.page p) pc = (x, .ret (some i))) :
    a.findPlace (.acquire p pc) = (a.setPage p x, .ret (p, i)) := by
  simp only [findPlace, h]

theorem pop (h : kind.Alive a b) (hfree : b.free = p :: rest) (hfull : b.full p = true) :
    ∃ a', Goes findPlace a .loadFree a' .loadFree ∧ kind.Alive a' { b with free := rest } ∧
      (kind.view a').size = (kind.view a).size := by
  have hp : p ∈ b.listed := h.tidy.free_listed (by simp [hfree])
  have hhead : a.freeList = some p := by rw [free_eq h, hfree]; rfl
  have hheld : ∀ j < 63, refs.held (a.page p) j := fun j hj =>
    (held_iff h hp).mpr (Book.full_iff.mp hfull j hj)
  have hget : a.findPlace .loadFree = (a, .goto (.acquire p .load)) := by
    simp only [findPlace, hhead]
  have hload := acquire_none (PageSharedArena.load_full (owned h hp) hheld)
  have hnext : (a.setPage p (a.page p)).findPlace (.loadNext p) =
      (a.setPage p (a.page p), .goto (.casFree p (a.page p).nextFree)) := by
    simp only [findPlace, nextFree, PageOps.nextFree, setPage, Heap.get_set_self]
    rfl
  have hcas : (a.setPage p (a.page p)).findPlace (.casFree p (a.page p).nextFree) =
      ({ a.setPage p (a.page p) with freeList := (a.page p).nextFree }, .goto (.clearInFree p)) := by
    have hhead' : (a.setPage p (a.page p)).freeList = some p := hhead
    simp only [findPlace, hhead', ite_true]
  refine ⟨{ a.setPage p { a.page p with inFreeList := false } with freeList := (a.page p).nextFree },
    ?_, ⟨h.tidy.pop hfree hfull, ?_, h.quiet⟩, rfl⟩
  · refine .head hget (.head hload (.head hnext (.head hcas (.single ?_))))
    simp only [findPlace, setPage, page, Heap.set_set, Heap.get_set_self]
  · show View.Shows (view _) _
    rw [view_pop]
    exact h.shows.pop h.tidy hfree

theorem takeBlock (h : kind.Alive a b) (hfree : b.free = p :: rest) (hroom : b.full p = false) :
    ∃ i a', i < 63 ∧ (p, i) ∉ b.live ∧ Returns findPlace a .loadFree a' (p, i) ∧
      kind.Alive a' (b.take (p, i)) ∧ (kind.view a').size = (kind.view a).size := by
  have hp : p ∈ b.listed := h.tidy.free_listed (by simp [hfree])
  have hhead : a.freeList = some p := by rw [free_eq h, hfree]; rfl
  have hget : a.findPlace .loadFree = (a, .goto (.acquire p .load)) := by
    simp only [findPlace, hhead]
  obtain ⟨j, hj, hnot⟩ := Book.full_eq_false_iff.mp hroom
  obtain ⟨i, x, hi, hload, hfetch, hclear, hheld, ho, hlinks⟩ :=
    PageSharedArena.load_room (owned h hp) ⟨j, hj, fun hh => hnot ((held_iff h hp).mp hh)⟩
  have hnew : (p, i) ∉ b.live := fun hm => hclear ((held_iff h hp).mpr hm)
  have hfetch' : PageSharedArena.acquireFreeBlock ((a.setPage p (a.page p)).page p) (.fetchAnd i) =
      (x, .ret (some i)) := by
    rw [page_setPage_self]
    exact hfetch
  have htake := acquire_some hfetch'
  rw [setPage_setPage] at htake
  refine ⟨i, a.setPage p x, hi, hnew, ?_, ⟨h.tidy.take hfree hi hnew, ?_, h.quiet⟩, rfl⟩
  · exact .head hget (.head (acquire_goto hload) (.of_step htake))
  · show View.Shows (viewWith _ _ _ _) _
    rw [view_word hlinks]
    exact h.shows.take hheld ⟨trivial, ho⟩

/-! ## The parked pages -/

def withHeap (a : SharedArena) (s : Heap PageSharedArena × Ptr) : SharedArena :=
  { a with heap := s.1, pendingFreeList := s.2 }

theorem dropPage_nests {κ ρ : Type} {step : SharedArena → κ → SharedArena × Control κ ρ}
    {f : DropPagePc → κ} {k : Unit → Control κ ρ}
    (hf : Nests (fun a => dropPage a p) step id f k) (a : SharedArena) :
    Nests (ops.dropPageAt p) step a.withHeap f k := fun s pc => hf (a.withHeap s) pc

theorem maybeFree_step {s s' : Heap PageSharedArena × Ptr}
    (h : Returns (ops.dropPageAt p) s .fetch s' ()) :
    (rest = [] → Returns maybeFreePages (a.withHeap s) (.dropPage p rest .fetch)
      (a.withHeap s') ()) ∧
    ∀ q l, rest = q :: l → Goes maybeFreePages (a.withHeap s) (.dropPage p rest .fetch)
      (a.withHeap s') (.dropPage q l .fetch) := by
  have hin : Nests (fun a => dropPage a p) maybeFreePages id (.dropPage p rest)
      fun _ => dropPages rest := by
    intro a pc
    simp only [maybeFreePages, id]
    cases (a.dropPage p pc).2 <;> rfl
  have hnest := dropPage_nests hin a
  constructor
  · intro hrest
    apply h.lift hnest
    rw [hrest]
    rfl
  · intro q l hrest
    apply h.nest hnest
    rw [hrest]
    rfl

/-- The parked pages stay, or all of them are deallocated. -/
theorem maybeFree_returns {free : Ptr} {npages : Nat}
    (hs : (a.viewWith free (a.toFree.getD []) npages).Shows b) (ht : b.Tidy) :
    ∃ heap toFree delay, (toFree = a.toFree ∨ toFree = none) ∧
      Returns maybeFreePages a .loadDelay { a with heap, toFree, toFreeDelay := delay } () ∧
      (heap.view face free a.pendingFreeList a.fullList (toFree.getD []) npages).Shows
        { b with parked := toFree.getD [] } ∧ heap.size = a.heap.size := by
  have hparked : a.toFree.getD [] = b.parked := hs.parked
  have hsame : (a.heap.view face free a.pendingFreeList a.fullList (a.toFree.getD []) npages).Shows
      { b with parked := a.toFree.getD [] } := by
    have e : { b with parked := a.toFree.getD [] } = b := by rw [hparked]
    rw [e]
    exact hs
  by_cases hdelay : a.toFreeDelay < delayDropShrink
  · have hload : a.maybeFreePages .loadDelay = (a, .goto .fetchAdd) := by
      simp only [maybeFreePages, hdelay, ite_true]
    by_cases hlast : a.toFreeDelay = delayDropShrink - 1
    · have hadd : a.maybeFreePages .fetchAdd =
          ({ a with toFreeDelay := (a.toFreeDelay + 1) % 2 ^ 16 }, .goto .swapToFree) := by
        simp only [maybeFreePages, hlast, ite_true]
      let a₁ : SharedArena :=
        { a with toFree := none, toFreeDelay := (a.toFreeDelay + 1) % 2 ^ 16 }
      have hswap : maybeFreePages { a with toFreeDelay := (a.toFreeDelay + 1) % 2 ^ 16 }
          .swapToFree = (a₁, dropPages (a.toFree.getD [])) := rfl
      cases hl : a.toFree.getD [] with
      | nil =>
        rw [hl] at hswap hsame
        exact ⟨a.heap, none, _, Or.inr rfl, .head hload (.head hadd (.of_step hswap)), hsame, rfl⟩
      | cons p rest =>
        rw [hl] at hswap hsame
        have htidy : { b with parked := p :: rest }.Tidy := by
          apply ht.park
          · rw [← hl, hparked]
            exact ht.parked
          · rw [← hl, hparked]
            exact fun q hq => hq
        obtain ⟨heap, hret, hs', hsize⟩ := PageOps.dropPages_discard (g := a₁.withHeap)
          (fun p rest => MaybePc.dropPage p rest .fetch)
          (P := fun s pc s' => Returns maybeFreePages s pc s' ()) Goes.returns
          (fun h => (maybeFree_step h).2 _ _ rfl) (fun h => (maybeFree_step h).1 rfl)
          refs_lawful ops_links hsame htidy
        exact ⟨heap, none, _, Or.inr rfl, .head hload (.head hadd (.head hswap hret)), hs', hsize⟩
    · have hadd : a.maybeFreePages .fetchAdd =
          ({ a with toFreeDelay := (a.toFreeDelay + 1) % 2 ^ 16 }, .ret ()) := by
        simp only [maybeFreePages, hlast, ite_false]
      exact ⟨a.heap, a.toFree, _, Or.inl rfl, .head hload (.of_step hadd), hsame, rfl⟩
  · refine ⟨a.heap, a.toFree, a.toFreeDelay, Or.inl rfl, .of_step ?_, hsame, rfl⟩
    simp only [maybeFreePages, hdelay, ite_false]

/-! ## More pages -/

theorem enters (h : kind.Alive a b) (hfree : b.free = []) :
    Goes findPlace a .loadFree { a with writer := true } .loadPending := by
  have hnone : a.freeList = none := by rw [free_eq h, hfree]; rfl
  have hwriter : a.writer = false := h.quiet.1
  have hload : a.findPlace .loadFree = (a, .goto .loadWriter) := by
    simp only [findPlace, hnone]
  have hguard : a.findPlace .loadWriter = (a, .goto .swapWriter) := by
    simp only [findPlace, hwriter, Bool.false_eq_true, ite_false]
  have hswap : a.findPlace .swapWriter = ({ a with writer := true }, .goto .recheckFree) := by
    simp only [findPlace, hwriter, Bool.false_eq_true, ite_false]
  have hcheck : SharedArena.findPlace { a with writer := true } .recheckFree =
      ({ a with writer := true }, .goto .loadPending) := by
    simp only [findPlace, hnone, ite_true]
  exact .head hload (.head hguard (.head hswap (.single hcheck)))

theorem leaves_guard (a : SharedArena) :
    Goes findPlace a .unlock { a with writer := false } .loadFree := .single rfl

theorem refill (h : kind.Alive a b) (hfree : b.free = []) (hne : b.pending ≠ []) :
    ∃ n b' a', Book.Fetch b n b' ∧ Goes findPlace a .loadFree a' .loadFree ∧ kind.Alive a' b' ∧
      (kind.view a').size = (kind.view a).size + n := by
  have hnone : a.freeList = none := by rw [free_eq h, hfree]; rfl
  have hall : b.free.dropWhile b.full = [] := by rw [hfree]; rfl
  have hsome : a.pendingFreeList ≠ none := by
    rw [pending_eq h]
    intro e
    exact hne (List.head?_eq_none_iff.mp e)
  let a₁ : SharedArena := { a with
    writer := true, freeList := a.pendingFreeList, pendingFreeList := none }
  have hload : SharedArena.findPlace { a with writer := true } .loadPending =
      ({ a with writer := true }, .goto .swapPending) := by
    simp only [findPlace, hsome, ite_false]
  have hswap : SharedArena.findPlace { a with writer := true, pendingFreeList := none }
      (.swapFree a.pendingFreeList) = (a₁, .goto (.maybeFree true .loadDelay)) := by
    simp only [findPlace, hnone, ite_true]
    rfl
  have hs : (a₁.viewWith a₁.freeList (a₁.toFree.getD []) a₁.npages).Shows
      { b with free := b.pending, pending := [] } := h.shows.refill hfree
  have ht : { b with free := b.pending, pending := [] }.Tidy := h.tidy.refill hall (Or.inl rfl)
  obtain ⟨heap, toFree, delay, hor, hret, hs', hsize⟩ := maybeFree_returns hs ht
  have hin : Nests maybeFreePages findPlace id (.maybeFree true) fun _ => .goto .unlock := by
    intro a pc
    simp only [findPlace, id]
    cases (a.maybeFreePages pc).2 <;> rfl
  have hnest : Goes findPlace a₁ (.maybeFree true .loadDelay)
      { a₁ with heap, toFree, toFreeDelay := delay } .unlock := hret.nest hin rfl
  have hparked : toFree.getD [] = b.parked ∨ toFree.getD [] = [] := by
    rcases hor with rfl | rfl
    · exact Or.inl h.shows.parked
    · exact Or.inr rfl
  refine ⟨0, _, { a with
    heap, toFree, toFreeDelay := delay, writer := false, freeList := a.pendingFreeList,
    pendingFreeList := none }, .pending hall hne hparked, ?_, ⟨?_, hs', rfl, h.quiet.2.1, ?_⟩, hsize⟩
  · apply (enters h hfree).trans
    exact .head hload (.head rfl (.head hswap (hnest.trans (leaves_guard _))))
  · exact h.tidy.refill hall hparked
  · rcases hor with rfl | rfl
    · exact h.quiet.2.2
    · exact fun e => by cases e

theorem put_returns (n : Nat) (first last : Addr) (hnone : a.freeList = none) :
    Returns (fun a => putPages n first last a) a .loadFull
      { a.setPage last { a.page last with next := a.fullList } with
        fullList := some first
        freeList := some first
        npages := (a.npages + n) % 2 ^ 64 } () := by
  let a₁ : SharedArena := a.setPage last { a.page last with next := a.fullList }
  have hstore : a.putPages n first last (.storeNext a.fullList) =
      (a₁, .goto (.swapFull a.fullList)) := rfl
  have hswap : a₁.putPages n first last (.swapFull a.fullList) =
      ({ a₁ with fullList := some first }, .goto .loadFree) := by
    have e : a.fullList = a₁.fullList := rfl
    simp only [putPages, e, ite_true]
  have hload : putPages n first last { a₁ with fullList := some first } .loadFree =
      ({ a₁ with fullList := some first }, .goto .swapFree) := by
    have e : a₁.freeList = none := hnone
    simp only [putPages, e, ite_true]
  have hfree : putPages n first last { a₁ with fullList := some first } .swapFree =
      ({ a₁ with fullList := some first, freeList := some first }, .goto .addPages) := by
    have e : a₁.freeList = none := hnone
    simp only [putPages, e, ite_true]
  exact .head rfl (.head hstore (.head hswap (.head hload (.head hfree (.of_step rfl)))))

theorem npages_add {n m : Nat} (hn : n ≤ maxPages) (hm : m ≤ max n 1) :
    (n + m) % 2 ^ 64 = n + m := by
  apply Nat.mod_eq_of_lt
  unfold maxPages pageBytes at hn
  omega

theorem growth_le (n : Nat) : growth n ≤ max n 1 := Nat.min_le_left _ _

theorem grow (h : kind.Alive a b) (hfree : b.free = []) (hpending : b.pending = [])
    (hparked : b.parked = []) (hlen : b.listed.length ≤ maxPages) :
    ∃ n b' a', Book.Fetch b n b' ∧ Goes findPlace a .loadFree a' .loadFree ∧ kind.Alive a' b' ∧
      (kind.view a').size = (kind.view a).size + n := by
  have hnone : a.freeList = none := by rw [free_eq h, hfree]; rfl
  have hnone' : a.pendingFreeList = none := by rw [pending_eq h, hpending]; rfl
  have hnone'' : a.toFree = none := by rw [toFree_eq h, if_pos hparked]
  have hall : b.free.dropWhile b.full = [] := by rw [hfree]; rfl
  have hnpages : a.npages = b.listed.length := h.shows.npages
  have hmod : (a.npages + growth a.npages) % 2 ^ 64 = a.npages + growth a.npages := by
    apply npages_add
    · rw [hnpages]
      exact hlen
    · exact growth_le _
  have hfetch : Book.Fetch b (downFrom a.heap.size (growth a.npages)).length _ :=
    .grow hall hpending hparked nodup_downFrom (fun q hq hl => by
      have hlt := ((h.shows.kept q).mp (List.mem_append_left _ hl)).1
      exact Nat.lt_irrefl _ (Nat.lt_of_lt_of_le hlt (mem_downFrom.mp hq).1))
      (by rw [length_downFrom, hnpages])
  let heap := (a.heap.makeList PageSharedArena.new (growth a.npages)).1
  let first : Addr := a.heap.size + (growth a.npages - 1)
  let a₁ : SharedArena := { a with heap, writer := true }
  have hload : SharedArena.findPlace { a with writer := true } .loadPending =
      ({ a with writer := true }, .goto .loadToFree) := by
    simp only [findPlace, hnone', ite_true]
  have hload' : SharedArena.findPlace { a with writer := true } .loadToFree =
      ({ a with writer := true }, .goto .loadPages) := by
    simp only [findPlace, hnone'', ite_true]
  have hmake : SharedArena.findPlace { a with writer := true } .loadPages =
      (a₁, .goto (.put (growth a.npages) first a.heap.size .loadFull)) := rfl
  have hput := put_returns (a := a₁) (growth a.npages) first a.heap.size hnone
  have hin : Nests (putPages (growth a.npages) first a.heap.size) findPlace id
      (.put (growth a.npages) first a.heap.size) fun _ => .goto .unlock := by
    intro s pc
    simp only [findPlace, id]
    cases (putPages (growth a.npages) first a.heap.size s pc).2 <;> rfl
  have hnest : Goes findPlace a₁ (.put (growth a.npages) first a.heap.size .loadFull) _ .unlock :=
    hput.nest hin rfl
  let a' : SharedArena :=
    { a with
      heap := heap.set a.heap.size { heap.get a.heap.size with next := a.fullList }
      freeList := some first
      fullList := some first
      npages := (a.npages + growth a.npages) % 2 ^ 64
      writer := false }
  refine ⟨_, _, a', hfetch, ?_, ⟨h.tidy.fetch hfetch, ?_, rfl, h.quiet.2⟩, by
    rw [length_downFrom]; rfl⟩
  · apply (enters h hfree).trans
    exact .head hload (.head hload' (.head hmake (hnest.trans (leaves_guard _))))
  · have hs : (a.heap.view face none none a.fullList [] a.npages).Shows b := by
      have e : a.view = a.heap.view face none none a.fullList [] a.npages := by
        show a.heap.view face a.freeList a.pendingFreeList a.fullList (a.toFree.getD []) a.npages = _
        rw [hnone, hnone', hnone'']
        rfl
      exact e ▸ h.shows
    have hview : a'.view = a'.heap.view face (some first) none (some first) []
        (a.npages + growth a.npages) := by
      show a'.heap.view face (some first) a.pendingFreeList (some first) (a.toFree.getD [])
        ((a.npages + growth a.npages) % 2 ^ 64) = _
      rw [hnone', hnone'', hmod]
      rfl
    show View.Shows a'.view _
    rw [hview]
    exact View.Shows.grow (growth_pos a.npages) hs (fun _ => rfl) PageSharedArena.not_held_new rfl
      rfl h.tidy

/-! ## Pages that are put back -/

theorem links_rest (kept : List Addr) {reinsert l : List Addr} {first last : Addr} (hl : l.Nodup)
    (hfirst : reinsert.head? = some first) (hlast : reinsert.getLast? = some last) :
    ∃ a' next nextFree flag, (∀ pc, linkFrom kept reinsert l = .goto pc →
        Goes takePages a pc a' (.put kept reinsert first last .loadFull)) ∧
      (∃ heap, a' = { a with heap }) ∧
      (∀ free parked npages, a'.viewWith free parked npages =
        { a.viewWith free parked npages with
          nextFree := nextFree, next := next, inFreeList := flag }) ∧
      Linked nextFree l.head? l ∧ Linked next l.head? l ∧ (∀ q ∈ l, flag q = true) ∧
      ∀ q, q ∉ l → nextFree q = a.nextFree q ∧ next q = a.next q ∧ flag q = a.inFreeList q := by
  induction l generalizing a with
  | nil =>
    refine ⟨a, a.next, a.nextFree, a.inFreeList, fun pc hpc => ?_, ⟨a.heap, rfl⟩,
      fun _ _ _ => rfl, rfl, rfl, ?_, fun q _ => ⟨rfl, rfl, rfl⟩⟩
    · have e : linkFrom kept reinsert [] = .goto (.put kept reinsert first last .loadFull) := by
        simp only [linkFrom, hfirst, hlast]
      rw [e] at hpc
      cases hpc
      exact .refl
    · intro q hq
      cases hq
  | cons p behind ih =>
    obtain ⟨hp, hbehind⟩ := List.nodup_cons.mp hl
    let x : PageSharedArena := { a.page p with
      nextFree := behind.head?, next := behind.head?, inFreeList := true }
    let a₁ : SharedArena := a.setPage p x
    obtain ⟨a', next, nextFree, flag, hgoes, ⟨heap, hheap⟩, hview, hfree, hnext, hflag, hother⟩ :=
      ih (a := a₁) hbehind
    have hview₁ : ∀ free parked npages, a₁.viewWith free parked npages =
        { a.viewWith free parked npages with
          nextFree := Function.update a.nextFree p behind.head?
          next := Function.update a.next p behind.head?
          inFreeList := Function.update a.inFreeList p true } :=
      fun _ _ _ => Heap.view_set_links rfl rfl
    have hother' : ∀ q, q ∉ behind →
        nextFree q = Function.update a.nextFree p behind.head? q ∧
        next q = Function.update a.next p behind.head? q ∧
        flag q = Function.update a.inFreeList p true q := by
      intro q hq
      obtain ⟨h₁, h₂, h₃⟩ := hother q hq
      have e₁ : a₁.nextFree = Function.update a.nextFree p behind.head? :=
        congrArg View.nextFree (hview₁ none [] 0)
      have e₂ : a₁.next = Function.update a.next p behind.head? :=
        congrArg View.next (hview₁ none [] 0)
      have e₃ : a₁.inFreeList = Function.update a.inFreeList p true :=
        congrArg View.inFreeList (hview₁ none [] 0)
      exact ⟨h₁.trans (congrFun e₁ q), h₂.trans (congrFun e₂ q), h₃.trans (congrFun e₃ q)⟩
    obtain ⟨hp₁, hp₂, hp₃⟩ := hother' p hp
    rw [Function.update_self] at hp₁ hp₂ hp₃
    refine ⟨a', next, nextFree, flag, fun pc hpc => ?_, ⟨heap, hheap⟩, fun free parked npages => ?_,
      ⟨rfl, ?_⟩, ⟨rfl, ?_⟩, ?_, fun q hq => ?_⟩
    · have hpc' : linkFrom kept reinsert (p :: behind) =
          .goto (.linkFree kept reinsert (p :: behind)) := rfl
      rw [hpc'] at hpc
      cases hpc
      have hlink : (a.setPage p { a.page p with nextFree := behind.head? }).takePages
          (.link kept reinsert (p :: behind)) =
          (a.setPage p { a.page p with nextFree := behind.head?, next := behind.head? },
            .goto (.setInFree kept reinsert (p :: behind))) := by
        simp only [takePages, page_setPage_self, setPage_setPage]
      have hset : (a.setPage p { a.page p with
          nextFree := behind.head?, next := behind.head? }).takePages
          (.setInFree kept reinsert (p :: behind)) = (a₁, linkFrom kept reinsert behind) := by
        simp only [takePages, page_setPage_self, setPage_setPage]
        rfl
      obtain ⟨pc', hpc''⟩ : ∃ pc', linkFrom kept reinsert behind = .goto pc' := by
        cases behind with
        | nil => exact ⟨.put kept reinsert first last .loadFull, by simp only [linkFrom, hfirst, hlast]⟩
        | cons q l => exact ⟨_, rfl⟩
      rw [hpc''] at hset
      exact .head rfl (.head hlink (.head hset (hgoes pc' hpc'')))
    · rw [hview, hview₁]
    · rw [hp₁]
      exact hfree
    · rw [hp₂]
      exact hnext
    · intro q hq
      rcases List.mem_cons.mp hq with rfl | hq
      · exact hp₃
      · exact hflag q hq
    · have hne : q ≠ p := fun e => hq (by simp [e])
      obtain ⟨h₁, h₂, h₃⟩ := hother' q fun hm => hq (List.mem_cons_of_mem _ hm)
      rw [Function.update_of_ne hne] at h₁ h₂ h₃
      exact ⟨h₁, h₂, h₃⟩

theorem parks_rest (kept : List Addr) (hnone : a.toFree = none) : ∃ delay,
    Returns takePages a (if kept ≠ [] then .storeToFree kept else .storeDelay delayDropShrink)
      { a with toFree := if kept = [] then none else some kept, toFreeDelay := delay } () := by
  by_cases hk : kept = []
  · rw [if_neg (not_not.mpr hk), if_pos hk]
    refine ⟨delayDropShrink, .of_step ?_⟩
    rw [← hnone]
    rfl
  · rw [if_pos hk, if_neg hk]
    have hstore : a.takePages (.storeToFree kept) =
        ({ a with toFree := some kept }, .goto (.storeDelay 0)) := by
      simp only [takePages, hnone, ite_true]
    exact ⟨0, .head hstore (.of_step rfl)⟩

/-- The pages of `again` leave the parked ones and are listed. -/
theorem put_again (h : kind.Alive a b) (hfree : b.free = []) (hpending : b.pending = [])
    {kept again : List Addr} {first last : Addr} (hsplit : b.parked = kept ++ again)
    (hfirst : again.head? = some first) (hlast : again.getLast? = some last)
    {next nextFree : Addr → Ptr} {flag : Addr → Bool}
    (hchain : Linked nextFree again.head? again) (hchain' : Linked next again.head? again)
    (hflag : ∀ q ∈ again, flag q = true)
    (hother : ∀ q, q ∉ again → nextFree q = a.nextFree q ∧ next q = a.next q ∧
      flag q = a.inFreeList q) :
    { a.view with
      nextFree := nextFree
      next := Function.update next last a.fullList
      inFreeList := flag
      free := some first
      full := some first
      npages := a.npages + again.length
      parked := kept }.Shows
      { b with free := again, listed := again ++ b.listed, parked := kept } := by
  have hparked : ∀ q ∈ again, q ∈ b.parked := by
    intro q hq
    rw [hsplit]
    exact List.mem_append_right _ hq
  have hnew : ∀ q ∈ again, q ∉ b.listed := fun q hq => h.tidy.apart q (hparked q hq)
  have hold : ∀ q ∈ b.listed, q ∉ again := fun q hl hq => hnew q hq hl
  have hunused : ∀ q ∈ again, ∀ i, (q, i) ∉ b.live :=
    fun q hq i hi => hnew q hq (h.tidy.home q i hi).1
  rw [hfirst] at hchain hchain'
  apply h.shows.join hfree hpending
  · exact hchain
  · show a.pendingFreeList = none
    rw [pending_eq h, hpending]
    rfl
  · have hfull : Linked next a.fullList b.listed :=
      Linked.congr (fun q hq => (hother q (hold q hq)).2.1) h.shows.full
    exact (hchain'.join hlast hfull hnew).1
  · rfl
  · exact hflag
  · exact fun q hq => (hother q (hold q hq)).2.2
  · exact hnew
  · exact hunused
  · intro q hq
    have hmem : q ∈ b.listed ++ b.parked := List.mem_append_right _ (hparked q hq)
    exact ⟨fun i hi => hunused q hq i ((h.shows.held q hmem i).mp hi), h.shows.owned q hmem⟩
  · exact fun q _ => rfl
  · intro q hq
    rw [hsplit]
    exact List.mem_append_left _ hq
  · rfl
  · intro q
    have hkept := h.shows.kept q
    rw [hsplit] at hkept
    refine Iff.trans ?_ hkept
    simp only [List.mem_append]
    tauto
  · rfl
  · exact Nat.le_refl _

/-- `take_pages_to_be_freed` puts as many pages back as there are in the lists, the last ones. -/
theorem takePages_returns {parked kept again : List Addr} {first last : Addr}
    (hsome : a.toFree = some parked) (hkept : kept = parked.take (parked.length - max a.npages 1))
    (hagain : again = parked.drop (parked.length - max a.npages 1)) (hnodup : again.Nodup)
    (hfirst : again.head? = some first) (hlast : again.getLast? = some last)
    (hnone : a.freeList = none) : ∃ heap next nextFree flag delay,
      Returns takePages a .swapToFree
        { a with
          heap, freeList := some first, fullList := some first
          npages := (a.npages + again.length) % 2 ^ 64
          toFree := if kept = [] then none else some kept
          toFreeDelay := delay } () ∧
      heap.view face (some first) a.pendingFreeList (some first) kept (a.npages + again.length) =
        { a.view with
          nextFree := nextFree, next := Function.update next last a.fullList, inFreeList := flag
          free := some first, full := some first, npages := a.npages + again.length
          parked := kept } ∧
      Linked nextFree again.head? again ∧ Linked next again.head? again ∧
      (∀ q ∈ again, flag q = true) ∧
      ∀ q, q ∉ again → nextFree q = a.nextFree q ∧ next q = a.next q ∧ flag q = a.inFreeList q := by
  let a₁ : SharedArena := { a with toFree := none }
  have hswap : a.takePages .swapToFree = (a₁, .goto (.loadPages parked)) := by
    simp only [takePages, hsome]
    rfl
  have hpages : a₁.takePages (.loadPages parked) = (a₁, linkFrom kept again again) := by
    rw [hkept, hagain]
    rfl
  obtain ⟨pc, hpc⟩ : ∃ pc, linkFrom kept again again = .goto pc := by
    cases again with
    | nil => cases hfirst
    | cons p l => exact ⟨_, rfl⟩
  rw [hpc] at hpages
  obtain ⟨a₂, next, nextFree, flag, hgoes, ⟨heap, rfl⟩, hview, hchain, hchain', hflag, hother⟩ :=
    links_rest (a := a₁) kept hnodup hfirst hlast
  have hput := put_returns (a := { a₁ with heap }) again.length first last hnone
  have hin : Nests (putPages again.length first last) takePages id (.put kept again first last)
      fun _ => .goto (if kept ≠ [] then .storeToFree kept else .storeDelay delayDropShrink) := by
    intro s pc
    simp only [takePages, id]
    cases (putPages again.length first last s pc).2 <;> rfl
  let a₃ : SharedArena :=
    { setPage { a₁ with heap } last { heap.get last with next := a.fullList } with
      fullList := some first
      freeList := some first
      npages := (a.npages + again.length) % 2 ^ 64 }
  have hnest : Goes takePages { a₁ with heap } (.put kept again first last .loadFull) a₃
      (if kept ≠ [] then .storeToFree kept else .storeDelay delayDropShrink) := hput.nest hin rfl
  obtain ⟨delay, hrest⟩ := parks_rest (a := a₃) kept rfl
  refine ⟨_, next, nextFree, flag, delay,
    .head hswap (.head hpages ((hgoes pc hpc).returns (hnest.returns hrest))), ?_, hchain, hchain',
    hflag, hother⟩
  have hview := hview (some first) kept (a.npages + again.length)
  have hfull : heap.view face (some first) a.pendingFreeList (some first) kept
      (a.npages + again.length) = { a.view with
        nextFree := nextFree, next := next, inFreeList := flag, free := some first,
        full := some first, npages := a.npages + again.length, parked := kept } :=
    congrArg (fun v : View => { v with full := some first }) hview
  have hnext : (fun q => (face.links (heap.get q)).next) = next := congrArg View.next hview
  have hset : (heap.set last { heap.get last with next := a.fullList }).view face (some first)
      a.pendingFreeList (some first) kept (a.npages + again.length) =
      { heap.view face (some first) a.pendingFreeList (some first) kept
        (a.npages + again.length) with
        next := Function.update (fun q => (face.links (heap.get q)).next) last a.fullList } :=
    Heap.view_set_next rfl rfl
  exact hset.trans (by rw [hfull, hnext])

theorem unparks (h : kind.Alive a b) (hfree : b.free = []) (hpending : b.pending = [])
    (hparked : b.parked ≠ []) (hlen : b.listed.length ≤ maxPages) :
    ∃ n b' a', Book.Fetch b n b' ∧ Goes findPlace a .loadFree a' .loadFree ∧ kind.Alive a' b' ∧
      (kind.view a').size = (kind.view a).size + n := by
  have hnone : a.freeList = none := by rw [free_eq h, hfree]; rfl
  have hnone' : a.pendingFreeList = none := by rw [pending_eq h, hpending]; rfl
  have hsome : a.toFree = some b.parked := by rw [toFree_eq h, if_neg hparked]
  have hall : b.free.dropWhile b.full = [] := by rw [hfree]; rfl
  have hnpages : a.npages = b.listed.length := h.shows.npages
  have hpos : 0 < b.parked.length := List.length_pos_of_ne_nil hparked
  obtain ⟨kept, hkept⟩ : ∃ kept, kept = b.parked.take (b.parked.length - max a.npages 1) := ⟨_, rfl⟩
  obtain ⟨again, hagain⟩ : ∃ again, again = b.parked.drop (b.parked.length - max a.npages 1) :=
    ⟨_, rfl⟩
  have hsplit : b.parked = kept ++ again := by rw [hkept, hagain, List.take_append_drop]
  have hcount : again.length = min b.parked.length (max b.listed.length 1) := by
    rw [hagain, List.length_drop, hnpages]
    omega
  have hne : again ≠ [] := by
    apply List.ne_nil_of_length_pos
    omega
  have hfetch : Book.Fetch b 0 _ := .unpark hall hpending hsplit hcount hne
  obtain ⟨first, hfirst⟩ : ∃ first, again.head? = some first := ⟨_, List.head?_eq_some_head hne⟩
  obtain ⟨last, hlast⟩ : ∃ last, again.getLast? = some last := ⟨_, List.getLast?_eq_some_getLast hne⟩
  have hnodup : again.Nodup := by
    rw [hagain]
    exact (List.drop_sublist _ _).nodup h.tidy.parked
  have hmod : (a.npages + again.length) % 2 ^ 64 = a.npages + again.length := by
    apply npages_add
    · rw [hnpages]
      exact hlen
    · omega
  have hload : SharedArena.findPlace { a with writer := true } .loadPending =
      ({ a with writer := true }, .goto .loadToFree) := by
    simp only [findPlace, hnone', ite_true]
  have hload' : SharedArena.findPlace { a with writer := true } .loadToFree =
      ({ a with writer := true }, .goto (.take .swapToFree)) := by
    simp only [findPlace, hsome, reduceCtorEq, ite_false]
  obtain ⟨heap, next, nextFree, flag, delay, htake, hview, hchain, hchain', hflag, hother⟩ :=
    takePages_returns (a := { a with writer := true }) hsome hkept hagain hnodup hfirst hlast hnone
  have hin : Nests takePages findPlace id .take fun _ => .goto .unlock := by
    intro s pc
    simp only [findPlace, id]
    cases (s.takePages pc).2 <;> rfl
  have houter : Goes findPlace { a with writer := true } (.take .swapToFree) _ .unlock :=
    htake.nest hin rfl
  refine ⟨0, _, { a with
    heap, freeList := some first, fullList := some first
    npages := (a.npages + again.length) % 2 ^ 64
    toFree := if kept = [] then none else some kept
    toFreeDelay := delay, writer := false }, hfetch, ?_,
    ⟨h.tidy.fetch hfetch, ?_, rfl, h.quiet.2.1, ?_⟩, ?_⟩
  · apply (enters h hfree).trans
    exact .head hload (.head hload' (houter.trans (leaves_guard _)))
  · have hgetD : (if kept = [] then none else some kept).getD [] = kept := by
      by_cases hk : kept = []
      · rw [if_pos hk, hk]
        rfl
      · rw [if_neg hk]
        rfl
    show View.Shows (heap.view face (some first) a.pendingFreeList (some first)
      ((if kept = [] then none else some kept).getD []) ((a.npages + again.length) % 2 ^ 64)) _
    rw [hgetD, hmod]
    have hview : heap.view face (some first) a.pendingFreeList (some first) kept
        (a.npages + again.length) = _ := hview
    rw [hview]
    exact put_again h hfree hpending hsplit hfirst hlast hchain hchain' hflag hother
  · show (if kept = [] then none else some kept) ≠ some []
    by_cases hk : kept = []
    · rw [if_pos hk]
      simp
    · rw [if_neg hk]
      exact fun e => hk (Option.some.inj e)
  · have hsize : heap.size = a.heap.size := congrArg View.size hview
    exact hsize

theorem refills (h : kind.Alive a b) (hfree : b.free = []) (hlen : b.listed.length ≤ maxPages) :
    ∃ n b' a', Book.Fetch b n b' ∧ Goes findPlace a .loadFree a' .loadFree ∧ kind.Alive a' b' ∧
      (kind.view a').size = (kind.view a).size + n := by
  by_cases hpending : b.pending = []
  · by_cases hparked : b.parked = []
    · exact grow h hfree hpending hparked hlen
    · exact unparks h hfree hpending hparked hlen
  · exact refill h hfree hpending

/-! ## The end of a block -/

theorem dropBlock_returns {s s' : Heap PageSharedArena × Ptr} {upgraded : Bool}
    (h : Returns (ops.dropBlockAt p i upgraded) s .fetchAdd s' ()) :
    Returns (fun a => dropBlockOf a p i upgraded) (a.withHeap s) .fetchAdd (a.withHeap s') () := by
  have hnest : Nests (ops.dropBlockAt p i upgraded) (fun a => dropBlockOf a p i upgraded) a.withHeap id
      .ret := by
    intro s pc
    rw [Control.inside_id]
    rfl
  exact h.lift hnest rfl

theorem giveBlock (h : kind.Alive a b) (hx : (p, i) ∈ b.live) :
    ∃ a', Completes (kind.dropBlock true (p, i)) a a' () ∧ kind.Alive a' (b.give false (p, i)) ∧
      (kind.view a').size = (kind.view a).size := by
  obtain ⟨heap, pending, hret, hs, hsize⟩ :=
    PageOps.dropBlock_shows refs_lawful ops_links h.shows h.tidy hx
  exact ⟨_, (dropBlock_returns (a := a) hret).completes, ⟨h.tidy.give false hx, hs, h.quiet⟩, hsize⟩

theorem dropLast {live : List Block} (h : a.view.Leftover live) (hx : (p, i) ∈ live) :
    ∃ a', Completes (kind.dropBlock false (p, i)) a a' () ∧
      (kind.view a').Leftover (live.erase (p, i)) ∧ (kind.view a').size = (kind.view a).size := by
  obtain ⟨heap, hret, hl, hsize⟩ := PageOps.dropBlock_leftover refs_lawful ops_links h hx
  exact ⟨_, (dropBlock_returns (a := a) hret).completes, hl, hsize⟩

/-! ## The end of the arena -/

theorem release_parked (h : kind.Alive a b) : ∃ heap,
    Goes release a .loadToFree { a with heap } .loadFull ∧
      (heap.view face a.freeList a.pendingFreeList a.fullList [] a.npages).Shows
        { b with parked := [] } ∧ heap.size = a.heap.size := by
  have hin : ∀ p rest, Nests (fun a => dropPage a p) release id (.dropParked p rest)
      fun _ => .goto (releaseParked rest) := by
    intro p rest a pc
    simp only [release, id]
    cases (a.dropPage p pc).2 <;> rfl
  have hload : a.release .loadToFree = (a, .goto (releaseParked b.parked)) := by
    rw [← parked_eq h]
    rfl
  have hs : (a.heap.view face a.freeList a.pendingFreeList a.fullList b.parked a.npages).Shows b := by
    rw [← parked_eq h]
    exact h.shows
  cases hl : b.parked with
  | nil =>
    rw [hl] at hload hs
    have e : { b with parked := [] } = b := by rw [← hl]
    rw [e]
    exact ⟨a.heap, .single hload, hs, rfl⟩
  | cons p rest =>
    rw [hl] at hload hs
    have e : { b with parked := p :: rest } = b := by rw [← hl]
    have ht := h.tidy
    rw [← e] at hs ht
    obtain ⟨heap, hgoes, hs', hsize⟩ := PageOps.dropPages_discard (g := a.withHeap)
      (fun p rest => ReleasePc.dropParked p rest .fetch)
      (P := fun s pc s' => Goes release s pc s' .loadFull) Goes.trans
      (fun h => h.nest (dropPage_nests (hin _ _) a) rfl)
      (fun h => h.nest (dropPage_nests (hin _ _) a) rfl)
      refs_lawful ops_links hs ht
    exact ⟨heap, .head hload hgoes, hs', hsize⟩

theorem release_page {v : View} {done : List Addr} (hs : v.Shows b) (hl : v.Left b done a.view)
    (hp : p ∈ b.listed) (hnew : p ∉ done) :
    ∃ a', v.Left b (done ++ [p]) (kind.view a') ∧
      (∀ q, v.next p = some q → Goes release a (.loadNext p) a' (.loadNext q)) ∧
      (v.next p = none → Returns release a (.loadNext p) a' ()) := by
  obtain ⟨heap, hret, hleft⟩ := PageOps.dropPage_leaves refs_lawful ops_links hs hl hp hnew
  have hnext : a.next p = v.next p := congrFun hl.next p
  have hload : a.release (.loadNext p) = (a, .goto (.dropPage p (v.next p) .fetch)) := by
    rw [← hnext]
    rfl
  have hin : Nests (fun a => dropPage a p) release id (.dropPage p (v.next p))
      fun _ => releaseFrom (v.next p) := by
    intro a pc
    simp only [release, id]
    cases (a.dropPage p pc).2 <;> rfl
  have hnest := dropPage_nests hin a
  refine ⟨a.withHeap (heap, a.pendingFreeList), hleft, fun q hq => ?_, fun hnone => ?_⟩
  · refine .head hload (hret.nest hnest ?_)
    rw [hq]
    rfl
  · refine .head hload (hret.lift hnest ?_)
    rw [hnone]
    rfl

theorem releases (h : kind.Alive a b) : ∃ a', Completes kind.release a a' () ∧
    (kind.view a').Leftover b.live ∧ (kind.view a').size = (kind.view a).size := by
  obtain ⟨heap, hgoes, hs, hsize⟩ := release_parked h
  obtain ⟨b₁, hb₁⟩ : ∃ b₁ : Book, b₁ = { b with parked := [] } := ⟨_, rfl⟩
  have ht : b₁.Tidy := by
    rw [hb₁]
    exact h.tidy.park List.nodup_nil fun q hq => absurd hq List.not_mem_nil
  have hnil : b₁.parked = [] := by rw [hb₁]
  have hlive : b.live = b₁.live := by rw [hb₁]
  rw [← hb₁] at hs
  obtain ⟨v, hv⟩ : ∃ v, v = heap.view face a.freeList a.pendingFreeList a.fullList [] a.npages :=
    ⟨_, rfl⟩
  let a₁ : SharedArena := { a with heap }
  have hstart : v.Left b₁ [] a₁.view := by
    have hleft := View.Left.start b₁ v
    rw [hv] at hleft ⊢
    exact ⟨hleft.next, hleft.word, hleft.given, hleft.size, hleft.freed⟩
  rw [← hv] at hs
  have hwalk : ∃ a', Returns release a₁ .loadFull a' () ∧ v.Left b₁ b₁.listed a'.view := by
    have hfull := hs.full
    have hhead : a₁.fullList = v.full := by
      rw [hv]
      rfl
    cases hl : b₁.listed with
    | nil =>
      rw [hl] at hfull
      have hnone : a₁.fullList = none := hhead.trans hfull
      refine ⟨a₁, .of_step ?_, hstart⟩
      simp only [release, hnone, releaseFrom]
    | cons p rest =>
      rw [hl] at hfull
      have hsome : a₁.fullList = some p := hhead.trans hfull.1
      have hload : a₁.release .loadFull = (a₁, .goto (.loadNext p)) := by
        simp only [release, hsome, releaseFrom]
      have hchain : Linked v.next (some p) (p :: rest) := ⟨rfl, hfull.2⟩
      obtain ⟨a', hret, hleft⟩ := Kind.leaves (K := kind) ReleasePc.loadNext
        (fun hleft hq hnew => release_page hs hleft hq hnew) hstart hchain hl ht.listed
      rw [← hl]
      exact ⟨a', .head hload hret, hleft⟩
  obtain ⟨a', hret, hleft⟩ := hwalk
  rw [hlive]
  refine ⟨a', (hgoes.returns hret).completes, hleft.leftover hs ht hnil, ?_⟩
  have hsize' : v.size = a.heap.size := by rw [hv]; exact hsize
  exact hleft.size.trans hsize'

/-! ## Shrinking -/

theorem walk_keeps {head current : Ptr} {v : Addr} {toDrop : List Addr}
    (hv : readLink a.nextFree head current = some v) (hd : a.unused v = false) :
    Goes shrinkToFit a (.walk head current toDrop) a (.walk head (some v) toDrop) := by
  have hwalk : a.shrinkToFit (.walk head current toDrop) =
      (a, .goto (.walkNext head current v toDrop)) := by
    simp only [shrinkToFit, hv]
  have hbits : a.shrinkToFit (.walkBits head current v (a.nextFree v) toDrop) =
      (a, .goto (.walk head (some v) toDrop)) := by
    simp only [shrinkToFit, hd, Bool.false_eq_true, ite_false]
  exact .head hwalk (.head rfl (.single hbits))

theorem full_keeps {start current : Ptr} {v : Addr} {toDrop : List Addr}
    (hv : readLink a.next a.fullList current = some v) (hd : v ∉ toDrop) :
    Goes shrinkToFit a (.full start toDrop current) a (.full start toDrop (some v)) := by
  have hfull : a.shrinkToFit (.full start toDrop current) =
      (a, .goto (.fullNext start toDrop current v)) := by
    simp only [shrinkToFit, hv]
  have hnext : a.shrinkToFit (.fullNext start toDrop current v) =
      (a, .goto (.full start toDrop (some v))) := by
    simp only [shrinkToFit, hd, ite_false]
  exact .head hfull (.single hnext)

def WalkAt (a : SharedArena) (next : Addr → Ptr) (head current : Ptr) (dropped : List Addr)
    (a' : SharedArena) (pc : ShrinkPc) : Prop :=
  pc = .walk head current dropped ∧
    (∃ heap, a' = { a with heap, writer := true, shrinking := true, freeList := none }) ∧
    a'.view = { a.view with nextFree := next, free := none } ∧
    ∀ q, (a'.page q).bitfield = (a.page q).bitfield

theorem unused_congr (h : (a'.page p).bitfield = (a.page p).bitfield) :
    a'.unused p = a.unused p := by
  unfold unused
  rw [h]

theorem WalkAt.start (a : SharedArena) : WalkAt a a.nextFree a.freeList none []
    { a with writer := true, shrinking := true, freeList := none } (.walk a.freeList none []) :=
  ⟨rfl, ⟨a.heap, rfl⟩, rfl, fun _ => rfl⟩

theorem walk_sweeps (a : SharedArena) : Sweeps shrinkToFit a.unused (WalkAt a) where
  keep := by
    intro next head current dropped a' pc v h hv hd
    obtain ⟨rfl, harena, hview, hbits⟩ := h
    have hnext : a'.nextFree = next := congrArg View.nextFree hview
    have hused : a'.unused v = false := by
      rw [unused_congr (hbits v), hd]
    rw [← hnext] at hv
    exact ⟨a', _, walk_keeps hv hused, rfl, harena, hview, hbits⟩
  drop := by
    intro next head current dropped a' pc v h hv hd
    obtain ⟨rfl, ⟨heap, harena⟩, hview, hbits⟩ := h
    have hnext : a'.nextFree = next := congrArg View.nextFree hview
    have hunused : a'.unused v = true := by
      rw [unused_congr (hbits v), hd]
    have hwalk : a'.shrinkToFit (.walk head current dropped) =
        (a', .goto (.walkNext head current v dropped)) := by
      simp only [shrinkToFit, hnext, hv]
    have hbits' : a'.shrinkToFit (.walkBits head current v (next v) dropped) =
        (a', .goto (.walkCas head current v (next v) dropped)) := by
      simp only [shrinkToFit, hunused, ite_true]
    have hload : a'.shrinkToFit (.walkNext head current v dropped) =
        (a', .goto (.walkBits head current v (next v) dropped)) := by
      simp only [shrinkToFit, hnext]
    cases current with
    | none =>
      refine ⟨a', _, .head hwalk (.head hload (.head hbits' (.single ?_))), rfl, ⟨heap, harena⟩,
        hview, hbits⟩
      simp only [shrinkToFit, hnext, hv, ite_true]
      rfl
    | some c =>
      refine ⟨a'.setPage c { a'.page c with nextFree := next v }, _,
        .head hwalk (.head hload (.head hbits' (.single ?_))), rfl,
        ⟨a'.heap.set c { a'.page c with nextFree := next v }, ?_⟩, ?_, fun q => ?_⟩
      · simp only [shrinkToFit, hnext, hv, ite_true]
        rfl
      · rw [harena]
        rfl
      · have e : (a'.setPage c { a'.page c with nextFree := next v }).view =
            { a'.view with nextFree := Function.update a'.view.nextFree c (next v) } :=
          Heap.view_set_nextFree rfl rfl
        rw [e, hview]
        rfl
      · show ((a'.heap.set c _).get q).bitfield = _
        rw [Heap.get_set]
        split
        · rename_i e
          rw [e]
          exact hbits c
        · exact hbits q

theorem retain_all {start : Ptr} {kept l : List Addr} (h : ∀ p ∈ l, a.unused p = true) :
    Goes shrinkToFit a (retainFrom start kept l) a (.full start (kept ++ l) none) := by
  induction l generalizing kept with
  | nil =>
    rw [List.append_nil]
    exact .refl
  | cons p l ih =>
    have hp : a.unused p = true := h p (by simp)
    have hstep : a.shrinkToFit (.retain start kept p l) =
        (a, .goto (retainFrom start (kept ++ [p]) l)) := by
      simp only [shrinkToFit, hp, ite_true]
    have hrest : Goes shrinkToFit a (retainFrom start (kept ++ [p]) l) a
        (.full start ((kept ++ [p]) ++ l) none) := ih fun q hq => h q (by simp [hq])
    rw [List.append_assoc] at hrest
    exact .head hstep hrest

def FullAt (a : SharedArena) (start : Ptr) (toDrop : List Addr) (next : Addr → Ptr)
    (head current : Ptr) (_ : List Addr) (a' : SharedArena) (pc : ShrinkPc) : Prop :=
  pc = .full start toDrop current ∧ (∃ heap, a' = { a with heap, fullList := head }) ∧
    a'.view = { a.view with next := next, full := head }

theorem FullAt.start (a : SharedArena) (start : Ptr) (toDrop : List Addr) :
    FullAt a start toDrop a.next a.fullList none [] a (.full start toDrop none) :=
  ⟨rfl, ⟨a.heap, rfl⟩, rfl⟩

theorem full_sweeps (a : SharedArena) (start : Ptr) (toDrop : List Addr) :
    Sweeps shrinkToFit (fun q => decide (q ∈ toDrop)) (FullAt a start toDrop) where
  keep := by
    intro next head current dropped a' pc v h hv hd
    obtain ⟨rfl, ⟨heap, harena⟩, hview⟩ := h
    have hnext : a'.next = next := congrArg View.next hview
    have hhead : a'.fullList = head := congrArg View.full hview
    have hnot : ¬ v ∈ toDrop := of_decide_eq_false hd
    rw [← hnext, ← hhead] at hv
    exact ⟨a', _, full_keeps hv hnot, rfl, ⟨heap, harena⟩, hview⟩
  drop := by
    intro next head current dropped a' pc v h hv hd
    obtain ⟨rfl, ⟨heap, harena⟩, hview⟩ := h
    have hnext : a'.next = next := congrArg View.next hview
    have hhead : a'.fullList = head := congrArg View.full hview
    have hin : v ∈ toDrop := of_decide_eq_true hd
    have hfull : a'.shrinkToFit (.full start toDrop current) =
        (a', .goto (.fullNext start toDrop current v)) := by
      simp only [shrinkToFit, hnext, hhead, hv]
    have hload : a'.shrinkToFit (.fullNext start toDrop current v) =
        (a', .goto (.fullCas start toDrop current v (next v))) := by
      simp only [shrinkToFit, hin, ite_true, hnext]
    cases current with
    | none =>
      refine ⟨{ a' with fullList := next v }, _, .head hfull (.head hload (.single ?_)), rfl,
        ⟨heap, ?_⟩, ?_⟩
      · simp only [shrinkToFit, hnext, hhead, hv, ite_true]
      · rw [harena]
        rfl
      · show { a'.view with full := next v } = _
        rw [hview]
        rfl
    | some c =>
      refine ⟨a'.setPage c { a'.page c with next := next v }, _,
        .head hfull (.head hload (.single ?_)), rfl,
        ⟨a'.heap.set c { a'.page c with next := next v }, ?_⟩, ?_⟩
      · simp only [shrinkToFit, hnext, hhead, hv, ite_true]
      · rw [harena]
        rfl
      · have e : (a'.setPage c { a'.page c with next := next v }).view =
            { a'.view with next := Function.update a'.view.next c (next v) } :=
          Heap.view_set_next rfl rfl
        rw [e, hview]
        rfl

/-- The pages that were taken out are parked, and the free list is put back. -/
theorem shrink_parks (start : Ptr) (toDrop : List Addr) (hnone : a.freeList = none)
    (hle : toDrop.length ≤ a.npages) (hlt : a.npages < 2 ^ 64) :
    Returns shrinkToFit a (if toDrop ≠ [] then .storeDelay start toDrop else .restore start 0)
      { a with
        freeList := start
        npages := a.npages - toDrop.length
        toFree := if toDrop = [] then a.toFree else some (a.toFree.getD [] ++ toDrop)
        toFreeDelay := if toDrop = [] then a.toFreeDelay else 0
        shrinking := false
        writer := false } true := by
  have hend : ∀ (a : SharedArena) (n : Nat), a.freeList = none → n ≤ a.npages → a.npages < 2 ^ 64 →
      Returns shrinkToFit a (.restore start n)
        { a with
          freeList := start
          npages := a.npages - n
          shrinking := false
          writer := false } true := by
    intro a n hnone hle hlt
    have hrestore : a.shrinkToFit (.restore start n) =
        ({ a with freeList := start }, .goto (.subPages n)) := by
      simp only [shrinkToFit, hnone, ite_true]
    have hmod : (a.npages + (2 ^ 64 - n % 2 ^ 64)) % 2 ^ 64 = a.npages - n := by omega
    have hsub : shrinkToFit { a with freeList := start } (.subPages n) =
        ({ a with freeList := start, npages := a.npages - n }, .goto .clearShrinking) := by
      simp only [shrinkToFit, hmod]
    exact .head hrestore (.head hsub (.head rfl (.of_step rfl)))
  by_cases hdrop : toDrop = []
  · rw [if_neg (not_not.mpr hdrop), if_pos hdrop, if_pos hdrop, hdrop]
    exact hend a 0 hnone (Nat.zero_le _) hlt
  · rw [if_pos hdrop, if_neg hdrop, if_neg hdrop]
    let toFree := a.toFree.getD [] ++ toDrop
    have hstore : shrinkToFit { a with toFreeDelay := 0, toFree := none }
        (.storeToFree start toDrop.length toFree) =
        ({ a with toFreeDelay := 0, toFree := some toFree }, .goto (.restore start toDrop.length)) := by
      simp only [shrinkToFit, ite_true]
    refine .head rfl (.head rfl (.head hstore ?_))
    exact hend { a with toFreeDelay := 0, toFree := some toFree } toDrop.length hnone hle hlt

theorem getD_parks (toDrop : List Addr) :
    (if toDrop = [] then a.toFree else some (a.toFree.getD [] ++ toDrop)).getD [] =
      a.toFree.getD [] ++ toDrop := by
  by_cases h : toDrop = []
  · rw [if_pos h, h, List.append_nil]
  · rw [if_neg h]
    rfl

theorem parks_ne (hquiet : a.toFree ≠ some []) (toDrop : List Addr) :
    (if toDrop = [] then a.toFree else some (a.toFree.getD [] ++ toDrop)) ≠ some [] := by
  by_cases h : toDrop = []
  · rw [if_pos h]
    exact hquiet
  · rw [if_neg h]
    exact fun e => h (List.append_eq_nil_iff.mp (Option.some.inj e)).2

theorem shrinks (h : kind.Alive a b) (hlen : b.listed.length ≤ maxPages) :
    ∃ a', Completes (bounded shrinkToFit .swapShrinking) a a' true ∧
      kind.Alive a' (b.shrink true) ∧ (kind.view a').size = (kind.view a).size ∧
      a'.toFree = (if b.spare = [] then a.toFree else some (a.toFree.getD [] ++ b.spare)) ∧
      a'.toFreeDelay = if b.spare = [] then a.toFreeDelay else 0 := by
  obtain ⟨hwriter, hshrinking, hquiet⟩ := h.quiet
  have hdrop : ∀ q ∈ b.free, a.unused q = b.unused q := fun q hq =>
    unused_eq h (h.tidy.free_listed hq)
  have henter : a.shrinkToFit .swapShrinking =
      ({ a with shrinking := true }, .goto .swapWriter) := by
    simp only [shrinkToFit, hshrinking, Bool.false_eq_true, ite_false]
  have hlock : shrinkToFit { a with shrinking := true } .swapWriter =
      ({ a with writer := true, shrinking := true }, .goto .swapFree) := by
    simp only [shrinkToFit, hwriter, Bool.false_eq_true, ite_false]
  obtain ⟨next₁, head₁, current₁, a₁, pc₁, hgoes₁, ⟨rfl, ⟨heap₁, harena₁⟩, hview₁, hbits₁⟩, hread₁,
    hlinked₁, hsame₁⟩ := (walk_sweeps a).run (.start a) h.shows.free
  have hspare : b.free.filter a.unused = b.spare := List.filter_congr hdrop
  rw [hspare] at hgoes₁
  have hstep₁ : a₁.shrinkToFit (.walk head₁ current₁ b.spare) =
      (a₁, .goto (retainFrom head₁ [] b.spare)) := by
    have hnext : a₁.nextFree = next₁ := congrArg View.nextFree hview₁
    simp only [shrinkToFit, hnext, hread₁]
  have hretain : Goes shrinkToFit a₁ (retainFrom head₁ [] b.spare) a₁
      (.full head₁ ([] ++ b.spare) none) := by
    apply retain_all
    intro q hq
    rw [unused_congr (hbits₁ q), hdrop q (Book.mem_spare.mp hq).1]
    exact (Book.mem_spare.mp hq).2
  have hlisted₁ : Linked a₁.view.next a₁.view.full b.listed := by
    rw [hview₁]
    exact h.shows.full
  obtain ⟨next₂, head₂, current₂, a₂, pc₂, hgoes₂, ⟨rfl, ⟨heap₂, harena₂⟩, hview₂⟩, hread₂,
    hlinked₂, -⟩ := (full_sweeps a₁ head₁ b.spare).run (.start a₁ head₁ b.spare) hlisted₁
  have hstep₂ : a₂.shrinkToFit (.full head₁ b.spare current₂) = (a₂, .goto
      (if b.spare ≠ [] then .storeDelay head₁ b.spare else .restore head₁ 0)) := by
    have hnext : a₂.next = next₂ := congrArg View.next hview₂
    have hhead : a₂.fullList = head₂ := congrArg View.full hview₂
    simp only [shrinkToFit, hnext, hhead, hread₂]
  have hview : a₂.view = { a.view with
      nextFree := next₁, free := none, next := next₂, full := head₂ } := by
    rw [hview₂, hview₁]
  have hnpages : a₂.npages = a.npages := congrArg View.npages hview
  have hlength : a.npages = b.listed.length := h.shows.npages
  have htoFree : a₂.toFree = a.toFree := by rw [harena₂, harena₁]
  have hdelay : a₂.toFreeDelay = a.toFreeDelay := by rw [harena₂, harena₁]
  have hret := shrink_parks (a := a₂) head₁ b.spare (congrArg View.free hview)
    (by
      rw [hnpages, hlength]
      exact h.tidy.length_spare_le)
    (by
      rw [hnpages, hlength]
      exact Nat.lt_of_le_of_lt hlen (by decide))
  have hparked := (getD_parks (a := a) b.spare).trans (congrArg (· ++ b.spare) (parked_eq h))
  rw [htoFree, hdelay] at hret
  refine ⟨{ a₂ with
    freeList := head₁
    npages := a₂.npages - b.spare.length
    toFree := if b.spare = [] then a.toFree else some (a.toFree.getD [] ++ b.spare)
    toFreeDelay := if b.spare = [] then a.toFreeDelay else 0
    shrinking := false
    writer := false }, ?_, ⟨h.tidy.shrink true, ?_, rfl, rfl, parks_ne hquiet b.spare⟩, ?_, rfl, rfl⟩
  · apply Returns.completes
    apply Returns.head henter
    apply Returns.head hlock
    apply Returns.head rfl
    apply Returns.head rfl
    apply (hgoes₁.trans (.single hstep₁)).returns
    apply hretain.returns
    exact (hgoes₂.trans (.single hstep₂)).returns hret
  · have hshown : View.Shows { a.view with
        nextFree := next₁
        free := head₁
        next := next₂
        full := head₂
        npages := a.view.npages - b.spare.length
        parked := b.parked ++ b.spare } (b.shrink true) :=
      h.shows.shrink h.tidy hdrop hlinked₁ hsame₁ hlinked₂
    have hshown' : { a₂.view with
        free := head₁
        npages := a₂.npages - b.spare.length
        parked := (if b.spare = [] then a.toFree else
          some (a.toFree.getD [] ++ b.spare)).getD [] } =
        { a.view with
          nextFree := next₁
          free := head₁
          next := next₂
          full := head₂
          npages := a.view.npages - b.spare.length
          parked := b.parked ++ b.spare } := by
      rw [hparked, hview, hnpages]
      rfl
    rw [← hshown'] at hshown
    exact hshown
  · have e : a₂.heap.size = a.heap.size := congrArg View.size hview
    exact e

/-! ## The accounts -/

theorem zeros_eq (h : kind.Alive a b) (hp : p ∈ b.listed) :
    countZeros (a.page p).bitfield = b.used p := by
  apply Book.countZeros_eq_used (owned h hp)
  intro i hi
  rw [← held_iff h hp]
  exact ⟨fun hclear => ⟨hi, hclear⟩, And.right⟩

theorem stats_walk (h : kind.Alive a b) (pending : Bool) {next : Ptr} {l : List Addr}
    (hl : Linked a.nextFree next l) (hsub : ∀ p ∈ l, p ∈ b.listed) (free : Nat) {pc : StatsPc}
    (hpc : a.stats pc = statsFrom pending free next) :
    ∃ pc', Goes (fun a pc => (a, a.stats pc)) a pc a pc' ∧
      a.stats pc' = statsFrom pending (free + (l.map fun p => 63 - b.used p).sum) none := by
  induction l generalizing next free pc with
  | nil =>
    have hnone : next = none := hl
    rw [hnone] at hpc
    exact ⟨pc, .refl, hpc⟩
  | cons p l ih =>
    have hp : p ∈ b.listed := hsub p (by simp)
    have hcount := countOnes_add_countZeros (a.page p).bitfield
    rw [zeros_eq h hp] at hcount
    have hle := b.used_le p
    have hones : ¬ countOnes (a.page p).bitfield = 0 := by omega
    have hfree : countOnes (a.page p).bitfield - 1 = 63 - b.used p := by omega
    have hstep : a.stats pc = .goto (.loadNext pending p free) := by
      rw [hpc, hl.1]
      rfl
    have hbits : a.stats (.loadBits pending p (a.nextFree p) free) =
        statsFrom pending (free + (63 - b.used p)) (a.nextFree p) := by
      simp only [stats, hones, ite_false, hfree]
    obtain ⟨pc', hgoes, hend⟩ := ih hl.2 (fun q hq => hsub q (by simp [hq])) _ hbits
    refine ⟨pc', .head (congrArg (Prod.mk a) hstep) (.head rfl hgoes), ?_⟩
    rw [hend, List.map_cons, List.sum_cons, ← Nat.add_assoc]

theorem counts (h : kind.Alive a b) :
    Completes kind.stats a a (b.live.length, 63 * b.listed.length - b.live.length) := by
  obtain ⟨pc, hgoes, hend⟩ := stats_walk h false h.shows.free
    (fun _ hp => h.tidy.free_listed hp) 0 (rfl : a.stats .loadFree = statsFrom false 0 a.freeList)
  obtain ⟨pc', hgoes', hend'⟩ := stats_walk h true h.shows.pending
    (fun p hp => h.tidy.sub p (List.mem_append_right _ hp))
    (0 + (b.free.map fun p => 63 - b.used p).sum)
    (rfl : a.stats (.loadPending _) = statsFrom true _ a.pendingFreeList)
  have hsum := h.tidy.sum_free
  rw [List.map_append, List.sum_append] at hsum
  rw [Nat.zero_add] at hend hend' hgoes'
  have hnpages : b.listed.length = a.npages := h.shows.npages.symm
  have hret : a.stats (.loadPages ((b.free.map fun p => 63 - b.used p).sum +
      (b.pending.map fun p => 63 - b.used p).sum)) =
      .ret (b.live.length, 63 * b.listed.length - b.live.length) := by
    generalize (b.free.map fun p => 63 - b.used p).sum +
      (b.pending.map fun p => 63 - b.used p).sum = free at hsum
    have hcap : ¬ b.listed.length * 63 < free := by omega
    have hused : b.listed.length * 63 - free = b.live.length := by omega
    have hfree : 63 * b.listed.length - b.live.length = free := by omega
    simp only [stats, ← hnpages, blockPerPage_eq, hcap, ite_false, hused, hfree]
  apply Returns.completes
  apply (hgoes.trans (.single (congrArg (Prod.mk a) hend))).returns
  apply (hgoes'.trans (.single (congrArg (Prod.mk a) hend'))).returns
  exact .of_step (congrArg (Prod.mk a) hret)

theorem fmt_walk (h : kind.Alive a b) {next : Ptr} {l : List Addr} (hl : Linked a.next next l)
    (hsub : ∀ p ∈ l, p ∈ b.listed) (npages : Nat) (vec : List PageDebug) {pc : FmtPc}
    (hpc : a.fmt pc = fmtFrom npages vec next) :
    ∃ pc', Goes (fun a pc => (a, a.fmt pc)) a pc a pc' ∧ a.fmt pc' = fmtFrom npages
      (vec ++ l.map fun p => { free := 63 - b.used p, used := b.used p }) none := by
  induction l generalizing next vec pc with
  | nil =>
    have hnone : next = none := hl
    rw [hnone] at hpc
    rw [List.map_nil, List.append_nil]
    exact ⟨pc, .refl, hpc⟩
  | cons p l ih =>
    have hp : p ∈ b.listed := hsub p (by simp)
    have hle : ¬ 63 < b.used p := Nat.not_lt.mpr (b.used_le p)
    have hstep : a.fmt pc = .goto (.loadBits npages p vec) := by
      rw [hpc, hl.1]
      rfl
    have hbits : a.fmt (.loadBits npages p vec) = .goto (.loadNext npages p
        (vec ++ [{ free := 63 - b.used p, used := b.used p }])) := by
      simp only [fmt, zeros_eq h hp, blockPerPage_eq, hle, ite_false]
    obtain ⟨pc', hgoes, hend⟩ := ih hl.2 (fun q hq => hsub q (by simp [hq]))
      (vec ++ [{ free := 63 - b.used p, used := b.used p }])
      (rfl : a.fmt (.loadNext npages p _) = fmtFrom npages _ (a.next p))
    refine ⟨pc', .head (congrArg (Prod.mk a) hstep) (.head (congrArg (Prod.mk a) hbits) hgoes), ?_⟩
    rw [hend, List.map_cons, List.append_assoc]
    rfl

/-- What `fmt` shows: the same account, from the list of all pages. -/
theorem shown (h : kind.Alive a b) :
    Completes (bounded (fun a pc => (a, a.fmt pc)) .loadPages) a a
      { blocksFree := 63 * b.listed.length - b.live.length
        blocksUsed := b.live.length
        npages := b.listed.length
        pages := b.listed.map fun p => { free := 63 - b.used p, used := b.used p } } := by
  have hnpages : a.npages = b.listed.length := h.shows.npages
  obtain ⟨pc, hgoes, hend⟩ := fmt_walk h h.shows.full (fun _ hp => hp) a.npages []
    (rfl : a.fmt (.loadFull a.npages) = fmtFrom a.npages [] a.fullList)
  have hused := h.tidy.sum_used
  have hfree := Book.sum_map_sub (l := b.listed) fun p _ => b.used_le p
  have hret : fmtFrom a.npages
      ([] ++ b.listed.map fun p => { free := 63 - b.used p, used := b.used p }) none = .ret
        { blocksFree := 63 * b.listed.length - b.live.length
          blocksUsed := b.live.length
          npages := b.listed.length
          pages := b.listed.map fun p => { free := 63 - b.used p, used := b.used p } } := by
    have e : (b.listed.map fun p => 63 - b.used p).sum =
        63 * b.listed.length - b.live.length := by omega
    rw [List.nil_append, fmtFrom, List.map_map, List.map_map, hnpages, ← e, ← hused]
    rfl
  apply Returns.completes
  apply Returns.head (congrArg (Prod.mk a) (rfl : a.fmt .loadPages = .goto (.loadFull a.npages)))
  exact hgoes.returns (.of_step (congrArg (Prod.mk a) (hend.trans hret)))

theorem kind_lawful : kind.Lawful where
  start := start
  findPlace h hlen := Kind.finds pop takeBlock refills h hlen
  dropBlock := giveBlock
  shrinkToFit h hlen := by
    obtain ⟨a', hret, hk, hsize, -⟩ := shrinks h hlen
    exact ⟨a', true, hret, hk, hsize⟩
  release := releases
  dropLast := dropLast
  stats := counts

end SharedArena

end MemoryPools
