import MemoryPools.ArenaStats
import MemoryPools.Kind
import MemoryPools.Alone
import MemoryPools.Interleave.Sweep

/-!
# The book of an arena

The calls of an `Arena` that runs alone return, and do to its book what a `Kind.Lawful`
kind does.
-/

namespace MemoryPools

open Interleave

namespace PageArena

theorem ops_links : ops.Links :=
  ⟨fun _ _ => rfl, fun _ => rfl, fun _ _ => rfl, fun _ _ _ => rfl, fun _ => rfl⟩

def face : PageFace PageArena := ops.face refs

variable {page : PageArena} {i : Nat}

theorem not_held_new (next : Ptr) : (∀ i, ¬ (face.word (new next)).held i) ∧
    (face.word (new next)).owned := by
  have hones : (new next).bitfield = BitVec.allOnes 64 := rfl
  obtain ⟨h63, hbit⟩ := eq_ones_iff.mp hones
  have hzero : ∀ i, (new next).bitfieldAtomic.getLsbD i = false := fun i => BitVec.getLsbD_zero
  refine ⟨fun i hi => ?_, ⟨h63, fun h => ?_, fun _ j _ => hzero j⟩, hzero 63⟩
  · obtain ⟨hlt, hclear, -⟩ := hi
    rw [blockPerPage_eq] at hlt
    rw [hbit i hlt] at hclear
    cases hclear
  · rw [hzero 63] at h
    cases h

theorem word_congr {x y : PageArena} (h : x.bitfield = y.bitfield)
    (h' : x.bitfieldAtomic = y.bitfieldAtomic) : face.word x = face.word y := by
  have hwf : WellFormed x ↔ WellFormed y := by
    constructor
    · intro hw
      exact ⟨h ▸ hw.arenaBit, h ▸ h' ▸ hw.merged, h ▸ h' ▸ hw.apart⟩
    · intro hw
      exact ⟨h ▸ hw.arenaBit, h ▸ h' ▸ hw.merged, h ▸ h' ▸ hw.apart⟩
  show PageWord.mk _ _ _ = PageWord.mk _ _ _
  simp only [refs, h, h', hwf]

/-- The owner's word is not empty. -/
theorem scan_room (hw : WellFormed page) (ho : refs.owned page)
    (hz : page.bitfield.ctz.toNat ≠ 63) :
    ∃ i page', i < 63 ∧ acquireFreeBlock page .scan = (page', .ret (some i)) ∧
      ¬ refs.held page i ∧ (∀ j, refs.held page' j ↔ refs.held page j ∨ j = i) ∧
      (WellFormed page' ∧ refs.owned page') ∧ page'.toPageLinks = page.toPageLinks := by
  obtain ⟨i, hi, hone, hscan⟩ := acquire_scan hw.arenaBit hz
  have hbit := fun j => getLsbD_and_not_bit (x := page.bitfield) hi j
  have ho : page.bitfieldAtomic.getLsbD 63 = false := ho
  have hclear := hw.apart ho i hone
  refine ⟨i, _, hi, hscan, fun hheld => ?_, fun j => ?_, ⟨⟨?_, ?_, ?_⟩, ho⟩, rfl⟩
  · rw [hheld.2.1] at hone
    cases hone
  · simp only [refs, blockPerPage_eq, hbit]
    grind
  · exact arenaBit_and_not_bit hi hw.arenaBit
  · intro h
    rw [show (page.bitfieldAtomic).getLsbD 63 = false from ho] at h
    cases h
  · intro _ j hj
    rw [hbit] at hj
    exact hw.apart ho j (Bool.and_eq_true_iff.mp hj).1

/-- The owner's word is empty, and takes the blocks that were given back. -/
theorem merge_same (hw : WellFormed page) {x : PageArena}
    (hx : x = { page with
      bitfield := page.bitfield ||| page.bitfieldAtomic
      bitfieldAtomic := 0 }) :
    (∀ j, refs.held x j ↔ refs.held page j) ∧ WellFormed x ∧ refs.owned x := by
  subst hx
  refine ⟨fun j => ?_, ⟨?_, fun h => ?_, fun _ j _ => BitVec.getLsbD_zero⟩, BitVec.getLsbD_zero⟩
  · simp only [refs, BitVec.getLsbD_or, BitVec.ofNat_eq_ofNat, BitVec.getLsbD_zero]
    grind
  · show (page.bitfield ||| page.bitfieldAtomic).getLsbD 63 = true
    rw [BitVec.getLsbD_or, hw.arenaBit]
    rfl
  · have h : (0 : Bitfield).getLsbD 63 = true := h
    rw [BitVec.ofNat_eq_ofNat, BitVec.getLsbD_zero] at h
    cases h

theorem atomic_eq_zero_iff (ho : refs.owned page) :
    page.bitfieldAtomic = 0 ↔ ∀ j < 63, page.bitfieldAtomic.getLsbD j = false := by
  constructor
  · intro e j _
    rw [e]
    exact BitVec.getLsbD_zero
  · intro h
    apply BitVec.eq_of_getLsbD_eq
    intro j hj
    rw [BitVec.ofNat_eq_ofNat, BitVec.getLsbD_zero]
    by_cases e : j = 63
    · rw [e]
      exact ho
    · exact h j (by omega)

theorem ones_iff (hw : WellFormed page) :
    page.bitfield ||| page.bitfieldAtomic = BitVec.allOnes 64 ↔ ∀ i, ¬ refs.held page i := by
  rw [eq_ones_iff, BitVec.getLsbD_or, hw.arenaBit]
  simp only [refs, blockPerPage_eq, BitVec.getLsbD_or]
  grind

end PageArena

namespace Arena

open PageArena (ops refs face ops_links refs_lawful AcquirePc)

/-- `free` is the list that `shrink_to_fit` holds, `parked` are the pages that it is about to
drop. -/
def viewWith (a : Arena) (free : Ptr) (parked : List Addr) (npages : Nat) : View :=
  a.heap.view face free a.pendingFreeList a.fullList parked npages

def view (a : Arena) : View := a.viewWith a.freeList [] a.npages

def kind : Kind Arena where
  withCapacity
  findPlace := bounded findPlace .getFree
  dropBlock alive x := bounded (fun a => a.dropBlock x.1 x.2 alive) .fetchAdd
  shrunk := Bool
  shrinkToFit := bounded shrinkToFit .takeFree
  release := bounded release .loadFull
  stats := bounded (fun a pc => (a, a.stats pc)) .loadFull
  handle
    | .alloc => some .arenaBox
    | .allocRc => some .arenaRc
    | .allocArc => some .arenaArc
  view
  Quiet _ := True
  onFree := false
  parks := false

variable {a a' : Arena} {b : Book} {p : Addr} {i : Nat} {rest : List Addr}

theorem held_iff (h : kind.Alive a b) (hp : p ∈ b.listed) : refs.held (a.page p) i ↔ (p, i) ∈ b.live :=
  h.shows.held p (List.mem_append_left _ hp) i

theorem owned (h : kind.Alive a b) (hp : p ∈ b.listed) :
    PageArena.WellFormed (a.page p) ∧ refs.owned (a.page p) :=
  h.shows.owned p (List.mem_append_left _ hp)

theorem unused_eq (h : kind.Alive a b) (hp : p ∈ b.listed) : a.unused p = b.unused p := by
  show decide _ = _
  rw [Bool.eq_iff_iff, decide_eq_true_eq, Book.unused_iff]
  apply (PageArena.ones_iff (owned h hp).1).trans
  exact forall_congr' fun i => not_congr (held_iff h hp)

theorem parked_nil (h : kind.Alive a b) : b.parked = [] := h.shows.parked.symm

theorem free_eq (h : kind.Alive a b) : a.freeList = b.free.head? := h.shows.free.head_eq

theorem pending_eq (h : kind.Alive a b) : a.pendingFreeList = b.pending.head? :=
  h.shows.pending.head_eq

theorem start (cap : Nat) : ∃ pages, kind.Alive (withCapacity cap) (.start pages) ∧
    pages.length = pagesFor cap := by
  refine ⟨downFrom 0 (pagesFor cap), ⟨Book.Tidy.start nodup_downFrom, ?_, trivial⟩,
    length_downFrom⟩
  exact View.Shows.start (pagesFor_pos cap) (fun _ => rfl) PageArena.not_held_new

theorem setPage_setPage {x y : PageArena} : (a.setPage p x).setPage p y = a.setPage p y := by
  unfold setPage
  rw [Heap.set_set]

theorem page_setPage_self {x : PageArena} : (a.setPage p x).page p = x := Heap.get_set_self _ _ _

/-! ## Allocation -/

theorem view_word {x : PageArena} {free : Ptr} {parked : List Addr} {npages : Nat}
    (hl : x.toPageLinks = (a.page p).toPageLinks) :
    (a.setPage p x).viewWith free parked npages = { a.viewWith free parked npages with
      word := Function.update (a.viewWith free parked npages).word p (face.word x) } :=
  Heap.view_set_word hl

theorem view_pop {c : Ptr} :
    ({ a.setPage p { a.page p with inFreeList := false } with freeList := c } : Arena).view =
      { a.view with free := c, inFreeList := Function.update a.view.inFreeList p false } :=
  Heap.view_set_flag rfl (PageArena.word_congr rfl rfl)

theorem acquire_goto {pc pc' : AcquirePc} {x : PageArena}
    (h : PageArena.acquireFreeBlock (a.page p) pc = (x, .goto pc')) :
    a.findPlace (.acquire p pc) = (a.setPage p x, .goto (.acquire p pc')) := by
  simp only [findPlace, h]

theorem acquire_none {pc : AcquirePc} {x : PageArena}
    (h : PageArena.acquireFreeBlock (a.page p) pc = (x, .ret none)) :
    a.findPlace (.acquire p pc) = (a.setPage p x, .goto (.unlink p)) := by
  simp only [findPlace, h]

theorem acquire_some {pc : AcquirePc} {x : PageArena}
    (h : PageArena.acquireFreeBlock (a.page p) pc = (x, .ret (some i))) :
    a.findPlace (.acquire p pc) = (a.setPage p x, .ret (p, i)) := by
  simp only [findPlace, h]

theorem pop (h : kind.Alive a b) (hfree : b.free = p :: rest) (hfull : b.full p = true) :
    ∃ a', Goes findPlace a .getFree a' .getFree ∧ kind.Alive a' { b with free := rest } ∧
      (kind.view a').size = (kind.view a).size := by
  have hp : p ∈ b.listed := h.tidy.free_listed (by simp [hfree])
  have hhead : a.freeList = some p := by rw [free_eq h, hfree]; rfl
  have hheld : ∀ j < 63, refs.held (a.page p) j := fun j hj =>
    (held_iff h hp).mpr (Book.full_iff.mp hfull j hj)
  obtain ⟨hwf, ho⟩ := owned h hp
  have hctz : (a.page p).bitfield.ctz.toNat = 63 :=
    (ctz_eq_iff_full hwf.arenaBit).mpr fun j hj => (hheld j hj).2.1
  have hzero : (a.page p).bitfieldAtomic = 0 :=
    (PageArena.atomic_eq_zero_iff ho).mpr fun j hj => (hheld j hj).2.2
  have hget : a.findPlace .getFree = (a, .goto (.acquire p .scan)) := by
    simp only [findPlace, hhead]
  have hscan : PageArena.acquireFreeBlock (a.page p) .scan = (a.page p, .goto .loadAtomic) := by
    simp only [PageArena.acquireFreeBlock, hctz, blockPerPage_eq, ite_true]
  have hload : PageArena.acquireFreeBlock ((a.setPage p (a.page p)).page p) .loadAtomic =
      (a.page p, .ret none) := by
    rw [page_setPage_self]
    simp only [PageArena.acquireFreeBlock, hzero, ne_eq, not_true_eq_false, ite_false]
  have hload' := acquire_none hload
  rw [setPage_setPage] at hload'
  refine ⟨{ a.setPage p { a.page p with inFreeList := false } with freeList := (a.page p).nextFree },
    ?_, ⟨h.tidy.pop hfree hfull, ?_, trivial⟩, rfl⟩
  · refine .head hget (.head (acquire_goto hscan) (.head hload' (.head rfl (.single ?_))))
    show (_, _) = _
    simp only [nextFree, PageOps.nextFree, setPage, page, Heap.set_set, Heap.get_set_self]
    rfl
  · show View.Shows (view _) _
    rw [view_pop]
    exact h.shows.pop h.tidy hfree

/-- A page with a free block has it in the owner's word, or in the other one. -/
theorem merges (h : kind.Alive a b) (hp : p ∈ b.listed) (hroom : b.full p = false) :
    ∃ a', Goes findPlace a (.acquire p .scan) a' (.acquire p .scan) ∧ kind.Alive a' b ∧
      (kind.view a').size = (kind.view a).size ∧ (a'.page p).bitfield.ctz.toNat ≠ 63 := by
  obtain ⟨hwf, ho⟩ := owned h hp
  by_cases hctz : (a.page p).bitfield.ctz.toNat = 63
  · obtain ⟨j, hj, hnot⟩ := Book.full_eq_false_iff.mp hroom
    have hempty := (ctz_eq_iff_full hwf.arenaBit).mp hctz
    have hj' : (a.page p).bitfieldAtomic.getLsbD j = true := by
      by_contra hclear
      exact hnot ((held_iff h hp).mp ⟨hj, hempty j hj, by simpa using hclear⟩)
    have hne : (a.page p).bitfieldAtomic ≠ 0 := by
      intro e
      rw [e, BitVec.ofNat_eq_ofNat, BitVec.getLsbD_zero] at hj'
      cases hj'
    have hscan : PageArena.acquireFreeBlock (a.page p) .scan = (a.page p, .goto .loadAtomic) := by
      simp only [PageArena.acquireFreeBlock, hctz, blockPerPage_eq, ite_true]
    have hload : PageArena.acquireFreeBlock ((a.setPage p (a.page p)).page p) .loadAtomic =
        (a.page p, .goto .swapAtomic) := by
      rw [page_setPage_self]
      simp only [PageArena.acquireFreeBlock, ne_eq, hne, not_false_eq_true, ite_true]
    have hload' := acquire_goto hload
    rw [setPage_setPage] at hload'
    have hswap : PageArena.acquireFreeBlock ((a.setPage p (a.page p)).page p) .swapAtomic =
        ({ a.page p with bitfieldAtomic := 0 }, .goto (.merge (a.page p).bitfieldAtomic)) := by
      rw [page_setPage_self]
      rfl
    have hswap' := acquire_goto hswap
    rw [setPage_setPage] at hswap'
    have hmerge : PageArena.acquireFreeBlock
        ((a.setPage p { a.page p with bitfieldAtomic := 0 }).page p)
        (.merge (a.page p).bitfieldAtomic) = ({ a.page p with
          bitfield := (a.page p).bitfield ||| (a.page p).bitfieldAtomic
          bitfieldAtomic := 0 }, .goto .scan) := by
      rw [page_setPage_self]
      rfl
    have hmerge' := acquire_goto hmerge
    rw [setPage_setPage] at hmerge'
    obtain ⟨hheld, hwf', ho'⟩ := PageArena.merge_same hwf rfl
    refine ⟨_, .head (acquire_goto hscan) (.head hload' (.head hswap' (.single hmerge'))),
      ⟨h.tidy, ?_, trivial⟩, rfl, ?_⟩
    · show View.Shows (viewWith _ _ _ _) _
      rw [view_word (by rfl)]
      exact h.shows.rewrite hheld ⟨hwf', ho'⟩
    · rw [page_setPage_self]
      intro e
      have hall := (ctz_eq_iff_full hwf'.arenaBit).mp e j hj
      rw [BitVec.getLsbD_or, hj', Bool.or_true] at hall
      cases hall
  · exact ⟨a, .refl, h, rfl, hctz⟩

theorem takeBlock (h : kind.Alive a b) (hfree : b.free = p :: rest) (hroom : b.full p = false) :
    ∃ i a', i < 63 ∧ (p, i) ∉ b.live ∧ Returns findPlace a .getFree a' (p, i) ∧
      kind.Alive a' (b.take (p, i)) ∧ (kind.view a').size = (kind.view a).size := by
  have hp : p ∈ b.listed := h.tidy.free_listed (by simp [hfree])
  have hhead : a.freeList = some p := by rw [free_eq h, hfree]; rfl
  have hget : a.findPlace .getFree = (a, .goto (.acquire p .scan)) := by
    simp only [findPlace, hhead]
  obtain ⟨a₁, hgoes, h₁, hsize, hctz⟩ := merges h hp hroom
  obtain ⟨hwf, ho⟩ := owned h₁ hp
  obtain ⟨i, x, hi, hscan, hclear, hheld, howned, hlinks⟩ := PageArena.scan_room hwf ho hctz
  have hnew : (p, i) ∉ b.live := fun hm => hclear ((held_iff h₁ hp).mpr hm)
  refine ⟨i, a₁.setPage p x, hi, hnew, ?_, ⟨h.tidy.take hfree hi hnew, ?_, trivial⟩, hsize⟩
  · exact .head hget (hgoes.returns (.of_step (acquire_some hscan)))
  · show View.Shows (viewWith _ _ _ _) _
    rw [view_word hlinks]
    exact h₁.shows.take hheld howned

theorem refill (h : kind.Alive a b) (hfree : b.free = []) (hne : b.pending ≠ []) :
    ∃ n b' a', Book.Fetch b n b' ∧ Goes findPlace a .getFree a' .getFree ∧ kind.Alive a' b' ∧
      (kind.view a').size = (kind.view a).size + n := by
  have hnone : a.freeList = none := by rw [free_eq h, hfree]; rfl
  have hall : b.free.dropWhile b.full = [] := by rw [hfree]; rfl
  have hsome : a.pendingFreeList ≠ none := by
    rw [pending_eq h]
    intro e
    exact hne (List.head?_eq_none_iff.mp e)
  have hget : a.findPlace .getFree = (a, .goto .loadPending) := by
    simp only [findPlace, hnone]
  have hload : a.findPlace .loadPending = (a, .goto .swapPending) := by
    simp only [findPlace, hsome, ite_false]
  refine ⟨0, _, { a with freeList := a.pendingFreeList, pendingFreeList := none },
    .pending hall hne (Or.inl rfl), .head hget (.head hload (.single rfl)),
    ⟨h.tidy.refill hall (Or.inl rfl), h.shows.refill hfree, trivial⟩, rfl⟩

theorem grow (h : kind.Alive a b) (hfree : b.free = []) (hpending : b.pending = []) :
    ∃ n b' a', Book.Fetch b n b' ∧ Goes findPlace a .getFree a' .getFree ∧ kind.Alive a' b' ∧
      (kind.view a').size = (kind.view a).size + n := by
  have hnone : a.freeList = none := by rw [free_eq h, hfree]; rfl
  have hnone' : a.pendingFreeList = none := by rw [pending_eq h, hpending]; rfl
  have hall : b.free.dropWhile b.full = [] := by rw [hfree]; rfl
  have hlen : a.npages = b.listed.length := h.shows.npages
  have hfetch : Book.Fetch b (downFrom a.heap.size (growth a.npages)).length _ :=
    .grow hall hpending (parked_nil h) nodup_downFrom (fun q hq hl => by
      have hlt := ((h.shows.kept q).mp (List.mem_append_left _ hl)).1
      exact Nat.lt_irrefl _ (Nat.lt_of_lt_of_le hlt (mem_downFrom.mp hq).1))
      (by rw [length_downFrom, hlen])
  let heap := (a.heap.makeList PageArena.new (growth a.npages)).1
  let first : Addr := a.heap.size + (growth a.npages - 1)
  let a' : Arena :=
    { heap := heap.set a.heap.size { heap.get a.heap.size with next := a.fullList }
      freeList := some first
      pendingFreeList := a.pendingFreeList
      fullList := some first
      npages := a.npages + growth a.npages }
  have hget : a.findPlace .getFree = (a, .goto .loadPending) := by
    simp only [findPlace, hnone]
  have hload : a.findPlace .loadPending = (a, .goto .loadFull) := by
    simp only [findPlace, hnone', ite_true]
  have hput : Arena.findPlace { a with
      heap := heap.set a.heap.size { heap.get a.heap.size with next := a.fullList }
      fullList := some first } (.setFree (growth a.npages) first) = (a', .goto .getFree) := by
    simp only [findPlace, hnone, ite_true]
    rfl
  refine ⟨_, _, a', hfetch, .head hget (.head hload (.head rfl (.head rfl (.head rfl (.single
    hput))))), ⟨h.tidy.fetch hfetch, ?_, trivial⟩, by rw [length_downFrom]; rfl⟩
  have hs : (a.heap.view face none none a.fullList [] a.npages).Shows b := by
    have e : a.view = a.heap.view face none none a.fullList [] a.npages := by
      show a.heap.view face a.freeList a.pendingFreeList a.fullList [] a.npages = _
      rw [hnone, hnone']
    exact e ▸ h.shows
  have hview : a'.view = a'.heap.view face (some first) none (some first) [] a'.npages := by
    show a'.heap.view face (some first) a.pendingFreeList (some first) [] a'.npages = _
    rw [hnone']
  show View.Shows a'.view _
  rw [hview]
  exact View.Shows.grow (growth_pos a.npages) hs (fun _ => rfl) PageArena.not_held_new rfl
    (PageArena.word_congr rfl rfl) h.tidy

theorem refills (h : kind.Alive a b) (hfree : b.free = []) :
    ∃ n b' a', Book.Fetch b n b' ∧ Goes findPlace a .getFree a' .getFree ∧ kind.Alive a' b' ∧
      (kind.view a').size = (kind.view a).size + n := by
  by_cases hpending : b.pending = []
  · exact grow h hfree hpending
  · exact refill h hfree hpending

/-! ## The end of a block -/

def withHeap (a : Arena) (s : Heap PageArena × Ptr) : Arena :=
  { a with heap := s.1, pendingFreeList := s.2 }

theorem dropBlock_returns {s s' : Heap PageArena × Ptr} {upgraded : Bool}
    (h : Returns (ops.dropBlockAt p i upgraded) s .fetchAdd s' ()) :
    Returns (fun a => dropBlock a p i upgraded) (a.withHeap s) .fetchAdd (a.withHeap s') () := by
  have hnest : Nests (ops.dropBlockAt p i upgraded) (fun a => dropBlock a p i upgraded) a.withHeap id
      .ret := by
    intro s pc
    rw [Control.inside_id]
    rfl
  exact h.lift hnest rfl

theorem giveBlock (h : kind.Alive a b) (hx : (p, i) ∈ b.live) :
    ∃ a', Completes (kind.dropBlock true (p, i)) a a' () ∧ kind.Alive a' (b.give false (p, i)) ∧
      (kind.view a').size = (kind.view a).size := by
  obtain ⟨heap, pending, hret, hs, hsize⟩ :=
    PageOps.dropBlock_shows refs_lawful ops_links h.shows h.tidy hx
  exact ⟨_, (dropBlock_returns (a := a) hret).completes, ⟨h.tidy.give false hx, hs, trivial⟩, hsize⟩

theorem dropLast {live : List Block} (h : a.view.Leftover live) (hx : (p, i) ∈ live) :
    ∃ a', Completes (kind.dropBlock false (p, i)) a a' () ∧
      (kind.view a').Leftover (live.erase (p, i)) ∧ (kind.view a').size = (kind.view a).size := by
  obtain ⟨heap, hret, hl, hsize⟩ := PageOps.dropBlock_leftover refs_lawful ops_links h hx
  exact ⟨_, (dropBlock_returns (a := a) hret).completes, hl, hsize⟩

/-! ## The end of a page -/

theorem dropPage_nests {κ ρ : Type} {step : Arena → κ → Arena × Control κ ρ} {f : DropPagePc → κ}
    {k : Unit → Control κ ρ} (hf : Nests (fun a => dropPage a p) step id f k) (a : Arena) :
    Nests (ops.dropPageAt p) step a.withHeap f k := fun s pc => hf (a.withHeap s) pc

theorem release_page {v : View} {done : List Addr} (hs : v.Shows b) (hl : v.Left b done a.view)
    (hp : p ∈ b.listed) (hnew : p ∉ done) :
    ∃ a', v.Left b (done ++ [p]) (kind.view a') ∧
      (∀ q, v.next p = some q → Goes release a (.loadNext p) a' (.loadNext q)) ∧
      (v.next p = none → Returns release a (.loadNext p) a' ()) := by
  obtain ⟨heap, hret, hleft⟩ := PageOps.dropPage_leaves refs_lawful ops_links hs hl hp hnew
  have hnext : a.next p = v.next p := congrFun hl.next p
  have hload : a.release (.loadNext p) = (a, .goto (.dropPage p (v.next p) .fetch)) := by
    rw [← hnext]
    rfl
  have hin : Nests (fun a => dropPage a p) release id (.dropPage p (v.next p))
      fun _ => releaseFrom (v.next p) := by
    intro a pc
    simp only [release, id]
    cases (a.dropPage p pc).2 <;> rfl
  have hnest := dropPage_nests hin a
  refine ⟨a.withHeap (heap, a.pendingFreeList), hleft, fun q hq => ?_, fun hnone => ?_⟩
  · refine .head hload (hret.nest hnest ?_)
    rw [hq]
    rfl
  · refine .head hload (hret.lift hnest ?_)
    rw [hnone]
    rfl

theorem releases (h : kind.Alive a b) : ∃ a', Completes kind.release a a' () ∧
    (kind.view a').Leftover b.live ∧ (kind.view a').size = (kind.view a).size := by
  have hwalk : ∃ a', Returns release a .loadFull a' () ∧ a.view.Left b b.listed a'.view := by
    have hfull := h.shows.full
    cases hl : b.listed with
    | nil =>
      rw [hl] at hfull
      have hnone : a.fullList = none := hfull
      refine ⟨a, .of_step ?_, .start b a.view⟩
      simp only [release, hnone, releaseFrom]
    | cons p rest =>
      rw [hl] at hfull
      have hhead : a.fullList = some p := hfull.1
      have hload : a.release .loadFull = (a, .goto (.loadNext p)) := by
        simp only [release, hhead, releaseFrom]
      have hchain : Linked a.view.next (some p) (p :: rest) := ⟨rfl, hfull.2⟩
      obtain ⟨a', hret, hleft⟩ := Kind.leaves (K := kind) ReleasePc.loadNext
        (fun hleft hq hnew => release_page h.shows hleft hq hnew) (.start b a.view) hchain hl
        h.tidy.listed
      rw [← hl]
      exact ⟨a', .head hload hret, hleft⟩
  obtain ⟨a', hret, hleft⟩ := hwalk
  exact ⟨a', hret.completes, hleft.leftover h.shows h.tidy (parked_nil h), hleft.size⟩

/-! ## Shrinking -/

theorem walk_keeps {head current : Ptr} {v : Addr} {toDrop : List Addr}
    (hv : readLink a.nextFree head current = some v) (hd : a.unused v = false) :
    Goes shrinkToFit a (.walk head current toDrop) a (.walk head (some v) toDrop) := by
  have hwalk : a.shrinkToFit (.walk head current toDrop) =
      (a, .goto (.walkNext head current v toDrop)) := by
    simp only [shrinkToFit, hv]
  have hbits : a.shrinkToFit (.walkBits head current v (a.nextFree v) toDrop) =
      (a, .goto (.walk head (some v) toDrop)) := by
    simp only [shrinkToFit, hd, Bool.false_eq_true, ite_false]
  exact .head hwalk (.head rfl (.single hbits))

theorem full_keeps {start current : Ptr} {v : Addr} {toDrop : List Addr}
    (hv : readLink a.next a.fullList current = some v) (hd : v ∉ toDrop) :
    Goes shrinkToFit a (.full start toDrop current) a (.full start toDrop (some v)) := by
  have hfull : a.shrinkToFit (.full start toDrop current) =
      (a, .goto (.fullNext start toDrop current v)) := by
    simp only [shrinkToFit, hv]
  have hnext : a.shrinkToFit (.fullNext start toDrop current v) =
      (a, .goto (.full start toDrop (some v))) := by
    simp only [shrinkToFit, hd, ite_false]
  exact .head hfull (.single hnext)

def WalkAt (a : Arena) (next : Addr → Ptr) (head current : Ptr) (dropped : List Addr) (a' : Arena)
    (pc : ShrinkPc) : Prop :=
  pc = .walk head current dropped ∧ a'.view = { a.view with nextFree := next, free := none } ∧
    ∀ q, a'.words q = a.words q

theorem WalkAt.start (a : Arena) : WalkAt a a.nextFree a.freeList none []
    { a with freeList := none } (.walk a.freeList none []) := ⟨rfl, rfl, fun _ => rfl⟩

theorem walk_sweeps (a : Arena) : Sweeps shrinkToFit a.unused (WalkAt a) where
  keep := by
    intro next head current dropped a' pc v h hv hd
    obtain ⟨rfl, hview, hwords⟩ := h
    have hnext : a'.nextFree = next := congrArg View.nextFree hview
    have hused : a'.unused v = false := by
      rw [unused_congr (hwords v), hd]
    rw [← hnext] at hv
    exact ⟨a', _, walk_keeps hv hused, rfl, hview, hwords⟩
  drop := by
    intro next head current dropped a' pc v h hv hd
    obtain ⟨rfl, hview, hwords⟩ := h
    have hnext : a'.nextFree = next := congrArg View.nextFree hview
    have hunused : a'.unused v = true := by
      rw [unused_congr (hwords v), hd]
    have hwalk : a'.shrinkToFit (.walk head current dropped) =
        (a', .goto (.walkNext head current v dropped)) := by
      simp only [shrinkToFit, hnext, hv]
    have hbits : a'.shrinkToFit (.walkBits head current v (next v) dropped) =
        (a', .goto (.walkCas head current v (next v) dropped)) := by
      simp only [shrinkToFit, hunused, ite_true]
    have hload : a'.shrinkToFit (.walkNext head current v dropped) =
        (a', .goto (.walkBits head current v (next v) dropped)) := by
      simp only [shrinkToFit, hnext]
    cases current with
    | none =>
      refine ⟨a', _, .head hwalk (.head hload (.head hbits (.single ?_))), rfl, hview, hwords⟩
      simp only [shrinkToFit, hnext, hv, ite_true]
      rfl
    | some c =>
      refine ⟨a'.setPage c { a'.page c with nextFree := next v }, _,
        .head hwalk (.head hload (.head hbits (.single ?_))), rfl, ?_, fun q => ?_⟩
      · simp only [shrinkToFit, hnext, hv, ite_true]
        rfl
      · have e : (a'.setPage c { a'.page c with nextFree := next v }).view =
            { a'.view with nextFree := Function.update a'.view.nextFree c (next v) } :=
          Heap.view_set_nextFree rfl (PageArena.word_congr rfl rfl)
        rw [e, hview]
        rfl
      · exact (words_setPage_same (by rfl)).trans (hwords q)

def FullAt (a : Arena) (start : Ptr) (toDrop : List Addr) (next : Addr → Ptr) (head current : Ptr)
    (_ : List Addr) (a' : Arena) (pc : ShrinkPc) : Prop :=
  pc = .full start toDrop current ∧ a'.view = { a.view with next := next, full := head }

theorem FullAt.start (a : Arena) (start : Ptr) (toDrop : List Addr) :
    FullAt a start toDrop a.next a.fullList none [] a (.full start toDrop none) := ⟨rfl, rfl⟩

theorem full_sweeps (a : Arena) (start : Ptr) (toDrop : List Addr) :
    Sweeps shrinkToFit (fun q => decide (q ∈ toDrop)) (FullAt a start toDrop) where
  keep := by
    intro next head current dropped a' pc v h hv hd
    obtain ⟨rfl, hview⟩ := h
    have hnext : a'.next = next := congrArg View.next hview
    have hhead : a'.fullList = head := congrArg View.full hview
    have hnot : ¬ v ∈ toDrop := of_decide_eq_false hd
    rw [← hnext, ← hhead] at hv
    exact ⟨a', _, full_keeps hv hnot, rfl, hview⟩
  drop := by
    intro next head current dropped a' pc v h hv hd
    obtain ⟨rfl, hview⟩ := h
    have hnext : a'.next = next := congrArg View.next hview
    have hhead : a'.fullList = head := congrArg View.full hview
    have hin : v ∈ toDrop := of_decide_eq_true hd
    have hfull : a'.shrinkToFit (.full start toDrop current) =
        (a', .goto (.fullNext start toDrop current v)) := by
      simp only [shrinkToFit, hnext, hhead, hv]
    have hload : a'.shrinkToFit (.fullNext start toDrop current v) =
        (a', .goto (.fullCas start toDrop current v (next v))) := by
      simp only [shrinkToFit, hin, ite_true, hnext]
    cases current with
    | none =>
      refine ⟨{ a' with fullList := next v }, _, .head hfull (.head hload (.single ?_)), rfl, ?_⟩
      · simp only [shrinkToFit, hnext, hhead, hv, ite_true]
      · show { a'.view with full := next v } = _
        rw [hview]
        rfl
    | some c =>
      refine ⟨a'.setPage c { a'.page c with next := next v }, _,
        .head hfull (.head hload (.single ?_)), rfl, ?_⟩
      · simp only [shrinkToFit, hnext, hhead, hv, ite_true]
      · have e : (a'.setPage c { a'.page c with next := next v }).view =
            { a'.view with next := Function.update a'.view.next c (next v) } :=
          Heap.view_set_next rfl (PageArena.word_congr rfl rfl)
        rw [e, hview]
        rfl

theorem dropPages {start : Ptr} (toDrop : List Addr) {l : List Addr} {npages : Nat}
    (hs : (a.viewWith start l npages).Shows { b with parked := l })
    (ht : { b with parked := l }.Tidy) :
    ∃ a', Goes shrinkToFit a (.recheck start toDrop l) a' (.recheck start toDrop []) ∧
      (a'.viewWith start [] npages).Shows { b with parked := [] } ∧ a'.npages = a.npages ∧
        a'.heap.size = a.heap.size := by
  induction l generalizing a with
  | nil => exact ⟨a, .refl, hs, rfl, rfl⟩
  | cons p rest ih =>
    have hp : p ∈ b.listed ++ p :: rest := by simp
    have hunused : a.unused p = true := by
      have hwf : PageArena.WellFormed (a.page p) := (hs.owned p hp).1
      show decide _ = true
      rw [decide_eq_true_eq, PageArena.ones_iff hwf]
      intro i hi
      have hlive : (p, i) ∈ b.live := (hs.held p hp i).mp hi
      exact ht.apart p List.mem_cons_self (ht.home p i hlive).1
    obtain ⟨heap, hret, hs', hsize⟩ := PageOps.dropPage_discards refs_lawful ops_links hs ht
    have hcheck : a.shrinkToFit (.recheck start toDrop (p :: rest)) =
        (a, .goto (.dropPage start toDrop p rest .fetch)) := by
      simp only [shrinkToFit, hunused, ite_true]
    have hin : Nests (fun a => dropPage a p) shrinkToFit id (.dropPage start toDrop p rest)
        fun _ => .goto (.recheck start toDrop rest) := by
      intro a pc
      simp only [shrinkToFit, id]
      cases (a.dropPage p pc).2 <;> rfl
    have hdrop : Goes shrinkToFit a (.dropPage start toDrop p rest .fetch)
        (a.withHeap (heap, a.pendingFreeList)) (.recheck start toDrop rest) :=
      hret.nest (dropPage_nests hin a) rfl
    obtain ⟨a', hgoes, hs'', hnpages, hsize'⟩ := ih (a := a.withHeap (heap, a.pendingFreeList)) hs'
      (ht.park (List.nodup_cons.mp ht.parked).2 fun q hq => by simp [hq])
    exact ⟨a', .head hcheck (hdrop.trans hgoes), hs'', hnpages, hsize'.trans hsize⟩

/-- The walk over the free pages, up to the walk over all pages. -/
theorem walks (h : kind.Alive a b) : ∃ next head a', Goes shrinkToFit a .takeFree a'
      (.full head b.spare none) ∧
    a'.view = { a.view with nextFree := next, free := none } ∧ (∀ q, a'.words q = a.words q) ∧
    Linked next head (b.free.filter fun q => !a.unused q) ∧
    ∀ q, q ∉ b.free → next q = a.nextFree q := by
  have htake : a.shrinkToFit .takeFree =
      ({ a with freeList := none }, .goto (.walk a.freeList none [])) := rfl
  obtain ⟨next, head, current, a', pc, hgoes, ⟨rfl, hview, hwords⟩, hread, hlinked, hsame⟩ :=
    (walk_sweeps a).run (.start a) h.shows.free
  have hspare : b.free.filter a.unused = b.spare :=
    List.filter_congr fun q hq => unused_eq h (h.tidy.free_listed hq)
  rw [hspare] at hgoes
  have hstep : a'.shrinkToFit (.walk head current b.spare) =
      (a', .goto (.full head b.spare none)) := by
    have hnext : a'.nextFree = next := congrArg View.nextFree hview
    simp only [shrinkToFit, hnext, hread]
  exact ⟨next, head, a', .head htake (hgoes.trans (.single hstep)), hview, hwords, hlinked, hsame⟩

theorem shrinks (h : kind.Alive a b) : ∃ a', Completes (bounded shrinkToFit .takeFree) a a' true ∧
    kind.Alive a' (b.shrink false) ∧ (kind.view a').size = (kind.view a).size := by
  have hdrop : ∀ q ∈ b.free, a.unused q = b.unused q := fun q hq =>
    unused_eq h (h.tidy.free_listed hq)
  obtain ⟨next₁, head₁, a₁, hgoes₁, hview₁, -, hlinked₁, hsame₁⟩ := walks h
  have hlisted₁ : Linked a₁.view.next a₁.view.full b.listed := by
    rw [hview₁]
    exact h.shows.full
  obtain ⟨next₂, head₂, current₂, a₂, pc₂, hgoes₂, ⟨rfl, hview₂⟩, hread₂, hlinked₂, -⟩ :=
    (full_sweeps a₁ head₁ b.spare).run (.start a₁ head₁ b.spare) hlisted₁
  have hstep₂ : a₂.shrinkToFit (.full head₁ b.spare current₂) =
      (a₂, .goto (.recheck head₁ b.spare b.spare)) := by
    have hnext : a₂.next = next₂ := congrArg View.next hview₂
    have hhead : a₂.fullList = head₂ := congrArg View.full hview₂
    simp only [shrinkToFit, hnext, hhead, hread₂]
  have hview : a₂.view = { a.view with
      nextFree := next₁, free := none, next := next₂, full := head₂ } := by
    rw [hview₂, hview₁]
  have hnpages : a₂.npages = a.npages := congrArg View.npages hview
  have hshown : a₂.viewWith head₁ b.spare (a.npages - b.spare.length) =
      { a.view with
        nextFree := next₁
        free := head₁
        next := next₂
        full := head₂
        npages := a.view.npages - b.spare.length
        parked := b.parked ++ b.spare } := by
    show { a₂.view with
      free := head₁, npages := a.npages - b.spare.length, parked := b.spare } = _
    rw [hview, parked_nil h]
    rfl
  have hshows : (a₂.viewWith head₁ b.spare (a.npages - b.spare.length)).Shows (b.shrink true) := by
    rw [hshown]
    exact h.shows.shrink h.tidy hdrop hlinked₁ hsame₁ hlinked₂
  have hparked : { b.shrink true with parked := b.spare } = b.shrink true := by
    show Book.mk _ _ _ b.spare _ = Book.mk _ _ _ (b.parked ++ b.spare) _
    rw [parked_nil h]
    rfl
  have htidy := h.tidy.shrink true
  rw [← hparked] at hshows htidy
  obtain ⟨a₃, hgoes₃, hs, hnpages₃, hsize⟩ := dropPages b.spare hshows htidy
  have hle : b.spare.length ≤ a₃.npages := by
    rw [hnpages₃, hnpages]
    exact h.tidy.length_spare_le.trans_eq h.shows.npages.symm
  have hend : a₃.shrinkToFit (.restore head₁ b.spare) =
      ({ a₃ with freeList := head₁, npages := a₃.npages - b.spare.length }, .ret true) := by
    simp only [shrinkToFit, hle, ite_true]
  have hbook : { b.shrink true with parked := [] } = b.shrink false := by
    rw [← parked_nil h]
    rfl
  refine ⟨{ a₃ with freeList := head₁, npages := a₃.npages - b.spare.length }, ?_,
    ⟨h.tidy.shrink false, ?_, trivial⟩, ?_⟩
  · apply Returns.completes
    apply hgoes₁.returns
    apply (hgoes₂.trans (.single hstep₂)).returns
    exact hgoes₃.returns (.head rfl (.of_step hend))
  · show View.Shows (a₃.viewWith head₁ [] (a₃.npages - b.spare.length)) _
    rw [hnpages₃, hnpages, ← hbook]
    exact hs
  · have e : a₂.heap.size = a.heap.size := congrArg View.size hview
    exact hsize.trans e

/-! ## The account -/

theorem stats_walk (h : kind.Alive a b) {next : Ptr} {l : List Addr} (hl : Linked a.next next l)
    (hsub : ∀ p ∈ l, p ∈ b.listed) (used npages : Nat) {pc : StatsPc}
    (hpc : a.stats pc = a.statsFrom used npages next) :
    ∃ pc', Goes (fun a pc => (a, a.stats pc)) a pc a pc' ∧
      a.stats pc' = a.statsFrom (used + (l.map b.used).sum) (npages + l.length) none := by
  induction l generalizing next used npages pc with
  | nil =>
    have hnone : next = none := hl
    rw [hnone] at hpc
    exact ⟨pc, .refl, hpc⟩
  | cons p l ih =>
    have hp : p ∈ b.listed := hsub p (by simp)
    obtain ⟨hwf, ho⟩ := owned h hp
    have hzeros : countZeros ((a.page p).bitfield ||| (a.page p).bitfieldAtomic) = b.used p := by
      apply Book.countZeros_eq_used
      · rw [BitVec.getLsbD_or, hwf.arenaBit]
        rfl
      · intro i hi
        rw [← held_iff h hp, BitVec.getLsbD_or, Bool.or_eq_false_iff]
        exact ⟨fun hclear => ⟨hi, hclear⟩, And.right⟩
    have hstep : a.stats pc = .goto (.loadNext p used npages) := by
      rw [hpc, hl.1]
      rfl
    have hload : a.stats (.loadAtomic p (a.next p) used npages) =
        a.statsFrom (used + b.used p) (npages + 1) (a.next p) := by
      rw [← hzeros]
      rfl
    obtain ⟨pc', hgoes, hend⟩ := ih hl.2 (fun q hq => hsub q (by simp [hq])) _ _ hload
    refine ⟨pc', .head (congrArg (Prod.mk a) hstep) (.head rfl hgoes), ?_⟩
    rw [hend, List.map_cons, List.sum_cons, List.length_cons, ← Nat.add_assoc,
      Nat.add_comm l.length 1, ← Nat.add_assoc]

theorem counts (h : kind.Alive a b) :
    Completes kind.stats a a (b.live.length, 63 * b.listed.length - b.live.length) := by
  obtain ⟨pc, hgoes, hend⟩ := stats_walk h h.shows.full (fun _ hp => hp) 0 0
    (rfl : a.stats .loadFull = a.statsFrom 0 0 a.fullList)
  rw [Nat.zero_add, Nat.zero_add, h.tidy.sum_used] at hend
  have hnpages : b.listed.length = a.npages := h.shows.npages.symm
  have hle := h.tidy.length_live_le
  have hcap : b.live.length ≤ b.listed.length * 63 := by omega
  have hret : a.statsFrom b.live.length b.listed.length none =
      .ret (b.live.length, 63 * b.listed.length - b.live.length) := by
    simp only [statsFrom, ← hnpages, blockPerPage_eq, hcap, and_self, ite_true, Nat.mul_comm]
  exact (hgoes.returns (.of_step (congrArg (Prod.mk a) (hend.trans hret)))).completes

theorem kind_lawful : kind.Lawful where
  start := start
  findPlace h hlen := Kind.finds pop takeBlock (fun h hfree _ => refills h hfree) h hlen
  dropBlock := giveBlock
  shrinkToFit h _ := by
    obtain ⟨a', hret, hrest⟩ := shrinks h
    exact ⟨a', true, hret, hrest⟩
  release := releases
  dropLast := dropLast
  stats := counts

end Arena

end MemoryPools
