import MemoryPools.Pool
import MemoryPools.Kind
import MemoryPools.Interleave.Sweep

/-!
# The book of a pool

The calls of a `Pool` return, and do to its book what a `Kind.Lawful` kind does.
-/

namespace MemoryPools

open Interleave

namespace PagePool

def refs : Refs PagePool where
  Wf _ := True
  held page i := i < blockPerPage ∧ page.bitfield.getLsbD i = false
  owned page := page.bitfield.getLsbD 63 = true

def face : PageFace PagePool where
  links page := ⟨page.nextFree, page.next, page.inFreeList⟩
  word := refs.word

variable {page : PagePool} {i : Nat}

theorem not_held_new (next : Ptr) : (∀ i, ¬ (face.word (new next)).held i) ∧
    (face.word (new next)).owned := by
  have hones : (new next).bitfield = BitVec.allOnes 64 := rfl
  obtain ⟨h63, hbit⟩ := eq_ones_iff.mp hones
  refine ⟨fun i hi => ?_, trivial, h63⟩
  obtain ⟨hlt, hclear⟩ := hi
  rw [blockPerPage_eq] at hlt
  rw [hbit i hlt] at hclear
  cases hclear

theorem acquire_full (ho : refs.owned page) (h : ∀ j < 63, refs.held page j) :
    page.acquireFreeBlock = some (page, none) := by
  have hctz : page.bitfield.ctz.toNat = 63 := (ctz_eq_iff_full ho).mpr fun j hj => (h j hj).2
  unfold acquireFreeBlock
  simp [hctz]

theorem acquire_room (ho : refs.owned page) (h : ∃ j < 63, ¬ refs.held page j) :
    ∃ i page', i < 63 ∧ page.acquireFreeBlock = some (page', some i) ∧ ¬ refs.held page i ∧
      (∀ j, refs.held page' j ↔ refs.held page j ∨ j = i) ∧ refs.owned page' ∧
      face.links page' = face.links page := by
  have hne : page.bitfield.ctz.toNat ≠ 63 := by
    intro e
    obtain ⟨j, hj, hnot⟩ := h
    exact hnot ⟨hj, (ctz_eq_iff_full ho).mp e j hj⟩
  obtain ⟨hlt, hone⟩ := ctz_free ho hne
  have hacquire : page.acquireFreeBlock =
      some ({ page with bitfield := page.bitfield &&& ~~~bit page.bitfield.ctz.toNat },
        some page.bitfield.ctz.toNat) := by
    unfold acquireFreeBlock
    simp only [blockPerPage_eq, hne, hlt, ite_true, ite_false]
  rw [hacquire]
  generalize page.bitfield.ctz.toNat = i at hlt hone
  have hbit := fun j => getLsbD_and_not_bit (x := page.bitfield) hlt j
  refine ⟨i, _, hlt, rfl, ?_, fun j => ?_, ?_, rfl⟩
  · intro hheld
    rw [hheld.2] at hone
    cases hone
  · simp only [refs, blockPerPage_eq, hbit]
    grind
  · exact arenaBit_and_not_bit hlt ho

def setBit (page : PagePool) (index : Nat) : PagePool :=
  { page with bitfield := page.bitfield ||| bit index }

theorem setBit_spec (hi : refs.held page i) :
    (∀ j, refs.held (page.setBit i) j ↔ refs.held page j ∧ j ≠ i) ∧
      (refs.owned (page.setBit i) ↔ refs.owned page) ∧
      (~~~(page.setBit i).bitfield = maskArenaBit ↔
        (∀ j, ¬ refs.held (page.setBit i) j) ∧ ¬ refs.owned (page.setBit i)) := by
  obtain ⟨hlt, hclear⟩ := hi
  rw [blockPerPage_eq] at hlt
  have hb : ∀ j, (page.setBit i).bitfield.getLsbD j =
      (page.bitfield.getLsbD j || decide (i = j)) := by
    intro j
    show (page.bitfield ||| bit i).getLsbD j = _
    rw [← add_bit_eq_or hlt hclear, getLsbD_add_bit hlt hclear]
  refine ⟨fun j => ?_, ?_, ?_⟩
  · simp only [refs, hb]
    grind
  · simp only [refs, hb]
    grind
  · rw [not_eq_mask_iff]
    simp only [refs, blockPerPage_eq]
    grind

theorem give_page : (∀ j, refs.held page.dropPage.1 j ↔ refs.held page j) ∧
    ¬ refs.owned page.dropPage.1 ∧ (page.dropPage.2 = true ↔ ∀ j, ¬ refs.held page j) := by
  have hb : ∀ j, page.dropPage.1.bitfield.getLsbD j =
      (page.bitfield.getLsbD j && !decide (63 = j)) := by
    intro j
    show (page.bitfield &&& ~~~maskArenaBit).getLsbD j = _
    rw [maskArenaBit_eq, getLsbD_and_not_twoPow (by omega)]
  have hlast : page.dropPage.2 = true ↔ ~~~page.dropPage.1.bitfield = maskArenaBit := by
    show decide _ = true ↔ _
    rw [decide_eq_true_eq]
    rfl
  refine ⟨fun j => ?_, ?_, ?_⟩
  · simp only [refs, hb, blockPerPage_eq]
    grind
  · simp only [refs, hb]
    simp
  · rw [hlast, not_eq_mask_iff]
    simp only [refs, hb, blockPerPage_eq]
    grind

end PagePool

namespace Pool

open PagePool (refs face)

def viewParked (a : Pool) (parked : List Addr) : View :=
  a.heap.view face a.free none a.pageList parked a.npages

def view (a : Pool) : View := a.viewParked []

def kind : Kind Pool where
  withCapacity
  findPlace := bounded findPlace .getFree
  dropBlock alive x _ a := (a.dropBlock x.1 x.2 alive, .ret ())
  shrunk := Unit
  shrinkToFit := bounded shrinkToFit (.walk none [])
  release fuel a := bounded release (.walk a.pageList) fuel a
  stats fuel a := bounded stats (.walk a.pageList 0 0) fuel a
  handle
    | .alloc => some .poolBox
    | .allocRc => some .arenaRc
    | .allocArc => none
  view
  Quiet _ := True
  onFree := true
  parks := false

variable {a a' : Pool} {b : Book} {p : Addr} {i : Nat} {rest : List Addr}

theorem held_iff (h : kind.Alive a b) (hp : p ∈ b.listed) : refs.held (a.page p) i ↔ (p, i) ∈ b.live :=
  h.shows.held p (List.mem_append_left _ hp) i

theorem owned (h : kind.Alive a b) (hp : p ∈ b.listed) : refs.owned (a.page p) :=
  (h.shows.owned p (List.mem_append_left _ hp)).2

theorem pending_nil (h : kind.Alive a b) : b.pending = [] := by
  cases hl : b.pending with
  | nil => rfl
  | cons q l =>
    have hlinked := h.shows.pending
    rw [hl] at hlinked
    cases hlinked.1

theorem parked_nil (h : kind.Alive a b) : b.parked = [] := h.shows.parked.symm

theorem free_eq (h : kind.Alive a b) : a.free = b.free.head? := h.shows.free.head_eq

theorem start (cap : Nat) : ∃ pages, kind.Alive (withCapacity cap) (.start pages) ∧
    pages.length = pagesFor cap := by
  refine ⟨downFrom 0 (pagesFor cap), ⟨Book.Tidy.start nodup_downFrom, ?_, trivial⟩,
    length_downFrom⟩
  exact View.Shows.start (pagesFor_pos cap) (fun _ => rfl) PagePool.not_held_new

/-! ## Allocation -/

theorem view_pop {c : Ptr} :
    ({ a.setPage p { a.page p with inFreeList := false } with free := c } : Pool).view =
      { a.view with free := c, inFreeList := Function.update a.view.inFreeList p false } :=
  Heap.view_set_flag rfl rfl

theorem view_word {x : PagePool} {parked : List Addr}
    (hl : face.links x = face.links (a.page p)) :
    (a.setPage p x).viewParked parked = { a.viewParked parked with
      word := Function.update a.view.word p (face.word x) } := Heap.view_set_word hl

theorem pop (h : kind.Alive a b) (hfree : b.free = p :: rest) (hfull : b.full p = true) :
    ∃ a', Goes findPlace a .getFree a' .getFree ∧ kind.Alive a' { b with free := rest } ∧
      (kind.view a').size = (kind.view a).size := by
  have hp : p ∈ b.listed := h.tidy.free_listed (by simp [hfree])
  have hhead : a.free = some p := by rw [free_eq h, hfree]; rfl
  have hacquire := PagePool.acquire_full (owned h hp) fun j hj =>
    (held_iff h hp).mpr (Book.full_iff.mp hfull j hj)
  have hstep : a.findPlace .getFree =
      ({ a.setPage p { a.page p with inFreeList := false } with free := (a.page p).nextFree },
        .goto .getFree) := by
    simp only [findPlace, hhead, hacquire]
  refine ⟨_, .single hstep, ⟨h.tidy.pop hfree hfull, ?_, trivial⟩, rfl⟩
  show View.Shows (view _) _
  rw [view_pop]
  exact h.shows.pop h.tidy hfree

theorem takeBlock (h : kind.Alive a b) (hfree : b.free = p :: rest) (hroom : b.full p = false) :
    ∃ i a', i < 63 ∧ (p, i) ∉ b.live ∧ Returns findPlace a .getFree a' (p, i) ∧
      kind.Alive a' (b.take (p, i)) ∧ (kind.view a').size = (kind.view a).size := by
  have hp : p ∈ b.listed := h.tidy.free_listed (by simp [hfree])
  have hhead : a.free = some p := by rw [free_eq h, hfree]; rfl
  obtain ⟨j, hj, hnot⟩ := Book.full_eq_false_iff.mp hroom
  obtain ⟨i, page, hi, hacquire, hfreebit, hheld, ho, hlinks⟩ :=
    PagePool.acquire_room (owned h hp) ⟨j, hj, fun hh => hnot ((held_iff h hp).mp hh)⟩
  have hnew : (p, i) ∉ b.live := fun hm => hfreebit ((held_iff h hp).mpr hm)
  have hstep : a.findPlace .getFree = (a.setPage p page, .ret (p, i)) := by
    simp only [findPlace, hhead, hacquire]
  refine ⟨i, _, hi, hnew, .of_step hstep, ⟨h.tidy.take hfree hi hnew, ?_, trivial⟩, rfl⟩
  show View.Shows (viewParked _ []) _
  rw [view_word hlinks]
  exact h.shows.take hheld ⟨trivial, ho⟩

theorem grow (h : kind.Alive a b) (hfree : b.free = []) :
    ∃ n b' a', Book.Fetch b n b' ∧ Goes findPlace a .getFree a' .getFree ∧ kind.Alive a' b' ∧
      (kind.view a').size = (kind.view a).size + n := by
  have hnone : a.free = none := by rw [free_eq h, hfree]; rfl
  have hall : b.free.dropWhile b.full = [] := by rw [hfree]; rfl
  have hlen : a.npages = b.listed.length := h.shows.npages
  have hfetch : Book.Fetch b (downFrom a.heap.size (growth a.npages)).length _ :=
    .grow hall (pending_nil h) (parked_nil h) nodup_downFrom (fun q hq hl => by
      have hlt := ((h.shows.kept q).mp (List.mem_append_left _ hl)).1
      exact Nat.lt_irrefl _ (Nat.lt_of_lt_of_le hlt (mem_downFrom.mp hq).1))
      (by rw [length_downFrom, hlen])
  have hstep : a.findPlace .getFree = (a, .goto .allocNewPage) := by
    simp only [findPlace, hnone]
  refine ⟨_, _, a.allocNewPage, hfetch, .head hstep (.single rfl),
    ⟨h.tidy.fetch hfetch, ?_, trivial⟩, by rw [length_downFrom]; rfl⟩
  have hs : (a.heap.view face none none a.pageList [] a.npages).Shows b := by
    have e : a.view = a.heap.view face none none a.pageList [] a.npages := by
      show a.heap.view face a.free none a.pageList [] a.npages = _
      rw [hnone]
    exact e ▸ h.shows
  have hlast : (a.heap.makeList PagePool.new (growth a.npages)).1.get (a.heap.size + 0) = _ :=
    Heap.get_makeList_new (growth_pos a.npages)
  have hlinks : face.links
      { (a.heap.makeList PagePool.new (growth a.npages)).1.get a.heap.size with
        nextFree := a.free, next := a.pageList } =
      { face.links ((a.heap.makeList PagePool.new (growth a.npages)).1.get a.heap.size) with
        next := a.pageList } := by
    rw [Nat.add_zero] at hlast
    rw [hlast, hnone]
    rfl
  exact View.Shows.grow (growth_pos a.npages) hs (fun _ => rfl) PagePool.not_held_new hlinks rfl
    h.tidy

/-! ## The end of a block -/

theorem dropBlock_eq (upgraded : Bool) (hlast : ~~~((a.page p).setBit i).bitfield ≠ maskArenaBit) :
    a.dropBlock p i upgraded =
      if (a.page p).inFreeList then a.setPage p ((a.page p).setBit i)
      else if upgraded then
        { a.setPage p { (a.page p).setBit i with nextFree := a.free, inFreeList := true } with
          free := some p }
      else a.setPage p { (a.page p).setBit i with inFreeList := true } := by
  have hne : ¬ ~~~((a.page p).bitfield ||| bit i) = maskArenaBit := hlast
  unfold dropBlock PagePool.dropBlock
  simp only [hne, ite_false]
  by_cases hf : (a.page p).inFreeList = true
  · rw [if_pos hf, if_pos hf]
    rfl
  · rw [if_neg hf, if_neg hf]
    cases upgraded <;> rfl

theorem giveBlock (h : kind.Alive a b) (hx : (p, i) ∈ b.live) :
    kind.Alive (a.dropBlock p i true) (b.give true (p, i)) ∧
      (kind.view (a.dropBlock p i true)).size = (kind.view a).size := by
  have hp : p ∈ b.listed := (h.tidy.home p i hx).1
  obtain ⟨hheld, hown, hlast⟩ := PagePool.setBit_spec ((held_iff h hp).mpr hx)
  have ho : refs.owned ((a.page p).setBit i) := hown.mpr (owned h hp)
  have hshows := h.shows.release (w := refs.word ((a.page p).setBit i)) h.tidy hheld ⟨trivial, ho⟩
  have hflag : (a.page p).inFreeList = true ↔ p ∈ b.free ++ b.pending := h.shows.flag p hp
  have htidy := h.tidy.give true hx
  rw [dropBlock_eq true fun e => (hlast.mp e).2 ho]
  unfold Book.give at htidy ⊢
  by_cases hon : p ∈ b.free ++ b.pending
  · rw [if_pos (hflag.mpr hon)]
    rw [if_pos hon] at htidy ⊢
    refine ⟨⟨htidy, ?_, trivial⟩, rfl⟩
    show View.Shows (viewParked _ []) _
    rw [view_word (x := (a.page p).setBit i) rfl]
    exact hshows
  · rw [if_neg fun e => hon (hflag.mp e), if_pos rfl]
    rw [if_neg hon, if_pos rfl] at htidy ⊢
    refine ⟨⟨htidy, ?_, trivial⟩, rfl⟩
    show View.Shows (Heap.view face (a.heap.set p _) _ _ _ _ _) _
    rw [Heap.view_set_push (c := a.free) rfl]
    exact hshows.pushFree hon

theorem word_setBit {flag : Bool} :
    (a.setPage p { (a.page p).setBit i with inFreeList := flag }).view.word =
      Function.update a.view.word p (refs.word ((a.page p).setBit i)) := Heap.word_view_set

theorem dropLast {live : List Block} (h : a.view.Leftover live) (hx : (p, i) ∈ live) :
    (a.dropBlock p i false).view.Leftover (live.erase (p, i)) ∧
      (a.dropBlock p i false).view.size = a.view.size := by
  have hi : refs.held (a.page p) i := (h.held p ⟨i, hx⟩ i).mpr hx
  obtain ⟨hheld, hown, hlast⟩ := PagePool.setBit_spec hi
  have hgone : ¬ refs.owned ((a.page p).setBit i) := fun ho => (h.given p ⟨i, hx⟩).2 (hown.mp ho)
  have hleft : ∀ j, (p, j) ∈ live.erase (p, i) ↔ refs.held ((a.page p).setBit i) j := by
    intro j
    have hj : refs.held (a.page p) j ↔ (p, j) ∈ live := h.held p ⟨i, hx⟩ j
    rw [h.nodup.mem_erase_iff, hheld j, hj]
    simp [and_comm]
  by_cases hm : ~~~((a.page p).setBit i).bitfield = maskArenaBit
  · have hdrop : a.dropBlock p i false = { a.setPage p ((a.page p).setBit i) with
        heap := (a.heap.set p ((a.page p).setBit i)).free (.dropBlock p) } := by
      have hm : ~~~((a.page p).bitfield ||| bit i) = maskArenaBit := hm
      unfold dropBlock PagePool.dropBlock
      simp only [hm, ite_true]
      rfl
    rw [hdrop]
    refine ⟨?_, rfl⟩
    refine h.release hx (w := refs.word ((a.page p).setBit i)) ?_ hheld ⟨trivial, hgone⟩ rfl
      (Or.inl ⟨fun j hj => (hlast.mp hm).1 j ((hleft j).mp hj), rfl⟩)
    exact @word_setBit a p i (a.page p).inFreeList
  · obtain ⟨j, hj⟩ : ∃ j, refs.held ((a.page p).setBit i) j := by
      by_contra hnone
      exact hm (hlast.mpr ⟨fun j hj => hnone ⟨j, hj⟩, hgone⟩)
    have hdrop : a.dropBlock p i false = a.setPage p { (a.page p).setBit i with
        inFreeList := true } := by
      rw [dropBlock_eq false hm]
      cases hf : (a.page p).inFreeList with
      | true =>
        have e : { (a.page p).setBit i with inFreeList := true } = (a.page p).setBit i := by
          rw [← hf]
          rfl
        rw [e]
        rfl
      | false => rfl
    rw [hdrop]
    refine ⟨?_, rfl⟩
    exact h.release hx word_setBit hheld ⟨trivial, hgone⟩ rfl (Or.inr ⟨⟨j, (hleft j).mpr hj⟩, rfl⟩)

/-! ## Shrinking -/

theorem dropPage_eq : a.dropPage p =
    { a.setPage p (a.page p).dropPage.1 with
      heap := if (a.page p).dropPage.2 then (a.heap.set p (a.page p).dropPage.1).free (.dropPage p)
        else a.heap.set p (a.page p).dropPage.1 } := rfl

def WalkAt (a : Pool) (next : Addr → Ptr) (head current : Ptr) (dropped : List Addr) (a' : Pool)
    (pc : ShrinkPc) : Prop :=
  pc = .walk current dropped ∧ a'.view = { a.view with nextFree := next, free := head } ∧
    ∀ q, (a'.page q).bitfield = (a.page q).bitfield

theorem WalkAt.start (a : Pool) : WalkAt a a.nextFree a.free none [] a (.walk none []) :=
  ⟨rfl, rfl, fun _ => rfl⟩

theorem walk_sweeps (a : Pool) :
    Sweeps shrinkToFit (fun q => decide ((a.page q).bitfield = BitVec.allOnes 64)) (WalkAt a) where
  keep := by
    intro next head current dropped a' pc v h hv hd
    obtain ⟨rfl, hview, hbits⟩ := h
    have hnext : a'.nextFree = next := congrArg View.nextFree hview
    have hhead : a'.free = head := congrArg View.free hview
    have hones : ¬ (a'.page v).bitfield = BitVec.allOnes 64 := by
      rw [hbits v]
      exact of_decide_eq_false hd
    refine ⟨a', _, .single ?_, rfl, hview, hbits⟩
    simp only [shrinkToFit, hnext, hhead, hv, hones, ite_false]
  drop := by
    intro next head current dropped a' pc v h hv hd
    obtain ⟨rfl, hview, hbits⟩ := h
    have hnext : a'.nextFree = next := congrArg View.nextFree hview
    have hhead : a'.free = head := congrArg View.free hview
    have hones : (a'.page v).bitfield = BitVec.allOnes 64 := by
      rw [hbits v]
      exact of_decide_eq_true hd
    cases current with
    | none =>
      refine ⟨{ a' with free := next v }, _, .single ?_, rfl, ?_, hbits⟩
      · simp only [shrinkToFit, hnext, hhead, hv, hones, ite_true]
      · show { a'.view with free := next v } = _
        rw [hview]
        rfl
    | some c =>
      refine ⟨a'.setPage c { a'.page c with nextFree := next v }, _, .single ?_, rfl, ?_, ?_⟩
      · simp only [shrinkToFit, hnext, hhead, hv, hones, ite_true]
      · have e : (a'.setPage c { a'.page c with nextFree := next v }).view =
            { a'.view with nextFree := Function.update a'.view.nextFree c (next v) } :=
          Heap.view_set_nextFree rfl rfl
        rw [e, hview]
        rfl
      · intro q
        show ((a'.heap.set c _).get q).bitfield = _
        rw [Heap.get_set]
        split
        · rename_i e
          rw [e]
          exact hbits c
        · exact hbits q

def FullAt (a : Pool) (toDrop : List Addr) (next : Addr → Ptr) (head current : Ptr)
    (_ : List Addr) (a' : Pool) (pc : ShrinkPc) : Prop :=
  pc = .full current toDrop ∧ a'.view = { a.view with next := next, full := head }

theorem FullAt.start (a : Pool) (toDrop : List Addr) :
    FullAt a toDrop a.next a.pageList none [] a (.full none toDrop) := ⟨rfl, rfl⟩

theorem full_sweeps (a : Pool) (toDrop : List Addr) :
    Sweeps shrinkToFit (fun q => decide (q ∈ toDrop)) (FullAt a toDrop) where
  keep := by
    intro next head current dropped a' pc v h hv hd
    obtain ⟨rfl, hview⟩ := h
    have hnext : a'.next = next := congrArg View.next hview
    have hhead : a'.pageList = head := congrArg View.full hview
    have hnot : ¬ v ∈ toDrop := of_decide_eq_false hd
    refine ⟨a', _, .single ?_, rfl, hview⟩
    simp only [shrinkToFit, hnext, hhead, hv, hnot, ite_false]
  drop := by
    intro next head current dropped a' pc v h hv hd
    obtain ⟨rfl, hview⟩ := h
    have hnext : a'.next = next := congrArg View.next hview
    have hhead : a'.pageList = head := congrArg View.full hview
    have hin : v ∈ toDrop := of_decide_eq_true hd
    cases current with
    | none =>
      refine ⟨{ a' with pageList := next v }, _, .single ?_, rfl, ?_⟩
      · simp only [shrinkToFit, hnext, hhead, hv, hin, ite_true]
      · show { a'.view with full := next v } = _
        rw [hview]
        rfl
    | some c =>
      refine ⟨a'.setPage c { a'.page c with next := next v }, _, .single ?_, rfl, ?_⟩
      · simp only [shrinkToFit, hnext, hhead, hv, hin, ite_true]
      · have e : (a'.setPage c { a'.page c with next := next v }).view =
            { a'.view with next := Function.update a'.view.next c (next v) } :=
          Heap.view_set_next rfl rfl
        rw [e, hview]
        rfl

theorem dropPages {l : List Addr} (hs : (a.viewParked l).Shows { b with parked := l })
    (ht : { b with parked := l }.Tidy) :
    ∃ a', Returns shrinkToFit a (.dropPage l) a' () ∧ a'.view.Shows { b with parked := [] } ∧
      a'.view.size = a.view.size := by
  induction l generalizing a with
  | nil => exact ⟨a, .of_step rfl, hs, rfl⟩
  | cons p rest ih =>
    have hp : p ∈ b.listed ++ p :: rest := by simp
    have hunused : ∀ i, ¬ refs.held (a.page p) i := by
      intro i hi
      have hlive : (p, i) ∈ b.live := (hs.held p hp i).mp hi
      exact ht.apart p List.mem_cons_self (ht.home p i hlive).1
    have hlast : (a.page p).dropPage.2 = true := PagePool.give_page.2.2.mpr hunused
    have hview : (a.dropPage p).viewParked rest = { a.viewParked (p :: rest) with
        word := Function.update (a.viewParked (p :: rest)).word p
          (face.word (a.page p).dropPage.1)
        parked := rest
        freed := .dropPage p :: (a.viewParked (p :: rest)).freed } := by
      rw [dropPage_eq, hlast, if_pos rfl]
      show { (a.setPage p (a.page p).dropPage.1).viewParked rest with
        freed := .dropPage p :: a.heap.freed } = _
      rw [view_word (x := (a.page p).dropPage.1) rfl]
      rfl
    have hnodup := ht.parked
    obtain ⟨a', hret, hs', hsize⟩ := ih (a := a.dropPage p) (by
      rw [hview]
      exact hs.discard ht rfl rfl) (ht.park (List.nodup_cons.mp hnodup).2 fun q hq => by simp [hq])
    have e : ((a.dropPage p).viewParked rest).size = _ := congrArg View.size hview
    exact ⟨a', .head rfl hret, hs', hsize.trans e⟩

theorem ones_iff (h : kind.Alive a b) (hp : p ∈ b.listed) :
    (a.page p).bitfield = BitVec.allOnes 64 ↔ b.unused p = true := by
  rw [eq_ones_iff, Book.unused_iff]
  have ho : (a.page p).bitfield.getLsbD 63 = true := owned h hp
  constructor
  · rintro ⟨-, hbits⟩ i hi
    obtain ⟨hlt, hclear⟩ := (held_iff h hp).mpr hi
    rw [hbits i hlt] at hclear
    cases hclear
  · intro hnone
    refine ⟨ho, fun i hi => ?_⟩
    by_contra hclear
    exact hnone i ((held_iff h hp).mp ⟨hi, by simpa using hclear⟩)

theorem shrinks (h : kind.Alive a b) : ∃ a' r, Completes kind.shrinkToFit a a' r ∧
    kind.Alive a' (b.shrink false) ∧ (kind.view a').size = (kind.view a).size := by
  have hdrop : ∀ q ∈ b.free, decide ((a.page q).bitfield = BitVec.allOnes 64) = b.unused q := by
    intro q hq
    rw [Bool.eq_iff_iff, decide_eq_true_eq]
    exact ones_iff h (h.tidy.free_listed hq)
  obtain ⟨next₁, head₁, current₁, a₁, pc₁, hgoes₁, ⟨rfl, hview₁, -⟩, hread₁, hlinked₁, hsame₁⟩ :=
    (walk_sweeps a).run (.start a) h.shows.free
  have hspare : b.free.filter (fun q => decide ((a.page q).bitfield = BitVec.allOnes 64)) =
      b.spare := List.filter_congr hdrop
  rw [hspare] at hgoes₁
  have hstep₁ : a₁.shrinkToFit (.walk current₁ b.spare) = (a₁, .goto (.full none b.spare)) := by
    have hnext : a₁.nextFree = next₁ := congrArg View.nextFree hview₁
    have hhead : a₁.free = head₁ := congrArg View.free hview₁
    simp only [shrinkToFit, hnext, hhead, hread₁]
  have hlisted₁ : Linked a₁.view.next a₁.view.full b.listed := by
    rw [hview₁]
    exact h.shows.full
  obtain ⟨next₂, head₂, current₂, a₂, pc₂, hgoes₂, ⟨rfl, hview₂⟩, hread₂, hlinked₂, -⟩ :=
    (full_sweeps a₁ b.spare).run (.start a₁ b.spare) hlisted₁
  have hstep₂ : a₂.shrinkToFit (.full current₂ b.spare) = (a₂, .goto (.setPages b.spare)) := by
    have hnext : a₂.next = next₂ := congrArg View.next hview₂
    have hhead : a₂.pageList = head₂ := congrArg View.full hview₂
    simp only [shrinkToFit, hnext, hhead, hread₂]
  have hview : a₂.view = { a.view with
      nextFree := next₁, free := head₁, next := next₂, full := head₂ } := by
    rw [hview₂, hview₁]
  have hnpages : a₂.npages = a.npages := congrArg View.npages hview
  have hle : b.spare.length ≤ a₂.npages := by
    rw [hnpages]
    exact h.tidy.length_spare_le.trans_eq h.shows.npages.symm
  have hstep₃ : a₂.shrinkToFit (.setPages b.spare) =
      ({ a₂ with npages := a₂.npages - b.spare.length }, .goto (.dropPage b.spare.reverse)) := by
    simp only [shrinkToFit, hle, ite_true]
  have hshown : ({ a₂ with npages := a₂.npages - b.spare.length } : Pool).viewParked b.spare =
      { a.view with
        nextFree := next₁
        free := head₁
        next := next₂
        full := head₂
        npages := a.view.npages - b.spare.length
        parked := b.parked ++ b.spare } := by
    show { a₂.view with npages := a₂.npages - b.spare.length, parked := b.spare } = _
    rw [hview, hnpages, parked_nil h]
    rfl
  have hshows : (({ a₂ with npages := a₂.npages - b.spare.length } : Pool).viewParked
      b.spare).Shows (b.shrink true) := by
    rw [hshown]
    exact h.shows.shrink h.tidy hdrop hlinked₁ hsame₁ hlinked₂
  have htidy := h.tidy.shrink true
  have hperm : b.spare.reverse.Perm (b.shrink true).parked := by
    rw [show (b.shrink true).parked = b.parked ++ b.spare from rfl, parked_nil h]
    exact List.reverse_perm _
  obtain ⟨a', hret, hs, hsize⟩ := dropPages (hshows.reorder hperm)
    (htidy.park (hperm.nodup_iff.mpr htidy.parked) fun q hq => hperm.mem_iff.mp hq)
  have hbook : { b.shrink true with parked := [] } = b.shrink false := by
    rw [← parked_nil h]
    rfl
  rw [hbook] at hs
  refine ⟨a', (), ?_, ⟨h.tidy.shrink false, hs, trivial⟩, ?_⟩
  · apply Returns.completes
    apply (hgoes₁.trans (.single hstep₁)).returns
    apply (hgoes₂.trans (.single hstep₂)).returns
    exact .head hstep₃ hret
  · have e : (viewParked _ b.spare).size = _ := congrArg View.size hshown
    exact hsize.trans e

/-! ## The end of the pool -/

theorem releases (h : kind.Alive a b) : ∃ a', Completes kind.release a a' () ∧
    (kind.view a').Leftover b.live ∧ (kind.view a').size = (kind.view a).size := by
  have hwalk : ∃ a', Returns release a (.walk a.pageList) a' () ∧
      a.view.Left b b.listed a'.view := by
    cases hl : b.listed with
    | nil =>
      have hnone : a.pageList = none := by
        have hfull := h.shows.full.head_eq
        rw [hl] at hfull
        exact hfull
      refine ⟨a, .of_step ?_, .start b a.view⟩
      simp only [release, hnone]
    | cons p rest =>
      have hfull := h.shows.full
      rw [hl] at hfull
      have hhead : a.pageList = some p := hfull.1
      rw [hhead, ← hl]
      refine Kind.leaves (K := kind) (fun p => ReleasePc.walk (some p)) ?_ (.start b a.view)
        ?_ hl h.tidy.listed
      · intro a₁ done q hleft hq hnew
        have hword : refs.word (a₁.page q) = refs.word (a.page q) := hleft.word q hnew
        have hheld : ∀ i, refs.held (a₁.page q) i ↔ (q, i) ∈ b.live := by
          intro i
          rw [← held_iff h hq]
          exact Iff.of_eq (congrFun (congrArg PageWord.held hword) i)
        obtain ⟨hsame, hgone, hlast⟩ := @PagePool.give_page (a₁.page q)
        have hlast' : (a₁.page q).dropPage.2 = b.unused q := by
          rw [Bool.eq_iff_iff, hlast, Book.unused_iff]
          exact forall_congr' fun i => not_congr (hheld i)
        have hview : (a₁.dropPage q).view = { a₁.view with
            word := Function.update a₁.view.word q (face.word (a₁.page q).dropPage.1)
            freed := if b.unused q then .dropPage q :: a₁.view.freed else a₁.view.freed } := by
          rw [dropPage_eq, hlast']
          cases b.unused q with
          | true =>
            show { (a₁.setPage q (a₁.page q).dropPage.1).viewParked [] with
              freed := .dropPage q :: a₁.heap.freed } = _
            rw [view_word (x := (a₁.page q).dropPage.1) rfl]
            rfl
          | false =>
            show (a₁.setPage q (a₁.page q).dropPage.1).viewParked [] = _
            rw [view_word (x := (a₁.page q).dropPage.1) rfl]
            rfl
        have hnext : a₁.next q = a.view.next q := congrFun hleft.next q
        have hend : Returns release (a₁.dropPage q) (.walk none) (a₁.dropPage q) () := .of_step rfl
        refine ⟨a₁.dropPage q, ?_, fun r hr => .single ?_, fun hr => .head ?_ hend⟩
        · show a.view.Left b (done ++ [q]) (a₁.dropPage q).view
          rw [hview]
          exact hleft.drop (w := refs.word _) hnew fun _ => ⟨⟨trivial, hgone⟩, hsame⟩
        · show (a₁.dropPage q, Control.goto (ReleasePc.walk (a₁.next q))) = _
          rw [hnext, hr]
        · show (a₁.dropPage q, Control.goto (ReleasePc.walk (a₁.next q))) = _
          rw [hnext, hr]
      · rw [← hhead]
        exact ⟨hhead, hfull.2⟩
  obtain ⟨a', hret, hleft⟩ := hwalk
  exact ⟨a', ⟨hret.completes.enough, hret.completes.cases⟩,
    hleft.leftover h.shows h.tidy (parked_nil h), hleft.size⟩

/-! ## The account -/

theorem stats_walk (h : kind.Alive a b) {next : Ptr} {l : List Addr} (hl : Linked a.next next l)
    (hsub : ∀ p ∈ l, p ∈ b.listed) (used npages : Nat) :
    Goes stats a (.walk next used npages) a
      (.walk none (used + (l.map b.used).sum) (npages + l.length)) := by
  induction l generalizing next used npages with
  | nil =>
    rw [hl.head_eq]
    exact .refl
  | cons p l ih =>
    have hp : p ∈ b.listed := hsub p (by simp)
    have hzeros : countZeros (a.page p).bitfield = b.used p := by
      apply Book.countZeros_eq_used (owned h hp)
      intro i hi
      rw [← held_iff h hp]
      exact ⟨fun hclear => ⟨hi, hclear⟩, And.right⟩
    have hstep : a.stats (.walk next used npages) =
        (a, .goto (.walk (a.next p) (used + b.used p) (npages + 1))) := by
      rw [hl.1, ← hzeros]
      rfl
    have hrest := ih hl.2 (fun q hq => hsub q (by simp [hq])) (used + b.used p) (npages + 1)
    rw [List.map_cons, List.sum_cons, List.length_cons, ← Nat.add_assoc,
      Nat.add_comm l.length 1, ← Nat.add_assoc]
    exact .head hstep hrest

theorem counts (h : kind.Alive a b) :
    Completes kind.stats a a (b.live.length, 63 * b.listed.length - b.live.length) := by
  have hgoes := stats_walk h h.shows.full (fun _ hp => hp) 0 0
  rw [Nat.zero_add, Nat.zero_add, h.tidy.sum_used] at hgoes
  have hnpages : b.listed.length = a.npages := h.shows.npages.symm
  have hle := h.tidy.length_live_le
  have hstep : a.stats (.walk none b.live.length b.listed.length) =
      (a, .ret (b.live.length, 63 * b.listed.length - b.live.length)) := by
    have hcap : ¬ b.listed.length * 63 < b.live.length := by omega
    simp only [stats, ← hnpages, ne_eq, not_true_eq_false, ite_false, blockPerPage_eq, hcap,
      Nat.mul_comm]
  have hret := (hgoes.returns (.of_step hstep)).completes
  exact ⟨hret.enough, hret.cases⟩

theorem kind_lawful : kind.Lawful where
  start := start
  findPlace h hlen := Kind.finds pop takeBlock (fun h hfree _ => grow h hfree) h hlen
  dropBlock {a _ x} h hx := ⟨a.dropBlock x.1 x.2 true,
    ⟨⟨0, fun _ _ => rfl⟩, fun _ => Or.inr rfl⟩, (giveBlock h hx).1, (giveBlock h hx).2⟩
  shrinkToFit h _ := shrinks h
  release := releases
  dropLast {a _ x} h hx := ⟨a.dropBlock x.1 x.2 false,
    ⟨⟨0, fun _ _ => rfl⟩, fun _ => Or.inr rfl⟩, (dropLast h hx).1, (dropLast h hx).2⟩
  stats := counts

end Pool

end MemoryPools
