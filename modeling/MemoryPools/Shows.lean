import MemoryPools.Heap
import MemoryPools.Book
import MemoryPools.Page.Release

/-!
# Pools that show a book

A `View` is what the three kinds of pools have in common between two calls: links and
flags of the pages, heads of lists, and which blocks are free. `Shows` says that the links
of a view spell out a book and that the other data agree with it; each operation on books
has the write of links that shows it.
-/

namespace MemoryPools

open Interleave

structure PageWord where
  held : Nat → Prop
  owned : Prop
  given : Prop

def Refs.word {π : Type} (R : Refs π) (page : π) : PageWord where
  held := R.held page
  owned := R.Wf page ∧ R.owned page
  given := R.Wf page ∧ ¬ R.owned page

structure View where
  nextFree : Addr → Ptr
  next : Addr → Ptr
  inFreeList : Addr → Bool
  word : Addr → PageWord
  free : Ptr
  pending : Ptr
  full : Ptr
  parked : List Addr
  npages : Nat
  size : Nat
  freed : List Freed

/-! ## The view of a heap -/

/-- How the pages of a kind show their links and their bits. -/
structure PageFace (π : Type) where
  links : π → PageLinks
  word : π → PageWord

section
variable {π : Type} [Inhabited π]

def Heap.view (face : PageFace π) (h : Heap π) (free pending full : Ptr) (parked : List Addr)
    (npages : Nat) : View where
  nextFree p := (face.links (h.get p)).nextFree
  next p := (face.links (h.get p)).next
  inFreeList p := (face.links (h.get p)).inFreeList
  word p := face.word (h.get p)
  free := free
  pending := pending
  full := full
  parked := parked
  npages := npages
  size := h.size
  freed := h.freed

variable {face : PageFace π} {h : Heap π} {free pending full : Ptr} {parked : List Addr}
  {npages : Nat} {p : Addr} {x : π}

theorem Heap.view_set : (h.set p x).view face free pending full parked npages =
    { h.view face free pending full parked npages with
      nextFree := Function.update (fun q => (face.links (h.get q)).nextFree) p
        (face.links x).nextFree
      next := Function.update (fun q => (face.links (h.get q)).next) p (face.links x).next
      inFreeList := Function.update (fun q => (face.links (h.get q)).inFreeList) p
        (face.links x).inFreeList
      word := Function.update (fun q => face.word (h.get q)) p (face.word x) } := by
  have hget : ∀ {β : Type} (f : π → β), (fun q => f ((h.set p x).get q)) =
      Function.update (fun q => f (h.get q)) p (f x) := by
    intro β f
    funext q
    rw [Heap.get_set, Function.update_apply]
    split <;> rfl
  unfold Heap.view
  simp only [Heap.size_set, Heap.freed_set, View.mk.injEq, and_true]
  refine ⟨hget fun y => (face.links y).nextFree, hget fun y => (face.links y).next,
    hget fun y => (face.links y).inFreeList, hget face.word⟩

theorem Heap.word_view_set : ((h.set p x).view face free pending full parked npages).word =
    Function.update (h.view face free pending full parked npages).word p (face.word x) := by
  rw [view_set]
  rfl

theorem Heap.view_set_word (hl : face.links x = face.links (h.get p)) :
    (h.set p x).view face free pending full parked npages =
      { h.view face free pending full parked npages with
        word := Function.update (fun q => face.word (h.get q)) p (face.word x) } := by
  rw [view_set, hl]
  simp only [Function.update_eq_self]
  rfl

theorem Heap.view_set_links {links : PageLinks} (hl : face.links x = links)
    (hw : face.word x = face.word (h.get p)) :
    (h.set p x).view face free pending full parked npages =
      { h.view face free pending full parked npages with
        nextFree := Function.update (fun q => (face.links (h.get q)).nextFree) p links.nextFree
        next := Function.update (fun q => (face.links (h.get q)).next) p links.next
        inFreeList := Function.update (fun q => (face.links (h.get q)).inFreeList) p
          links.inFreeList } := by
  rw [view_set, hl, hw]
  simp only [Function.update_eq_self]
  rfl

theorem Heap.view_set_push {c : Ptr} (hl : face.links x =
    { face.links (h.get p) with nextFree := c, inFreeList := true }) :
    (h.set p x).view face free pending full parked npages =
      { h.view face free pending full parked npages with
        nextFree := Function.update (fun q => (face.links (h.get q)).nextFree) p c
        inFreeList := Function.update (fun q => (face.links (h.get q)).inFreeList) p true
        word := Function.update (fun q => face.word (h.get q)) p (face.word x) } := by
  rw [view_set, hl]
  simp only [Function.update_eq_self]
  rfl

theorem Heap.view_set_nextFree {c : Ptr}
    (hl : face.links x = { face.links (h.get p) with nextFree := c })
    (hw : face.word x = face.word (h.get p)) :
    (h.set p x).view face free pending full parked npages =
      { h.view face free pending full parked npages with
        nextFree := Function.update (fun q => (face.links (h.get q)).nextFree) p c } := by
  rw [view_set_links hl hw]
  simp only [Function.update_eq_self]
  rfl

theorem Heap.view_set_next {c : Ptr}
    (hl : face.links x = { face.links (h.get p) with next := c })
    (hw : face.word x = face.word (h.get p)) :
    (h.set p x).view face free pending full parked npages =
      { h.view face free pending full parked npages with
        next := Function.update (fun q => (face.links (h.get q)).next) p c } := by
  rw [view_set_links hl hw]
  simp only [Function.update_eq_self]
  rfl

theorem Heap.view_set_flag {c : Bool}
    (hl : face.links x = { face.links (h.get p) with inFreeList := c })
    (hw : face.word x = face.word (h.get p)) :
    (h.set p x).view face free pending full parked npages =
      { h.view face free pending full parked npages with
        inFreeList := Function.update (fun q => (face.links (h.get q)).inFreeList) p c } := by
  rw [view_set_links hl hw]
  simp only [Function.update_eq_self]
  rfl

theorem Heap.view_set_same (hl : face.links x = face.links (h.get p))
    (hw : face.word x = face.word (h.get p)) :
    (h.set p x).view face free pending full parked npages =
      h.view face free pending full parked npages := by
  rw [view_set_word hl, hw]
  simp only [Function.update_eq_self]
  rfl

end

/-! ## The book of a view -/

structure View.Shows (v : View) (b : Book) : Prop where
  free : Linked v.nextFree v.free b.free
  pending : Linked v.nextFree v.pending b.pending
  full : Linked v.next v.full b.listed
  parked : v.parked = b.parked
  flag : ∀ p ∈ b.listed, v.inFreeList p = true ↔ p ∈ b.free ++ b.pending
  held : ∀ p ∈ b.listed ++ b.parked, ∀ i, (v.word p).held i ↔ (p, i) ∈ b.live
  owned : ∀ p ∈ b.listed ++ b.parked, (v.word p).owned
  npages : v.npages = b.listed.length
  -- the pages that exist, and the others were deallocated once
  kept : ∀ p, p ∈ b.listed ++ b.parked ↔ p < v.size ∧ p ∉ v.freed.map Freed.page
  once : (v.freed.map Freed.page).Nodup
  freedLt : ∀ p ∈ v.freed.map Freed.page, p < v.size

namespace View.Shows

variable {v v' : View} {b : Book} {p : Addr} {i : Nat} {rest fresh kept : List Addr}

/-- Every page that was made is listed, parked or deallocated. -/
theorem size_eq (h : v.Shows b) (ht : b.Tidy) :
    v.size = b.listed.length + b.parked.length + v.freed.length := by
  have hnodup : ((b.listed ++ b.parked) ++ v.freed.map Freed.page).Nodup := by
    apply List.nodup_append.mpr
    refine ⟨List.nodup_append.mpr ⟨ht.listed, ht.parked, ?_⟩, h.once, ?_⟩
    · rintro p hp q hq rfl
      exact ht.apart p hq hp
    · rintro p hp q hq rfl
      exact ((h.kept p).mp hp).2 hq
  have hperm : ((b.listed ++ b.parked) ++ v.freed.map Freed.page).Perm (List.range v.size) := by
    apply (List.perm_ext_iff_of_nodup hnodup List.nodup_range).mpr
    intro p
    rw [List.mem_append, h.kept p, List.mem_range]
    constructor
    · rintro (hp | hp)
      · exact hp.1
      · exact h.freedLt p hp
    · intro hp
      by_cases hf : p ∈ v.freed.map Freed.page
      · exact Or.inr hf
      · exact Or.inl ⟨hp, hf⟩
  have hlen := hperm.length_eq
  rw [List.length_append, List.length_append, List.length_map, List.length_range] at hlen
  exact hlen.symm

/-! ### `find_place` -/

theorem pop (h : v.Shows b) (ht : b.Tidy) (hfree : b.free = p :: rest) :
    { v with free := v.nextFree p, inFreeList := Function.update v.inFreeList p false }.Shows
      { b with free := rest } where
  free := by
    have hl := h.free
    rw [hfree] at hl
    exact hl.2
  pending := h.pending
  full := h.full
  parked := h.parked
  flag q hq := by
    have hnodup := ht.lists
    rw [hfree, List.cons_append, List.nodup_cons] at hnodup
    have hflag := h.flag q hq
    rw [hfree, List.cons_append, List.mem_cons] at hflag
    by_cases e : q = p
    · subst e
      simp [Function.update_self, hnodup.1]
    · show Function.update v.inFreeList p false q = true ↔ _
      rw [Function.update_of_ne e, hflag]
      simp [e]
  held := h.held
  owned := h.owned
  npages := h.npages
  kept := h.kept
  once := h.once
  freedLt := h.freedLt

theorem refill (h : v.Shows b) (hfree : b.free = []) :
    { v with free := v.pending, pending := none }.Shows
      { b with free := b.pending, pending := [] } where
  free := h.pending
  pending := rfl
  full := h.full
  parked := h.parked
  flag q hq := by
    rw [List.append_nil, h.flag q hq, hfree, List.nil_append]
  held := h.held
  owned := h.owned
  npages := h.npages
  kept := h.kept
  once := h.once
  freedLt := h.freedLt

theorem discard (h : v.Shows b) (ht : b.Tidy) {w : PageWord} {f : Freed}
    (hparked : b.parked = p :: rest) (hf : f.page = p) :
    { v with
      word := Function.update v.word p w
      parked := rest
      freed := f :: v.freed }.Shows { b with parked := rest } := by
  have hnodup := ht.parked
  rw [hparked, List.nodup_cons] at hnodup
  have hmem : ∀ q, q ∈ b.parked ↔ q = p ∨ q ∈ rest := by
    intro q
    rw [hparked, List.mem_cons]
  have hlisted : p ∉ b.listed := ht.apart p ((hmem p).mpr (Or.inl rfl))
  have hexists : ∀ q ∈ b.listed ++ rest, q ≠ p ∧ q ∈ b.listed ++ b.parked := by
    intro q hq
    rw [List.mem_append] at hq
    rcases hq with hq | hq
    · refine ⟨?_, List.mem_append_left _ hq⟩
      rintro rfl
      exact hlisted hq
    · refine ⟨?_, List.mem_append_right _ ((hmem q).mpr (Or.inr hq))⟩
      rintro rfl
      exact hnodup.1 hq
  have hp : p ∈ b.listed ++ b.parked := List.mem_append_right _ ((hmem p).mpr (Or.inl rfl))
  have hfreed : ∀ q, q ∈ (f :: v.freed).map Freed.page ↔ q = p ∨ q ∈ v.freed.map Freed.page := by
    intro q
    rw [List.map_cons, List.mem_cons, hf]
  refine ⟨h.free, h.pending, h.full, rfl, h.flag, fun q hq => ?_, fun q hq => ?_, h.npages,
    fun q => ?_, ?_, fun q hq => ?_⟩
  · obtain ⟨hne, hq⟩ := hexists q hq
    show ∀ i, (Function.update v.word p w q).held i ↔ _
    rw [Function.update_of_ne hne]
    exact h.held q hq
  · obtain ⟨hne, hq⟩ := hexists q hq
    show (Function.update v.word p w q).owned
    rw [Function.update_of_ne hne]
    exact h.owned q hq
  · have hkept := h.kept q
    rw [List.mem_append, hmem] at hkept
    rw [hfreed, List.mem_append]
    constructor
    · intro hq
      have hne := (hexists q (List.mem_append.mpr hq)).1
      obtain ⟨hlt, hnot⟩ := hkept.mp (by tauto)
      exact ⟨hlt, by tauto⟩
    · rintro ⟨hlt, hnot⟩
      have := hkept.mpr ⟨hlt, by tauto⟩
      tauto
  · rw [List.map_cons, List.nodup_cons, hf]
    exact ⟨((h.kept p).mp hp).2, h.once⟩
  · rcases (hfreed q).mp hq with rfl | hq
    · exact ((h.kept q).mp hp).1
    · exact h.freedLt q hq

theorem reorder (h : v.Shows b) {l : List Addr} (hl : l.Perm b.parked) :
    { v with parked := l }.Shows { b with parked := l } := by
  have hmem : ∀ q, q ∈ b.listed ++ l ↔ q ∈ b.listed ++ b.parked := by
    intro q
    rw [List.mem_append, List.mem_append, hl.mem_iff]
  exact ⟨h.free, h.pending, h.full, rfl, h.flag, fun q hq => h.held q ((hmem q).mp hq),
    fun q hq => h.owned q ((hmem q).mp hq), h.npages, fun q => (hmem q).trans (h.kept q), h.once,
    h.freedLt⟩

/-- Pages join the listed ones and are the new free list. -/
theorem join (h : v.Shows b) (hfree : b.free = []) (hpending : b.pending = [])
    (hl : Linked v'.nextFree v'.free fresh) (hp : v'.pending = none)
    (hfull : Linked v'.next v'.full (fresh ++ b.listed)) (hparked : v'.parked = kept)
    (hflag : ∀ q ∈ fresh, v'.inFreeList q = true)
    (hflag' : ∀ q ∈ b.listed, v'.inFreeList q = v.inFreeList q)
    (hnew : ∀ q ∈ fresh, q ∉ b.listed) (hunused : ∀ q ∈ fresh, ∀ i, (q, i) ∉ b.live)
    (hword : ∀ q ∈ fresh, (∀ i, ¬ (v'.word q).held i) ∧ (v'.word q).owned)
    (hword' : ∀ q ∈ b.listed ++ kept, v'.word q = v.word q)
    (hsub : ∀ q ∈ kept, q ∈ b.parked) (hnpages : v'.npages = v.npages + fresh.length)
    (hkept : ∀ q, q ∈ (fresh ++ b.listed) ++ kept ↔ q < v'.size ∧ q ∉ v'.freed.map Freed.page)
    (hfreed : v'.freed = v.freed) (hsize : v.size ≤ v'.size) :
    v'.Shows { b with free := fresh, listed := fresh ++ b.listed, parked := kept } where
  free := hl
  pending := by
    rw [hp, show b.pending = [] from hpending]
    rfl
  full := hfull
  parked := hparked
  flag q hq := by
    rw [show b.pending = [] from hpending, List.append_nil]
    rcases List.mem_append.mp hq with hq | hq
    · simp [hflag q hq, hq]
    · have hno := h.flag q hq
      rw [hfree, hpending] at hno
      rw [hflag' q hq, hno]
      simpa using fun hq' => hnew q hq' hq
  held q hq i := by
    have hq : q ∈ fresh ∨ q ∈ b.listed ++ kept := by simpa [or_assoc] using hq
    rcases hq with hq | hq
    · exact iff_of_false ((hword q hq).1 i) (hunused q hq i)
    · rw [hword' q hq]
      apply h.held q _ i
      rcases List.mem_append.mp hq with hq | hq
      · exact List.mem_append_left _ hq
      · exact List.mem_append_right _ (hsub q hq)
  owned q hq := by
    have hq : q ∈ fresh ∨ q ∈ b.listed ++ kept := by simpa [or_assoc] using hq
    rcases hq with hq | hq
    · exact (hword q hq).2
    · rw [hword' q hq]
      apply h.owned q
      rcases List.mem_append.mp hq with hq | hq
      · exact List.mem_append_left _ hq
      · exact List.mem_append_right _ (hsub q hq)
  npages := by
    rw [hnpages, h.npages, List.length_append]
    exact Nat.add_comm _ _
  kept := hkept
  once := by
    rw [hfreed]
    exact h.once
  freedLt q hq := by
    rw [hfreed] at hq
    exact Nat.lt_of_lt_of_le (h.freedLt q hq) hsize

theorem grow {π : Type} [Inhabited π] {face : PageFace π} {new : Ptr → π} {h : Heap π}
    {full : Ptr} {npages n : Nat} {x : π} (hn : 0 < n)
    (hs : (h.view face none none full [] npages).Shows b)
    (hlinks : ∀ p, face.links (new p) = ⟨p, p, true⟩)
    (hword : ∀ p, (∀ i, ¬ (face.word (new p)).held i) ∧ (face.word (new p)).owned)
    (hx : face.links x = { face.links ((h.makeList new n).1.get h.size) with next := full })
    (hx' : face.word x = face.word ((h.makeList new n).1.get h.size)) (ht : b.Tidy) :
    (((h.makeList new n).1.set h.size x).view face (some (h.size + (n - 1))) none
      (some (h.size + (n - 1))) [] (npages + n)).Shows
      { b with free := downFrom h.size n, listed := downFrom h.size n ++ b.listed } := by
  have hfree : b.free = [] := by
    cases hf : b.free with
    | nil => rfl
    | cons q l =>
      have hlinked := hs.free
      rw [hf] at hlinked
      cases hlinked.1
  have hpending : b.pending = [] := by
    cases hf : b.pending with
    | nil => rfl
    | cons q l =>
      have hlinked := hs.pending
      rw [hf] at hlinked
      cases hlinked.1
  have hparked : b.parked = [] := hs.parked.symm
  have hold : ∀ q ∈ b.listed, q < h.size :=
    fun q hq => ((hs.kept q).mp (List.mem_append_left _ hq)).1
  have hget : ∀ q, q < h.size → (h.makeList new n).1.get q = h.get q :=
    fun q hq => Heap.get_makeList_old (Or.inl hq)
  have hnew : ∀ q ∈ downFrom h.size n, ∃ next, (h.makeList new n).1.get q = new next := by
    intro q hq
    obtain ⟨k, rfl⟩ := Nat.exists_eq_add_of_le (mem_downFrom.mp hq).1
    have hk : k < n := by
      have := (mem_downFrom.mp hq).2
      omega
    exact ⟨_, Heap.get_makeList_new hk⟩
  have hchain : ∀ f : π → Ptr, (∀ p, f (new p) = p) →
      Linked (fun q => f ((h.makeList new n).1.get q)) (some (h.size + (n - 1)))
        (downFrom h.size n) := by
    intro f hf
    rw [← behind_pos hn]
    apply linked_downFrom
    intro k hk
    show f ((h.makeList new n).1.get (h.size + k)) = _
    rw [Heap.get_makeList_new hk, hf]
  have hlast : (downFrom h.size n).getLast? = some h.size := by
    obtain ⟨k, rfl⟩ := Nat.exists_eq_succ_of_ne_zero (Nat.pos_iff_ne_zero.mp hn)
    exact getLast_downFrom
  have hnotold : ∀ q ∈ downFrom h.size n, q ∉ b.listed := by
    intro q hq hl
    exact Nat.lt_irrefl _ (Nat.lt_of_lt_of_le (hold q hl) (mem_downFrom.mp hq).1)
  have hunused : ∀ q ∈ downFrom h.size n, ∀ i, (q, i) ∉ b.live := by
    intro q hq i hi
    exact hnotold q hq (ht.home q i hi).1
  rw [Heap.view_set_next hx hx', show b.parked = [] from hparked]
  apply hs.join hfree hpending
  · exact hchain (fun y => (face.links y).nextFree) fun p => by rw [hlinks]
  · rfl
  · apply ((hchain (fun y => (face.links y).next) fun p => by rw [hlinks]).join hlast _ hnotold).1
    apply hs.full.congr
    intro q hq
    show (face.links ((h.makeList new n).1.get q)).next = (face.links (h.get q)).next
    rw [hget q (hold q hq)]
  · rfl
  · intro q hq
    obtain ⟨next, e⟩ := hnew q hq
    show (face.links ((h.makeList new n).1.get q)).inFreeList = true
    rw [e, hlinks]
  · intro q hq
    show (face.links ((h.makeList new n).1.get q)).inFreeList = (face.links (h.get q)).inFreeList
    rw [hget q (hold q hq)]
  · exact hnotold
  · exact hunused
  · intro q hq
    obtain ⟨next, e⟩ := hnew q hq
    show (∀ i, ¬ (face.word ((h.makeList new n).1.get q)).held i) ∧
      (face.word ((h.makeList new n).1.get q)).owned
    rw [e]
    exact hword next
  · intro q hq
    rw [List.append_nil] at hq
    show face.word ((h.makeList new n).1.get q) = face.word (h.get q)
    rw [hget q (hold q hq)]
  · intro q hq
    cases hq
  · rw [length_downFrom]
    rfl
  · intro q
    have hkept := hs.kept q
    rw [hparked, List.append_nil] at hkept
    have hlt := hs.freedLt q
    show q ∈ (downFrom h.size n ++ b.listed) ++ [] ↔ q < h.size + n ∧ q ∉ h.freed.map Freed.page
    rw [List.append_nil, List.mem_append, mem_downFrom, hkept]
    constructor
    · rintro (hq | hq)
      · exact ⟨hq.2, fun hf => Nat.lt_irrefl _ (Nat.lt_of_lt_of_le (hlt hf) hq.1)⟩
      · exact ⟨Nat.lt_of_lt_of_le hq.1 (Nat.le_add_right _ _), hq.2⟩
    · rintro ⟨hq, hf⟩
      rcases Nat.lt_or_ge q h.size with hs | hs
      · exact Or.inr ⟨hs, hf⟩
      · exact Or.inl ⟨hs, hq⟩
  · rfl
  · exact Nat.le_add_right _ _

theorem start {π : Type} [Inhabited π] {face : PageFace π} {new : Ptr → π} {n : Nat} (hn : 0 < n)
    (hlinks : ∀ p, face.links (new p) = ⟨p, p, true⟩)
    (hword : ∀ p, (∀ i, ¬ (face.word (new p)).held i) ∧ (face.word (new p)).owned) :
    ((Heap.empty.makeList new n).1.view face (some (0 + (n - 1))) none (some (0 + (n - 1))) []
      n).Shows (.start (downFrom 0 n)) := by
  have hnone : ((Heap.empty : Heap π).view face none none none [] 0).Shows (.start []) := by
    refine ⟨rfl, rfl, rfl, rfl, ?_, ?_, ?_, rfl, fun q => ?_, List.nodup_nil, ?_⟩
    · intro q hq
      cases hq
    · intro q hq
      cases hq
    · intro q hq
      cases hq
    · constructor
      · intro hq
        cases hq
      · rintro ⟨hq, -⟩
        exact absurd hq (Nat.not_lt_zero q)
    · intro q hq
      cases hq
  have hlast : (Heap.empty.makeList new n).1.get 0 = new none := by
    have e : (Heap.empty.makeList new n).1.get (0 + 0) = _ := Heap.get_makeList_new hn
    exact e
  have h := grow hn hnone hlinks hword (x := (Heap.empty.makeList new n).1.get 0)
    (by rw [show (Heap.empty : Heap π).size = 0 from rfl, hlast, hlinks]) rfl
    (Book.Tidy.start List.nodup_nil)
  rw [show (Heap.empty : Heap π).size = 0 from rfl, Heap.view_set_same rfl rfl, Nat.zero_add n] at h
  have e : (Book.start [] : Book).listed = [] := rfl
  rw [e, List.append_nil] at h
  exact h

theorem owned_write (h : v.Shows b) {w : PageWord} (ho : w.owned) :
    ∀ q ∈ b.listed ++ b.parked, (Function.update v.word p w q).owned := by
  intro q hq
  by_cases e : q = p
  · rw [e, Function.update_self]
    exact ho
  · rw [Function.update_of_ne e]
    exact h.owned q hq

/-- The words of a page are written, and hold what they held. -/
theorem rewrite (h : v.Shows b) {w : PageWord} (hw : ∀ j, w.held j ↔ (v.word p).held j)
    (ho : w.owned) : { v with word := Function.update v.word p w }.Shows b where
  free := h.free
  pending := h.pending
  full := h.full
  parked := h.parked
  flag := h.flag
  held q hq j := by
    show (Function.update v.word p w q).held j ↔ _
    rw [← h.held q hq j]
    by_cases e : q = p
    · rw [e, Function.update_self]
      exact hw j
    · rw [Function.update_of_ne e]
  owned := h.owned_write ho
  npages := h.npages
  kept := h.kept
  once := h.once
  freedLt := h.freedLt

theorem take (h : v.Shows b) {w : PageWord} (hw : ∀ j, w.held j ↔ (v.word p).held j ∨ j = i)
    (ho : w.owned) : { v with word := Function.update v.word p w }.Shows (b.take (p, i)) where
  free := h.free
  pending := h.pending
  full := h.full
  parked := h.parked
  flag := h.flag
  held q hq j := by
    have hbit := h.held q hq j
    show (Function.update v.word p w q).held j ↔ (q, j) ∈ (p, i) :: b.live
    rw [List.mem_cons, Prod.mk.injEq]
    by_cases e : q = p
    · subst e
      rw [Function.update_self, hw j, hbit]
      simp [or_comm]
    · rw [Function.update_of_ne e, hbit]
      simp [e]
  owned := h.owned_write ho
  npages := h.npages
  kept := h.kept
  once := h.once
  freedLt := h.freedLt

/-! ### `drop_block` -/

theorem release (h : v.Shows b) (ht : b.Tidy) {w : PageWord}
    (hw : ∀ j, w.held j ↔ (v.word p).held j ∧ j ≠ i) (ho : w.owned) :
    { v with word := Function.update v.word p w }.Shows
      { b with live := b.live.erase (p, i) } where
  free := h.free
  pending := h.pending
  full := h.full
  parked := h.parked
  flag := h.flag
  held q hq j := by
    have hbit := h.held q hq j
    show (Function.update v.word p w q).held j ↔ (q, j) ∈ b.live.erase (p, i)
    rw [ht.live.mem_erase_iff, ← hbit]
    by_cases e : q = p
    · subst e
      rw [Function.update_self, hw j]
      simp [and_comm]
    · rw [Function.update_of_ne e]
      simp [e]
  owned := h.owned_write ho
  npages := h.npages
  kept := h.kept
  once := h.once
  freedLt := h.freedLt

theorem flag_push (h : v.Shows b) {l : List Addr}
    (hl : ∀ q, q ∈ l ↔ q = p ∨ q ∈ b.free ++ b.pending) :
    ∀ q ∈ b.listed, Function.update v.inFreeList p true q = true ↔ q ∈ l := by
  intro q hq
  rw [hl]
  by_cases e : q = p
  · rw [e, Function.update_self]
    simp
  · rw [Function.update_of_ne e, h.flag q hq]
    simp [e]

theorem pushFree (h : v.Shows b) (hout : p ∉ b.free ++ b.pending) :
    { v with
      inFreeList := Function.update v.inFreeList p true
      nextFree := Function.update v.nextFree p v.free
      free := some p }.Shows { b with free := p :: b.free } where
  free := h.free.push fun hp => hout (List.mem_append_left _ hp)
  pending := h.pending.update fun hp => hout (List.mem_append_right _ hp)
  full := h.full
  parked := h.parked
  flag := h.flag_push fun q => by simp
  held := h.held
  owned := h.owned
  npages := h.npages
  kept := h.kept
  once := h.once
  freedLt := h.freedLt

theorem pushPending (h : v.Shows b) (hout : p ∉ b.free ++ b.pending) :
    { v with
      inFreeList := Function.update v.inFreeList p true
      nextFree := Function.update v.nextFree p v.pending
      pending := some p }.Shows { b with pending := p :: b.pending } where
  free := h.free.update fun hp => hout (List.mem_append_left _ hp)
  pending := h.pending.push fun hp => hout (List.mem_append_right _ hp)
  full := h.full
  parked := h.parked
  flag := h.flag_push fun q => by simp [or_left_comm]
  held := h.held
  owned := h.owned
  npages := h.npages
  kept := h.kept
  once := h.once
  freedLt := h.freedLt

/-! ### `shrink_to_fit` -/

/-- The walks of `shrink_to_fit` took the unused pages of the free list out of both lists. -/
theorem shrink (h : v.Shows b) (ht : b.Tidy) {drop : Addr → Bool} {next₁ next₂ : Addr → Ptr}
    {head₁ head₂ : Ptr} (hdrop : ∀ q ∈ b.free, drop q = b.unused q)
    (hfree : Linked next₁ head₁ (b.free.filter fun q => !drop q))
    (hsame : ∀ q, q ∉ b.free → next₁ q = v.nextFree q)
    (hfull : Linked next₂ head₂ (b.listed.filter fun q => !decide (q ∈ b.spare))) :
    { v with
      nextFree := next₁
      free := head₁
      next := next₂
      full := head₂
      npages := v.npages - b.spare.length
      parked := b.parked ++ b.spare }.Shows (b.shrink true) := by
  have hfree' : (b.shrink true).free = b.free.filter fun q => !drop q :=
    List.filter_congr fun q hq => by rw [hdrop q hq]
  have hlisted' : (b.shrink true).listed = b.listed.filter fun q => !decide (q ∈ b.spare) :=
    List.filter_congr fun q _ => decide_not
  have hlisted : ∀ q, q ∈ (b.shrink true).listed ↔ q ∈ b.listed ∧ q ∉ b.spare := by
    intro q
    rw [show (b.shrink true).listed = b.listed.filter fun p => p ∉ b.spare from rfl,
      List.mem_filter, decide_eq_true_eq]
  have hkept : ∀ q, q ∈ (b.shrink true).listed ++ (b.shrink true).parked ↔
      q ∈ b.listed ++ b.parked := by
    intro q
    have hspare : q ∈ b.spare → q ∈ b.listed := fun hq => ht.free_listed (Book.mem_spare.mp hq).1
    rw [List.mem_append, List.mem_append, hlisted q,
      show (b.shrink true).parked = b.parked ++ b.spare from rfl, List.mem_append]
    by_cases hs : q ∈ b.spare
    · simp [hs, hspare hs]
    · simp [hs]
  refine ⟨?_, ?_, ?_, rfl, fun q hq => ?_, fun q hq => h.held q ((hkept q).mp hq),
    fun q hq => h.owned q ((hkept q).mp hq), ?_, fun q => (hkept q).trans (h.kept q), h.once,
    h.freedLt⟩
  · rw [hfree']
    exact hfree
  · apply h.pending.congr
    intro q hq
    apply hsame q
    intro hq'
    exact (List.nodup_append.mp ht.lists).2.2 q hq' q hq rfl
  · rw [hlisted']
    exact hfull
  · obtain ⟨hq, hnot⟩ := (hlisted q).mp hq
    show v.inFreeList q = true ↔ _
    rw [h.flag q hq, List.mem_append, List.mem_append]
    apply or_congr_left
    rw [show (b.shrink true).free = b.free.filter fun p => !b.unused p from rfl, List.mem_filter]
    constructor
    · intro hq'
      refine ⟨hq', ?_⟩
      simpa using fun hs => hnot (Book.mem_spare.mpr ⟨hq', hs⟩)
    · exact And.left
  · have hlen := length_filter_not_mem ht.listed (ht.free_nodup.filter b.unused) fun q hq =>
      ht.free_listed (Book.mem_spare.mp hq).1
    have hlen : (b.listed.filter (· ∉ b.spare)).length + b.spare.length = b.listed.length := hlen
    show v.npages - b.spare.length = (b.listed.filter fun p => p ∉ b.spare).length
    rw [h.npages]
    omega

end View.Shows

/-! ## The end of a pool -/

structure View.Left (v₀ : View) (b : Book) (done : List Addr) (v : View) : Prop where
  next : v.next = v₀.next
  word : ∀ p, p ∉ done → v.word p = v₀.word p
  given : ∀ p ∈ done, b.unused p = false →
    (v.word p).given ∧ ∀ i, (v.word p).held i ↔ (v₀.word p).held i
  size : v.size = v₀.size
  freed : v.freed.map Freed.page = (done.filter b.unused).reverse ++ v₀.freed.map Freed.page

structure View.Leftover (v : View) (live : List Block) : Prop where
  nodup : live.Nodup
  lt : ∀ p i, (p, i) ∈ live → i < 63
  kept : ∀ p, (∃ i, (p, i) ∈ live) ↔ p < v.size ∧ p ∉ v.freed.map Freed.page
  held : ∀ p, (∃ j, (p, j) ∈ live) → ∀ i, (v.word p).held i ↔ (p, i) ∈ live
  given : ∀ p, (∃ j, (p, j) ∈ live) → (v.word p).given
  once : (v.freed.map Freed.page).Nodup
  freedLt : ∀ p ∈ v.freed.map Freed.page, p < v.size

namespace View

variable {v v' v₀ : View} {b : Book} {live : List Block} {done rest : List Addr} {p : Addr}
  {i : Nat} {w : PageWord}

theorem Left.start (b : Book) (v : View) : v.Left b [] v where
  next := rfl
  word _ _ := rfl
  given p hp := by cases hp
  size := rfl
  freed := rfl

theorem Left.drop (h : v₀.Left b done v) (hp : p ∉ done)
    (hw : b.unused p = false → w.given ∧ ∀ i, w.held i ↔ (v.word p).held i) :
    v₀.Left b (done ++ [p]) { v with
      word := Function.update v.word p w
      freed := if b.unused p then .dropPage p :: v.freed else v.freed } where
  next := h.next
  word q hq := by
    rw [List.mem_append, List.mem_singleton] at hq
    show Function.update v.word p w q = _
    rw [Function.update_of_ne fun e => hq (Or.inr e)]
    exact h.word q fun hd => hq (Or.inl hd)
  given q hq hu := by
    show (Function.update v.word p w q).given ∧ ∀ i, (Function.update v.word p w q).held i ↔ _
    by_cases e : q = p
    · subst e
      rw [Function.update_self, ← h.word q hp]
      exact hw hu
    · rw [Function.update_of_ne e]
      rw [List.mem_append, List.mem_singleton] at hq
      exact h.given q (hq.resolve_right e) hu
  size := h.size
  freed := by
    rw [List.filter_append, List.reverse_append, List.filter_singleton]
    cases hu : b.unused p with
    | true =>
      simp only [ite_true, List.map_cons, h.freed]
      rfl
    | false =>
      simp only [Bool.false_eq_true, ite_false, h.freed]
      rfl

theorem Left.leftover (h : v₀.Left b b.listed v) (hs : v₀.Shows b) (ht : b.Tidy)
    (hparked : b.parked = []) : v.Leftover b.live := by
  have hkept : ∀ q, q ∈ b.listed ↔ q < v₀.size ∧ q ∉ v₀.freed.map Freed.page := by
    intro q
    have := hs.kept q
    rwa [hparked, List.append_nil] at this
  have hmem : ∀ q, q ∈ v.freed.map Freed.page ↔
      (q ∈ b.listed ∧ b.unused q = true) ∨ q ∈ v₀.freed.map Freed.page := by
    intro q
    rw [h.freed, List.mem_append, List.mem_reverse, List.mem_filter]
  have hused : ∀ q, (∃ i, (q, i) ∈ b.live) → q ∈ b.listed ∧ b.unused q = false := by
    rintro q ⟨i, hi⟩
    refine ⟨(ht.home q i hi).1, ?_⟩
    by_contra hne
    exact Book.unused_iff.mp (by simpa using hne) i hi
  refine ⟨ht.live, fun q i hi => (ht.home q i hi).2, fun q => ?_, fun q hq i => ?_,
    fun q hq => ?_, ?_, fun q hq => ?_⟩
  · rw [hmem q, h.size]
    constructor
    · intro hq
      obtain ⟨hlisted, hu⟩ := hused q hq
      obtain ⟨hlt, hnot⟩ := (hkept q).mp hlisted
      refine ⟨hlt, ?_⟩
      rintro (hu' | hf)
      · rw [hu] at hu'
        cases hu'.2
      · exact hnot hf
    · rintro ⟨hlt, hnot⟩
      have hq := (hkept q).mpr ⟨hlt, fun hf => hnot (Or.inr hf)⟩
      by_contra hnone
      apply hnot
      refine Or.inl ⟨hq, ?_⟩
      rw [Book.unused_iff]
      exact fun i hi => hnone ⟨i, hi⟩
  · obtain ⟨hlisted, hu⟩ := hused q hq
    rw [(h.given q hlisted hu).2 i]
    exact hs.held q (List.mem_append_left _ hlisted) i
  · obtain ⟨hlisted, hu⟩ := hused q hq
    exact (h.given q hlisted hu).1
  · rw [h.freed]
    apply List.nodup_append.mpr
    refine ⟨(List.nodup_reverse.mpr (ht.listed.filter _)), hs.once, ?_⟩
    rintro q hq r hr rfl
    rw [List.mem_reverse, List.mem_filter] at hq
    exact ((hkept q).mp hq.1).2 hr
  · rw [h.size]
    rcases (hmem q).mp hq with hq | hq
    · exact ((hkept q).mp hq.1).1
    · exact hs.freedLt q hq

theorem Leftover.release (h : v.Leftover live) (hx : (p, i) ∈ live)
    (hword : v'.word = Function.update v.word p w)
    (hw : ∀ j, w.held j ↔ (v.word p).held j ∧ j ≠ i) (hgiven : w.given) (hsize : v'.size = v.size)
    (hfreed : ((∀ j, (p, j) ∉ live.erase (p, i)) ∧ v'.freed = .dropBlock p :: v.freed) ∨
      (∃ j, (p, j) ∈ live.erase (p, i)) ∧ v'.freed = v.freed) :
    v'.Leftover (live.erase (p, i)) := by
  have hkept := h.kept p
  obtain ⟨hlt, hnot⟩ := hkept.mp ⟨i, hx⟩
  have hother : ∀ q, q ≠ p → ∀ j, (q, j) ∈ live.erase (p, i) ↔ (q, j) ∈ live := by
    intro q hq j
    exact List.mem_erase_of_ne fun e => hq (Prod.mk.inj e).1
  have hheld : ∀ q, (∃ k, (q, k) ∈ live.erase (p, i)) → ∀ j,
      (v'.word q).held j ↔ (q, j) ∈ live.erase (p, i) := by
    rintro q ⟨k, hk⟩ j
    have hbit := h.held q ⟨k, List.mem_of_mem_erase hk⟩ j
    rw [hword, h.nodup.mem_erase_iff, ← hbit]
    by_cases e : q = p
    · subst e
      rw [Function.update_self, hw j]
      simp [and_comm]
    · rw [Function.update_of_ne e]
      simp [e]
  have hgiven' : ∀ q, (∃ k, (q, k) ∈ live.erase (p, i)) → (v'.word q).given := by
    rintro q ⟨k, hk⟩
    rw [hword]
    by_cases e : q = p
    · rw [e, Function.update_self]
      exact hgiven
    · rw [Function.update_of_ne e]
      exact h.given q ⟨k, List.mem_of_mem_erase hk⟩
  have hlt' : ∀ q j, (q, j) ∈ live.erase (p, i) → j < 63 :=
    fun q j hq => h.lt q j (List.mem_of_mem_erase hq)
  rcases hfreed with ⟨hnone, hfreed⟩ | ⟨hsome, hfreed⟩
  · have hmem : ∀ q, q ∈ v'.freed.map Freed.page ↔ q = p ∨ q ∈ v.freed.map Freed.page := by
      intro q
      rw [hfreed, List.map_cons, List.mem_cons]
      rfl
    refine ⟨h.nodup.erase _, hlt', fun q => ?_, hheld, hgiven', ?_, fun q hq => ?_⟩
    · rw [hmem q, hsize]
      by_cases e : q = p
      · subst e
        simp [hnone]
      · simp only [hother q e, h.kept q, e, false_or]
    · rw [hfreed, List.map_cons, List.nodup_cons]
      exact ⟨hnot, h.once⟩
    · rw [hsize]
      rcases (hmem q).mp hq with rfl | hq
      · exact hlt
      · exact h.freedLt q hq
  · refine ⟨h.nodup.erase _, hlt', fun q => ?_, hheld, hgiven', ?_, fun q hq => ?_⟩
    · rw [hfreed, hsize]
      by_cases e : q = p
      · subst e
        simp [hsome, hlt, hnot]
      · simp only [hother q e, h.kept q]
    · rw [hfreed]
      exact h.once
    · rw [hfreed] at hq
      rw [hsize]
      exact h.freedLt q hq

end View

end MemoryPools
