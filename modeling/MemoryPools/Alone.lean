import MemoryPools.Shows
import MemoryPools.Interleave.Call

/-!
# Calls on shared pages that run alone

`drop_block` and `drop_page` of the two kinds of shared pages, when no other thread moves
meanwhile: they return, and do to the book of the arena what their names say.
-/

namespace MemoryPools

open Interleave

/-! ## The push -/

def PageLinks.pushed (self : Addr) (upgraded : Bool) (links : PageLinks) (pending : Ptr) :
    PageLinks × Ptr :=
  if links.inFreeList then (links, pending)
  else if upgraded then ({ links with inFreeList := true, nextFree := pending }, some self)
  else ({ links with inFreeList := true }, pending)

def PageLinks.pushStep (self : Addr) (upgraded : Bool) (s : PageLinks × Ptr) (pc : PushPc) :
    (PageLinks × Ptr) × Control PushPc Unit :=
  let (links, pending, control) := s.1.push self upgraded s.2 pc
  ((links, pending), control)

theorem PageLinks.push_returns (self : Addr) (upgraded : Bool) (links : PageLinks) (pending : Ptr) :
    Returns (pushStep self upgraded) (links, pending) .loadInFree
      (links.pushed self upgraded pending) () := by
  unfold pushed
  cases hf : links.inFreeList with
  | true =>
    apply Returns.of_step
    simp [pushStep, push, hf]
  | false =>
    have hload : pushStep self upgraded (links, pending) .loadInFree =
        ((links, pending), .goto .swapInFree) := by simp [pushStep, push, hf]
    have hswap : pushStep self upgraded (links, pending) .swapInFree =
        (({ links with inFreeList := true }, pending), .goto .upgrade) := by
      simp [pushStep, push, hf]
    refine .head hload (.head hswap ?_)
    cases upgraded with
    | false => exact .of_step rfl
    | true =>
      refine .head rfl (.head rfl (.head rfl (.of_step ?_)))
      simp [pushStep, push]

/-! ## The calls -/

section
variable {π κ : Type} [Inhabited π] (ops : PageOps π κ)

namespace PageOps

structure Links : Prop where
  giveBlock : ∀ i page, ops.links (ops.giveBlock i page).1 = ops.links page
  givePage : ∀ page, ops.links (ops.givePage page).1 = ops.links page
  get : ∀ page links, ops.links (ops.setLinks page links) = links
  set : ∀ page links links', ops.setLinks (ops.setLinks page links) links' =
    ops.setLinks page links'
  same : ∀ page, ops.setLinks page (ops.links page) = page

def face (R : Refs π) : PageFace π where
  links := ops.links
  word := R.word

def dropBlockAt (p : Addr) (index : Nat) (upgraded : Bool) (s : Heap π × Ptr) (pc : DropPc) :
    (Heap π × Ptr) × Control DropPc Unit :=
  let r := ops.dropBlock p index upgraded (s.1.get p) s.2 pc
  let heap := s.1.set p r.page
  ((if r.deallocated then heap.free (.dropBlock p) else heap, r.pending), r.control)

def dropPageAt (p : Addr) (s : Heap π × Ptr) (pc : DropPagePc) :
    (Heap π × Ptr) × Control DropPagePc Unit :=
  let r := ops.dropPage (s.1.get p) s.2 pc
  let heap := s.1.set p r.page
  ((if r.deallocated then heap.free (.dropPage p) else heap, r.pending), r.control)

variable {ops} {R : Refs π} {h : Heap π} {p : Addr} {i : Nat} {pending : Ptr} {upgraded : Bool}

theorem dropBlock_pushes (hk : ops.Links) (hlast : (ops.giveBlock i (h.get p)).2 = false) :
    Returns (ops.dropBlockAt p i upgraded) (h, pending) .fetchAdd
      (h.set p (ops.setLinks (ops.giveBlock i (h.get p)).1
        ((ops.links (h.get p)).pushed p upgraded pending).1),
        ((ops.links (h.get p)).pushed p upgraded pending).2) () := by
  have hpush := PageLinks.push_returns p upgraded (ops.links (h.get p)) pending
  let g : PageLinks × Ptr → Heap π × Ptr := fun s =>
    (h.set p (ops.setLinks (ops.giveBlock i (h.get p)).1 s.1), s.2)
  have hstep : ops.dropBlockAt p i upgraded (h, pending) .fetchAdd =
      (g (ops.links (h.get p), pending), .goto (.push .loadInFree)) := by
    have hsame : ops.setLinks (ops.giveBlock i (h.get p)).1 (ops.links (h.get p)) =
        (ops.giveBlock i (h.get p)).1 := by
      rw [← hk.giveBlock i (h.get p), hk.same]
    simp only [g, hsame]
    unfold dropBlockAt dropBlock
    simp only [hlast]
    rfl
  have hnest : Nests (PageLinks.pushStep p upgraded) (ops.dropBlockAt p i upgraded) g .push .ret := by
    intro s pc
    simp only [g, dropBlockAt, dropBlock, Heap.get_set_self, hk.get, hk.set, Heap.set_set]
    rfl
  exact .head hstep (hpush.lift hnest rfl)

theorem dropBlock_frees (hlast : (ops.giveBlock i (h.get p)).2 = true) :
    Returns (ops.dropBlockAt p i upgraded) (h, pending) .fetchAdd
      ((h.set p (ops.giveBlock i (h.get p)).1).free (.dropBlock p), pending) () := by
  have hgive : ops.dropBlockAt p i upgraded (h, pending) .fetchAdd =
      ((h.set p (ops.giveBlock i (h.get p)).1, pending), .goto .deallocate) := by
    unfold dropBlockAt dropBlock
    simp only [hlast]
    rfl
  refine .head hgive (.of_step ?_)
  unfold dropBlockAt dropBlock
  simp only [Heap.get_set_self, Heap.set_set, ite_true]

theorem dropPage_returns : Returns (ops.dropPageAt p) (h, pending) .fetch
    (if (ops.givePage (h.get p)).2 then (h.set p (ops.givePage (h.get p)).1).free (.dropPage p)
      else h.set p (ops.givePage (h.get p)).1, pending) () := by
  cases hlast : (ops.givePage (h.get p)).2 with
  | true =>
    have hgive : ops.dropPageAt p (h, pending) .fetch =
        ((h.set p (ops.givePage (h.get p)).1, pending), .goto .deallocate) := by
      unfold dropPageAt dropPage
      simp only [hlast]
      rfl
    refine .head hgive (.of_step ?_)
    unfold dropPageAt dropPage
    simp only [Heap.get_set_self, Heap.set_set, ite_true]
  | false =>
    apply Returns.of_step
    unfold dropPageAt dropPage
    simp only [hlast]
    rfl

/-! ## What they do to a book -/

variable {b : Book} {free full : Ptr} {parked rest live done : List Addr} {npages : Nat}

omit [Inhabited π] in
theorem word_setLinks (hR : R.Lawful ops) {x : π} (hx : R.Wf x) (links : PageLinks) :
    R.word (ops.setLinks x links) = R.word x := by
  obtain ⟨hwf, hheld, howned⟩ := hR.setLinks links hx
  unfold Refs.word
  rw [PageWord.mk.injEq]
  refine ⟨funext fun j => propext (hheld j), propext ?_, propext ?_⟩
  · rw [howned, iff_true_intro hwf, iff_true_intro hx]
  · rw [howned, iff_true_intro hwf, iff_true_intro hx]

theorem dropBlock_shows (hR : R.Lawful ops) (hk : ops.Links)
    (hs : (h.view (ops.face R) free pending full parked npages).Shows b) (ht : b.Tidy)
    (hx : (p, i) ∈ b.live) :
    ∃ h' pending', Returns (ops.dropBlockAt p i true) (h, pending) .fetchAdd (h', pending') () ∧
      (h'.view (ops.face R) free pending' full parked npages).Shows (b.give false (p, i)) ∧
        h'.size = h.size := by
  have hp : p ∈ b.listed := (ht.home p i hx).1
  obtain ⟨hwf, ho⟩ : R.Wf (h.get p) ∧ R.owned (h.get p) := hs.owned p (List.mem_append_left _ hp)
  have hi : R.held (h.get p) i := (hs.held p (List.mem_append_left _ hp) i).mpr hx
  obtain ⟨hwf', hheld, howned, hlast⟩ := hR.giveBlock hwf hi rfl
  have hnot : (ops.giveBlock i (h.get p)).2 = false := by
    rw [← Bool.not_eq_true, hlast]
    exact fun hgone => hgone.2 (howned.mpr ho)
  have hflag : (ops.links (h.get p)).inFreeList = true ↔ p ∈ b.free ++ b.pending := hs.flag p hp
  have hshows := hs.release (w := R.word (ops.giveBlock i (h.get p)).1) ht hheld
    ⟨hwf', howned.mpr ho⟩
  refine ⟨_, _, dropBlock_pushes hk hnot, ?_, rfl⟩
  unfold Book.give PageLinks.pushed
  by_cases hon : p ∈ b.free ++ b.pending
  · rw [if_pos (hflag.mpr hon), if_pos hon, Heap.view_set_word]
    · show View.Shows { h.view (ops.face R) free pending full parked npages with
        word := Function.update _ p (R.word (ops.setLinks _ _)) } _
      rw [word_setLinks hR hwf']
      exact hshows
    · exact hk.get _ _
  · rw [if_neg fun e => hon (hflag.mp e), if_pos rfl, if_neg hon, if_neg (by simp),
      Heap.view_set_push (c := pending)]
    · show View.Shows { h.view (ops.face R) free (some p) full parked npages with
        nextFree := _, inFreeList := _,
        word := Function.update _ p (R.word (ops.setLinks _ _)) } _
      rw [word_setLinks hR hwf']
      exact hshows.pushPending hon
    · exact hk.get _ _

theorem dropBlock_leftover {live : List Block} (hR : R.Lawful ops) (hk : ops.Links)
    (hl : (h.view (ops.face R) free pending full parked npages).Leftover live)
    (hx : (p, i) ∈ live) :
    ∃ h', Returns (ops.dropBlockAt p i false) (h, pending) .fetchAdd (h', pending) () ∧
      (h'.view (ops.face R) free pending full parked npages).Leftover (live.erase (p, i)) ∧
        h'.size = h.size := by
  obtain ⟨hwf, hgone⟩ : R.Wf (h.get p) ∧ ¬ R.owned (h.get p) := hl.given p ⟨i, hx⟩
  have hi : R.held (h.get p) i := (hl.held p ⟨i, hx⟩ i).mpr hx
  obtain ⟨hwf', hheld, howned, hlast⟩ := hR.giveBlock hwf hi rfl
  have hgone' : ¬ R.owned (ops.giveBlock i (h.get p)).1 := fun ho => hgone (howned.mp ho)
  have hleft : ∀ j, (p, j) ∈ live.erase (p, i) ↔ R.held (ops.giveBlock i (h.get p)).1 j := by
    intro j
    have hj : R.held (h.get p) j ↔ (p, j) ∈ live := hl.held p ⟨i, hx⟩ j
    rw [hl.nodup.mem_erase_iff, hheld j, hj]
    simp [and_comm]
  by_cases hfrees : (ops.giveBlock i (h.get p)).2 = true
  · refine ⟨_, dropBlock_frees hfrees, ?_, rfl⟩
    refine hl.release hx (w := R.word (ops.giveBlock i (h.get p)).1) ?_ hheld ⟨hwf', hgone'⟩ rfl
      (Or.inl ⟨fun j hj => (hlast.mp hfrees).1 j ((hleft j).mp hj), rfl⟩)
    exact Heap.word_view_set
  · obtain ⟨j, hj⟩ : ∃ j, R.held (ops.giveBlock i (h.get p)).1 j := by
      by_contra hnone
      exact hfrees (hlast.mpr ⟨fun j hj => hnone ⟨j, hj⟩, hgone'⟩)
    have hpending : ((ops.links (h.get p)).pushed p false pending).2 = pending := by
      unfold PageLinks.pushed
      split <;> rfl
    have hret : Returns (ops.dropBlockAt p i false) (h, pending) .fetchAdd
        (h.set p (ops.setLinks (ops.giveBlock i (h.get p)).1
          ((ops.links (h.get p)).pushed p false pending).1), pending) () := by
      have hpush := @dropBlock_pushes _ _ _ ops h p i pending false hk (Bool.eq_false_iff.mpr hfrees)
      rwa [hpending] at hpush
    refine ⟨_, hret, ?_, rfl⟩
    refine hl.release hx (w := R.word (ops.giveBlock i (h.get p)).1) ?_ hheld ⟨hwf', hgone'⟩ rfl
      (Or.inr ⟨⟨j, (hleft j).mpr hj⟩, rfl⟩)
    rw [Heap.word_view_set, ← word_setLinks hR hwf' _]
    rfl

theorem dropPage_discards (hR : R.Lawful ops) (hk : ops.Links)
    (hs : (h.view (ops.face R) free pending full (p :: rest) npages).Shows b) (ht : b.Tidy) :
    ∃ h', Returns (ops.dropPageAt p) (h, pending) .fetch (h', pending) () ∧
      (h'.view (ops.face R) free pending full rest npages).Shows { b with parked := rest } ∧
        h'.size = h.size := by
  have hparked : b.parked = p :: rest := hs.parked.symm
  have hp : p ∈ b.listed ++ b.parked := by simp [hparked]
  obtain ⟨hwf, ho⟩ : R.Wf (h.get p) ∧ R.owned (h.get p) := hs.owned p hp
  obtain ⟨-, hsame, -, hlast⟩ := hR.givePage hwf ho rfl
  have hfrees : (ops.givePage (h.get p)).2 = true := by
    rw [hlast]
    intro i hi
    have hlive : (p, i) ∈ b.live := (hs.held p hp i).mp ((hsame i).mp hi)
    exact ht.apart p (by simp [hparked]) (ht.home p i hlive).1
  have hret : Returns (ops.dropPageAt p) (h, pending) .fetch
      ((h.set p (ops.givePage (h.get p)).1).free (.dropPage p), pending) () := by
    have hpage := @dropPage_returns _ _ _ ops h p pending
    rwa [hfrees, if_pos rfl] at hpage
  refine ⟨_, hret, ?_, rfl⟩
  have hview : ((h.set p (ops.givePage (h.get p)).1).free (.dropPage p)).view (ops.face R) free
      pending full rest npages =
      { h.view (ops.face R) free pending full (p :: rest) npages with
        word := Function.update (fun q => R.word (h.get q)) p (R.word (ops.givePage (h.get p)).1)
        parked := rest
        freed := .dropPage p :: h.freed } := by
    show { (h.set p (ops.givePage (h.get p)).1).view (ops.face R) free pending full rest npages with
      freed := .dropPage p :: h.freed } = _
    rw [Heap.view_set_word (hk.givePage _)]
    rfl
  rw [hview]
  exact hs.discard ht hparked rfl

/-- A loop that drops the parked pages, one after the other; `P` is how it ends. -/
theorem dropPages_discard {τ κ' ρ : Type} {step : τ → κ' → τ × Control κ' ρ}
    {g : Heap π × Ptr → τ} (pc : Addr → List Addr → κ') {P : τ → κ' → τ → Prop}
    (hgoes : ∀ {s s₁ s' : τ} {pc pc₁ : κ'}, Goes step s pc s₁ pc₁ → P s₁ pc₁ s' → P s pc s')
    (hcons : ∀ {p q : Addr} {rest : List Addr} {s s' : Heap π × Ptr},
      Returns (ops.dropPageAt p) s .fetch s' () →
      Goes step (g s) (pc p (q :: rest)) (g s') (pc q rest))
    (hnil : ∀ {p : Addr} {s s' : Heap π × Ptr}, Returns (ops.dropPageAt p) s .fetch s' () →
      P (g s) (pc p []) (g s'))
    (hR : R.Lawful ops) (hk : ops.Links)
    (hs : (h.view (ops.face R) free pending full (p :: rest) npages).Shows
      { b with parked := p :: rest }) (ht : { b with parked := p :: rest }.Tidy) :
    ∃ h', P (g (h, pending)) (pc p rest) (g (h', pending)) ∧
      (h'.view (ops.face R) free pending full [] npages).Shows { b with parked := [] } ∧
        h'.size = h.size := by
  induction rest generalizing h p with
  | nil =>
    obtain ⟨h', hret, hs', hsize⟩ := dropPage_discards hR hk hs ht
    exact ⟨h', hnil hret, hs', hsize⟩
  | cons q rest ih =>
    obtain ⟨h₁, hret, hs₁, hsize₁⟩ := dropPage_discards hR hk hs ht
    have ht₁ := ht.park (List.nodup_cons.mp ht.parked).2 fun r hr => List.mem_cons_of_mem p hr
    obtain ⟨h', hend, hs', hsize⟩ := ih hs₁ ht₁
    exact ⟨h', hgoes (hcons hret) hend, hs', hsize.trans hsize₁⟩

theorem dropPage_leaves {v : View} (hR : R.Lawful ops) (hk : ops.Links) (hs : v.Shows b)
    (hl : v.Left b done (h.view (ops.face R) free pending full parked npages))
    (hp : p ∈ b.listed) (hnew : p ∉ done) :
    ∃ h', Returns (ops.dropPageAt p) (h, pending) .fetch (h', pending) () ∧
      v.Left b (done ++ [p]) (h'.view (ops.face R) free pending full parked npages) := by
  have hword : R.word (h.get p) = v.word p := hl.word p hnew
  have hheld : ∀ i, R.held (h.get p) i ↔ (p, i) ∈ b.live := by
    intro i
    rw [← hs.held p (List.mem_append_left _ hp), ← hword]
    rfl
  obtain ⟨hwf, ho⟩ : R.Wf (h.get p) ∧ R.owned (h.get p) := by
    have howned := hs.owned p (List.mem_append_left _ hp)
    rw [← hword] at howned
    exact howned
  obtain ⟨hwf', hsame, hgone, hlast⟩ := hR.givePage hwf ho rfl
  have hfrees : (ops.givePage (h.get p)).2 = b.unused p := by
    rw [Bool.eq_iff_iff, hlast, Book.unused_iff]
    exact forall_congr' fun i => not_congr ((hsame i).trans (hheld i))
  refine ⟨_, dropPage_returns, ?_⟩
  rw [hfrees]
  have hview : (h.set p (ops.givePage (h.get p)).1).view (ops.face R) free pending full parked
      npages = { h.view (ops.face R) free pending full parked npages with
        word := Function.update (fun q => R.word (h.get q)) p
          (R.word (ops.givePage (h.get p)).1) } := Heap.view_set_word (hk.givePage (h.get p))
  have hleft := hl.drop (w := R.word (ops.givePage (h.get p)).1) hnew fun _ => ⟨⟨hwf', hgone⟩, hsame⟩
  cases hu : b.unused p with
  | true =>
    rw [hu, if_pos rfl] at hleft
    rw [if_pos rfl]
    show View.Left v b _ { (h.set p (ops.givePage (h.get p)).1).view (ops.face R) free pending full
      parked npages with freed := .dropPage p :: h.freed }
    rw [hview]
    exact hleft
  | false =>
    rw [hu, if_neg (by simp)] at hleft
    rw [if_neg (by simp), hview]
    exact hleft

end PageOps

end

end MemoryPools
