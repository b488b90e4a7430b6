import MemoryPools.Common

/-!
# What a pool keeps

The three kinds of pools do the same thing with different links: pages are listed, some
of them are on a free list, and blocks of listed pages are in use. A `Book` says which,
and nothing of how the pages are linked. What `find_place`, `drop_block` and
`shrink_to_fit` may do to it keeps it tidy (`Tidy`), and a tidy book without a free
block is the only one that grows.
-/

namespace MemoryPools

abbrev Block : Type := Addr × Nat

structure Book where
  free : List Addr
  pending : List Addr
  listed : List Addr
  -- taken out of the other lists by `shrink_to_fit` and not deallocated yet
  parked : List Addr
  live : List Block

namespace Book

variable {b b' : Book} {p q : Addr} {i n : Nat} {rest : List Addr}

def full (b : Book) (p : Addr) : Bool := (List.range 63).all fun i => (p, i) ∈ b.live

def unused (b : Book) (p : Addr) : Bool := b.live.all fun x => x.1 ≠ p

theorem full_iff : b.full p = true ↔ ∀ i < 63, (p, i) ∈ b.live := by simp [full]

theorem full_eq_false_iff : b.full p = false ↔ ∃ i < 63, (p, i) ∉ b.live := by
  rw [← Bool.not_eq_true, full_iff]
  simp

theorem unused_iff : b.unused p = true ↔ ∀ i, (p, i) ∉ b.live := by
  simp only [unused, List.all_eq_true, decide_eq_true_eq, Prod.forall]
  constructor
  · intro h i hi
    exact h p i hi rfl
  · rintro h q i hi rfl
    exact h i hi

structure Tidy (b : Book) : Prop where
  listed : b.listed.Nodup
  lists : (b.free ++ b.pending).Nodup
  parked : b.parked.Nodup
  sub : ∀ p ∈ b.free ++ b.pending, p ∈ b.listed
  apart : ∀ p ∈ b.parked, p ∉ b.listed
  live : b.live.Nodup
  home : ∀ p i, (p, i) ∈ b.live → p ∈ b.listed ∧ i < 63
  -- a page with a free block can be found
  room : ∀ p ∈ b.listed, b.full p = false → p ∈ b.free ++ b.pending
  pendingRoom : ∀ p ∈ b.pending, b.full p = false

/-! ## Operations -/

def start (pages : List Addr) : Book where
  free := pages
  pending := []
  listed := pages
  parked := []
  live := []

/-- What `find_place` does until the first page of the free list has a free block, and
the number of pages that it makes. -/
inductive Fetch (b : Book) : Nat → Book → Prop
  | found : b.free.dropWhile b.full ≠ [] →
    Fetch b 0 { b with free := b.free.dropWhile b.full }
  | pending {parked : List Addr} : b.free.dropWhile b.full = [] → b.pending ≠ [] →
    parked = b.parked ∨ parked = [] →
    Fetch b 0 { b with free := b.pending, pending := [], parked }
  -- pages that were parked are put back
  | unpark {kept again : List Addr} : b.free.dropWhile b.full = [] → b.pending = [] →
    b.parked = kept ++ again → again.length = min b.parked.length (max b.listed.length 1) →
    again ≠ [] → Fetch b 0 { b with free := again, listed := again ++ b.listed, parked := kept }
  | grow {fresh : List Addr} : b.free.dropWhile b.full = [] → b.pending = [] → b.parked = [] →
    fresh.Nodup → (∀ p ∈ fresh, p ∉ b.listed) → fresh.length = growth b.listed.length →
    Fetch b fresh.length { b with free := fresh, listed := fresh ++ b.listed }

def take (b : Book) (x : Block) : Book := { b with live := x :: b.live }

def give (b : Book) (onFree : Bool) (x : Block) : Book :=
  if x.1 ∈ b.free ++ b.pending then { b with live := b.live.erase x }
  else if onFree then { b with live := b.live.erase x, free := x.1 :: b.free }
  else { b with live := b.live.erase x, pending := x.1 :: b.pending }

def spare (b : Book) : List Addr := b.free.filter b.unused

def shrink (b : Book) (parks : Bool) : Book :=
  { b with
    free := b.free.filter fun p => !b.unused p
    listed := b.listed.filter fun p => p ∉ b.spare
    parked := if parks then b.parked ++ b.spare else b.parked }

@[simp] theorem live_take (x : Block) : (b.take x).live = x :: b.live := rfl

@[simp] theorem live_give (onFree : Bool) (x : Block) :
    (b.give onFree x).live = b.live.erase x := by
  unfold give
  split
  · rfl
  · split <;> rfl

@[simp] theorem listed_give (onFree : Bool) (x : Block) : (b.give onFree x).listed = b.listed := by
  unfold give
  split
  · rfl
  · split <;> rfl

@[simp] theorem parked_give (onFree : Bool) (x : Block) : (b.give onFree x).parked = b.parked := by
  unfold give
  split
  · rfl
  · split <;> rfl

theorem mem_spare : p ∈ b.spare ↔ p ∈ b.free ∧ b.unused p = true := List.mem_filter

theorem Fetch.live (h : Fetch b n b') : b'.live = b.live := by
  cases h <;> rfl

/-- The full pages at the front of the free list do not matter. -/
theorem Fetch.of_dropped (hall : b.free.dropWhile b.full = [])
    (h : Fetch { b with free := b.free.dropWhile b.full } n b') : Fetch b n b' := by
  rw [hall] at h
  cases h with
  | found hne => exact absurd rfl hne
  | pending _ hne hparked => exact .pending hall hne hparked
  | unpark _ hpending heq hlen hne => exact .unpark hall hpending heq hlen hne
  | grow _ hpending hparked hnodup hnew hlen => exact .grow hall hpending hparked hnodup hnew hlen

/-! ## Tidy books stay tidy -/

namespace Tidy

theorem start {pages : List Addr} (h : pages.Nodup) : (start pages).Tidy where
  listed := h
  lists := by simpa [Book.start] using h
  parked := List.nodup_nil
  sub p hp := by simpa [Book.start] using hp
  apart p hp := by cases hp
  live := List.nodup_nil
  home p i hi := by cases hi
  room p hp _ := by simpa [Book.start] using hp
  pendingRoom p hp := by cases hp

theorem free_nodup (h : b.Tidy) : b.free.Nodup := (List.nodup_append.mp h.lists).1

theorem pending_nodup (h : b.Tidy) : b.pending.Nodup := (List.nodup_append.mp h.lists).2.1

theorem free_listed (h : b.Tidy) (hp : p ∈ b.free) : p ∈ b.listed := h.sub p (by simp [hp])

theorem unused_of_unlisted (h : b.Tidy) (hp : p ∉ b.listed) : b.unused p = true := by
  rw [unused_iff]
  intro i hi
  exact hp (h.home p i hi).1

theorem not_full_of_unused (h : b.unused p = true) : b.full p = false := by
  rw [full_eq_false_iff]
  exact ⟨0, by omega, unused_iff.mp h 0⟩

theorem mem_dropWhile {f : Addr → Bool} {l : List Addr} (hp : p ∈ l) (hf : f p = false) :
    p ∈ l.dropWhile f := by
  induction l with
  | nil => cases hp
  | cons q l ih =>
    rw [List.dropWhile_cons]
    by_cases hq : f q = true
    · rw [if_pos hq]
      apply ih
      rcases List.mem_cons.mp hp with rfl | hp
      · rw [hf] at hq
        cases hq
      · exact hp
    · rw [if_neg hq]
      exact hp

theorem dropFull (h : b.Tidy) : { b with free := b.free.dropWhile b.full }.Tidy where
  listed := h.listed
  lists := ((List.dropWhile_sublist _).append (List.Sublist.refl _)).nodup h.lists
  parked := h.parked
  sub p hp := by
    apply h.sub p
    rcases List.mem_append.mp hp with hp | hp
    · exact List.mem_append_left _ ((List.dropWhile_sublist _).subset hp)
    · exact List.mem_append_right _ hp
  apart := h.apart
  live := h.live
  home := h.home
  room p hp hfull := by
    rcases List.mem_append.mp (h.room p hp hfull) with hp | hp
    · exact List.mem_append_left _ (mem_dropWhile hp hfull)
    · exact List.mem_append_right _ hp
  pendingRoom := h.pendingRoom

theorem pop (h : b.Tidy) (hfree : b.free = p :: rest) (hfull : b.full p = true) :
    { b with free := rest }.Tidy where
  listed := h.listed
  lists := by
    have hlists := h.lists
    rw [hfree, List.cons_append, List.nodup_cons] at hlists
    exact hlists.2
  parked := h.parked
  sub q hq := by
    apply h.sub q
    rw [hfree]
    exact List.mem_cons_of_mem _ hq
  apart := h.apart
  live := h.live
  home := h.home
  room q hq hroom := by
    have hon := h.room q hq hroom
    rw [hfree, List.cons_append, List.mem_cons] at hon
    rcases hon with rfl | hon
    · have hroom : b.full q = false := hroom
      rw [hfull] at hroom
      cases hroom
    · exact hon
  pendingRoom := h.pendingRoom

/-- Where the free list has no free block, the pending list has all pages with one. -/
theorem pending_of_full (h : b.Tidy) (hall : b.free.dropWhile b.full = []) (hp : p ∈ b.listed)
    (hfull : b.full p = false) : p ∈ b.pending := by
  rcases List.mem_append.mp (h.dropFull.room p hp hfull) with hp | hp
  · rw [show b.free.dropWhile b.full = [] from hall] at hp
    cases hp
  · exact hp

theorem refill (h : b.Tidy) (hall : b.free.dropWhile b.full = []) {parked : List Addr}
    (hparked : parked = b.parked ∨ parked = []) :
    { b with free := b.pending, pending := [], parked }.Tidy where
  listed := h.listed
  lists := by simpa using h.pending_nodup
  parked := by
    rcases hparked with rfl | rfl
    · exact h.parked
    · exact List.nodup_nil
  sub p hp := by
    rw [List.append_nil] at hp
    exact h.sub p (List.mem_append_right _ hp)
  apart p hp := by
    rcases hparked with rfl | rfl
    · exact h.apart p hp
    · cases hp
  live := h.live
  home := h.home
  room p hp hfull := by
    rw [List.append_nil]
    exact h.pending_of_full hall hp hfull
  pendingRoom p hp := by cases hp

/-- Pages without a block in use join the listed ones, all of which are full. -/
theorem join (h : b.Tidy) (hall : b.free.dropWhile b.full = []) (hpending : b.pending = [])
    {fresh kept : List Addr} (hnodup : fresh.Nodup) (hnew : ∀ p ∈ fresh, p ∉ b.listed)
    (hkept : kept.Nodup) (hapart : ∀ p ∈ kept, p ∉ fresh ++ b.listed) :
    { b with free := fresh, listed := fresh ++ b.listed, parked := kept }.Tidy where
  listed := by
    apply List.nodup_append.mpr
    refine ⟨hnodup, h.listed, ?_⟩
    rintro p hp q hq rfl
    exact hnew p hp hq
  lists := by simpa [hpending] using hnodup
  parked := hkept
  sub p hp := by
    rw [show b.pending = [] from hpending, List.append_nil] at hp
    exact List.mem_append_left _ hp
  apart := hapart
  live := h.live
  home p i hi := ⟨List.mem_append_right _ (h.home p i hi).1, (h.home p i hi).2⟩
  room p hp hfull := by
    rcases List.mem_append.mp hp with hp | hp
    · exact List.mem_append_left _ hp
    · exact List.mem_append_right _ (h.pending_of_full hall hp hfull)
  pendingRoom := h.pendingRoom

theorem park (h : b.Tidy) {l : List Addr} (hl : l.Nodup) (hsub : ∀ p ∈ l, p ∈ b.parked) :
    { b with parked := l }.Tidy where
  listed := h.listed
  lists := h.lists
  parked := hl
  sub := h.sub
  apart p hp := h.apart p (hsub p hp)
  live := h.live
  home := h.home
  room := h.room
  pendingRoom := h.pendingRoom

theorem fetch (h : b.Tidy) (hf : Fetch b n b') : b'.Tidy := by
  cases hf with
  | found => exact h.dropFull
  | pending hall hne hparked => exact h.refill hall hparked
  | @unpark kept again hall hpending heq hlen hne =>
    have hparked := h.parked
    rw [heq] at hparked
    have hsplit := List.nodup_append.mp hparked
    refine h.join hall hpending hsplit.2.1 (fun p hp => ?_) hsplit.1 fun p hp hmem => ?_
    · apply h.apart p
      rw [heq]
      exact List.mem_append_right _ hp
    · rcases List.mem_append.mp hmem with hmem | hmem
      · exact hsplit.2.2 p hp p hmem rfl
      · refine h.apart p ?_ hmem
        rw [heq]
        exact List.mem_append_left _ hp
  | grow hall hpending hparked hnodup hnew =>
    apply h.join hall hpending hnodup hnew h.parked
    intro p hp
    rw [hparked] at hp
    cases hp

theorem fetched (h : b.Tidy) (hf : Fetch b n b') :
    ∃ p rest, b'.free = p :: rest ∧ b'.full p = false := by
  have hhead : ∀ l : List Addr, l ≠ [] → (∀ p ∈ l, b.full p = false) →
      ∃ p rest, l = p :: rest ∧ b.full p = false := by
    intro l hl hroom
    cases l with
    | nil => exact absurd rfl hl
    | cons p rest => exact ⟨p, rest, rfl, hroom p (by simp)⟩
  cases hf with
  | found hne =>
    cases hd : b.free.dropWhile b.full with
    | nil => exact absurd hd hne
    | cons p rest =>
      have hhd := List.head?_dropWhile_not b.full b.free
      rw [hd] at hhd
      have hroom : b.full p = false := by simpa using hhd
      exact ⟨p, rest, rfl, hroom⟩
  | pending hall hne => exact hhead _ hne h.pendingRoom
  | unpark hall hpending heq hlen hne =>
    apply hhead _ hne
    intro p hp
    apply not_full_of_unused
    apply h.unused_of_unlisted
    apply h.apart p
    rw [heq]
    exact List.mem_append_right _ hp
  | grow hall hpending hparked hnodup hnew hlen =>
    apply hhead
    · apply List.ne_nil_of_length_pos
      rw [hlen]
      exact growth_pos _
    · intro p hp
      exact not_full_of_unused (h.unused_of_unlisted (hnew p hp))

theorem take (h : b.Tidy) (hfree : b.free = p :: rest) (hi : i < 63) (hnew : (p, i) ∉ b.live) :
    (b.take (p, i)).Tidy where
  listed := h.listed
  lists := h.lists
  parked := h.parked
  sub := h.sub
  apart := h.apart
  live := List.nodup_cons.mpr ⟨hnew, h.live⟩
  home q j hj := by
    rcases List.mem_cons.mp hj with e | hj
    · obtain ⟨rfl, rfl⟩ := Prod.mk.inj e
      exact ⟨h.free_listed (by simp [hfree]), hi⟩
    · exact h.home q j hj
  room q hq hfull := by
    obtain ⟨j, hj, hnot⟩ := full_eq_false_iff.mp hfull
    apply h.room q hq
    rw [full_eq_false_iff]
    exact ⟨j, hj, fun hm => hnot (List.mem_cons_of_mem _ hm)⟩
  pendingRoom q hq := by
    obtain ⟨j, hj, hnot⟩ := full_eq_false_iff.mp (h.pendingRoom q hq)
    have hne : q ≠ p := by
      rintro rfl
      exact (List.nodup_append.mp h.lists).2.2 q (by simp [hfree]) q hq rfl
    rw [full_eq_false_iff]
    refine ⟨j, hj, fun hm => ?_⟩
    rcases List.mem_cons.mp hm with e | hm
    · exact hne (Prod.mk.inj e).1
    · exact hnot hm

theorem length_spare_le (h : b.Tidy) : b.spare.length ≤ b.listed.length :=
  (List.subperm_of_subset (h.free_nodup.filter _) fun _ hq =>
    h.free_listed (mem_spare.mp hq).1).length_le

theorem not_mem_erase (h : b.Tidy) {x : Block} : x ∉ b.live.erase x := h.live.not_mem_erase

theorem give (h : b.Tidy) (onFree : Bool) (hx : (p, i) ∈ b.live) : (b.give onFree (p, i)).Tidy := by
  have hhome := h.home p i hx
  have hroomp : ∀ l, (Book.full { b with live := b.live.erase (p, i), free := l } p) = false := by
    intro l
    rw [full_eq_false_iff]
    exact ⟨i, hhome.2, h.not_mem_erase⟩
  have hmono : ∀ q, b.full q = false → ∃ j < 63, (q, j) ∉ b.live.erase (p, i) := by
    intro q hq
    obtain ⟨j, hj, hnot⟩ := full_eq_false_iff.mp hq
    exact ⟨j, hj, fun hm => hnot (List.mem_of_mem_erase hm)⟩
  have hother : ∀ q, q ≠ p → (∃ j < 63, (q, j) ∉ b.live.erase (p, i)) → b.full q = false := by
    intro q hq hroom
    obtain ⟨j, hj, hnot⟩ := hroom
    rw [full_eq_false_iff]
    refine ⟨j, hj, fun hm => hnot ?_⟩
    exact (List.mem_erase_of_ne fun e => hq (Prod.mk.inj e).1).mpr hm
  have hhome' : ∀ q j, (q, j) ∈ b.live.erase (p, i) → q ∈ b.listed ∧ j < 63 :=
    fun q j hj => h.home q j (List.mem_of_mem_erase hj)
  unfold Book.give
  by_cases hon : p ∈ b.free ++ b.pending
  · rw [if_pos hon]
    refine ⟨h.listed, h.lists, h.parked, h.sub, h.apart, h.live.erase _, hhome', ?_, ?_⟩
    · intro q hq hfull
      by_cases e : q = p
      · rw [e]
        exact hon
      · exact h.room q hq (hother q e (full_eq_false_iff.mp hfull))
    · intro q hq
      exact full_eq_false_iff.mpr (hmono q (h.pendingRoom q hq))
  · rw [if_neg hon]
    have hroom : ∀ q ∈ b.listed, (∃ j < 63, (q, j) ∉ b.live.erase (p, i)) →
        q = p ∨ q ∈ b.free ++ b.pending := by
      intro q hq hfull
      by_cases e : q = p
      · exact Or.inl e
      · exact Or.inr (h.room q hq (hother q e hfull))
    cases onFree with
    | true =>
      refine ⟨h.listed, List.nodup_cons.mpr ⟨hon, h.lists⟩, h.parked, ?_, h.apart,
        h.live.erase _, hhome', ?_, ?_⟩
      · intro q hq
        rcases List.mem_cons.mp hq with rfl | hq
        · exact hhome.1
        · exact h.sub q hq
      · intro q hq hfull
        rcases hroom q hq (full_eq_false_iff.mp hfull) with rfl | hq
        · exact List.mem_cons_self
        · exact List.mem_cons_of_mem _ hq
      · intro q hq
        exact full_eq_false_iff.mpr (hmono q (h.pendingRoom q hq))
    | false =>
      refine ⟨h.listed, List.nodup_middle.mpr (List.nodup_cons.mpr ⟨hon, h.lists⟩), h.parked, ?_,
        h.apart, h.live.erase _, hhome', ?_, ?_⟩
      · intro q hq
        rcases List.mem_cons.mp (List.perm_middle.mem_iff.mp hq) with rfl | hq
        · exact hhome.1
        · exact h.sub q hq
      · intro q hq hfull
        apply List.perm_middle.mem_iff.mpr
        rcases hroom q hq (full_eq_false_iff.mp hfull) with rfl | hq
        · exact List.mem_cons_self
        · exact List.mem_cons_of_mem _ hq
      · intro q hq
        rcases List.mem_cons.mp hq with rfl | hq
        · exact hroomp b.free
        · exact full_eq_false_iff.mpr (hmono q (h.pendingRoom q hq))

theorem shrink (h : b.Tidy) (parks : Bool) : (b.shrink parks).Tidy where
  listed := h.listed.filter _
  lists := (List.filter_sublist.append (List.Sublist.refl _)).nodup h.lists
  parked := by
    cases parks with
    | false => exact h.parked
    | true =>
      apply List.nodup_append.mpr
      refine ⟨h.parked, h.free_nodup.filter _, ?_⟩
      rintro p hp q hq rfl
      exact h.apart p hp (h.free_listed (mem_spare.mp hq).1)
  sub p hp := by
    rw [show (b.shrink parks).listed = b.listed.filter fun p => p ∉ b.spare from rfl,
      List.mem_filter, decide_eq_true_eq, mem_spare]
    rcases List.mem_append.mp hp with hp | hp
    · obtain ⟨hp, hused⟩ := List.mem_filter.mp hp
      exact ⟨h.free_listed hp, fun hs => by simp [hs.2] at hused⟩
    · refine ⟨h.sub p (List.mem_append_right _ hp), fun hs => ?_⟩
      exact (List.nodup_append.mp h.lists).2.2 p hs.1 p hp rfl
  apart p hp hlisted := by
    obtain ⟨hlisted, hnot⟩ := List.mem_filter.mp hlisted
    have hp : p ∈ b.parked ∨ p ∈ b.spare := by
      cases parks with
      | false => exact Or.inl hp
      | true => exact List.mem_append.mp hp
    rcases hp with hp | hp
    · exact h.apart p hp hlisted
    · exact of_decide_eq_true hnot hp
  live := h.live
  home p i hi := by
    obtain ⟨hp, hlt⟩ := h.home p i hi
    refine ⟨List.mem_filter.mpr ⟨hp, ?_⟩, hlt⟩
    rw [decide_eq_true_eq, mem_spare]
    exact fun hs => unused_iff.mp hs.2 i hi
  room p hp hfull := by
    obtain ⟨hp, hnot⟩ := List.mem_filter.mp hp
    rw [decide_eq_true_eq, mem_spare] at hnot
    rcases List.mem_append.mp (h.room p hp hfull) with hfree | hpending
    · apply List.mem_append_left
      rw [show (b.shrink parks).free = b.free.filter fun p => !b.unused p from rfl,
        List.mem_filter]
      refine ⟨hfree, ?_⟩
      simpa using fun hs => hnot ⟨hfree, hs⟩
    · exact List.mem_append_right _ hpending
  pendingRoom := h.pendingRoom

end Tidy

end Book

end MemoryPools
