import MemoryPools.SessionSound

/-!
# Where the pages are

In every state of a session the lists of the pool have what they should have: each page
of a `SharedArena` is in one place, and those of a `Pool` with a free block can be found.
After the pool and its handles were dropped no page is left.
-/

namespace MemoryPools

open Interleave

variable {V : Type}

theorem Kind.Sound.deallocated {σ : Type} {K : Kind σ} {s : Session σ V} {b : Book}
    (h : K.Sound s b) (ha : s.alive = false) (hh : s.handles = []) {p : Addr}
    (hp : p < (K.view s.arena).size) : ((K.view s.arena).freed.map Freed.page).count p = 1 := by
  have hleft := h.gone ha
  have hnone : ¬ ∃ i, (p, i) ∈ b.live := by
    rintro ⟨i, hi⟩
    have hm := (h.live (p, i)).mp hi
    rw [Session.blocks, hh] at hm
    cases hm
  have hmem : p ∈ (K.view s.arena).freed.map Freed.page := by
    by_contra hnot
    exact hnone ((hleft.kept p).mpr ⟨hp, hnot⟩)
  exact List.count_eq_one_of_mem hleft.once hmem

/-! ## The pages of a shared arena -/

namespace SharedArena

variable {cap : Nat} {s : Session SharedArena V} {b : Book}

theorem unused_parked (h : kind.Alive s.arena b) {p : Addr} (hp : p ∈ b.parked) :
    s.arena.unused p = true := by
  have hmem : p ∈ b.listed ++ b.parked := List.mem_append_right _ hp
  have ho : PageSharedArena.refs.owned (s.arena.page p) := (h.shows.owned p hmem).2
  show decide _ = true
  rw [decide_eq_true_eq, PageSharedArena.ones_iff ho]
  intro i hi
  have hlive : (p, i) ∈ b.live := (h.shows.held p hmem i).mp hi
  exact h.tidy.apart p hp (h.tidy.home p i hlive).1

/-- While the arena exists, its pages are those of `full_list` and of `to_free`, each of
them in one place and none of them deallocated; `free` and `pending` are parts of
`full_list`. After the arena and all handles every page was deallocated once. -/
theorem pages_partitioned (h : (sessionMachine kind cap V).Reach Machine.always s) :
    (s.alive = true → ∃ full free pending : List Addr,
      Linked s.arena.next s.arena.fullList full ∧ full.Nodup ∧ full.length = s.arena.npages ∧
      Linked s.arena.nextFree s.arena.freeList free ∧
      Linked s.arena.nextFree s.arena.pendingFreeList pending ∧ (free ++ pending).Nodup ∧
      (∀ p ∈ free ++ pending, p ∈ full) ∧
      (s.arena.toFree = none ∨ ∃ parked, s.arena.toFree = some parked ∧ parked ≠ [] ∧
        parked.Nodup ∧ ∀ p ∈ parked, s.arena.unused p = true ∧ p ∉ full ∧ p ∉ free ∧ p ∉ pending) ∧
      (∀ p, p ∈ full ++ s.arena.toFree.getD [] ↔
        p < s.arena.heap.size ∧ p ∉ s.arena.heap.freed.map Freed.page) ∧
      (s.arena.heap.freed.map Freed.page).Nodup) ∧
    (s.alive = false → s.handles = [] →
      ∀ p < s.arena.heap.size, (s.arena.heap.freed.map Freed.page).count p = 1) := by
  obtain ⟨b, hs⟩ := Kind.Sound.of_reach kind_lawful h
  refine ⟨fun ha => ?_, fun ha hh p hp => hs.deallocated ha hh hp⟩
  have hk := hs.alive ha
  have hapart := hk.tidy.apart
  refine ⟨b.listed, b.free, b.pending, hk.shows.full, hk.tidy.listed, hk.shows.npages.symm,
    hk.shows.free, hk.shows.pending, hk.tidy.lists, hk.tidy.sub, ?_, ?_, hk.shows.once⟩
  · by_cases hnil : b.parked = []
    · left
      rw [toFree_eq hk, if_pos hnil]
    · right
      refine ⟨b.parked, ?_, hnil, hk.tidy.parked,
        fun p hp => ⟨unused_parked hk hp, hapart p hp, ?_, ?_⟩⟩
      · rw [toFree_eq hk, if_neg hnil]
      · exact fun hf => hapart p hp (hk.tidy.free_listed hf)
      · exact fun hq => hapart p hp (hk.tidy.sub p (List.mem_append_right _ hq))
  · rw [parked_eq hk]
    exact hk.shows.kept

/-- A page is parked by `shrink_to_fit`, and another one outlives the arena. -/
theorem pages_partitioned_outlived : ∃ s : Session SharedArena Nat, s.arena.heap.size = 2 ∧
    ∀ p < 2, (s.arena.heap.freed.map Freed.page).count p = 1 := by
  have hrun : ((sessionMachine kind 64 Nat).run (.start kind 64)
      [(9, .alloc .alloc 5), (99, .shrink), (99, .release), (9, .drop 0)]).any (fun s =>
        s.arena.heap.size = 2 ∧ s.alive = false ∧ s.handles.isEmpty) = true := by decide +kernel
  have hinit : (sessionMachine kind 64 Nat).init (.start kind 64) := ⟨rfl, by decide +kernel⟩
  obtain ⟨s, h, hend⟩ := Machine.Trace.exists_of_run (f := Prod.snd) hinit hrun
  obtain ⟨hsize, ha, hh⟩ := of_decide_eq_true hend
  have hall := (pages_partitioned h.reach).2 ha (List.isEmpty_iff.mp hh)
  rw [hsize] at hall
  exact ⟨s, hsize, hall⟩

end SharedArena

/-! ## The lists of a pool -/

namespace Pool

variable {cap : Nat} {s s' : Session Pool V} {b b' : Book} {a : Pool} {p : Addr} {i : Nat}
  {act : SessionAct V}

/-- Where the free list does not exist any more, `drop_block` links no page. -/
theorem dropBlock_gone (a : Pool) (p : Addr) (i : Nat) :
    (a.dropBlock p i false).free = a.free ∧ (a.dropBlock p i false).pageList = a.pageList ∧
      (a.dropBlock p i false).nextFree = a.nextFree ∧ (a.dropBlock p i false).next = a.next := by
  obtain ⟨x, last, hdrop, hfree, hnext⟩ : ∃ x last,
      PagePool.dropBlock p i false (a.page p) a.free = (x, a.free, last) ∧
        x.nextFree = (a.page p).nextFree ∧ x.next = (a.page p).next := by
    simp only [PagePool.dropBlock, Bool.false_eq_true, ite_false]
    split
    · exact ⟨_, _, rfl, rfl, rfl⟩
    · split <;> exact ⟨_, _, rfl, rfl, rfl⟩
  have hget : ∀ q, (a.dropBlock p i false).page q = if q = p then x else a.page q := by
    intro q
    unfold dropBlock
    rw [hdrop]
    show (if last then (a.heap.set p x).free (.dropBlock p) else a.heap.set p x).get q = _
    cases last <;> exact Heap.get_set _ _ _ _
  refine ⟨?_, rfl, funext fun q => ?_, funext fun q => ?_⟩
  · unfold dropBlock
    rw [hdrop]
  · unfold nextFree
    rw [hget q]
    by_cases e : q = p
    · rw [if_pos e, hfree, e]
    · rw [if_neg e]
  · unfold next
    rw [hget q]
    by_cases e : q = p
    · rw [if_pos e, hnext, e]
    · rw [if_neg e]

theorem moves_gone (hm : kind.Moves s b act s' b') (ha : s.alive = false) :
    s'.arena.free = s.arena.free ∧ s'.arena.pageList = s.arena.pageList ∧
      s'.arena.nextFree = s.arena.nextFree ∧ s'.arena.next = s.arena.next := by
  cases hm with
  | clone | write | dropHandle => exact ⟨rfl, rfl, rfl, rfl⟩
  | @dropLast k handle block arena hh hlast _ hl hcall hsize =>
    obtain ⟨n, hn⟩ := hcall.enough
    have harena : s.arena.dropBlock block.1 block.2 false = arena :=
      congrArg Prod.fst (hn n (Nat.le_refl n))
    rw [← harena]
    exact dropBlock_gone s.arena block.1 block.2
  | alloc ha' | dropBlock _ _ ha' | shrink ha' | release ha' =>
    rw [ha] at ha'
    cases ha'

theorem room_free (h : kind.Alive a b) (hp : p ∈ b.listed) (hi : i < 63)
    (hone : (a.page p).bitfield.getLsbD i = true) : p ∈ b.free := by
  have hroom : b.full p = false := by
    rw [Book.full_eq_false_iff]
    refine ⟨i, hi, fun hlive => ?_⟩
    have hclear := ((held_iff h hp).mpr hlive).2
    rw [hone] at hclear
    cases hclear
  have hon := h.tidy.room p hp hroom
  rwa [pending_nil h, List.append_nil] at hon

/-- While the pool exists, the pages are those of `page_list`, and the free list has those
with a free block, with their flags set; `stats` returns. After that, dropping a handle
writes no link and no head of a list. -/
theorem lists_wellFormed (h : (sessionMachine kind cap V).Reach Machine.always s) :
    (s.alive = true → ∃ pages free : List Addr,
      Linked s.arena.next s.arena.pageList pages ∧ pages.Nodup ∧ pages.length = s.arena.npages ∧
      Linked s.arena.nextFree s.arena.free free ∧ free.Nodup ∧ (∀ p ∈ free, p ∈ pages) ∧
      (∀ p ∈ pages, ((s.arena.page p).inFreeList = true ↔ p ∈ free) ∧
        ((∃ i < 63, (s.arena.page p).bitfield.getLsbD i = true) → p ∈ free) ∧
        (s.arena.page p).bitfield.getLsbD 63 = true) ∧
      ∃ r, Completes kind.stats s.arena s.arena r) ∧
    (s.alive = false → ∀ label s', s.step kind label = some s' →
      s'.arena.free = s.arena.free ∧ s'.arena.pageList = s.arena.pageList ∧
        s'.arena.nextFree = s.arena.nextFree ∧ s'.arena.next = s.arena.next) := by
  obtain ⟨b, hs⟩ := Kind.Sound.of_reach kind_lawful h
  refine ⟨fun ha => ?_, fun ha label s' he => ?_⟩
  · have hk := hs.alive ha
    have hpending := pending_nil hk
    refine ⟨b.listed, b.free, hk.shows.full, hk.tidy.listed, hk.shows.npages.symm, hk.shows.free,
      hk.tidy.free_nodup, fun p hp => hk.tidy.free_listed hp, fun p hp => ⟨?_, ?_, owned hk hp⟩,
      _, kind_lawful.stats hk⟩
    · have hflag : (s.arena.page p).inFreeList = true ↔ p ∈ b.free ++ b.pending :=
        hk.shows.flag p hp
      rwa [hpending, List.append_nil] at hflag
    · rintro ⟨i, hi, hone⟩
      exact room_free hk hp hi hone
  · obtain ⟨b', hm, -⟩ := hs.step kind_lawful he
    exact moves_gone hm ha

/-- A handle outlives the pool. -/
theorem lists_wellFormed_outlived : ∃ s s' : Session Pool Nat, s.alive = false ∧
    s.step kind (9, .drop 0) = some s' ∧ s'.arena.free = s.arena.free := by
  have hrun : ((sessionMachine kind 1 Nat).run (.start kind 1)
      [(9, .alloc .alloc 5), (9, .alloc .allocRc 6), (99, .release)]).any (fun s =>
        s.alive = false ∧ (s.step kind (9, .drop 0)).isSome) = true := by decide +kernel
  have hinit : (sessionMachine kind 1 Nat).init (.start kind 1) := ⟨rfl, by decide +kernel⟩
  obtain ⟨s, h, hend⟩ := Machine.Trace.exists_of_run (f := Prod.snd) hinit hrun
  obtain ⟨ha, hstep⟩ := of_decide_eq_true hend
  obtain ⟨s', hs'⟩ := Option.isSome_iff_exists.mp hstep
  exact ⟨s, s', ha, hs', ((lists_wellFormed h.reach).2 ha (9, .drop 0) s' hs').1⟩

end Pool

end MemoryPools
