import MemoryPools.ArenaLists

/-!
# Runs of an arena

The shape of the two lists under concurrent drops (`lists_shape`), and what
`shrink_to_fit` and the drop of the arena may assume about the drops that are still
in progress on a page that they deallocate (`page_untouched_after_reclaim`).
-/

namespace MemoryPools

open Interleave

namespace Arena

/-! ## The free lists -/

/-- As long as the arena exists: the free list and the pending list are finite and
disjoint and their pages are flagged; a page between the successful `swap` of its
flag and the successful `compare_exchange` is on neither, and one thread is there. -/
theorem lists_shape {s : ArenaState} (h : machine.Reach Machine.always s)
    (he : s.owner.ends = false) :
    ListShape s.arena.nextFree s.arena.inFreeList s.arena.freeList s.arena.pendingFreeList ∧
    ∀ t p i pc, s.threads.get t = .drop p i (.push pc) → pc.inTransit = true →
      ¬ OnChain s.arena.nextFree s.arena.freeList p ∧
      ¬ OnChain s.arena.nextFree s.arena.pendingFreeList p ∧
      ∀ u j pc', s.threads.get u = .drop p j (.push pc') → pc'.inTransit = true → u = t := by
  obtain ⟨place, carried, listed, hl⟩ := (ArenaInv.of_reach h).lists he
  have hheld : ∀ t p i pc, s.threads.get t = .drop p i (.push pc) → pc.inTransit = true →
      place p = .held (some t) := by
    intro t p i pc ht hpc
    have hst := hl.stands t
    rw [ht] at hst
    have hcargo := hst.cargo
    simp only [DropPc.cargo, PushPc.cargo, hpc, ite_true] at hcargo
    exact Carries.single hcargo
  refine ⟨listShape_of_circulates hl.circulates, fun t p i pc ht hpc => ?_⟩
  have hp := hheld t p i pc ht hpc
  refine ⟨(hl.circulates.held_offChain hp).1, (hl.circulates.held_offChain hp).2,
    fun u j pc' hu hpc' => ?_⟩
  have hp' := hheld u p j pc' hu hpc'
  rw [hp] at hp'
  simpa using hp'.symm

def takePage : List ArenaAct := (List.replicate 63 [.alloc, .stepOwner, .stepOwner]).flatten

/-- The page is full, the next allocation takes it off the free list, and a drop raises its flag
again. -/
def fullPageDrop : List ArenaAct :=
  takePage ++ .alloc :: List.replicate 5 .stepOwner ++ .drop 0 0 7 :: List.replicate 3
    (.step 0 true)

theorem lists_shape_fullPageDrop : ∃ s : ArenaState, s.threads.get 0 = .drop 0 7 (.push .upgrade) ∧
    ¬ OnChain s.arena.nextFree s.arena.freeList 0 := by
  have hstart : machine.init (.start 63) := ⟨63, rfl⟩
  obtain ⟨s, hs, hp⟩ := Machine.Reach.exists_of_runIf hstart (fun _ _ => true) fullPageDrop
    (fun s => s.owner.ends = false ∧ s.threads.get 0 = .drop 0 7 (.push .upgrade))
      (fun _ _ _ => trivial)
    (by decide +kernel)
  obtain ⟨he, ht⟩ := of_decide_eq_true hp
  exact ⟨s, ht, ((lists_shape hs he).2 0 0 7 _ ht rfl).1⟩

end Arena

/-! ## Drops against the release of a page -/

namespace ArenaCall

def frees : ArenaCall → Option Addr
  | .shrink (.dropPage _ _ p _ .deallocate) => some p
  | .release (.dropPage p _ .deallocate) => some p
  | _ => none

def Rest (a : Arena) : ArenaCall → Prop
  | .release .loadFull =>
      ∃ l, Linked a.next a.fullList l ∧ ∀ q ∈ l, (a.words q).2.getLsbD 63 = false
  | .release (.loadNext p) =>
      ∃ l, Linked a.next (some p) l ∧ ∀ q ∈ l, (a.words q).2.getLsbD 63 = false
  | .release (.dropPage p next pc) =>
    ∃ l, Linked a.next next l ∧ p ∉ l ∧ (∀ q ∈ l, (a.words q).2.getLsbD 63 = false) ∧
      (pc = .fetch → (a.words p).2.getLsbD 63 = false)
  | _ => True

end ArenaCall

namespace ArenaCall

theorem Rest.congr {a a' : Arena} {owner : ArenaCall} (h : owner.Rest a)
    (hfull : a'.fullList = a.fullList) (hnext : a'.next = a.next)
    (h63 : ∀ q, (a'.words q).2.getLsbD 63 = (a.words q).2.getLsbD 63) : owner.Rest a' := by
  cases owner with
  | idle | alloc | shrink | released | panicked => trivial
  | release pc =>
    cases pc with
    | loadFull =>
      obtain ⟨l, hl, hp⟩ := h
      exact ⟨l, by rw [hnext, hfull]; exact hl, fun q hq => by rw [h63]; exact hp q hq⟩
    | loadNext p =>
      obtain ⟨l, hl, hp⟩ := h
      exact ⟨l, by rw [hnext]; exact hl, fun q hq => by rw [h63]; exact hp q hq⟩
    | dropPage p next pc =>
      obtain ⟨l, hl, hnot, hp, hpc⟩ := h
      exact ⟨l, by rw [hnext]; exact hl, hnot, fun q hq => by rw [h63]; exact hp q hq,
        fun e => by rw [h63]; exact hpc e⟩

end ArenaCall

namespace ArenaState

/-- No `drop_block` on page `p` is between its `fetch_add` and its return. -/
def noPush (s : ArenaState) (p : Addr) : Bool := s.threads.all fun t => match t with
  | .drop q _ (.push _) => q ≠ p
  | _ => true

theorem noPush_iff {s : ArenaState} {p : Addr} :
    s.noPush p = true ↔ ∀ t i pc, s.threads.get t ≠ .drop p i (.push pc) := by
  unfold noPush
  rw [Store.all_iff]
  constructor
  · intro h t i pc ht
    have := h t
    rw [ht] at this
    simp at this
  · intro h t
    split
    · rename_i q i pc ht
      simp only [decide_eq_true_eq]
      intro e
      subst e
      exact h t i pc ht
    · rfl

end ArenaState

/-- `deallocate_page` waits for the drops that are still using the page. -/
def quietReclaim (s : ArenaState) (a : ArenaAct) : Prop :=
  a = .stepOwner → ∀ p ∈ s.owner.frees, s.noPush p = true

instance (s : ArenaState) (a : ArenaAct) : Decidable (quietReclaim s a) :=
  inferInstanceAs (Decidable (_ → ∀ p ∈ s.owner.frees, _))

structure ReclaimInv (s : ArenaState) : Prop where
  -- a drop deallocates a page only if the owner gave it up and does not deallocate it
  last : ∀ t p i, s.threads.get t = .drop p i .deallocate →
    (s.arena.words p).2.getLsbD 63 = true ∧ s.owner.frees ≠ some p ∧
      .dropPage p ∉ s.arena.heap.freed
  spent : ∀ p, s.owner.frees = some p ∨ .dropPage p ∈ s.arena.heap.freed → ∀ i, ¬ s.Live p i
  quiet : ∀ p, .dropPage p ∈ s.arena.heap.freed → ∀ t i pc, s.threads.get t ≠ .drop p i (.push pc)
  rest : s.owner.Rest s.arena

namespace ReclaimInv

variable {s s' : ArenaState} {arena : Arena} {owner : ArenaCall} {handles : List (Addr × Nat)}

theorem ownerStep (h : ReclaimInv s)
    (h63 : ∀ t p i, s.threads.get t = .drop p i .deallocate → (arena.words p).2.getLsbD 63 = true)
    (hfrees : ∀ p, owner.frees = some p → (∀ t i, s.threads.get t ≠ .drop p i .deallocate) ∧
      ∀ i, ¬ s.Live p i)
    (hfreed : ∀ p, .dropPage p ∈ arena.heap.freed → .dropPage p ∈ s.arena.heap.freed ∨
      s.owner.frees = some p ∧ s.noPush p = true)
    (hlive : ∀ p i, Owned handles (handOf s.threads) (p, i) → s.Live p i ∨ owner.frees ≠ some p ∧
      .dropPage p ∉ arena.heap.freed)
    (hrest : owner.Rest arena) : ReclaimInv { s with arena, owner, handles } := by
  refine ⟨fun t p i ht => ⟨h63 t p i ht, fun hf => (hfrees p hf).1 t i ht, fun hf => ?_⟩,
    fun p hp i hl => ?_, fun p hp => ?_,
    hrest⟩
  · obtain ⟨-, h1, h2⟩ := h.last t p i ht
    rcases hfreed p hf with hf | hf
    · exact h2 hf
    · exact h1 hf.1
  · rcases hlive p i hl with hl | ⟨h1, h2⟩
    · rcases hp with hp | hp
      · exact (hfrees p hp).2 i hl
      · rcases hfreed p hp with hf | hf
        · exact h.spent p (Or.inr hf) i hl
        · exact h.spent p (Or.inl hf.1) i hl
    · rcases hp with hp | hp
      · exact h1 hp
      · exact h2 hp
  · rcases hfreed p hp with hf | hf
    · exact h.quiet p hf
    · exact ArenaState.noPush_iff.mp hf.2

theorem ownerQuiet (h : ReclaimInv s)
    (h63 : ∀ t p i, s.threads.get t = .drop p i .deallocate → (arena.words p).2.getLsbD 63 = true)
    (hfreed : arena.heap.freed = s.arena.heap.freed) (hf : owner.frees = none)
    (hrest : owner.Rest arena) :
    ReclaimInv { s with arena, owner } := by
  refine h.ownerStep h63 (fun p hp => ?_) (fun p hp => Or.inl (by rwa [hfreed] at hp))
    (fun p i hl => Or.inl hl) hrest
  rw [hf] at hp; cases hp

theorem fetch (h : ReclaimInv s) (hb : BlocksInv s) {p : Addr}
    (hp : (s.arena.words p).2.getLsbD 63 = false) {control : Control DropPagePc Unit}
    (hs : s.arena.dropPage p .fetch = (arena, control))
    (hf : ∀ q, owner.frees = some q → q = p ∧ control = .goto .deallocate)
    (hrest : owner.Rest arena) :
    ReclaimInv { s with arena, owner } := by
  have hw := fun q => Arena.words_dropPage (q := q) hs
  have hnone : ∀ t i, s.threads.get t ≠ .drop p i .deallocate := by
    intro t i ht
    have := (h.last t p i ht).1
    rw [hp] at this; cases this
  have hfreed : arena.heap.freed = s.arena.heap.freed := by
    obtain ⟨rfl, -⟩ := Prod.mk.inj hs
    rfl
  refine h.ownerStep (fun t q i ht => ?_) (fun q hq => ?_)
    (fun q hq => Or.inl (by rwa [hfreed] at hq))
    (fun q i hl => Or.inl hl) hrest
  · have hne : q ≠ p := fun e => hnone t i (e ▸ ht)
    rw [hw, if_neg fun e => hne e.2]
    exact (h.last t q i ht).1
  · obtain ⟨rfl, hc⟩ := hf q hq
    refine ⟨hnone, fun i hl => ?_⟩
    -- the word is full, and a live block would have its bit in neither part
    have hones : (s.arena.page q).bitfieldAtomic ||| (s.arena.page q).bitfield =
      BitVec.allOnes 64 := by
      have e := (Prod.mk.inj hs).2.trans hc
      simp only [PageArena.dropPage, PageOps.dropPage, PageArena.ops, PageArena.givePage] at e
      split at e
      · rename_i hd; exact of_decide_eq_true hd
      · cases e
    obtain ⟨h1, h2, -⟩ := hb.clear q i hl
    have hi := hb.index q i hl
    have hbit := congrArg (fun x => x.getLsbD i) hones
    simp only [BitVec.getLsbD_or, BitVec.getLsbD_allOnes] at hbit
    unfold Arena.words at h1 h2
    rw [h1, h2] at hbit
    have : ¬ i < 64 := by simpa using hbit
    omega

theorem freePage (h : ReclaimInv s) {p : Addr} (hp : s.owner.frees = some p)
    (hquiet : s.noPush p = true) {control : Control DropPagePc Unit}
    (hs : s.arena.dropPage p .deallocate = (arena, control)) (hf : owner.frees = none)
    (hrest : owner.Rest arena) : ReclaimInv { s with arena, owner } := by
  have hw := fun q => Arena.words_dropPage (q := q) hs
  have hfreed : arena.heap.freed = .dropPage p :: s.arena.heap.freed := by
    obtain ⟨rfl, -⟩ := Prod.mk.inj hs
    rfl
  refine h.ownerStep (fun t q i ht => ?_) (fun q hq => ?_) (fun q hq => ?_)
    (fun q i hl => Or.inl hl) hrest
  · rw [hw, if_neg fun e => by cases e.1]
    exact (h.last t q i ht).1
  · rw [hf] at hq; cases hq
  · rw [hfreed] at hq
    rcases List.mem_cons.mp hq with e | hq
    · rw [Freed.dropPage.inj e]; exact Or.inr ⟨hp, hquiet⟩
    · exact Or.inl hq

theorem alloc (h : ReclaimInv s) (ha : ArenaInv s) {pc : Arena.FindPc} (ho : s.owner = .alloc pc)
    {control : Control Arena.FindPc (Addr × Nat)} (hs : s.arena.findPlace pc = (arena, control)) :
    ReclaimInv (s.afterAlloc arena control) := by
  obtain ⟨place, carried, listed, hl⟩ := ha.lists (by rw [ho]; rfl)
  obtain ⟨hfreed, hwords, hret⟩ := Arena.findPlace_frame hs
  have h63 : ∀ t p i, s.threads.get t = .drop p i .deallocate →
    (arena.words p).2.getLsbD 63 = true := by
    intro t p i ht
    have hp := (h.last t p i ht).1
    have hne : ∀ pc', pc ≠ .acquire p pc' := by
      intro pc' e
      have hp' := (ha.acquires p pc' (by rw [ho, e])).2
      rw [hp] at hp'; cases hp'
    rcases hwords p hne with e | hle
    · rw [e]; exact hp
    · have hg := hl.given p hp
      rw [(hl.fresh p).mpr hle] at hg; cases hg
  cases control with
  | goto pc => exact h.ownerQuiet h63 hfreed rfl trivial
  | panic => exact h.ownerQuiet h63 hfreed rfl trivial
  | ret block =>
    obtain ⟨p, i⟩ := block
    obtain ⟨pc', rfl⟩ := hret p i rfl
    have hshape := hl.shape
    rw [ho] at hshape
    have hcirc := hl.circulates
    rw [hshape.1] at hcirc
    refine h.ownerStep h63 (fun q hq => by cases hq) (fun q hq => Or.inl (by rwa [hfreed] at hq))
      (fun q j hq => ?_) trivial
    rcases owned_insert.mp hq with hq | e
    · exact Or.inl hq
    · -- the page of the new handle was on the free list
      obtain rfl := (Prod.mk.inj e).1
      refine Or.inr ⟨fun e => (by cases e), fun hf => ?_⟩
      have hp := hcirc.head_free
      rw [hfreed] at hf
      rw [hl.freed _ hf] at hp; cases hp

theorem shrink (h : ReclaimInv s) (ha : ArenaInv s) {pc : Arena.ShrinkPc}
    (ho : s.owner = .shrink pc) (hquiet : ∀ p ∈ s.owner.frees, s.noPush p = true)
    {control : Control Arena.ShrinkPc Bool} (hs : s.arena.shrinkToFit pc = (arena, control)) :
    ReclaimInv (s.afterShrink arena control) := by
  obtain ⟨place, carried, listed, hl⟩ := ha.lists (by rw [ho]; rfl)
  by_cases hpc : ∃ start toDrop p rest pc', pc = .dropPage start toDrop p rest pc'
  · obtain ⟨start, toDrop, p, rest, pc', rfl⟩ := hpc
    cases hd : s.arena.dropPage p pc' with
    | mk a c =>
      simp only [Arena.shrinkToFit, hd] at hs
      obtain ⟨rfl, rfl⟩ := Prod.mk.inj hs
      cases pc' with
      | fetch =>
        -- the page was taken out of the free list, so the arena still owned it
        have hp : (s.arena.words p).2.getLsbD 63 = false := by
          by_contra h63
          have hun :=
            (hl.unlinked p).mpr (by rw [ho]; simp [ArenaCall.unlinked, Arena.ShrinkPc.unlinked])
          rw [hl.given p (by simpa using h63)] at hun; cases hun
        cases c with
        | goto pc =>
          refine h.fetch ha.blocks hp hd (fun q hq => ?_) trivial
          cases pc with
          | fetch => cases hq
          | deallocate => exact ⟨(Option.some.inj hq).symm, rfl⟩
        | ret => exact h.fetch ha.blocks hp hd (fun q hq => by cases hq) trivial
        | panic => exact h.fetch ha.blocks hp hd (fun q hq => by cases hq) trivial
      | deallocate =>
        have hfrees : s.owner.frees = some p := by rw [ho]; rfl
        obtain rfl : Control.ret () = c := (Prod.mk.inj hd).2
        exact h.freePage hfrees (hquiet p hfrees) hd rfl trivial
  · obtain ⟨hfreed, hwords, hgoto⟩ := Arena.shrinkToFit_frame hs fun start toDrop p rest pc' e =>
      hpc ⟨start, toDrop, p, rest, pc', e⟩
    have h63 : ∀ t p i, s.threads.get t = .drop p i .deallocate →
      (arena.words p).2.getLsbD 63 = true := by
      intro t p i ht
      rw [hwords]
      exact (h.last t p i ht).1
    cases control with
    | goto pc =>
      refine h.ownerQuiet h63 hfreed ?_ trivial
      cases pc with
      | dropPage start toDrop p rest pc' =>
        obtain rfl := hgoto start toDrop p rest pc' rfl
        rfl
      | takeFree | walk | walkNext | walkBits | walkCas | full | fullNext | fullCas | recheck
      | restore => rfl
    | ret => exact h.ownerQuiet h63 hfreed rfl trivial
    | panic => exact h.ownerQuiet h63 hfreed rfl trivial

theorem releaseFrom {next : Ptr} {l : List Addr} (hl : Linked arena.next next l)
    (h63 : ∀ q ∈ l, (arena.words q).2.getLsbD 63 = false)
    (hk : ∀ owner : ArenaCall, owner.frees = none → owner.Rest arena →
      ReclaimInv { s with arena, owner }) :
    ReclaimInv (s.afterRelease arena (Arena.releaseFrom next)) := by
  cases next with
  | none => exact hk .released rfl trivial
  | some p => exact hk (.release (.loadNext p)) rfl ⟨l, hl, h63⟩

theorem release (h : ReclaimInv s) (ha : ArenaInv s) {pc : Arena.ReleasePc}
    (ho : s.owner = .release pc) (hquiet : ∀ p ∈ s.owner.frees, s.noPush p = true)
    {control : Control Arena.ReleasePc Unit} (hs : s.arena.release pc = (arena, control)) :
    ReclaimInv (s.afterRelease arena control) := by
  have hrest := h.rest
  rw [ho] at hrest
  have hlast := fun t p i ht => (h.last t p i ht).1
  cases pc with
  | loadFull =>
    obtain ⟨rfl, rfl⟩ := Prod.mk.inj hs
    obtain ⟨l, hl, h63⟩ := hrest
    exact releaseFrom hl h63 fun owner hf hr => h.ownerQuiet hlast rfl hf hr
  | loadNext p =>
    obtain ⟨rfl, rfl⟩ := Prod.mk.inj hs
    obtain ⟨l, hl, h63⟩ := hrest
    cases l with
    | nil => cases hl
    | cons q l =>
      obtain rfl := Option.some.inj hl.1
      exact h.ownerQuiet hlast rfl rfl
        ⟨l, hl.2, (List.nodup_cons.mp hl.nodup).1, fun r hr => h63 r (by simp [hr]),
          fun _ => h63 _ (by simp)⟩
  | dropPage p next pc =>
    obtain ⟨l, hl, hnot, h63, hp⟩ := hrest
    cases hd : s.arena.dropPage p pc with
    | mk a c =>
      have hnext : a.next = s.arena.next := by
        obtain ⟨rfl, -⟩ := Prod.mk.inj hd
        cases pc <;> exact Arena.next_setPage (a := s.arena) rfl
      have hl' : Linked a.next next l := by rw [hnext]; exact hl
      have h63' : ∀ q ∈ l, (a.words q).2.getLsbD 63 = false := by
        intro q hq
        have hne : q ≠ p := fun e => hnot (e ▸ hq)
        rw [Arena.words_dropPage hd, if_neg fun e => hne e.2]
        exact h63 q hq
      simp only [Arena.release, hd] at hs
      obtain ⟨rfl, rfl⟩ := Prod.mk.inj hs
      cases pc with
      | fetch =>
        have hfetch : ∀ o : ArenaCall, (∀ q, o.frees = some q → q = p ∧ c = .goto .deallocate) →
          o.Rest a →
            ReclaimInv { s with arena := a, owner := o } :=
              fun o hf hr => h.fetch ha.blocks (hp rfl) hd hf hr
        cases c with
        | goto pc =>
          refine hfetch _ (fun q hq => ?_) ⟨l, hl', hnot, h63', fun e => ?_⟩
          · cases pc with
            | fetch => cases hq
            | deallocate => exact ⟨(Option.some.inj hq).symm, rfl⟩
          · subst e
            have := (Prod.mk.inj hd).2
            simp only [PageArena.dropPage, PageOps.dropPage] at this
            split at this <;> cases this
        | ret =>
          exact releaseFrom hl' h63' fun owner hf hr => hfetch owner
            (fun q hq => by rw [hf] at hq; cases hq) hr
        | panic => exact hfetch _ (fun q hq => by cases hq) trivial
      | deallocate =>
        have hfrees : s.owner.frees = some p := by rw [ho]; rfl
        obtain rfl : Control.ret () = c := (Prod.mk.inj hd).2
        exact releaseFrom hl' h63' fun owner hf hr => h.freePage hfrees (hquiet p hfrees) hd hf hr

theorem threadStep (h : ReclaimInv s) (hlive : ∀ p i, s'.Live p i → s.Live p i)
    (howner : s'.owner = s.owner) (hfull : s'.arena.fullList = s.arena.fullList)
    (hnext : s'.arena.next = s.arena.next)
    (h63 : ∀ q, (s'.arena.words q).2.getLsbD 63 = (s.arena.words q).2.getLsbD 63)
    (hfreed : ∀ p, .dropPage p ∈ s'.arena.heap.freed → .dropPage p ∈ s.arena.heap.freed)
    (hlast : ∀ t p i, s'.threads.get t = .drop p i .deallocate →
      s.threads.get t = .drop p i .deallocate ∨ (s.arena.words p).2.getLsbD 63 = true ∧ s.Live p i)
    (hpush : ∀ t p i pc, s'.threads.get t = .drop p i (.push pc) →
      (∃ pc, s.threads.get t = .drop p i (.push pc)) ∨ s.Live p i) : ReclaimInv s' := by
  refine ⟨fun t p i ht => ?_, fun p hp i hl => ?_, fun p hp t i pc ht => ?_, ?_⟩
  · rw [h63, howner]
    rcases hlast t p i ht with ht | ⟨hp, hl⟩
    · obtain ⟨h1, h2, h3⟩ := h.last t p i ht
      exact ⟨h1, h2, fun hf => h3 (hfreed p hf)⟩
    · exact ⟨hp, fun e => h.spent p (Or.inl e) i hl,
        fun hf => h.spent p (Or.inr (hfreed p hf)) i hl⟩
  · rw [howner] at hp
    exact h.spent p (hp.imp_right (hfreed p)) i (hlive p i hl)
  · rcases hpush t p i pc ht with ⟨pc', ht⟩ | hl
    · exact h.quiet p (hfreed p hp) t i pc' ht
    · exact h.spent p (Or.inr (hfreed p hp)) i hl
  · rw [howner]
    exact h.rest.congr hfull hnext h63

/-- The drop that finds the word full sees the arena's bit. -/
theorem ones_of_last {page : PageArena} {i : Nat} (hi : i < 63)
    (h : page.bitfieldAtomic.getLsbD i = false) (hl : (PageArena.giveBlock i page).2 = true) :
    page.bitfieldAtomic.getLsbD 63 = true := by
  have hones : page.bitfieldAtomic ||| bit i = BitVec.allOnes 64 := of_decide_eq_true hl
  rw [← add_bit_eq_or hi h, eq_ones_iff, getLsbD_add_bit hi h] at hones
  simpa [Nat.ne_of_lt hi] using hones.1

theorem step (h : ReclaimInv s) (ha : ArenaInv s) {a : ArenaAct} (hc : quietReclaim s a)
    (hm : ArenaState.Moves s a s') :
    ReclaimInv s' := by
  have hlast := fun t p i ht => (h.last t p i ht).1
  cases hm with
  | startAlloc | startShrink => exact h.ownerQuiet hlast rfl rfl trivial
  | startRelease ho =>
    obtain ⟨place, carried, listed, hl⟩ := ha.lists (by rw [ho]; rfl)
    refine h.ownerQuiet hlast rfl rfl ⟨listed, hl.full, fun q hq => ?_⟩
    by_contra h63
    exact (hl.listed q hq).2 (hl.given q (by simpa using h63))
  | alloc ho hs => exact h.alloc ha ho hs
  | shrink ho hs => exact h.shrink ha ho (hc rfl) hs
  | release ho hs => exact h.release ha ho (hc rfl) hs
  | @startDrop t p i ht hi =>
    have h0 : handOf s.threads t = none := handOf_get ht
    refine h.threadStep
      (fun q j => (owned_take ha.blocks.ledger hi h0 (handOf_set_self _) (handOf_set_ne _)).mp) rfl
      rfl rfl
      (fun q => rfl) (fun q hq => hq) (fun u q j hu => ?_) (fun u q j pc hu => ?_)
    · rw [Store.get_set] at hu
      split at hu
      · cases hu
      · exact Or.inl hu
    · rw [Store.get_set] at hu
      split at hu
      · cases hu
      · exact Or.inl ⟨pc, hu⟩
  | @giveBlock t _ p i page last ht hg =>
    obtain ⟨rfl, rfl⟩ := Prod.mk.inj hg
    have h0 : handOf s.threads t = some (p, i) := handOf_get ht
    have hlive : s.Live p i := Or.inr ⟨t, h0⟩
    have hclear := (ha.blocks.clear p i hlive).2.1
    have hi := ha.blocks.index p i hlive
    refine h.threadStep (fun q j hq => ?_) rfl rfl (Arena.next_setPage rfl) (fun q => ?_)
      (fun q hq => hq)
      (fun u q j hu => ?_) (fun u q j pc hu => ?_)
    · refine ((owned_give ha.blocks.ledger h0 ?_ (handOf_set_ne _)).mp hq).1
      rw [handOf_set_self]
      split <;> rfl
    · rw [Arena.words_setPage]
      split
      · rename_i e
        subst e
        apply (getLsbD_add_bit hi hclear 63).trans
        rw [decide_eq_false (by omega), Bool.or_false]
      · rfl
    · rw [Store.get_set] at hu
      split at hu
      · split at hu
        · rename_i hones
          obtain ⟨rfl, rfl⟩ : p = q ∧ i = j := by simpa using hu
          exact Or.inr ⟨ones_of_last hi hclear hones, hlive⟩
        · cases hu
      · exact Or.inl hu
    · rw [Store.get_set] at hu
      split at hu
      · obtain ⟨rfl, rfl, -⟩ := DropThread.drop.inj hu
        exact Or.inr hlive
      · exact Or.inl ⟨pc, hu⟩
  | @freeBlock t _ p i ht =>
    have h0 : handOf s.threads t = none := handOf_get ht
    refine h.threadStep (fun q j => (owned_congr (handOf_set_same _ h0.symm)).mp) rfl rfl
      (Arena.next_setPage (a := s.arena) rfl)
        (fun q => congrArg (fun w => w.2.getLsbD 63) (Arena.words_setPage_same (a := s.arena) rfl))
      (fun q hq => ?_) (fun u q j hu => ?_) (fun u q j pc hu => ?_)
    · rcases List.mem_cons.mp hq with e | hq
      · cases e
      · exact hq
    · rw [Store.get_set] at hu
      split at hu
      · cases hu
      · exact Or.inl hu
    · rw [Store.get_set] at hu
      split at hu
      · cases hu
      · exact Or.inl ⟨pc, hu⟩
  | @push t _ p i pc links pending control ht hp =>
    have h0 : handOf s.threads t = none := handOf_get ht
    have h1 : (ArenaState.afterDrop p i (control.map .push)).hand = none := by cases control <;> rfl
    have hwords : ∀ q, (s.arena.setPage p { s.arena.page p with toPageLinks := links }).words q =
      s.arena.words q :=
      fun q => Arena.words_setPage_same rfl
    refine h.threadStep (fun q j => (owned_congr (handOf_set_same _ (h1.trans h0.symm))).mp) rfl rfl
      (Arena.next_setPage (a := s.arena) (PageLinks.next_push hp))
      (fun q => congrArg (fun w => w.2.getLsbD 63) (hwords q)) (fun q hq => hq) (fun u q j hu => ?_)
      (fun u q j pc' hu => ?_)
    · rw [Store.get_set] at hu
      split at hu
      · cases control <;> cases hu
      · exact Or.inl hu
    · rw [Store.get_set] at hu
      split at hu
      · cases control with
        | goto =>
          obtain ⟨rfl, rfl, -⟩ := DropThread.drop.inj hu
          rename_i e _
          subst e
          exact Or.inl ⟨pc, ht⟩
        | ret => cases hu
        | panic => cases hu
      · exact Or.inl ⟨pc', hu⟩

theorem start (cap : Nat) : ReclaimInv (.start cap) := by
  have hthread : ∀ t, (ArenaState.start cap).threads.get t = .idle := Store.get_empty
  refine ⟨fun t p i ht => ?_, fun p hp i hl => ?_, fun p hp => ?_, trivial⟩
  · rw [hthread] at ht; cases ht
  · rcases hp with hp | hp
    · cases hp
    · cases hp
  · cases hp

theorem of_reach (h : Arena.machine.Reach quietReclaim s) : ReclaimInv s := by
  refine h.invariant ?_ fun s a s' hr hi hc hs => ?_
  · intro s hs
    obtain ⟨cap, rfl⟩ := hs
    exact start cap
  · exact hi.step (ArenaInv.of_reach hr.reachable) hc (ArenaState.moves_of_step hs)

end ReclaimInv

namespace Arena

/-- If `shrink_to_fit` and the drop of the arena deallocated a page only when no drop was
between its `fetch_add` and its return, no drop would touch a page that they deallocated. -/
theorem page_untouched_after_reclaim {s : ArenaState} (h : machine.Reach quietReclaim s) {p : Addr}
    (hp : .dropPage p ∈ s.arena.heap.freed) :
    ∀ t i pc, s.threads.get t = .drop p i pc → pc.touchesPage = false := by
  intro t i pc ht
  have hi := ReclaimInv.of_reach h
  cases pc with
  | fetchAdd => exact absurd (Or.inr ⟨t, handOf_get ht⟩) (hi.spent p (Or.inr hp) i)
  | deallocate => exact absurd hp (hi.last t p i ht).2.2
  | push pc => exact absurd ht (hi.quiet p hp t i pc)

/-- Thread 0 takes `n` steps of a drop of the only block, then `shrink_to_fit` gives up its page. -/
def dropThenShrink (n : Nat) : List ArenaAct :=
  [.alloc, .stepOwner, .stepOwner, .drop 0 0 0] ++ List.replicate n (.step 0 true) ++
    .shrink :: List.replicate 13 .stepOwner

theorem page_untouched_after_quietShrink : ∃ s : ArenaState, .dropPage 0 ∈ s.arena.heap.freed ∧
    ∀ t i pc, s.threads.get t = .drop 0 i pc → pc.touchesPage = false := by
  have hstart : machine.init (.start 63) := ⟨63, rfl⟩
  obtain ⟨s, hs, hp⟩ := Machine.Reach.exists_of_runIf hstart (fun s a => decide (quietReclaim s a))
    (dropThenShrink 2)
    (fun s => decide (.dropPage 0 ∈ s.arena.heap.freed)) (fun _ _ h => of_decide_eq_true h)
      (by decide +kernel)
  have hp := of_decide_eq_true hp
  exact ⟨s, hp, page_untouched_after_reclaim hs hp⟩

/-- The drop that was held up after its `fetch_add` goes on with a page that is gone. -/
theorem page_touched_after_reclaim : ∃ s : ArenaState, machine.Reach Machine.always s ∧
    .dropPage 0 ∈ s.arena.heap.freed ∧ ∃ t i pc, s.threads.get t = .drop 0 i pc ∧
    pc.touchesPage = true := by
  have hstart : machine.init (.start 63) := ⟨63, rfl⟩
  obtain ⟨s, hs, hp⟩ := Machine.Reach.exists_of_runIf hstart (fun _ _ => true) (dropThenShrink 1)
    (fun s => decide
      (.dropPage 0 ∈ s.arena.heap.freed ∧ s.threads.get 0 = .drop 0 0 (.push .loadInFree)))
    (fun _ _ _ => trivial) (by decide +kernel)
  obtain ⟨hp, ht⟩ := of_decide_eq_true hp
  exact ⟨s, hs, hp, 0, 0, .push .loadInFree, ht, rfl⟩

end Arena

end MemoryPools
