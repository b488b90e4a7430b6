import MemoryPools.ArenaTaken
import MemoryPools.ArenaSound
import MemoryPools.Page.Dues

/-!
# The lifetime of the pages of an arena

Every page is deallocated once, by the owner or by a drop, whatever the interleaving: the
caller that gives the last reference back is the only one to see it.
-/

namespace MemoryPools

open Interleave

def DropThread.frees : DropThread → Option Addr
  | .drop p _ .deallocate => some p
  | _ => none

/-- The page that the owner (`none`) or a thread deallocates next. -/
def ArenaState.frees (s : ArenaState) : Option Tid → Option Addr
  | none => s.owner.frees
  | some t => (s.threads.get t).frees

namespace Arena

def Keeps (a : Arena) (l : List Addr) : Prop :=
  ∀ q, q ∈ l ↔ q < a.heap.size ∧ (a.words q).2.getLsbD 63 = false

variable {a a' : Arena} {l : List Addr} {p q : Addr}

theorem Keeps.congr (h : a.Keeps l) (hsize : a'.heap.size = a.heap.size)
    (h63 : ∀ q, (a'.words q).2.getLsbD 63 = (a.words q).2.getLsbD 63) : a'.Keeps l := by
  intro q
  rw [hsize, h63]
  exact h q

theorem Keeps.dropPage (h : a.Keeps (p :: l)) (hnot : p ∉ l)
    (harena : (a.words p).1.getLsbD 63 = true) {control : Control DropPagePc Unit}
    (hd : a.dropPage p .fetch = (a', control)) : a'.Keeps l := by
  intro q
  rw [size_dropPage hd, words_dropPage hd]
  by_cases e : q = p
  · subst e
    simp [hnot, harena]
  · have hq := h q
    simpa [e] using hq

theorem size_findPlace {pc : FindPc} {control : Control FindPc (Addr × Nat)}
    (h : a.findPlace pc = (a', control)) : a.heap.size ≤ a'.heap.size := by
  cases pc with
  | loadFull =>
    obtain ⟨rfl, -⟩ := Prod.mk.inj h
    exact Nat.le_add_right _ _
  | acquire | unlink | clearInFree | loadPending | swapPending | linkLast | swapFull =>
    obtain ⟨rfl, -⟩ := Prod.mk.inj h
    exact Nat.le_refl _
  | getFree | setFree =>
    simp only [findPlace] at h
    split at h <;> obtain ⟨rfl, -⟩ := Prod.mk.inj h <;> exact Nat.le_refl _

theorem dropPage_fetch {control : Control DropPagePc Unit}
    (h : a.dropPage p .fetch = (a', control)) :
    (∀ q, a'.page q = if q = p then (PageArena.givePage (a.page p)).1 else a.page q) ∧
      control = if (PageArena.givePage (a.page p)).2 then .goto .deallocate else .ret () := by
  obtain ⟨rfl, rfl⟩ := Prod.mk.inj h
  exact ⟨fun q => page_setPage (a := a), rfl⟩

theorem freed_fetch {control : Control DropPagePc Unit}
    (h : a.dropPage p .fetch = (a', control)) : a'.heap.freed = a.heap.freed := by
  obtain ⟨rfl, -⟩ := Prod.mk.inj h
  rfl

theorem wf_congr (h : a'.words q = a.words q) (hw : PageArena.refs.Wf (a.page q)) :
    PageArena.refs.Wf (a'.page q) := by
  obtain ⟨h1, h2⟩ := Prod.mk.inj h
  refine ⟨?_, ?_, ?_⟩
  · rw [h1]
    exact hw.arenaBit
  · rw [h1, h2]
    exact hw.merged
  · rw [h1, h2]
    exact hw.apart

theorem held_congr (h : a'.words q = a.words q) (i : Nat) :
    PageArena.refs.held (a'.page q) i ↔ PageArena.refs.held (a.page q) i := by
  obtain ⟨h1, h2⟩ := Prod.mk.inj h
  simp only [PageArena.refs]
  rw [h1, h2]

/-- A write to a page that the arena owns does not give it up. -/
theorem words_owned {x y : Bitfield} (hp : (a.words p).2.getLsbD 63 = false)
    (hy : y.getLsbD 63 = false)
    (hw : ∀ q, a'.words q = if q = p then (x, y) else a.words q) :
    (a'.words q).2.getLsbD 63 = (a.words q).2.getLsbD 63 ∧
      ((a.words q).2.getLsbD 63 = true → a'.words q = a.words q) := by
  rw [hw]
  by_cases e : q = p
  · subst e
    rw [if_pos rfl, hp]
    exact ⟨hy, fun h => by cases h⟩
  · rw [if_neg e]
    exact ⟨rfl, fun _ => rfl⟩

theorem set_of_unused {i : Nat} (h : a.unused p = true) (hi : i < 63) :
    ((a.words p).1.getLsbD i || (a.words p).2.getLsbD i) = true := by
  have hones : (a.page p).bitfield ||| (a.page p).bitfieldAtomic = BitVec.allOnes 64 :=
    of_decide_eq_true h
  have hbit := congrArg (fun x => x.getLsbD i) hones
  simp only [BitVec.getLsbD_or, BitVec.getLsbD_allOnes] at hbit
  unfold words
  rw [hbit]
  simp
  omega

/-- The bits of a page that its arena owns. -/
theorem wf_of_split {z : Bitfield} (h : Split (a.words q).1 (a.words q).2 z)
    (h63 : (a.words q).2.getLsbD 63 = false) : PageArena.refs.Wf (a.page q) := by
  refine ⟨h.arenaBit, fun e => ?_, fun _ j hj => (h.apart h63).xy j hj⟩
  rw [show (a.page q).bitfieldAtomic.getLsbD 63 = false from h63] at e
  cases e

end Arena

namespace ArenaCall

def Leaves (a : Arena) : ArenaCall → Prop
  | .release .loadFull => ∃ l, Linked a.next a.fullList l ∧ a.Keeps l
  | .release (.loadNext p) => ∃ l, Linked a.next (some p) l ∧ a.Keeps l
  | .release (.dropPage p next .fetch) => ∃ l, Linked a.next next l ∧ p ∉ l ∧ a.Keeps (p :: l)
  | .release (.dropPage _ next .deallocate) => ∃ l, Linked a.next next l ∧ a.Keeps l
  | .released => a.Keeps []
  | .idle | .alloc _ | .shrink _ | .panicked => True

variable {a a' : Arena} {owner : ArenaCall}

theorem Leaves.congr (h : owner.Leaves a) (hsize : a'.heap.size = a.heap.size)
    (hfull : a'.fullList = a.fullList) (hnext : a'.next = a.next)
    (h63 : ∀ q, (a'.words q).2.getLsbD 63 = (a.words q).2.getLsbD 63) : owner.Leaves a' := by
  cases owner with
  | idle | alloc | shrink | panicked => trivial
  | released => exact Arena.Keeps.congr h hsize h63
  | release pc =>
    cases pc with
    | loadFull =>
      obtain ⟨l, hl, hk⟩ := h
      refine ⟨l, ?_, hk.congr hsize h63⟩
      rw [hnext, hfull]
      exact hl
    | loadNext p =>
      obtain ⟨l, hl, hk⟩ := h
      exact ⟨l, hnext ▸ hl, hk.congr hsize h63⟩
    | dropPage p next pc =>
      cases pc with
      | fetch =>
        obtain ⟨l, hl, hnot, hk⟩ := h
        exact ⟨l, hnext ▸ hl, hnot, hk.congr hsize h63⟩
      | deallocate =>
        obtain ⟨l, hl, hk⟩ := h
        exact ⟨l, hnext ▸ hl, hk.congr hsize h63⟩

end ArenaCall

/-! ## The invariant -/

structure LifetimeInv (s : ArenaState) : Prop where
  dues : Dues PageArena.refs s.arena.page s.Live (s.arena.heap.freed.map Freed.page) s.frees
  given : ∀ p, (s.arena.words p).2.getLsbD 63 = true → p < s.arena.heap.size
  -- `shrink_to_fit` gives up no page with a block in use
  used : ∀ p i, (s.arena.words p).2.getLsbD 63 = true → s.Live p i → s.owner.ends = true
  leaves : s.owner.Leaves s.arena

namespace LifetimeInv

variable {s s' : ArenaState} {p : Addr} {w : Option Tid} {last : Bool}

/-- A step that gives no reference back and deallocates nothing. -/
theorem keep (h : LifetimeInv s) (hb : BlocksInv s')
    (hfreed : s'.arena.heap.freed = s.arena.heap.freed)
    (hsize : s.arena.heap.size ≤ s'.arena.heap.size)
    (h63 : ∀ q, (s'.arena.words q).2.getLsbD 63 = (s.arena.words q).2.getLsbD 63)
    (hgiven : ∀ q, (s.arena.words q).2.getLsbD 63 = true →
      s'.arena.words q = s.arena.words q ∧ ∀ i, s'.Live q i ↔ s.Live q i)
    (hfrees : ∀ w, s'.frees w = s.frees w)
    (hends : s.owner.ends = true → s'.owner.ends = true) (hleaves : s'.owner.Leaves s'.arena) :
    LifetimeInv s' where
  dues := by
    have hup : ∀ q, ¬ PageArena.refs.owned (s.arena.page q) →
        (s.arena.words q).2.getLsbD 63 = true := by
      intro q hq
      exact (Bool.not_eq_false _).mp hq
    rw [hfreed]
    refine h.dues.keep (fun q => ?_) (fun q => ?_) (fun q hq => ?_) (fun q hq => ?_) hfrees
    · cases e : (s.arena.words q).2.getLsbD 63 with
      | true => exact Arena.wf_congr (hgiven q e).1 (h.dues.wf q)
      | false => exact Arena.wf_of_split (hb.split q) ((h63 q).trans e)
    · exact Eq.congr (h63 q) rfl
    · exact Arena.held_congr (hgiven q (hup q hq)).1
    · exact (hgiven q (hup q hq)).2
  given q hq := by
    rw [h63] at hq
    exact Nat.lt_of_lt_of_le (h.given q hq) hsize
  used q i hq hl := by
    rw [h63] at hq
    exact hends (h.used q i hq (((hgiven q hq).2 i).mp hl))
  leaves := hleaves

theorem freePage (h : LifetimeInv s) (hw : s.frees w = some p) (hw' : s'.frees w = none)
    (hu : ∀ u, u ≠ w → s'.frees u = s.frees u)
    (hfreed : s'.arena.heap.freed.map Freed.page = p :: s.arena.heap.freed.map Freed.page)
    (hsize : s'.arena.heap.size = s.arena.heap.size)
    (hwords : ∀ q, s'.arena.words q = s.arena.words q) (hlive : ∀ q i, s'.Live q i ↔ s.Live q i)
    (hends : s.owner.ends = true → s'.owner.ends = true) (hleaves : s'.owner.Leaves s'.arena) :
    LifetimeInv s' where
  dues := by
    rw [hfreed]
    refine (h.dues.free hw hw' hu).keep (fun q => Arena.wf_congr (hwords q) (h.dues.wf q))
      (fun q => ?_) (fun q _ => Arena.held_congr (hwords q)) (fun q _ => hlive q) fun _ => rfl
    exact Eq.congr (congrArg (fun w => w.2.getLsbD 63) (hwords q)) rfl
  given q hq := by
    rw [hwords] at hq
    rw [hsize]
    exact h.given q hq
  used q i hq hl := by
    rw [hwords] at hq
    exact hends (h.used q i hq ((hlive q i).mp hl))
  leaves := hleaves

/-! ### The owner -/

variable {arena : Arena} {owner : ArenaCall}

/-- An operation of the owner on links and heads of lists. -/
theorem ownerKeep (h : LifetimeInv s) (arena : Arena) (hb : BlocksInv { s with arena, owner })
    (hfreed : arena.heap.freed = s.arena.heap.freed)
    (hsize : arena.heap.size = s.arena.heap.size) (hw : ∀ q, arena.words q = s.arena.words q)
    (hfrees : s.owner.frees = none) (hf : owner.frees = none)
    (hends : s.owner.ends = true → owner.ends = true) (hleaves : owner.Leaves arena) :
    LifetimeInv { s with arena, owner } := by
  refine h.keep hb hfreed (Nat.le_of_eq hsize.symm)
    (fun q => congrArg (fun w => w.2.getLsbD 63) (hw q)) (fun q _ => ⟨hw q, fun i => Iff.rfl⟩)
    (fun w => ?_) hends hleaves
  cases w with
  | none => exact hf.trans hfrees.symm
  | some t => rfl

theorem alloc (h : LifetimeInv s) (ha : ArenaInv s) {pc : Arena.FindPc} (ho : s.owner = .alloc pc)
    {control : Control Arena.FindPc (Addr × Nat)} (hs : s.arena.findPlace pc = (arena, control))
    (hb : BlocksInv (s.afterAlloc arena control)) : LifetimeInv (s.afterAlloc arena control) := by
  obtain ⟨hfreed, -⟩ := Arena.findPlace_frame hs
  have hfrees : s.owner.frees = none := by rw [ho]; rfl
  have hacq : ∀ p pc', pc = .acquire p pc' → (s.arena.words p).2.getLsbD 63 = false := by
    intro p pc' e
    exact (ha.acquires p pc' (by rw [ho, e])).2
  have hafter : ∀ w, (s.afterAlloc arena control).frees w = s.frees w := by
    intro w
    cases w with
    | none => cases control <;> exact hfrees.symm
    | some t => cases control <;> rfl
  have hleaves : (s.afterAlloc arena control).owner.Leaves (s.afterAlloc arena control).arena := by
    cases control <;> trivial
  have harena : (s.afterAlloc arena control).arena = arena := by cases control <;> rfl
  -- only pages that the arena owns are written
  have hkeep : s.arena.heap.size ≤ arena.heap.size →
      (∀ q, (arena.words q).2.getLsbD 63 = (s.arena.words q).2.getLsbD 63) →
      (∀ q, (s.arena.words q).2.getLsbD 63 = true → arena.words q = s.arena.words q) →
      (∀ q i, (s.arena.words q).2.getLsbD 63 = true →
        ((s.afterAlloc arena control).Live q i ↔ s.Live q i)) →
      LifetimeInv (s.afterAlloc arena control) := by
    intro hsize h63 hgiven hlive
    refine h.keep hb ?_ ?_ ?_ ?_ hafter (fun e => by rw [ho] at e; cases e) hleaves
    · rw [harena]
      exact hfreed
    · rw [harena]
      exact hsize
    · rw [harena]
      exact h63
    · rw [harena]
      exact fun q hq => ⟨hgiven q hq, fun i => hlive q i hq⟩
  have hsize := Arena.size_findPlace hs
  cases Arena.findPlace_words (fun p => (ha.blocks.split p).arenaBit) hs with
  | @take p i hi hbit hw =>
    have hp := hacq p _ rfl
    refine hkeep hsize (fun q => (Arena.words_owned hp hp hw).1)
      (fun q => (Arena.words_owned hp hp hw).2) fun q j hq => ?_
    have hlive : (s.afterAlloc arena (.ret (p, i))).Live q j ↔ s.Live q j ∨ (q, j) = (p, i) :=
      owned_insert
    rw [hlive]
    apply or_iff_left
    intro e
    obtain rfl := (Prod.mk.inj e).1
    rw [hp] at hq
    cases hq
  | @swap p hw =>
    have hp := hacq p _ rfl
    exact hkeep hsize (fun q => (Arena.words_owned hp (by simp) hw).1)
      (fun q => (Arena.words_owned hp (by simp) hw).2) fun _ _ _ => Iff.rfl
  | @merge p v hw =>
    have hp := hacq p _ rfl
    exact hkeep hsize (fun q => (Arena.words_owned hp hp hw).1)
      (fun q => (Arena.words_owned hp hp hw).2) fun _ _ _ => Iff.rfl
  | grow hw hc =>
    refine hkeep hsize (fun q => ?_) (fun q hq => ?_) fun _ _ _ => Iff.rfl
    · rcases hw q with ⟨-, e⟩ | ⟨hle, e⟩
      · rw [e]
      · rw [e]
        cases hq : (s.arena.words q).2.getLsbD 63 with
        | true => exact absurd (h.given q hq) (Nat.not_lt.mpr hle)
        | false => simp
    · rcases hw q with ⟨-, e⟩ | ⟨hle, -⟩
      · exact e
      · exact absurd (h.given q hq) (Nat.not_lt.mpr hle)
  | keep hw hsize' hpc hc =>
    refine hkeep hsize (fun q => by rw [hw]) (fun q _ => hw q) fun q i _ => ?_
    rcases hc with rfl | ⟨pc', rfl, -⟩
    · exact Iff.rfl
    · exact Iff.rfl

theorem givePage (h : LifetimeInv s) (owner : ArenaCall) (hb : BlocksInv s) (ht : TakenInv s)
    (hsw : s.owner.swapped p = 0) (hp : p < s.arena.heap.size)
    (h63 : (s.arena.words p).2.getLsbD 63 = false) (hfrees : s.owner.frees = none)
    {control : Control DropPagePc Unit} (hd : s.arena.dropPage p .fetch = (arena, control))
    (hf : owner.frees = if control = .goto .deallocate then some p else none)
    (hends : s.owner.ends = true → owner.ends = true)
    (hused : owner.ends = false → s.arena.unused p = true) (hleaves : owner.Leaves arena) : LifetimeInv { s with arena, owner } := by
  obtain ⟨hpage, hcontrol⟩ := Arena.dropPage_fetch hd
  have hgive : PageArena.givePage (s.arena.page p) =
      ((PageArena.givePage (s.arena.page p)).1, decide (control = .goto .deallocate)) := by
    rw [hcontrol]
    cases hl : (PageArena.givePage (s.arena.page p)).2 with
    | true => exact Prod.ext rfl hl
    | false => exact Prod.ext rfl hl
  have hheld : ∀ i, PageArena.refs.held (s.arena.page p) i ↔ s.Live p i := by
    intro i
    constructor
    · intro ⟨hi, h1, h2⟩
      rw [blockPerPage_eq] at hi
      refine ht p hp i hi ⟨h1, h2, ?_⟩
      rw [hsw]
      simp
    · intro hl
      obtain ⟨h1, h2, -⟩ := hb.clear p i hl
      exact ⟨blockPerPage_eq ▸ hb.index p i hl, h1, h2⟩
  refine ⟨?_, fun q hq => ?_, fun q i hq hl => ?_, hleaves⟩
  · have hdues : Dues PageArena.refs arena.page s.Live (s.arena.heap.freed.map Freed.page)
        ({ s with arena, owner } : ArenaState).frees := by
      refine h.dues.givePage PageArena.refs_lawful h63 hheld hgive hpage (t := none) hfrees
        (by simpa [ArenaState.frees] using hf) fun u hu => ?_
      cases u with
      | none => exact absurd rfl hu
      | some t => rfl
    rw [show arena.heap.freed = s.arena.heap.freed from Arena.freed_fetch hd]
    exact hdues
  · show q < arena.heap.size
    rw [Arena.size_dropPage hd]
    by_cases e : q = p
    · rw [e]
      exact hp
    · rw [Arena.words_dropPage hd, if_neg fun h => e h.2] at hq
      exact h.given q hq
  · by_cases e : q = p
    · by_contra he
      obtain ⟨h1, h2, -⟩ := hb.clear q i hl
      have hset := Arena.set_of_unused (hused (by simpa using he)) (hb.index q i hl)
      rw [← e, h1, h2] at hset
      cases hset
    · rw [Arena.words_dropPage hd, if_neg fun h => e h.2] at hq
      exact hends (h.used q i hq hl)

theorem deallocate (h : LifetimeInv s) (hfrees : s.owner.frees = some p)
    {control : Control DropPagePc Unit} (hd : s.arena.dropPage p .deallocate = (arena, control))
    (hf : owner.frees = none) (hends : s.owner.ends = true → owner.ends = true)
    (hleaves : owner.Leaves arena) : LifetimeInv { s with arena, owner } := by
  obtain ⟨rfl, -⟩ := Prod.mk.inj hd
  refine h.freePage (w := none) hfrees hf (fun u hu => ?_) rfl rfl
    (fun q => Arena.words_setPage_same (a := s.arena) rfl) (fun q i => Iff.rfl) hends hleaves
  cases u with
  | none => exact absurd rfl hu
  | some t => rfl

theorem shrink (h : LifetimeInv s) (ha : ArenaInv s) (ht : TakenInv s) {pc : Arena.ShrinkPc}
    (ho : s.owner = .shrink pc) {control : Control Arena.ShrinkPc Bool}
    (hs : s.arena.shrinkToFit pc = (arena, control)) (hb : BlocksInv (s.afterShrink arena control)) :
    LifetimeInv (s.afterShrink arena control) := by
  have hsw : ∀ q, s.owner.swapped q = 0 := fun q => by rw [ho]; rfl
  have hends : s.owner.ends = true → ∀ o : ArenaCall, o.ends = true := by
    intro e
    rw [ho] at e
    cases e
  by_cases hpc : ∃ start toDrop p rest pc', pc = .dropPage start toDrop p rest pc'
  · obtain ⟨start, toDrop, p, rest, pc', rfl⟩ := hpc
    cases hd : s.arena.dropPage p pc' with
    | mk a c =>
      simp only [Arena.shrinkToFit, hd] at hs
      obtain ⟨rfl, rfl⟩ := Prod.mk.inj hs
      cases pc' with
      | fetch =>
        obtain ⟨place, carried, listed, hl⟩ := ha.lists (by rw [ho]; rfl)
        have hun := (hl.unlinked p).mpr
          (by rw [ho]; simp [ArenaCall.unlinked, Arena.ShrinkPc.unlinked])
        have hp : p < s.arena.heap.size := by
          apply hl.lt_size
          rw [hun]
          simp
        have h63 : (s.arena.words p).2.getLsbD 63 = false := by
          by_contra h63
          rw [hl.given p (by simpa using h63)] at hun
          cases hun
        have hunused := hl.unused p ((hl.unlinked p).mp hun)
        have hfrees : s.owner.frees = none := by rw [ho]; rfl
        rcases Arena.dropPage_control hd with rfl | ⟨-, rfl⟩
        · exact h.givePage _ ha.blocks ht (hsw p) hp h63 hfrees hd rfl (fun e => hends e _)
            (fun _ => hunused) trivial
        · exact h.givePage _ ha.blocks ht (hsw p) hp h63 hfrees hd rfl (fun e => hends e _)
            (fun _ => hunused) trivial
      | deallocate =>
        have hfrees : s.owner.frees = some p := by rw [ho]; rfl
        obtain rfl : Control.ret () = c := (Prod.mk.inj hd).2
        exact h.deallocate hfrees hd rfl (fun e => hends e _) trivial
  · have hpc : ∀ start toDrop p rest pc', pc ≠ .dropPage start toDrop p rest pc' :=
      fun start toDrop p rest pc' e => hpc ⟨start, toDrop, p, rest, pc', e⟩
    obtain ⟨hfreed, hw, hgoto⟩ := Arena.shrinkToFit_frame hs hpc
    have hsize := Arena.size_shrinkToFit hs
    have hfrees : s.owner.frees = none := by
      rw [ho]
      cases pc with
      | dropPage start toDrop p rest pc' => exact absurd rfl (hpc start toDrop p rest pc')
      | takeFree | walk | walkNext | walkBits | walkCas | full | fullNext | fullCas | recheck
      | restore => rfl
    cases control with
    | goto pc =>
      refine h.ownerKeep _ hb hfreed hsize hw hfrees ?_ (fun e => hends e _) trivial
      cases pc with
      | dropPage start toDrop p rest pc' =>
        obtain rfl := hgoto start toDrop p rest pc' rfl
        rfl
      | takeFree | walk | walkNext | walkBits | walkCas | full | fullNext | fullCas | recheck
      | restore => rfl
    | ret => exact h.ownerKeep _ hb hfreed hsize hw hfrees rfl (fun e => hends e _) trivial
    | panic => exact h.ownerKeep _ hb hfreed hsize hw hfrees rfl (fun e => hends e _) trivial

theorem releaseFrom {next : Ptr} {l : List Addr} (hl : Linked arena.next next l)
    (hk : arena.Keeps l) (hnext : ∀ owner : ArenaCall, owner.frees = none →
      (∀ q, owner.swapped q = 0) → owner.ends = true → owner.Leaves arena →
      LifetimeInv { s with arena, owner }) :
    LifetimeInv (s.afterRelease arena (Arena.releaseFrom next)) := by
  cases next with
  | none =>
    obtain rfl : l = [] := hl.unique rfl
    exact hnext .released rfl (fun _ => rfl) rfl hk
  | some p => exact hnext (.release (.loadNext p)) rfl (fun _ => rfl) rfl ⟨l, hl, hk⟩

theorem release (h : LifetimeInv s) (hbs : BlocksInv s) (ht : TakenInv s) {pc : Arena.ReleasePc}
    (ho : s.owner = .release pc) {control : Control Arena.ReleasePc Unit}
    (hs : s.arena.release pc = (arena, control)) : LifetimeInv (s.afterRelease arena control) := by
  have hsw : ∀ q, s.owner.swapped q = 0 := fun q => by rw [ho]; rfl
  have hleaves := h.leaves
  rw [ho] at hleaves
  have hkeep : s.owner.frees = none → ∀ owner : ArenaCall, owner.frees = none →
      (∀ q, owner.swapped q = 0) → owner.ends = true → owner.Leaves s.arena →
      LifetimeInv { s with owner } := by
    intro hfrees owner hf hsw' he hl
    exact h.ownerKeep s.arena
      (hbs.owner_keep (Nat.le_refl _) (fun _ => rfl) hsw') rfl rfl (fun _ => rfl) hfrees hf
      (fun _ => he) hl
  cases pc with
  | loadFull =>
    obtain ⟨rfl, rfl⟩ := Prod.mk.inj hs
    obtain ⟨l, hl, hk⟩ := hleaves
    exact releaseFrom hl hk (hkeep (by rw [ho]; rfl))
  | loadNext p =>
    obtain ⟨rfl, rfl⟩ := Prod.mk.inj hs
    obtain ⟨l, hl, hk⟩ := hleaves
    cases l with
    | nil => cases hl
    | cons q l =>
      obtain rfl := Option.some.inj hl.1
      exact hkeep (by rw [ho]; rfl) (.release (.dropPage p (s.arena.next p) .fetch)) rfl
        (fun _ => rfl) rfl ⟨l, hl.2, (List.nodup_cons.mp hl.nodup).1, hk⟩
  | dropPage p next pc =>
    cases hd : s.arena.dropPage p pc with
    | mk a c =>
      have hnext : a.next = s.arena.next := by
        obtain ⟨rfl, -⟩ := Prod.mk.inj hd
        cases pc <;> exact Arena.next_setPage (a := s.arena) rfl
      simp only [Arena.release, hd] at hs
      obtain ⟨rfl, rfl⟩ := Prod.mk.inj hs
      cases pc with
      | fetch =>
        obtain ⟨l, hl, hnot, hk⟩ := hleaves
        rw [← hnext] at hl
        obtain ⟨hp, h63⟩ := (hk p).mp (by simp)
        have hk' := hk.dropPage hnot (hbs.split p).arenaBit hd
        have hgive := fun (owner : ArenaCall) hf (he : owner.ends = true) =>
          h.givePage owner hbs ht (hsw p) hp h63 (by rw [ho]; rfl) hd hf (fun _ => he)
            (fun e => by rw [he] at e; cases e)
        rcases Arena.dropPage_control hd with rfl | ⟨-, rfl⟩
        · exact releaseFrom hl hk' fun owner hf _ => hgive owner hf
        · exact hgive (.release (.dropPage p next .deallocate)) rfl rfl ⟨l, hl, hk'⟩
      | deallocate =>
        obtain ⟨l, hl, hk⟩ := hleaves
        rw [← hnext] at hl
        have hw : ∀ q, a.words q = s.arena.words q := by
          intro q
          rw [Arena.words_dropPage hd, if_neg fun e => by cases e.1]
        have hk' := hk.congr (Arena.size_dropPage hd) fun q =>
          congrArg (fun w => w.2.getLsbD 63) (hw q)
        obtain rfl : Control.ret () = c := (Prod.mk.inj hd).2
        exact releaseFrom hl hk' fun owner hf _ he =>
          h.deallocate (by rw [ho]; rfl) hd hf fun _ => he

/-! ### The threads -/

section
variable {t : Tid} {c : DropThread} {handles : List (Addr × Nat)}

theorem frees_set (u : Option Tid) (hu : u ≠ some t) :
    ({ s with arena, handles, threads := s.threads.set t c } : ArenaState).frees u = s.frees u := by
  cases u with
  | none => rfl
  | some v =>
    have hv : v ≠ t := fun e => hu (congrArg some e)
    show ((s.threads.set t c).get v).frees = (s.threads.get v).frees
    rw [Store.get_set_ne _ _ hv]

theorem frees_set_self :
    ({ s with arena, handles, threads := s.threads.set t c } : ArenaState).frees (some t) =
      c.frees := by
  show ((s.threads.set t c).get t).frees = c.frees
  rw [Store.get_set_self]

theorem frees_set_same (hc : c.frees = (s.threads.get t).frees) (u : Option Tid) :
    ({ s with arena, handles, threads := s.threads.set t c } : ArenaState).frees u = s.frees u := by
  by_cases e : u = some t
  · rw [e]
    exact frees_set_self.trans hc
  · exact frees_set u e

end

theorem giveBlock (h : LifetimeInv s) (hb : BlocksInv s) {t : Tid} {i : Nat} {page : PageArena}
    (hd : s.threads.get t = .drop p i .fetchAdd)
    (hg : PageArena.giveBlock i (s.arena.page p) = (page, last)) :
    LifetimeInv { s with
      arena := s.arena.setPage p page
      threads := s.threads.set t (.drop p i (if last then .deallocate else .push .loadInFree)) } := by
  have h0 : handOf s.threads t = some (p, i) := handOf_get hd
  have hlive : s.Live p i := Or.inr ⟨t, h0⟩
  obtain ⟨h1, h2, -⟩ := hb.clear p i hlive
  have hi := hb.index p i hlive
  have hheld : PageArena.refs.held (s.arena.page p) i := ⟨blockPerPage_eq ▸ hi, h1, h2⟩
  have hidle : s.frees (some t) = none := by
    show (s.threads.get t).frees = none
    rw [hd]
    rfl
  have h63 : ∀ q, ((s.arena.setPage p page).words q).2.getLsbD 63 =
      (s.arena.words q).2.getLsbD 63 := by
    intro q
    rw [Arena.words_setPage]
    split
    · rename_i e
      obtain ⟨-, -, howned, -⟩ := PageArena.refs_lawful.giveBlock (h.dues.wf p) hheld hg
      rw [e, Bool.eq_iff_iff]
      simpa [PageArena.refs, Arena.words] using not_congr howned
    · rfl
  refine ⟨h.dues.giveBlock PageArena.refs_lawful hheld hlive hg (fun q => Arena.page_setPage)
    (fun q j => owned_give hb.ledger h0 ?_ (handOf_set_ne _)) hidle ?_ frees_set, fun q hq => ?_,
    fun q j hq hl => ?_, ?_⟩
  · rw [handOf_set_self]
    cases last <;> rfl
  · rw [frees_set_self]
    cases last <;> rfl
  · exact h.given q ((h63 q).symm.trans hq)
  · refine h.used q j ((h63 q).symm.trans hq) ((owned_give hb.ledger h0 ?_ (handOf_set_ne _)).mp hl).1
    rw [handOf_set_self]
    cases last <;> rfl
  · obtain ⟨rfl, -⟩ := Prod.mk.inj hg
    exact h.leaves.congr rfl rfl (Arena.next_setPage rfl) h63

theorem step (h : LifetimeInv s) (ha : ArenaInv s) (hc : CountInv s) (ht : TakenInv s)
    {a : ArenaAct} (hm : ArenaState.Moves s a s') : LifetimeInv s' := by
  have hb : BlocksInv s' := (ha.step hm).blocks
  cases hm with
  | startAlloc ho | startShrink ho =>
    exact h.ownerKeep s.arena hb rfl rfl (fun _ => rfl) (by rw [ho]; rfl) rfl
      (fun e => by rw [ho] at e; cases e) trivial
  | startRelease ho =>
    obtain ⟨place, carried, listed, hl⟩ := ha.lists (by rw [ho]; rfl)
    have hcount := hl.counts hc (by rw [ho]; rfl)
    rw [ho] at hcount
    refine h.ownerKeep s.arena hb rfl rfl (fun _ => rfl) (by rw [ho]; rfl) rfl
      (fun _ => rfl) ⟨listed, hl.full, fun q => ⟨fun hq => ?_, fun hq => hcount.2 q hq.1 hq.2⟩⟩
    obtain ⟨h1, h2⟩ := hl.listed q hq
    refine ⟨hl.lt_size h1, ?_⟩
    by_contra h63
    exact h2 (hl.given q (by simpa using h63))
  | alloc ho hs => exact h.alloc ha ho hs hb
  | shrink ho hs => exact h.shrink ha ht ho hs hb
  | release ho hs => exact h.release ha.blocks ht ho hs
  | @startDrop t p i hidle hi =>
    have h0 : handOf s.threads t = none := handOf_get hidle
    refine h.keep hb rfl (Nat.le_refl _) (fun _ => rfl) (fun q _ => ⟨rfl, fun j => ?_⟩) (fun w => ?_)
      id h.leaves
    · exact owned_take ha.blocks.ledger hi h0 (handOf_set_self _) (handOf_set_ne _)
    · exact frees_set_same (by rw [hidle]; rfl) w
  | giveBlock hd hg => exact h.giveBlock ha.blocks hd hg
  | @freeBlock t _ p i hd =>
    have h0 : handOf s.threads t = none := handOf_get hd
    refine h.freePage (w := some t) (p := p) ?_ frees_set_self frees_set rfl rfl
      (fun q => Arena.words_setPage_same (a := s.arena) rfl)
      (fun q j => owned_congr (handOf_set_same _ h0.symm)) id
      (h.leaves.congr rfl rfl (Arena.next_setPage (a := s.arena) rfl) fun q => ?_)
    · show (s.threads.get t).frees = some p
      rw [hd]
      rfl
    · exact congrArg (fun w => w.2.getLsbD 63) (Arena.words_setPage_same (a := s.arena) rfl)
  | @push t _ p i pc links pending control hd hp =>
    have h0 : handOf s.threads t = none := handOf_get hd
    have h1 : (ArenaState.afterDrop p i (control.map .push)).hand = none := by cases control <;> rfl
    have h2 : (ArenaState.afterDrop p i (control.map .push)).frees = none := by cases control <;> rfl
    have hw : ∀ q, (s.arena.setPage p { s.arena.page p with toPageLinks := links }).words q =
      s.arena.words q := fun q => Arena.words_setPage_same rfl
    have h63 := fun q => congrArg (fun w : Bitfield × Bitfield => w.2.getLsbD 63) (hw q)
    refine h.keep hb rfl (Nat.le_refl _) h63 (fun q _ => ⟨hw q, fun j => ?_⟩) (fun w => ?_) id
      (h.leaves.congr rfl rfl (Arena.next_setPage (PageLinks.next_push hp)) h63)
    · exact owned_congr (handOf_set_same _ (h1.trans h0.symm))
    · exact frees_set_same (by rw [hd]; exact h2) w

theorem start (cap : Nat) : LifetimeInv (.start cap) := by
  have h63 : ∀ q, (((ArenaState.start cap).arena.words q).2).getLsbD 63 = false := by
    intro q
    rw [BlocksInv.words_start]
    simp
  refine ⟨.start (fun q => ?_) h63 fun w => ?_, fun q hq => ?_, fun q i hq => ?_, trivial⟩
  · exact Arena.wf_of_split ((BlocksInv.start cap).split q) (h63 q)
  · cases w with
    | none => rfl
    | some t => exact congrArg DropThread.frees (Store.get_empty t)
  · rw [h63] at hq
    cases hq
  · rw [h63] at hq
    cases hq

theorem of_reach {C : ArenaState → ArenaAct → Prop} (h : Arena.machine.Reach C s) :
    LifetimeInv s := by
  apply h.invariant
  · intro s hs
    obtain ⟨cap, rfl⟩ := hs
    exact start cap
  · intro s a s' hr hi _ hs
    exact hi.step (ArenaInv.of_reach hr) (CountInv.of_reach hr) (TakenInv.of_reach hr)
      (ArenaState.moves_of_step hs)

end LifetimeInv

namespace Arena

/-- In every run, a page that is due was deallocated once, or one caller is about to
deallocate it; no other page was deallocated. Nothing is left of an arena that was dropped
but the pages of its handles. A drop past its `fetch_add` may still use the flag and the links of a
deallocated page: its cells stay in the model, and its address is not used again. -/
theorem pages_deallocated_once {s : ArenaState} (h : machine.Reach Machine.always s) :
    (s.arena.heap.freed.map Freed.page).Nodup ∧
    (∀ p, p ∈ s.arena.heap.freed.map Freed.page ∨ (∃ w, s.frees w = some p) ↔
      (s.arena.words p).2.getLsbD 63 = true ∧ ∀ i, ¬ s.Live p i) ∧
    (∀ w p, s.frees w = some p → p ∉ s.arena.heap.freed.map Freed.page ∧
      ∀ w', s.frees w' = some p → w' = w) ∧
    (s.owner = .released → (∀ t, s.threads.get t = .idle) → ∀ p < s.arena.heap.size,
      (p ∈ s.arena.heap.freed.map Freed.page ↔ ∀ i, (p, i) ∉ s.handles)) := by
  have hi := LifetimeInv.of_reach h
  have hledger := hi.dues.ledger
  refine ⟨hledger.nodup, fun p => (hi.dues.owned p).trans ?_, fun w p hw => ?_,
    fun ho ht p hp => ?_⟩
  · exact and_congr_left' (Bool.not_eq_false _).to_iff
  · exact ⟨hledger.apart w p hw, fun w' hw' => hledger.inj w' w p hw' hw⟩
  · -- no caller is left, and the arena gave every page up
    have hnone : ∀ w, s.frees w = none := by
      intro w
      cases w with
      | none =>
        show s.owner.frees = none
        rw [ho]
        rfl
      | some t => exact congrArg DropThread.frees (ht t)
    have hleaves := hi.leaves
    rw [ho] at hleaves
    have h63 : (s.arena.words p).2.getLsbD 63 ≠ false := by
      intro e
      have hp := (hleaves p).mpr ⟨hp, e⟩
      cases hp
    have hhand : ∀ t, handOf s.threads t = none := fun t => congrArg DropThread.hand (ht t)
    rw [hi.dues.mem_freed hnone]
    refine (and_iff_right h63).trans ?_
    exact forall_congr' fun i => not_congr (owned_empty hhand)

/-- The arena is dropped while block 0 of its only page is in use, and the page goes with
the handle. -/
def outlivedPage : List ArenaAct :=
  [.alloc, .stepOwner, .stepOwner, .release] ++ List.replicate 3 .stepOwner ++
    [.drop 0 0 0, .step 0 true, .step 0 true]

theorem pages_deallocated_once_outlived : ∃ s : ArenaState, s.arena.heap.size = 1 ∧
    s.arena.heap.freed.map Freed.page = [0] ∧ ∀ i, (0, i) ∉ s.handles := by
  have hstart : machine.init (.start 63) := ⟨63, rfl⟩
  obtain ⟨s, hs, hp⟩ := Machine.Reach.exists_of_runIf hstart (fun _ _ => true) outlivedPage
    (fun s => s.owner = .released && s.threads.all (fun c => c = .idle) &&
      s.arena.heap.size = 1 && s.arena.heap.freed.map Freed.page = [0])
    (fun _ _ _ => trivial) (by decide +kernel)
  simp only [Bool.and_eq_true, decide_eq_true_eq] at hp
  obtain ⟨⟨⟨ho, ht⟩, hsize⟩, hfreed⟩ := hp
  have hidle : ∀ t, s.threads.get t = .idle := fun t => of_decide_eq_true (Store.all_iff.mp ht t)
  refine ⟨s, hsize, hfreed, ((pages_deallocated_once hs).2.2.2 ho hidle 0 ?_).mp ?_⟩
  · rw [hsize]
    exact Nat.one_pos
  · rw [hfreed]
    exact List.mem_singleton_self 0

end Arena

end MemoryPools
