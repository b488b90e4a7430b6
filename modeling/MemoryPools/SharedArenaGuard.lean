import MemoryPools.SharedArena
import MemoryPools.Lists
import MemoryPools.Interleave.Ledger

/-!
# The writer of a shared arena

One thread at a time is the writer. Only the writer fills `free_list` and `to_free`
and changes `full_list`, so what it saw of them stays true until it acts, and no
assertion on the lists fails.
-/

namespace MemoryPools

open Interleave

namespace SharedArena

variable {a a' : SharedArena} {p q : Addr} {x : PageSharedArena}

theorem page_setPage : (a.setPage p x).page q = if q = p then x else a.page q :=
  Heap.get_set _ _ _ _

theorem next_setPage (h : x.next = a.next p) : (a.setPage p x).next = a.next :=
  PageOps.next_set_same h

theorem inFreeList_setPage (h : x.inFreeList = a.inFreeList p) :
    (a.setPage p x).inFreeList = a.inFreeList :=
  PageOps.inFreeList_set_same h

theorem links_acquire {page : PageSharedArena} {pc : PageSharedArena.AcquirePc} :
    (PageSharedArena.acquireFreeBlock page pc).1.toPageLinks = page.toPageLinks := by
  cases pc with
  | load => rfl
  | fetchAnd =>
    unfold PageSharedArena.acquireFreeBlock
    dsimp only
    split <;> rfl

theorem acquire_ne_panic {page : PageSharedArena} {pc : PageSharedArena.AcquirePc} :
    (PageSharedArena.acquireFreeBlock page pc).2 ≠ .panic := by
  cases pc with
  | load =>
    simp only [PageSharedArena.acquireFreeBlock]
    split <;> simp
  | fetchAnd =>
    simp only [PageSharedArena.acquireFreeBlock]
    split <;> simp

theorem dropPage_control (a : SharedArena) (p : Addr) (pc : DropPagePc) :
    (a.dropPage p pc).2 = .ret () ∨ (pc = .fetch ∧ (a.dropPage p pc).2 = .goto .deallocate) := by
  cases pc with
  | fetch =>
    simp only [dropPage, PageSharedArena.dropPage, PageOps.dropPage]
    split
    · exact Or.inr ⟨trivial, rfl⟩
    · exact Or.inl rfl
  | deallocate => exact Or.inl rfl

/-! ## What the writer knows -/

def PutPc.Knows (a : SharedArena) : PutPc → Prop
  | .loadFull | .loadFree | .swapFree => a.freeList = none
  | .storeNext current | .swapFull current => a.freeList = none ∧ current = a.fullList
  | .addPages => True

def TakePc.Knows (a : SharedArena) : TakePc → Prop
  | .swapToFree => a.freeList = none
  | .loadPages toFree => a.freeList = none ∧ a.toFree = none ∧ toFree ≠ []
  | .linkFree _ reinsert rest | .link _ reinsert rest | .setInFree _ reinsert rest =>
    a.freeList = none ∧ a.toFree = none ∧ reinsert ≠ [] ∧ rest ≠ []
  | .put _ _ _ _ pc => pc.Knows a ∧ a.toFree = none
  | .storeToFree kept => a.toFree = none ∧ kept ≠ []
  | .storeDelay _ => True

def FindPc.Knows (a : SharedArena) : FindPc → Prop
  | .loadPending | .swapPending | .swapFree _ | .loadToFree | .loadPages => a.freeList = none
  | .take pc => pc.Knows a
  | .put _ _ _ pc => pc.Knows a
  | _ => True

def ShrinkPc.Knows (a : SharedArena) : ShrinkPc → Prop
  | .loadPages _ | .walk .. | .walkNext .. | .walkBits .. | .walkCas .. => a.freeList = none
  | .retain .. | .full .. | .restore .. => a.freeList = none
  | .fullNext _ _ current value | .fullCas _ _ current value _ =>
    a.freeList = none ∧ readLink a.next a.fullList current = some value
  | .storeDelay _ toDrop | .swapToFree _ toDrop => a.freeList = none ∧ toDrop ≠ []
  | .storeToFree _ _ toFree => a.freeList = none ∧ a.toFree = none ∧ toFree ≠ []
  | _ => True

def FindPc.writes : FindPc → Bool
  | .maybeFree guarded _ => guarded
  | .recheckFree | .loadPending | .swapPending | .swapFree _ | .loadToFree | .take _ | .loadPages
  | .put .. | .unlock =>
    true
  | _ => false

def ShrinkPc.writes : ShrinkPc → Bool
  | .swapShrinking | .swapWriter => false
  | _ => true

end SharedArena

open SharedArena

namespace SharedCall

def Knows (a : SharedArena) : SharedCall → Prop
  | .alloc pc => pc.Knows a
  | .shrink pc => pc.Knows a
  | _ => True

def writes : SharedCall → Bool
  | .alloc pc => pc.writes
  | .shrink pc => pc.writes
  | _ => false

end SharedCall

structure Leaves (a a' : SharedArena) : Prop where
  free : a.freeList = none → a'.freeList = none
  full : a'.fullList = a.fullList
  next : a'.next = a.next
  toFree : a.toFree = none → a'.toFree = none
  writer : a.writer = true → a'.writer = true

theorem Leaves.rfl {a : SharedArena} : Leaves a a := ⟨id, by rfl, by rfl, id, id⟩

namespace SharedCall

variable {a a' : SharedArena} {c : SharedCall}

theorem knows_of_quiet (h : c.writes = false) : c.Knows a := by
  cases c with
  | alloc pc => cases pc <;> trivial
  | shrink pc => cases pc <;> trivial
  | idle | drop | panicked => trivial

theorem Knows.keep (h : c.Knows a) (hl : Leaves a a') : c.Knows a' := by
  have hput : ∀ {pc : PutPc}, pc.Knows a → pc.Knows a' := by
    intro pc h
    cases pc with
    | loadFull | loadFree | swapFree => exact hl.free h
    | storeNext | swapFull => exact ⟨hl.free h.1, h.2.trans hl.full.symm⟩
    | addPages => trivial
  cases c with
  | idle | drop | panicked => trivial
  | alloc pc =>
    cases pc with
    | take pc =>
      cases pc with
      | swapToFree => exact hl.free h
      | loadPages | linkFree | link | setInFree => exact ⟨hl.free h.1, hl.toFree h.2.1, h.2.2⟩
      | put => exact ⟨hput h.1, hl.toFree h.2⟩
      | storeToFree => exact ⟨hl.toFree h.1, h.2⟩
      | storeDelay => trivial
    | put => exact hput h
    | loadPending | swapPending | swapFree | loadToFree | loadPages => exact hl.free h
    | loadFree | acquire | loadNext | casFree | clearInFree | loadWriter | swapWriter
    | loadContended | maybeFree
      | recheckFree | unlock => trivial
  | shrink pc =>
    cases pc with
    | loadPages | walk | walkNext | walkBits | walkCas | retain | full | restore => exact hl.free h
    | fullNext | fullCas => exact ⟨hl.free h.1, by rw [hl.next, hl.full]; exact h.2⟩
    | storeDelay | swapToFree => exact ⟨hl.free h.1, h.2⟩
    | storeToFree => exact ⟨hl.free h.1, hl.toFree h.2.1, h.2.2⟩
    | swapShrinking | swapWriter | swapFree | subPages | clearShrinking | unlock => trivial

end SharedCall

structure Steps (a a' : SharedArena) (c c' : SharedCall) : Prop where
  knows : c'.Knows a'
  toFree : a'.toFree ≠ some []
  leaves : c.writes = false → Leaves a a'
  enters : c'.writes = true → a'.writer = true ∧ (c.writes = true ∨ a.writer = false)
  calm : c' ≠ .panicked

theorem Steps.quiet {a : SharedArena} {c c' : SharedCall} (ht : a.toFree ≠ some [])
    (hk : c'.Knows a) (hw : c'.writes = true → c.writes = true)
    (hup : c.writes = true → a.writer = true) (hc : c' ≠ .panicked) : Steps a a c c' :=
  ⟨hk, ht, fun _ => Leaves.rfl, fun h => ⟨hup (hw h), Or.inl (hw h)⟩, hc⟩

namespace SharedArena

variable {a a' : SharedArena}

theorem putPages_knows (n : Nat) (first last : Addr) {pc : PutPc} (h : pc.Knows a) :
    (a.putPages n first last pc).1.toFree = a.toFree ∧
    (a.putPages n first last pc).1.writer = a.writer ∧
    ((a.putPages n first last pc).2 = .ret () ∨
      ∃ pc', (a.putPages n first last pc).2 = .goto pc' ∧
      pc'.Knows (a.putPages n first last pc).1) := by
  cases pc with
  | loadFull => exact ⟨rfl, rfl, Or.inr ⟨_, rfl, h, rfl⟩⟩
  | storeNext => exact ⟨rfl, rfl, Or.inr ⟨_, rfl, h⟩⟩
  | swapFull current =>
    exact ⟨rfl, rfl, Or.inr ⟨.loadFree, if_pos h.2, h.1⟩⟩
  | loadFree => exact ⟨rfl, rfl, Or.inr ⟨.swapFree, if_pos h, h⟩⟩
  | swapFree => exact ⟨rfl, rfl, Or.inr ⟨.addPages, if_pos h, trivial⟩⟩
  | addPages => exact ⟨rfl, rfl, Or.inl rfl⟩

theorem linkFrom_knows {kept reinsert rest : List Addr} (hf : a.freeList = none)
    (ht : a.toFree = none) (hr : reinsert ≠ []) :
    ∃ pc, linkFrom kept reinsert rest = .goto pc ∧ pc.Knows a := by
  cases rest with
  | cons q rest => exact ⟨_, rfl, hf, ht, hr, by simp⟩
  | nil =>
    cases reinsert with
    | nil => exact absurd rfl hr
    | cons q l =>
      cases hl : (q :: l).getLast? with
      | none => simp at hl
      | some last =>
        refine ⟨.put kept (q :: l) q last .loadFull, ?_, hf, ht⟩
        unfold linkFrom
        rw [hl]
        rfl

theorem takePages_knows {pc : TakePc} (h : pc.Knows a) (ht : a.toFree ≠ some []) :
    (a.takePages pc).1.toFree ≠ some [] ∧ (a.takePages pc).1.writer = a.writer ∧
    ((a.takePages pc).2 = .ret () ∨ ∃ pc', (a.takePages pc).2 = .goto pc' ∧
    pc'.Knows (a.takePages pc).1) := by
  cases pc with
  | swapToFree =>
    refine ⟨by simp [takePages], rfl, ?_⟩
    cases hl : a.toFree with
    | none => exact Or.inl (by simp [takePages, hl])
    | some l =>
      refine Or.inr ⟨.loadPages l, by simp [takePages, hl], h, rfl, fun e => ?_⟩
      rw [e] at hl; exact ht hl
  | loadPages l =>
    obtain ⟨hf, htf, hl⟩ := h
    have hpos := List.length_pos_iff.mpr hl
    exact ⟨ht, rfl, Or.inr (linkFrom_knows hf htf (by
      rw [Ne, List.drop_eq_nil_iff]
      omega))⟩
  | linkFree kept reinsert rest =>
    cases rest with
    | nil => exact absurd rfl h.2.2.2
    | cons q rest => exact ⟨ht, rfl, Or.inr ⟨_, rfl, h⟩⟩
  | link kept reinsert rest =>
    cases rest with
    | nil => exact absurd rfl h.2.2.2
    | cons q rest => exact ⟨ht, rfl, Or.inr ⟨_, rfl, h⟩⟩
  | setInFree kept reinsert rest =>
    cases rest with
    | nil => exact absurd rfl h.2.2.2
    | cons q rest => exact ⟨ht, rfl, Or.inr (linkFrom_knows h.1 h.2.1 h.2.2.1)⟩
  | put kept reinsert first last pc =>
    obtain ⟨h, htf⟩ := h
    obtain ⟨h1, h2, h3⟩ := putPages_knows reinsert.length first last h
    refine ⟨fun e => ht (h1.symm.trans e), h2, Or.inr ?_⟩
    simp only [takePages]
    rcases h3 with h3 | ⟨pc', h3, hk⟩
    · rw [h3]
      refine ⟨_, rfl, ?_⟩
      split
      · rename_i hk; exact ⟨h1.trans htf, hk⟩
      · trivial
    · rw [h3]
      exact ⟨_, rfl, hk, h1.trans htf⟩
  | storeToFree kept =>
    obtain ⟨htf, hk⟩ := h
    exact ⟨fun e => hk (Option.some.inj e), rfl, Or.inr ⟨.storeDelay 0, if_pos htf, trivial⟩⟩
  | storeDelay => exact ⟨ht, rfl, Or.inl rfl⟩

theorem maybeFree_knows (pc : MaybePc) (ht : a.toFree ≠ some []) :
    (a.maybeFreePages pc).1.toFree ≠ some [] ∧ Leaves a (a.maybeFreePages pc).1 ∧
    ((a.maybeFreePages pc).2 = .ret () ∨ ∃ pc', (a.maybeFreePages pc).2 = .goto pc') := by
  have hpages : ∀ l, dropPages l = .ret () ∨ ∃ pc', dropPages l = .goto pc' := by
    intro l
    cases l with
    | nil => exact Or.inl rfl
    | cons q l => exact Or.inr ⟨_, rfl⟩
  cases pc with
  | loadDelay =>
    refine ⟨ht, Leaves.rfl, ?_⟩
    simp only [maybeFreePages]
    split
    · exact Or.inr ⟨_, rfl⟩
    · exact Or.inl rfl
  | fetchAdd =>
    refine ⟨ht, ⟨id, rfl, rfl, id, id⟩, ?_⟩
    simp only [maybeFreePages]
    split
    · exact Or.inr ⟨_, rfl⟩
    · exact Or.inl rfl
  | swapToFree => exact ⟨by simp [maybeFreePages], ⟨id, rfl, rfl, fun _ => rfl, id⟩, hpages _⟩
  | dropPage p rest pc =>
    have hnext : (a.maybeFreePages (.dropPage p rest pc)).1.next = a.next := by
      cases pc <;> exact next_setPage (a := a) rfl
    refine ⟨ht, ⟨id, rfl, hnext, id, id⟩, ?_⟩
    simp only [maybeFreePages]
    rcases dropPage_control a p pc with e | ⟨-, e⟩
    · rw [e]; exact hpages rest
    · rw [e]; exact Or.inr ⟨_, rfl⟩

theorem findPlace_steps {pc : FindPc} {control : Control FindPc (Addr × Nat)} (h : pc.Knows a)
    (ht : a.toFree ≠ some []) (hup : pc.writes = true → a.writer = true)
    (hs : a.findPlace pc = (a', control)) :
    Steps a a' (.alloc pc) (.afterAlloc control) := by
  cases pc with
  | loadFree =>
    simp only [findPlace] at hs
    split at hs <;> obtain ⟨rfl, rfl⟩ := Prod.mk.inj hs
    · exact .quiet ht trivial nofun hup nofun
    · exact .quiet ht trivial nofun hup nofun
  | acquire p pc =>
    simp only [findPlace] at hs
    obtain ⟨rfl, rfl⟩ := Prod.mk.inj hs
    have hnext : (a.setPage p (PageSharedArena.acquireFreeBlock (a.page p) pc).1).next = a.next :=
      next_setPage (congrArg PageLinks.next links_acquire)
    have hl : Leaves a (a.setPage p (PageSharedArena.acquireFreeBlock (a.page p) pc).1) :=
      ⟨id, rfl, hnext, id, id⟩
    cases hc : (PageSharedArena.acquireFreeBlock (a.page p) pc).2 with
    | goto pc' => exact ⟨trivial, ht, fun _ => hl, nofun, nofun⟩
    | ret r =>
      cases r with
      | some i => exact ⟨trivial, ht, fun _ => hl, nofun, nofun⟩
      | none => exact ⟨trivial, ht, fun _ => hl, nofun, nofun⟩
    | panic => exact absurd hc acquire_ne_panic
  | loadNext p =>
    obtain ⟨rfl, rfl⟩ := Prod.mk.inj hs
    exact .quiet ht trivial nofun hup nofun
  | casFree p next =>
    simp only [findPlace] at hs
    split at hs <;> obtain ⟨rfl, rfl⟩ := Prod.mk.inj hs
    · rename_i hp
      refine ⟨trivial, ht, fun _ => ⟨fun e => ?_, rfl, rfl, id, id⟩, nofun, nofun⟩
      rw [hp] at e; cases e
    · exact .quiet ht trivial nofun hup nofun
  | clearInFree p =>
    obtain ⟨rfl, rfl⟩ := Prod.mk.inj hs
    have hnext : (a.setPage p { a.page p with inFreeList := false }).next = a.next :=
      next_setPage rfl
    exact ⟨trivial, ht, fun _ => ⟨id, rfl, hnext, id, id⟩, nofun, nofun⟩
  | loadWriter | loadContended =>
    obtain ⟨rfl, rfl⟩ := Prod.mk.inj hs
    split
    · exact .quiet ht trivial nofun hup nofun
    · exact .quiet ht trivial nofun hup nofun
  | swapWriter =>
    obtain ⟨rfl, rfl⟩ := Prod.mk.inj hs
    cases hw : a.writer with
    | true => exact ⟨trivial, ht, fun _ => ⟨id, rfl, rfl, id, fun _ => rfl⟩, nofun, nofun⟩
    | false =>
      exact ⟨trivial, ht, fun _ => ⟨id, rfl, rfl, id, fun _ => rfl⟩,
        fun _ => ⟨rfl, Or.inr hw⟩, nofun⟩
  | maybeFree guarded pc =>
    obtain ⟨h1, h2, h3⟩ := maybeFree_knows pc ht
    simp only [findPlace] at hs
    obtain ⟨rfl, rfl⟩ := Prod.mk.inj hs
    rcases h3 with e | ⟨pc', e⟩
    · rw [e]
      cases guarded with
      | true => exact ⟨trivial, h1, nofun, fun _ => ⟨h2.writer (hup rfl), Or.inl rfl⟩, nofun⟩
      | false => exact ⟨trivial, h1, fun _ => h2, nofun, nofun⟩
    · rw [e]
      exact ⟨trivial, h1, fun _ => h2, fun h => ⟨h2.writer (hup h), Or.inl h⟩, nofun⟩
  | recheckFree =>
    obtain ⟨rfl, rfl⟩ := Prod.mk.inj hs
    split
    · rename_i hf
      exact .quiet ht hf (fun _ => rfl) hup nofun
    · exact .quiet ht trivial (fun _ => rfl) hup nofun
  | loadPending | loadToFree =>
    obtain ⟨rfl, rfl⟩ := Prod.mk.inj hs
    split
    · exact .quiet ht h (fun _ => rfl) hup nofun
    · exact .quiet ht h (fun _ => rfl) hup nofun
  | swapPending =>
    obtain ⟨rfl, rfl⟩ := Prod.mk.inj hs
    exact ⟨h, ht, nofun, fun _ => ⟨hup rfl, Or.inl rfl⟩, nofun⟩
  | swapFree pending =>
    have hf : a.freeList = none := h
    simp only [findPlace, hf, ite_true] at hs
    obtain ⟨rfl, rfl⟩ := Prod.mk.inj hs
    exact ⟨trivial, ht, nofun, fun _ => ⟨hup rfl, Or.inl rfl⟩, nofun⟩
  | take pc =>
    obtain ⟨h1, h2, h3⟩ := takePages_knows h ht
    simp only [findPlace] at hs
    obtain ⟨rfl, rfl⟩ := Prod.mk.inj hs
    have hw : (a.takePages pc).1.writer = true := h2.trans (hup rfl)
    rcases h3 with e | ⟨pc', e, hk⟩
    · rw [e]
      exact ⟨trivial, h1, nofun, fun _ => ⟨hw, Or.inl rfl⟩, nofun⟩
    · rw [e]
      exact ⟨hk, h1, nofun, fun _ => ⟨hw, Or.inl rfl⟩, nofun⟩
  | loadPages =>
    obtain ⟨rfl, rfl⟩ := Prod.mk.inj hs
    exact ⟨h, ht, nofun, fun _ => ⟨hup rfl, Or.inl rfl⟩, nofun⟩
  | put n first last pc =>
    obtain ⟨h1, h2, h3⟩ := putPages_knows n first last h
    simp only [findPlace] at hs
    obtain ⟨rfl, rfl⟩ := Prod.mk.inj hs
    have hw : (a.putPages n first last pc).1.writer = true := h2.trans (hup rfl)
    have ht' : (a.putPages n first last pc).1.toFree ≠ some [] := fun e => ht (h1.symm.trans e)
    rcases h3 with e | ⟨pc', e, hk⟩
    · rw [e]
      exact ⟨trivial, ht', nofun, fun _ => ⟨hw, Or.inl rfl⟩, nofun⟩
    · rw [e]
      exact ⟨hk, ht', nofun, fun _ => ⟨hw, Or.inl rfl⟩, nofun⟩
  | unlock =>
    obtain ⟨rfl, rfl⟩ := Prod.mk.inj hs
    exact ⟨trivial, ht, nofun, nofun, nofun⟩

theorem retainFrom_knows {start : Ptr} {kept rest : List Addr} (h : a.freeList = none) :
    (retainFrom start kept rest).Knows a ∧ (retainFrom start kept rest).writes = true := by
  cases rest with
  | nil => exact ⟨h, rfl⟩
  | cons => exact ⟨h, rfl⟩

theorem shrinkToFit_steps {pc : ShrinkPc} {control : Control ShrinkPc Bool} (h : pc.Knows a)
    (ht : a.toFree ≠ some []) (hup : pc.writes = true → a.writer = true)
    (hs : a.shrinkToFit pc = (a', control)) :
    Steps a a' (.shrink pc) (.afterShrink control) := by
  have hwriter : ∀ {a' : SharedArena} {pc' : ShrinkPc}, pc.writes = true → pc'.Knows a' →
    a'.toFree ≠ some [] →
      a'.writer = a.writer → Steps a a' (.shrink pc) (.afterShrink (.goto pc')) := by
    intro a' pc' hpc hk ht' hw
    refine ⟨hk, ht', fun e => ?_, fun _ => ⟨hw.trans (hup hpc), Or.inl hpc⟩, nofun⟩
    have e : pc.writes = false := e
    rw [hpc] at e; cases e
  cases pc with
  | swapShrinking =>
    obtain ⟨rfl, rfl⟩ := Prod.mk.inj hs
    split
    · exact ⟨trivial, ht, fun _ => ⟨id, rfl, rfl, id, id⟩, nofun, nofun⟩
    · exact ⟨trivial, ht, fun _ => ⟨id, rfl, rfl, id, id⟩, nofun, nofun⟩
  | swapWriter =>
    obtain ⟨rfl, rfl⟩ := Prod.mk.inj hs
    cases hw : a.writer with
    | true => exact ⟨trivial, ht, fun _ => ⟨id, rfl, rfl, id, fun _ => rfl⟩, nofun, nofun⟩
    | false =>
      exact ⟨trivial, ht, fun _ => ⟨id, rfl, rfl, id, fun _ => rfl⟩,
        fun _ => ⟨rfl, Or.inr hw⟩, nofun⟩
  | swapFree =>
    obtain ⟨rfl, rfl⟩ := Prod.mk.inj hs
    exact hwriter rfl rfl ht rfl
  | loadPages | walkNext | storeDelay =>
    obtain ⟨rfl, rfl⟩ := Prod.mk.inj hs
    exact hwriter rfl h ht rfl
  | walk start current toDrop =>
    simp only [shrinkToFit] at hs
    split at hs <;> obtain ⟨rfl, rfl⟩ := Prod.mk.inj hs
    · exact hwriter rfl h ht rfl
    · exact hwriter rfl (retainFrom_knows h).1 ht rfl
  | walkBits =>
    simp only [shrinkToFit] at hs
    split at hs <;> obtain ⟨rfl, rfl⟩ := Prod.mk.inj hs
    · exact hwriter rfl h ht rfl
    · exact hwriter rfl h ht rfl
  | walkCas start current value nextValue toDrop =>
    simp only [shrinkToFit] at hs
    split at hs
    · split at hs <;> obtain ⟨rfl, rfl⟩ := Prod.mk.inj hs
      · exact hwriter rfl h ht rfl
      · exact hwriter rfl h ht rfl
    · obtain ⟨rfl, rfl⟩ := Prod.mk.inj hs
      exact hwriter rfl h ht rfl
  | retain start kept page rest =>
    obtain ⟨rfl, rfl⟩ := Prod.mk.inj hs
    exact hwriter rfl (retainFrom_knows h).1 ht rfl
  | full start toDrop current =>
    simp only [shrinkToFit] at hs
    split at hs
    · rename_i value hv
      obtain ⟨rfl, rfl⟩ := Prod.mk.inj hs
      exact hwriter rfl ⟨h, hv⟩ ht rfl
    · obtain ⟨rfl, rfl⟩ := Prod.mk.inj hs
      split
      · rename_i hd; exact hwriter rfl ⟨h, hd⟩ ht rfl
      · exact hwriter rfl h ht rfl
  | fullNext start toDrop current value =>
    simp only [shrinkToFit] at hs
    split at hs <;> obtain ⟨rfl, rfl⟩ := Prod.mk.inj hs
    · exact hwriter rfl h ht rfl
    · exact hwriter rfl h.1 ht rfl
  | fullCas start toDrop current value nextValue =>
    obtain ⟨hf, hr⟩ := h
    simp only [shrinkToFit, hr, ite_true] at hs
    split at hs <;> obtain ⟨rfl, rfl⟩ := Prod.mk.inj hs
    · exact hwriter rfl hf ht rfl
    · exact hwriter rfl hf ht rfl
  | swapToFree start toDrop =>
    obtain ⟨rfl, rfl⟩ := Prod.mk.inj hs
    refine hwriter rfl ⟨h.1, rfl, fun e => h.2 ?_⟩ (by simp) rfl
    exact (List.append_eq_nil_iff.mp e).2
  | storeToFree start nfreed toFree =>
    obtain ⟨hf, htf, hl⟩ := h
    simp only [shrinkToFit, htf, ite_true] at hs
    obtain ⟨rfl, rfl⟩ := Prod.mk.inj hs
    exact hwriter rfl hf (fun e => hl (Option.some.inj e)) rfl
  | restore start nfreed =>
    have hf : a.freeList = none := h
    simp only [shrinkToFit, hf, ite_true] at hs
    obtain ⟨rfl, rfl⟩ := Prod.mk.inj hs
    exact hwriter rfl trivial ht rfl
  | subPages | clearShrinking =>
    obtain ⟨rfl, rfl⟩ := Prod.mk.inj hs
    exact hwriter rfl trivial ht rfl
  | unlock =>
    obtain ⟨rfl, rfl⟩ := Prod.mk.inj hs
    exact ⟨trivial, ht, nofun, nofun, nofun⟩

end SharedArena

/-! ## The invariant -/

structure GuardInv (s : SharedState) : Prop where
  lock : Locked s.arena.writer fun t => (s.threads.get t).writes
  knows : ∀ t, (s.threads.get t).Knows s.arena
  toFree : s.arena.toFree ≠ some []
  calm : ∀ t, s.threads.get t ≠ .panicked

namespace GuardInv

variable {s s' : SharedState} {arena : SharedArena} {handles : List (Addr × Nat)} {t : Tid}
  {c c' : SharedCall}

theorem thread (h : GuardInv s) (hc : s.threads.get t = c) (hs : Steps s.arena arena c c') :
    GuardInv { arena, handles, threads := s.threads.set t c' } := by
  have hself : ((s.threads.set t c').get t) = c' := Store.get_set_self _ _ _
  have hother : ∀ u, u ≠ t → (s.threads.set t c').get u = s.threads.get u :=
    fun u hu => Store.get_set_ne _ _ hu
  refine ⟨h.lock.move (t := t) (fun u hu => by rw [hother u hu]) ?_ ?_,
    fun u => ?_, hs.toFree, fun u => ?_⟩
  · rw [hself, hc]; exact hs.enters
  · rw [hself, hc]; exact fun hw _ hup => (hs.leaves hw).writer hup
  · by_cases e : u = t
    · subst e; rw [hself]; exact hs.knows
    · show ((s.threads.set t c').get u).Knows arena
      rw [hother u e]
      cases hu : (s.threads.get u).writes with
      | false => exact SharedCall.knows_of_quiet hu
      | true =>
        -- the writer is another thread
        refine (h.knows u).keep (hs.leaves ?_)
        by_contra hw
        exact e (h.lock.one u t hu (by rw [hc]; simpa using hw))
  · by_cases e : u = t
    · subst e; rw [hself]; exact hs.calm
    · show (s.threads.set t c').get u ≠ _
      rw [hother u e]; exact h.calm u

theorem outside (h : GuardInv s) (hc : s.threads.get t = c) (hw' : c'.writes = false)
    (hcalm : c' ≠ .panicked) (hl : Leaves s.arena arena) (ht : arena.toFree = s.arena.toFree) :
    GuardInv { arena, handles, threads := s.threads.set t c' } :=
  h.thread hc ⟨SharedCall.knows_of_quiet hw', by rw [ht]; exact h.toFree, fun _ => hl,
    fun e => (by rw [hw'] at e; cases e), hcalm⟩

theorem step (h : GuardInv s) {a : SharedAct} (hm : SharedState.Moves s a s') : GuardInv s' := by
  cases hm with
  | startAlloc ht => exact h.outside ht rfl (by simp) Leaves.rfl rfl
  | startShrink ht => exact h.outside ht rfl (by simp) Leaves.rfl rfl
  | startDrop ht hi => exact h.outside ht rfl (by simp) Leaves.rfl rfl
  | @alloc t pc arena control ht hs =>
    have hk := h.knows t
    rw [ht] at hk
    exact h.thread ht
      (findPlace_steps hk h.toFree (fun hw => h.lock.up t (by rw [ht]; exact hw)) hs)
  | @shrink t pc arena control ht hs =>
    have hk := h.knows t
    rw [ht] at hk
    exact h.thread ht
      (shrinkToFit_steps hk h.toFree (fun hw => h.lock.up t (by rw [ht]; exact hw)) hs)
  | giveBlock ht hg =>
    obtain ⟨rfl, rfl⟩ := Prod.mk.inj hg
    exact h.outside ht rfl (by simp) ⟨id, rfl, next_setPage rfl, id, id⟩ rfl
  | freeBlock ht =>
    exact h.outside ht rfl (by simp) ⟨id, rfl, next_setPage (a := s.arena) rfl, id, id⟩ rfl
  | @push t p i pc links pending control ht hp =>
    have hcalm : control ≠ .panic := by
      intro e
      subst e
      cases pc with
      | loadInFree | swapInFree =>
        simp only [PageLinks.push, Prod.mk.injEq] at hp
        split at hp <;> simp at hp
      | casPending =>
        simp only [PageLinks.push] at hp
        split at hp <;> simp at hp
      | upgrade | loadPending | storeNextFree => simp [PageLinks.push] at hp
    refine h.outside ht ?_ ?_ ⟨id, rfl, ?_, id, id⟩ rfl
    · cases control <;> rfl
    · cases control <;> simp_all [SharedCall.afterDrop, Control.map]
    · exact next_setPage (a := s.arena) (PageLinks.next_push hp)

theorem start (cap : Nat) : GuardInv (.start cap) := by
  have hthread : ∀ t, (SharedState.start cap).threads.get t = .idle := Store.get_empty
  refine ⟨⟨fun t ht => ?_, fun t u ht => ?_⟩,
    fun t => ?_, by simp [SharedState.start, withCapacity], fun t => ?_⟩
  · simp only [hthread] at ht; cases ht
  · simp only [hthread] at ht; cases ht
  · rw [hthread]; trivial
  · rw [hthread]; simp

theorem of_reach {C : SharedState → SharedAct → Prop} (h : SharedArena.machine.Reach C s) :
    GuardInv s := by
  refine h.invariant ?_ fun _ _ _ _ hi _ hs => hi.step (SharedState.moves_of_step hs)
  intro s hs
  obtain ⟨cap, rfl⟩ := hs
  exact start cap

end GuardInv

end MemoryPools
