import MemoryPools.SharedArenaBlocks
import MemoryPools.SharedArenaSound

/-!
# The pointers of a shared arena

The threads make up no pointer: what they write they have read, or it is a page that they
have just made. So every page that a thread looks at exists, also where the free list was
changed under a `compare_exchange`. A block that is in use is not taken again, on the pages that
were deallocated neither: their cells stay.
-/

namespace MemoryPools

open Interleave

namespace SharedArena

open PageSharedArena (ops)

/-! ## What a call has read -/

def MaybePc.pages : MaybePc → List Addr
  | .dropPage page rest _ => page :: rest
  | .loadDelay | .fetchAdd | .swapToFree => []

def TakePc.pages : TakePc → List Addr
  | .loadPages toFree => toFree
  | .linkFree kept reinsert rest | .link kept reinsert rest | .setInFree kept reinsert rest =>
    kept ++ reinsert ++ rest
  | .put kept _ first _ _ => first :: kept
  | .storeToFree kept => kept
  | .swapToFree | .storeDelay _ => []

def FindPc.pages : FindPc → List Addr
  | .acquire page _ | .loadNext page | .clearInFree page => [page]
  | .casFree page next => page :: next.toList
  | .maybeFree _ pc => pc.pages
  | .swapFree pending => pending.toList
  | .take pc => pc.pages
  | .put _ first _ _ => [first]
  | .loadFree | .loadWriter | .swapWriter | .loadContended | .recheckFree | .loadPending
  | .swapPending | .loadToFree | .loadPages | .unlock => []

def ShrinkPc.pages : ShrinkPc → List Addr
  | .loadPages start => start.toList
  | .walk start _ toDrop => start.toList ++ toDrop
  | .walkNext start _ value toDrop => value :: (start.toList ++ toDrop)
  | .walkBits start _ value nextValue toDrop | .walkCas start _ value nextValue toDrop =>
    value :: (nextValue.toList ++ start.toList ++ toDrop)
  | .retain start kept page rest => start.toList ++ kept ++ page :: rest
  | .full start toDrop _ | .fullNext start toDrop _ _ | .fullCas start toDrop _ _ _
  | .storeDelay start toDrop | .swapToFree start toDrop => start.toList ++ toDrop
  | .storeToFree start _ toFree => start.toList ++ toFree
  | .restore start _ => start.toList
  | .swapShrinking | .swapWriter | .swapFree | .subPages _ | .clearShrinking | .unlock => []

def Points (a : SharedArena) (q : Addr) : Prop :=
  a.freeList = some q ∨ a.pendingFreeList = some q ∨ (∃ l, a.toFree = some l ∧ q ∈ l) ∨
    ∃ p, a.nextFree p = some q

variable {a a' : SharedArena} {p q : Addr} {x : PageSharedArena}

theorem points_setPage (h : (a.setPage p x).Points q) : a.Points q ∨ x.nextFree = some q := by
  rcases h with h | h | h | ⟨r, h⟩
  · exact Or.inl (Or.inl h)
  · exact Or.inl (Or.inr (Or.inl h))
  · exact Or.inl (Or.inr (Or.inr (Or.inl h)))
  · rw [show (a.setPage p x).nextFree = Function.update a.nextFree p x.nextFree from
      PageOps.nextFree_set .., Function.update_apply] at h
    split at h
    · exact Or.inr h
    · exact Or.inl (Or.inr (Or.inr (Or.inr ⟨r, h⟩)))

theorem points_setPage_same (hx : x.nextFree = a.nextFree p) (h : (a.setPage p x).Points q) :
    a.Points q := by
  rcases points_setPage h with h | h
  · exact h
  · rw [hx] at h
    exact Or.inr (Or.inr (Or.inr ⟨p, h⟩))

/-! ## What an operation writes -/

/-- An operation copies pointers of the arena and of the call, or makes new pages. -/
def Copies (a a' : SharedArena) (pages pages' : List Addr) : Prop :=
  a.heap.size ≤ a'.heap.size ∧
    ∀ q, a'.Points q ∨ q ∈ pages' → a.Points q ∨ q ∈ pages ∨ q < a'.heap.size

variable {pages pages' : List Addr}

theorem Copies.same (h : ∀ q ∈ pages', a.Points q ∨ q ∈ pages) : Copies a a pages pages' := by
  refine ⟨Nat.le_refl _, fun q hq => ?_⟩
  rcases hq with hq | hq
  · exact Or.inl hq
  · exact (h q hq).imp_right Or.inl

theorem Copies.write (hx : ∀ q, x.nextFree = some q → a.Points q ∨ q ∈ pages)
    (h : ∀ q ∈ pages', a.Points q ∨ q ∈ pages) : Copies a (a.setPage p x) pages pages' := by
  refine ⟨Nat.le_refl _, fun q hq => ?_⟩
  have hcopied : a.Points q ∨ q ∈ pages := by
    rcases hq with hq | hq
    · rcases points_setPage hq with hq | hq
      · exact Or.inl hq
      · exact hx q hq
    · exact h q hq
  exact hcopied.imp_right Or.inl

theorem Copies.writeSame (hx : x.nextFree = a.nextFree p)
    (h : ∀ q ∈ pages', a.Points q ∨ q ∈ pages) : Copies a (a.setPage p x) pages pages' :=
  .write (fun _ hq => Or.inl (Or.inr (Or.inr (Or.inr ⟨p, hx ▸ hq⟩)))) h

theorem Copies.heads (hheap : a'.heap = a.heap)
    (hfree : ∀ q, a'.freeList = some q → a.Points q ∨ q ∈ pages)
    (hpending : ∀ q, a'.pendingFreeList = some q → a.Points q ∨ q ∈ pages)
    (htoFree : ∀ l, a'.toFree = some l → ∀ q ∈ l, a.Points q ∨ q ∈ pages)
    (h : ∀ q ∈ pages', a.Points q ∨ q ∈ pages) : Copies a a' pages pages' := by
  refine ⟨by rw [hheap], fun q hq => ?_⟩
  have hcopied : a.Points q ∨ q ∈ pages := by
    rcases hq with (hq | hq | ⟨l, hl, hq⟩ | ⟨r, hq⟩) | hq
    · exact hfree q hq
    · exact hpending q hq
    · exact htoFree l hl q hq
    · unfold nextFree at hq
      rw [hheap] at hq
      exact Or.inl (Or.inr (Or.inr (Or.inr ⟨r, hq⟩)))
    · exact h q hq
  exact hcopied.imp_right Or.inl

theorem points_free (h : a.freeList = some q) : a.Points q := Or.inl h

theorem points_pending (h : a.pendingFreeList = some q) : a.Points q := Or.inr (Or.inl h)

theorem points_toFree {l : List Addr} (h : a.toFree = some l) (hq : q ∈ l) : a.Points q :=
  Or.inr (Or.inr (Or.inl ⟨l, h, hq⟩))

theorem points_nextFree (h : a.nextFree p = some q) : a.Points q := Or.inr (Or.inr (Or.inr ⟨p, h⟩))

theorem Copies.quiet (hheap : a'.heap = a.heap) (hfree : a'.freeList = a.freeList)
    (hpending : a'.pendingFreeList = a.pendingFreeList) (htoFree : a'.toFree = a.toFree)
    (h : ∀ q ∈ pages', a.Points q ∨ q ∈ pages) : Copies a a' pages pages' := by
  refine .heads hheap (fun q hq => ?_) (fun q hq => ?_) (fun l hl q hq => ?_) h
  · rw [hfree] at hq
    exact Or.inl (points_free hq)
  · rw [hpending] at hq
    exact Or.inl (points_pending hq)
  · rw [htoFree] at hl
    exact Or.inl (points_toFree hl hq)

def pagesAfter {κ ρ : Type} (f : κ → List Addr) : Control κ ρ → List Addr
  | .goto pc => f pc
  | .ret _ | .panic => []

theorem pages_dropPages {l : List Addr} (h : q ∈ pagesAfter MaybePc.pages (dropPages l)) : q ∈ l := by
  cases l with
  | nil => cases h
  | cons page rest => exact h

theorem dropPage_copies {pc : DropPagePc} {control : Control DropPagePc Unit}
    (hs : a.dropPage p pc = (a', control)) (h : ∀ q ∈ pages', a.Points q ∨ q ∈ pages) :
    Copies a a' pages pages' := by
  obtain ⟨rfl, -⟩ := Prod.mk.inj hs
  cases pc with
  | fetch => exact .writeSame rfl h
  | deallocate => exact .writeSame (a := a) rfl h

theorem maybeFree_copies {pc : MaybePc} {control : Control MaybePc Unit}
    (hs : a.maybeFreePages pc = (a', control)) :
    Copies a a' pc.pages (pagesAfter MaybePc.pages control) := by
  cases pc with
  | loadDelay | fetchAdd =>
    obtain ⟨rfl, rfl⟩ := Prod.mk.inj hs
    refine .quiet rfl rfl rfl rfl fun q hq => ?_
    split at hq <;> cases hq
  | swapToFree =>
    obtain ⟨rfl, rfl⟩ := Prod.mk.inj hs
    refine .heads rfl (fun q hq => Or.inl (points_free hq)) (fun q hq => Or.inl (points_pending hq))
      (fun l hl => by cases hl) fun q hq => ?_
    have hq := pages_dropPages hq
    cases htf : a.toFree with
    | none =>
      rw [htf] at hq
      cases hq
    | some l =>
      rw [htf] at hq
      exact Or.inl (points_toFree htf hq)
  | dropPage page rest pc =>
    cases hd : a.dropPage page pc with
    | mk a₁ c =>
      simp only [maybeFreePages, hd] at hs
      obtain ⟨rfl, rfl⟩ := Prod.mk.inj hs
      refine dropPage_copies hd fun q hq => Or.inr ?_
      cases c with
      | goto pc => exact hq
      | ret => exact List.mem_cons_of_mem _ (pages_dropPages hq)
      | panic => cases hq

theorem putPages_copies {n : Nat} {first last : Addr} {pc : PutPc} {control : Control PutPc Unit}
    (hs : a.putPages n first last pc = (a', control)) (hfirst : first ∈ pages)
    (h : ∀ q ∈ pages', a.Points q ∨ q ∈ pages) : Copies a a' pages pages' := by
  cases pc with
  | storeNext current =>
    obtain ⟨rfl, -⟩ := Prod.mk.inj hs
    exact .writeSame rfl h
  | loadFull | swapFull | loadFree | addPages =>
    obtain ⟨rfl, -⟩ := Prod.mk.inj hs
    exact .quiet rfl rfl rfl rfl h
  | swapFree =>
    obtain ⟨rfl, -⟩ := Prod.mk.inj hs
    refine .heads rfl (fun q hq => Or.inr ?_) (fun q hq => Or.inl (points_pending hq))
      (fun l hl q hq => Or.inl (points_toFree hl hq)) h
    exact Option.some.inj hq ▸ hfirst

theorem pages_linkFrom {kept reinsert rest : List Addr}
    (h : q ∈ pagesAfter TakePc.pages (linkFrom kept reinsert rest)) :
    q ∈ kept ++ reinsert ++ rest := by
  unfold linkFrom at h
  split at h
  · exact h
  · rename_i hfirst _
    rcases List.mem_cons.mp h with rfl | h
    · simp [List.mem_of_head? hfirst]
    · simp [show q ∈ kept from h]
  · cases h

theorem takePages_copies {pc : TakePc} {control : Control TakePc Unit}
    (hs : a.takePages pc = (a', control)) :
    Copies a a' pc.pages (pagesAfter TakePc.pages control) := by
  cases pc with
  | swapToFree =>
    obtain ⟨rfl, rfl⟩ := Prod.mk.inj hs
    refine .heads rfl (fun q hq => Or.inl (points_free hq)) (fun q hq => Or.inl (points_pending hq))
      (fun l hl => by cases hl) fun q hq => ?_
    cases htf : a.toFree with
    | none =>
      rw [htf] at hq
      cases hq
    | some l =>
      rw [htf] at hq
      exact Or.inl (points_toFree htf hq)
  | loadPages toFree =>
    obtain ⟨rfl, rfl⟩ := Prod.mk.inj hs
    refine .same fun q hq => Or.inr ?_
    have hq := pages_linkFrom hq
    simp only [List.mem_append] at hq
    rcases hq with (hq | hq) | hq
    · exact List.mem_of_mem_take hq
    · exact List.mem_of_mem_drop hq
    · exact List.mem_of_mem_drop hq
  | linkFree kept reinsert rest =>
    cases rest with
    | nil =>
      obtain ⟨rfl, rfl⟩ := Prod.mk.inj hs
      exact .same fun q hq => by cases hq
    | cons page behind =>
      obtain ⟨rfl, rfl⟩ := Prod.mk.inj hs
      refine .write (fun q hq => Or.inr ?_) fun q hq => Or.inr hq
      have hq : q ∈ behind := List.mem_of_head? hq
      simp [TakePc.pages, hq]
  | link kept reinsert rest =>
    cases rest with
    | nil =>
      obtain ⟨rfl, rfl⟩ := Prod.mk.inj hs
      exact .same fun q hq => by cases hq
    | cons page behind =>
      obtain ⟨rfl, rfl⟩ := Prod.mk.inj hs
      exact .writeSame rfl fun q hq => Or.inr hq
  | setInFree kept reinsert rest =>
    cases rest with
    | nil =>
      obtain ⟨rfl, rfl⟩ := Prod.mk.inj hs
      exact .same fun q hq => by cases hq
    | cons page behind =>
      obtain ⟨rfl, rfl⟩ := Prod.mk.inj hs
      refine .writeSame rfl fun q hq => Or.inr ?_
      have hq := pages_linkFrom hq
      simp only [TakePc.pages, List.mem_append, List.mem_cons] at hq ⊢
      rcases hq with hq | hq
      · exact Or.inl hq
      · exact Or.inr (Or.inr hq)
  | put kept reinsert first last pc =>
    cases hp : a.putPages reinsert.length first last pc with
    | mk a₁ c =>
      simp only [takePages, hp] at hs
      obtain ⟨rfl, rfl⟩ := Prod.mk.inj hs
      refine putPages_copies hp (List.mem_cons_self ..) fun q hq => Or.inr ?_
      cases c with
      | goto pc => exact hq
      | ret =>
        simp only [pagesAfter] at hq
        split at hq
        · exact List.mem_cons_of_mem _ hq
        · cases hq
      | panic => cases hq
  | storeToFree kept =>
    obtain ⟨rfl, rfl⟩ := Prod.mk.inj hs
    refine .heads rfl (fun q hq => Or.inl (points_free hq)) (fun q hq => Or.inl (points_pending hq))
      (fun l hl q hq => Or.inr (Option.some.inj hl ▸ hq)) fun q hq => ?_
    split at hq <;> cases hq
  | storeDelay =>
    obtain ⟨rfl, rfl⟩ := Prod.mk.inj hs
    exact .quiet rfl rfl rfl rfl fun q hq => by cases hq

theorem behind_lt {base n q : Nat} (h : behind base n = some q) : q < base + n := by
  cases n with
  | zero => cases h
  | succ n =>
    obtain rfl := Option.some.inj h
    exact Nat.lt_succ_self _

theorem nextFree_made {n p q : Nat}
    (h : ops.nextFree (a.heap.makeList PageSharedArena.new n).1 p = some q) :
    a.nextFree p = some q ∨ q < a.heap.size + n := by
  unfold PageOps.nextFree at h
  by_cases hp : a.heap.size ≤ p ∧ p < a.heap.size + n
  · obtain ⟨k, rfl⟩ := Nat.exists_eq_add_of_le hp.1
    have hk : k < n := by omega
    rw [Heap.get_makeList_new hk] at h
    have hlt := behind_lt h
    exact Or.inr (by omega)
  · rw [Heap.get_makeList_old (by omega)] at h
    exact Or.inl h

theorem makePages_copies {n : Nat} (hn : 0 < n) :
    Copies a { a with heap := (a.heap.makeList PageSharedArena.new n).1 } []
      [a.heap.size + (n - 1)] := by
  refine ⟨Nat.le_add_right _ _, fun q hq => ?_⟩
  rcases hq with (hq | hq | hq | ⟨p, hq⟩) | hq
  · exact Or.inl (points_free hq)
  · exact Or.inl (points_pending hq)
  · exact Or.inl (Or.inr (Or.inr (Or.inl hq)))
  · rcases nextFree_made hq with hq | hq
    · exact Or.inl (points_nextFree hq)
    · exact Or.inr (Or.inr hq)
  · rw [List.mem_singleton.mp hq]
    refine Or.inr (Or.inr ?_)
    show a.heap.size + (n - 1) < a.heap.size + n
    omega

theorem findPlace_copies {pc : FindPc} {control : Control FindPc (Addr × Nat)}
    (hs : a.findPlace pc = (a', control)) :
    Copies a a' pc.pages (pagesAfter FindPc.pages control) := by
  cases pc with
  | loadFree =>
    simp only [findPlace] at hs
    split at hs <;> obtain ⟨rfl, rfl⟩ := Prod.mk.inj hs
    · rename_i page hfree
      refine .same fun q hq => Or.inl (points_free ?_)
      rw [hfree, List.mem_singleton.mp hq]
    · exact .same fun q hq => by cases hq
  | acquire page pc =>
    simp only [findPlace] at hs
    obtain ⟨rfl, rfl⟩ := Prod.mk.inj hs
    refine .writeSame (congrArg PageLinks.nextFree links_acquire) fun q hq => Or.inr ?_
    cases hc : (PageSharedArena.acquireFreeBlock (a.page page) pc).2 with
    | goto =>
      rw [hc] at hq
      exact hq
    | ret r =>
      rw [hc] at hq
      cases r with
      | some => cases hq
      | none => exact hq
    | panic =>
      rw [hc] at hq
      cases hq
  | loadNext page =>
    obtain ⟨rfl, rfl⟩ := Prod.mk.inj hs
    refine .same fun q hq => ?_
    rcases List.mem_cons.mp hq with rfl | hq
    · exact Or.inr (List.mem_singleton_self q)
    · exact Or.inl (points_nextFree (Option.mem_toList.mp hq))
  | casFree page next =>
    simp only [findPlace] at hs
    split at hs <;> obtain ⟨rfl, rfl⟩ := Prod.mk.inj hs
    · refine .heads rfl (fun q hq => Or.inr ?_) (fun q hq => Or.inl (points_pending hq))
        (fun l hl q hq => Or.inl (points_toFree hl hq)) fun q hq => Or.inr ?_
      · exact List.mem_cons_of_mem _ (Option.mem_toList.mpr hq)
      · rw [List.mem_singleton.mp hq]
        exact List.mem_cons_self ..
    · exact .same fun q hq => by cases hq
  | clearInFree page =>
    obtain ⟨rfl, rfl⟩ := Prod.mk.inj hs
    exact .writeSame rfl fun q hq => by cases hq
  | loadWriter | swapWriter | loadContended | recheckFree | loadPending | loadToFree =>
    obtain ⟨rfl, rfl⟩ := Prod.mk.inj hs
    refine .quiet rfl rfl rfl rfl fun q hq => ?_
    simp only [pagesAfter] at hq
    split at hq <;> cases hq
  | maybeFree guarded pc =>
    cases hm : a.maybeFreePages pc with
    | mk a₁ c =>
      simp only [findPlace, hm] at hs
      obtain ⟨rfl, rfl⟩ := Prod.mk.inj hs
      have hcopies := maybeFree_copies hm
      cases c with
      | goto => exact hcopies
      | ret | panic =>
        refine ⟨hcopies.1, fun q hq => hcopies.2 q (hq.imp_right fun hq => ?_)⟩
        cases guarded <;> cases hq
  | swapPending =>
    obtain ⟨rfl, rfl⟩ := Prod.mk.inj hs
    exact .heads rfl (fun q hq => Or.inl (points_free hq)) (fun q hq => by cases hq)
      (fun l hl q hq => Or.inl (points_toFree hl hq))
      fun q hq => Or.inl (points_pending (Option.mem_toList.mp hq))
  | swapFree pending =>
    obtain ⟨rfl, rfl⟩ := Prod.mk.inj hs
    refine .heads rfl (fun q hq => Or.inr (Option.mem_toList.mpr hq))
      (fun q hq => Or.inl (points_pending hq)) (fun l hl q hq => Or.inl (points_toFree hl hq))
      fun q hq => ?_
    split at hq <;> cases hq
  | take pc =>
    cases ht : a.takePages pc with
    | mk a₁ c =>
      simp only [findPlace, ht] at hs
      obtain ⟨rfl, rfl⟩ := Prod.mk.inj hs
      have hcopies := takePages_copies ht
      cases c with
      | goto => exact hcopies
      | ret | panic => exact ⟨hcopies.1, fun q hq => hcopies.2 q (hq.imp_right fun hq => by cases hq)⟩
  | loadPages =>
    obtain ⟨rfl, rfl⟩ := Prod.mk.inj hs
    exact makePages_copies (growth_pos _)
  | put n first last pc =>
    cases hp : a.putPages n first last pc with
    | mk a₁ c =>
      simp only [findPlace, hp] at hs
      obtain ⟨rfl, rfl⟩ := Prod.mk.inj hs
      refine putPages_copies hp (List.mem_singleton_self _) fun q hq => Or.inr ?_
      cases c with
      | goto => exact hq
      | ret | panic => cases hq
  | unlock =>
    obtain ⟨rfl, rfl⟩ := Prod.mk.inj hs
    exact .quiet rfl rfl rfl rfl fun q hq => by cases hq

theorem pages_retainFrom {start : Ptr} {kept rest : List Addr}
    (h : q ∈ (retainFrom start kept rest).pages) : q ∈ start.toList ++ kept ++ rest := by
  cases rest with
  | nil => simpa [retainFrom, ShrinkPc.pages] using h
  | cons => exact h

theorem readLink_points {start current : Ptr} {value : Addr}
    (h : readLink a.nextFree start current = some value) :
    a.Points value ∨ value ∈ start.toList := by
  cases current with
  | none => exact Or.inr (Option.mem_toList.mpr h)
  | some c => exact Or.inl (points_nextFree h)

theorem shrinkToFit_copies {pc : ShrinkPc} {control : Control ShrinkPc Bool}
    (hs : a.shrinkToFit pc = (a', control)) :
    Copies a a' pc.pages (pagesAfter ShrinkPc.pages control) := by
  cases pc with
  | swapShrinking =>
    obtain ⟨rfl, rfl⟩ := Prod.mk.inj hs
    refine .quiet rfl rfl rfl rfl fun q hq => ?_
    split at hq <;> cases hq
  | swapWriter =>
    obtain ⟨rfl, rfl⟩ := Prod.mk.inj hs
    refine .quiet rfl rfl rfl rfl fun q hq => ?_
    simp only [pagesAfter] at hq
    split at hq <;> cases hq
  | swapFree =>
    obtain ⟨rfl, rfl⟩ := Prod.mk.inj hs
    exact .heads rfl (fun q hq => by cases hq) (fun q hq => Or.inl (points_pending hq))
      (fun l hl q hq => Or.inl (points_toFree hl hq))
      fun q hq => Or.inl (points_free (Option.mem_toList.mp hq))
  | loadPages start =>
    obtain ⟨rfl, rfl⟩ := Prod.mk.inj hs
    exact .same fun q hq => Or.inr (by simpa [pagesAfter, ShrinkPc.pages] using hq)
  | walk start current toDrop =>
    simp only [shrinkToFit] at hs
    split at hs <;> obtain ⟨rfl, rfl⟩ := Prod.mk.inj hs
    · rename_i value hvalue
      refine .same fun q hq => ?_
      rcases List.mem_cons.mp hq with rfl | hq
      · exact (readLink_points hvalue).imp_right fun h => List.mem_append_left _ h
      · exact Or.inr hq
    · refine .same fun q hq => Or.inr ?_
      have hq := pages_retainFrom hq
      simpa [ShrinkPc.pages] using hq
  | walkNext start current value toDrop =>
    obtain ⟨rfl, rfl⟩ := Prod.mk.inj hs
    refine .same fun q hq => ?_
    simp only [pagesAfter, ShrinkPc.pages, List.mem_cons, List.mem_append, Option.mem_toList] at hq ⊢
    rcases hq with hq | (hq | hq) | hq
    · exact Or.inr (Or.inl hq)
    · exact Or.inl (points_nextFree hq)
    · exact Or.inr (Or.inr (Or.inl hq))
    · exact Or.inr (Or.inr (Or.inr hq))
  | walkBits start current value nextValue toDrop =>
    simp only [shrinkToFit] at hs
    split at hs <;> obtain ⟨rfl, rfl⟩ := Prod.mk.inj hs
    · exact .same fun q hq => Or.inr hq
    · refine .same fun q hq => Or.inr ?_
      simp only [pagesAfter, ShrinkPc.pages, List.mem_cons, List.mem_append] at hq ⊢
      tauto
  | walkCas start current value nextValue toDrop =>
    have hpages : ∀ q, q ∈ nextValue.toList ++ (toDrop ++ [value]) ∨
        q ∈ start.toList ++ (toDrop ++ [value]) →
        q ∈ value :: (nextValue.toList ++ start.toList ++ toDrop) := by
      intro q hq
      simp only [List.mem_cons, List.mem_append, List.not_mem_nil, or_false] at hq ⊢
      tauto
    simp only [shrinkToFit] at hs
    split at hs
    · cases current with
      | none =>
        obtain ⟨rfl, rfl⟩ := Prod.mk.inj hs
        exact .same fun q hq => Or.inr (hpages q (Or.inl hq))
      | some c =>
        obtain ⟨rfl, rfl⟩ := Prod.mk.inj hs
        refine .write (fun q hq => Or.inr ?_) fun q hq => Or.inr (hpages q (Or.inr hq))
        exact hpages q (Or.inl (List.mem_append_left _ (Option.mem_toList.mpr hq)))
    · obtain ⟨rfl, rfl⟩ := Prod.mk.inj hs
      refine .same fun q hq => Or.inr ?_
      simp only [pagesAfter, ShrinkPc.pages, List.mem_cons, List.mem_append] at hq ⊢
      tauto
  | retain start kept page rest =>
    obtain ⟨rfl, rfl⟩ := Prod.mk.inj hs
    refine .same fun q hq => Or.inr ?_
    have hq := pages_retainFrom hq
    simp only [ShrinkPc.pages, List.mem_cons, List.mem_append] at hq ⊢
    split at hq
    · simp only [List.mem_append, List.mem_singleton] at hq
      tauto
    · tauto
  | full start toDrop current =>
    simp only [shrinkToFit] at hs
    split at hs <;> obtain ⟨rfl, rfl⟩ := Prod.mk.inj hs
    · exact .same fun q hq => Or.inr hq
    · refine .same fun q hq => Or.inr ?_
      simp only [pagesAfter] at hq
      split at hq
      · exact hq
      · exact List.mem_append_left _ hq
  | fullNext start toDrop current value =>
    simp only [shrinkToFit] at hs
    split at hs <;> obtain ⟨rfl, rfl⟩ := Prod.mk.inj hs
    · exact .same fun q hq => Or.inr hq
    · exact .same fun q hq => Or.inr hq
  | fullCas start toDrop current value nextValue =>
    simp only [shrinkToFit] at hs
    split at hs
    · cases current with
      | none =>
        obtain ⟨rfl, rfl⟩ := Prod.mk.inj hs
        exact .quiet rfl rfl rfl rfl fun q hq => Or.inr hq
      | some c =>
        obtain ⟨rfl, rfl⟩ := Prod.mk.inj hs
        exact .writeSame rfl fun q hq => Or.inr hq
    · obtain ⟨rfl, rfl⟩ := Prod.mk.inj hs
      exact .same fun q hq => by cases hq
  | storeDelay =>
    obtain ⟨rfl, rfl⟩ := Prod.mk.inj hs
    exact .quiet rfl rfl rfl rfl fun q hq => Or.inr hq
  | swapToFree start toDrop =>
    obtain ⟨rfl, rfl⟩ := Prod.mk.inj hs
    refine .heads rfl (fun q hq => Or.inl (points_free hq)) (fun q hq => Or.inl (points_pending hq))
      (fun l hl => by cases hl) fun q hq => ?_
    simp only [pagesAfter, ShrinkPc.pages, List.mem_append] at hq ⊢
    rcases hq with hq | hq | hq
    · exact Or.inr (Or.inl hq)
    · cases htf : a.toFree with
      | none =>
        rw [htf] at hq
        cases hq
      | some l =>
        rw [htf] at hq
        exact Or.inl (points_toFree htf hq)
    · exact Or.inr (Or.inr hq)
  | storeToFree start nfreed toFree =>
    obtain ⟨rfl, rfl⟩ := Prod.mk.inj hs
    refine .heads rfl (fun q hq => Or.inl (points_free hq)) (fun q hq => Or.inl (points_pending hq))
      (fun l hl q hq => Or.inr ?_) fun q hq => Or.inr ?_
    · exact List.mem_append_right _ (Option.some.inj hl ▸ hq)
    · split at hq
      · exact List.mem_append_left _ hq
      · cases hq
  | restore start nfreed =>
    obtain ⟨rfl, rfl⟩ := Prod.mk.inj hs
    refine .heads rfl (fun q hq => Or.inr (Option.mem_toList.mpr hq))
      (fun q hq => Or.inl (points_pending hq)) (fun l hl q hq => Or.inl (points_toFree hl hq))
      fun q hq => ?_
    split at hq <;> cases hq
  | subPages | clearShrinking | unlock =>
    obtain ⟨rfl, rfl⟩ := Prod.mk.inj hs
    exact .quiet rfl rfl rfl rfl fun q hq => by cases hq

end SharedArena

/-! ## The invariant -/

def DropPc.pages : DropPc → List Addr
  | .push (.storeNextFree current) | .push (.casPending current) => current.toList
  | .fetchAdd | .deallocate | .push _ => []

def SharedCall.pages : SharedCall → List Addr
  | .alloc pc => pc.pages
  | .shrink pc => pc.pages
  | .drop page _ pc => page :: pc.pages
  | .idle | .panicked => []

namespace SharedArena

variable {a : SharedArena} {p : Addr} {i : Nat} {pc : PushPc} {links : PageLinks} {pending : Ptr}
  {control : Control PushPc Unit}

theorem push_copies
    (hp : (a.page p).toPageLinks.push p true a.pendingFreeList pc = (links, pending, control)) :
    Copies a { a.setPage p { a.page p with toPageLinks := links } with pendingFreeList := pending }
      (SharedCall.drop p i (.push pc)).pages
      (SharedCall.afterDrop p i (control.map .push)).pages := by
  have hself : ∀ q ∈ [p], a.Points q ∨ q ∈ p :: (DropPc.push pc).pages := by
    intro q hq
    rw [List.mem_singleton.mp hq]
    exact Or.inr (List.mem_cons_self ..)
  cases pc with
  | loadInFree | swapInFree =>
    simp only [PageLinks.push] at hp
    split at hp <;> obtain ⟨rfl, h⟩ := Prod.mk.inj hp <;> obtain ⟨rfl, rfl⟩ := Prod.mk.inj h
    · exact .writeSame (a := a) rfl fun q hq => by cases hq
    · exact .writeSame (a := a) rfl hself
  | upgrade =>
    obtain ⟨rfl, h⟩ := Prod.mk.inj hp
    obtain ⟨rfl, rfl⟩ := Prod.mk.inj h
    exact .writeSame (a := a) rfl hself
  | loadPending =>
    obtain ⟨rfl, h⟩ := Prod.mk.inj hp
    obtain ⟨rfl, rfl⟩ := Prod.mk.inj h
    refine .writeSame (a := a) rfl fun q hq => ?_
    rcases List.mem_cons.mp hq with rfl | hq
    · exact Or.inr (List.mem_cons_self ..)
    · exact Or.inl (points_pending (Option.mem_toList.mp hq))
  | storeNextFree current =>
    obtain ⟨rfl, h⟩ := Prod.mk.inj hp
    obtain ⟨rfl, rfl⟩ := Prod.mk.inj h
    refine .write (a := a) (fun q hq => Or.inr ?_) fun q hq => Or.inr hq
    exact List.mem_cons_of_mem _ (Option.mem_toList.mpr hq)
  | casPending current =>
    simp only [PageLinks.push] at hp
    split at hp <;> obtain ⟨rfl, h⟩ := Prod.mk.inj hp <;> obtain ⟨rfl, rfl⟩ := Prod.mk.inj h
    · refine ⟨Nat.le_refl _, fun q hq => ?_⟩
      rcases hq with (hq | hq | hq | ⟨r, hq⟩) | hq
      · exact Or.inl (points_free hq)
      · rw [← Option.some.inj hq]
        exact Or.inr (Or.inl (List.mem_cons_self ..))
      · exact Or.inl (Or.inr (Or.inr (Or.inl hq)))
      · exact Or.inl (points_setPage_same (p := p) (x := a.page p) rfl (points_nextFree hq))
      · cases hq
    · exact .writeSame (a := a) rfl hself

theorem start_points {cap q : Nat} (h : (withCapacity cap).Points q) :
    (withCapacity cap).heap.size = pagesFor cap ∧ q < pagesFor cap := by
  have hpos := pagesFor_pos cap
  have hsize : (withCapacity cap).heap.size = pagesFor cap := Nat.zero_add _
  refine ⟨hsize, ?_⟩
  rcases h with h | h | ⟨l, h, -⟩ | ⟨p, h⟩
  · have h : some (0 + (pagesFor cap - 1)) = some q := h
    have h := Option.some.inj h
    omega
  · cases h
  · cases h
  · let empty : SharedArena := { withCapacity cap with heap := Heap.empty }
    have hmade : empty.nextFree p = some q ∨ q < empty.heap.size + pagesFor cap := nextFree_made h
    rcases hmade with h | h
    · have hnone : empty.nextFree p = none :=
        congrArg PageLinks.nextFree (congrArg PageSharedArena.toPageLinks (Heap.get_empty p))
      rw [hnone] at h
      cases h
    · rwa [show empty.heap.size = 0 from rfl, Nat.zero_add] at h

end SharedArena

structure PointersInv (s : SharedState) : Prop where
  arena : ∀ q, s.arena.Points q → q < s.arena.heap.size
  calls : ∀ t, ∀ q ∈ (s.threads.get t).pages, q < s.arena.heap.size

namespace PointersInv

variable {s s' : SharedState} {arena : SharedArena} {handles : List (Addr × Nat)} {t : Tid}
  {c : SharedCall}

theorem thread (h : PointersInv s)
    (hc : SharedArena.Copies s.arena arena (s.threads.get t).pages c.pages) :
    PointersInv { arena, handles, threads := s.threads.set t c } := by
  obtain ⟨hsize, hcopies⟩ := hc
  have hlt : ∀ q, arena.Points q ∨ q ∈ c.pages → q < arena.heap.size := by
    intro q hq
    rcases hcopies q hq with hq | hq | hq
    · exact Nat.lt_of_lt_of_le (h.arena q hq) hsize
    · exact Nat.lt_of_lt_of_le (h.calls t q hq) hsize
    · exact hq
  refine ⟨fun q hq => hlt q (Or.inl hq), fun u q hq => ?_⟩
  have hq : q ∈ ((s.threads.set t c).get u).pages := hq
  rw [Store.get_set] at hq
  split at hq
  · exact hlt q (Or.inr hq)
  · exact Nat.lt_of_lt_of_le (h.calls u q hq) hsize

theorem step (h : PointersInv s) (hb : SharedBlocksInv s) {a : SharedAct}
    (hm : SharedState.Moves s a s') : PointersInv s' := by
  cases hm with
  | startAlloc | startShrink => exact h.thread (.same fun q hq => by cases hq)
  | @startDrop t p i ht hi =>
    -- the page of a handle exists
    have hp := (hb.live p i (Or.inl hi)).1
    refine ⟨h.arena, fun u q hq => ?_⟩
    have hq : q ∈ ((s.threads.set t (.drop p i .fetchAdd)).get u).pages := hq
    rw [Store.get_set] at hq
    split at hq
    · rw [List.mem_singleton.mp hq]
      exact hp
    · exact h.calls u q hq
  | @alloc t pc arena control ht hs =>
    apply h.thread
    rw [ht]
    have hcopies := SharedArena.findPlace_copies hs
    cases control <;> exact hcopies
  | @shrink t pc arena control ht hs =>
    apply h.thread
    rw [ht]
    have hcopies := SharedArena.shrinkToFit_copies hs
    cases control <;> exact hcopies
  | @giveBlock t p i page last ht hg =>
    obtain ⟨rfl, -⟩ := Prod.mk.inj hg
    apply h.thread
    rw [ht]
    refine .writeSame rfl fun q hq => Or.inr ?_
    cases last <;> exact hq
  | @freeBlock t p i ht => exact h.thread (.writeSame (a := s.arena) rfl fun q hq => by cases hq)
  | push ht hp =>
    apply h.thread
    rw [ht]
    exact SharedArena.push_copies hp

theorem start (cap : Nat) : PointersInv (.start cap) := by
  have hthread : ∀ t, (SharedState.start cap).threads.get t = .idle := Store.get_empty
  have hpos := pagesFor_pos cap
  refine ⟨fun q hq => ?_, fun t q hq => ?_⟩
  · obtain ⟨hsize, hlt⟩ := SharedArena.start_points hq
    exact hsize ▸ hlt
  · rw [hthread] at hq
    cases hq

end PointersInv

/-- Both invariants in every run: that the pages exist lets no new page overwrite a block in
use. -/
theorem SharedState.pointers_blocks {C : SharedState → SharedAct → Prop} {s : SharedState}
    (h : SharedArena.machine.Reach C s) : PointersInv s ∧ SharedBlocksInv s := by
  apply h.invariant
  · intro s hs
    obtain ⟨cap, rfl⟩ := hs
    exact ⟨.start cap, .start cap⟩
  · intro s a s' _ hi _ hs
    have hm := SharedState.moves_of_step hs
    exact ⟨hi.1.step hi.2 hm,
      hi.2.step (fun p hp => hi.1.arena p (SharedArena.points_free hp)) hm⟩

/-! ## The blocks that are in use -/

theorem SharedBlocksInv.not_live {s : SharedState} (hb : SharedBlocksInv s)
    {pc : SharedArena.FindPc} {arena : SharedArena} {p : Addr} {i : Nat}
    (hs : s.arena.findPlace pc = (arena, .ret (p, i))) : ¬ s.Live p i := by
  intro hl
  have hbit := (hb.live p i hl).2.2
  cases (SharedArena.findPlace_word hs).1 with
  | take _ hc =>
    rcases hc with ⟨e, -, hset⟩ | e | e
    · obtain ⟨rfl, rfl⟩ := Prod.mk.inj (Control.ret.inj e)
      rw [hbit] at hset
      cases hset
    · cases e
    · cases e
  | giveUp _ hc | grow _ hc | keep _ hc => cases hc

end MemoryPools
