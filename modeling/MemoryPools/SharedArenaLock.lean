import MemoryPools.SharedArenaAlone
import MemoryPools.Progress

/-!
# The writer gives the lock back

A thread that has become the writer takes a bounded number of operations until it is not the
writer any more, whatever the others do meanwhile. `LockLeft` counts the operations that are left
to it, by the pages that its walks have not reached yet.
-/

namespace MemoryPools

open Interleave

namespace SharedArena

variable {a a' : SharedArena} {n k : Nat} {first last : Addr}

/-! ## New pages and parked pages -/

def parkedPages (a : SharedArena) : Nat := (a.toFree.getD []).length

def PutPc.left : PutPc → Nat
  | .loadFull => 6
  | .storeNext _ => 5
  | .swapFull _ => 4
  | .loadFree => 3
  | .swapFree => 2
  | .addPages => 1

def TakePc.left (a : SharedArena) : TakePc → Nat
  | .swapToFree => 3 * a.parkedPages + 10
  | .loadPages toFree => 3 * toFree.length + 9
  | .linkFree _ _ rest => 3 * rest.length + 8
  | .link _ _ rest => 3 * rest.length + 7
  | .setInFree _ _ rest => 3 * rest.length + 6
  | .put _ _ _ _ pc => pc.left + 2
  | .storeToFree _ => 2
  | .storeDelay _ => 1

def MaybePc.left (a : SharedArena) : MaybePc → Nat
  | .loadDelay => 2 * a.parkedPages + 3
  | .fetchAdd => 2 * a.parkedPages + 2
  | .swapToFree => 2 * a.parkedPages + 1
  | .dropPage _ rest .fetch => 2 * rest.length + 2
  | .dropPage _ rest .deallocate => 2 * rest.length + 1

def FindPc.left (a : SharedArena) : FindPc → Nat
  | .recheckFree => 3 * a.parkedPages + 13
  | .loadPending => 3 * a.parkedPages + 12
  | .swapPending => 2 * a.parkedPages + 5
  | .swapFree _ => 2 * a.parkedPages + 4
  | .maybeFree _ pc => pc.left a
  | .loadToFree => 3 * a.parkedPages + 11
  | .take pc => pc.left a
  | .loadPages => 7
  | .put _ _ _ pc => pc.left
  | _ => 0

theorem PutPc.left_pos (pc : PutPc) : 0 < pc.left := by
  cases pc <;> exact Nat.succ_pos _

theorem TakePc.left_pos (pc : TakePc) : 0 < pc.left a := by
  cases pc <;> exact Nat.succ_pos _

theorem MaybePc.left_pos (pc : MaybePc) : 0 < pc.left a := by
  cases pc with
  | dropPage p rest pc => cases pc <;> exact Nat.succ_pos _
  | loadDelay | fetchAdd | swapToFree => exact Nat.succ_pos _

/-- Nothing but the number of the parked pages counts. -/
theorem FindPc.left_mono (pc : FindPc) (h : a'.parkedPages ≤ a.parkedPages) :
    pc.left a' ≤ pc.left a := by
  cases pc with
  | recheckFree | loadPending | swapPending | swapFree | loadToFree =>
    simp only [left]
    omega
  | maybeFree guarded pc =>
    cases pc with
    | loadDelay | fetchAdd | swapToFree =>
      simp only [left, MaybePc.left]
      omega
    | dropPage p rest pc => cases pc <;> exact Nat.le_refl _
  | take pc =>
    cases pc with
    | swapToFree =>
      simp only [left, TakePc.left]
      omega
    | loadPages | linkFree | link | setInFree | put | storeToFree | storeDelay => exact Nat.le_refl _
  | loadFree | acquire | loadNext | casFree | clearInFree | loadWriter | swapWriter | loadContended
  | loadPages | put | unlock => exact Nat.le_refl _

theorem putPages_left {pc pc' : PutPc} (h : a.putPages n first last pc = (a', .goto pc')) :
    pc'.left + 1 ≤ pc.left := by
  have hc := congrArg Prod.snd h
  cases pc with
  | loadFull | storeNext =>
    cases hc
    exact Nat.le_refl _
  | swapFull | loadFree | swapFree =>
    simp only [putPages] at hc
    split at hc
    · cases hc
      exact Nat.le_refl _
    · cases hc
  | addPages => cases hc

theorem linkFrom_left {kept reinsert rest : List Addr} {pc : TakePc}
    (h : linkFrom kept reinsert rest = .goto pc) : pc.left a ≤ 3 * rest.length + 8 := by
  unfold linkFrom at h
  split at h
  · cases h
    exact Nat.le_refl _
  · cases h
    exact Nat.le_refl _
  · cases h

theorem takePages_left {pc pc' : TakePc} (h : a.takePages pc = (a', .goto pc')) :
    pc'.left a' + 1 ≤ pc.left a := by
  have hc := congrArg Prod.snd h
  cases pc with
  | swapToFree =>
    simp only [takePages] at hc
    split at hc
    · rename_i toFree htf
      cases hc
      simp only [TakePc.left, parkedPages, htf, Option.getD_some]
      omega
    · cases hc
  | loadPages toFree =>
    have hle := linkFrom_left (a := a') hc
    rw [List.length_drop] at hle
    show pc'.left a' + 1 ≤ 3 * toFree.length + 9
    omega
  | linkFree kept reinsert rest | link kept reinsert rest =>
    cases rest with
    | nil => cases hc
    | cons p rest =>
      cases hc
      exact Nat.le_refl _
  | setInFree kept reinsert rest =>
    cases rest with
    | nil => cases hc
    | cons p rest =>
      have hle := linkFrom_left (a := a') hc
      show pc'.left a' + 1 ≤ 3 * (rest.length + 1) + 6
      omega
  | put kept reinsert first last pc =>
    simp only [takePages] at hc
    cases hput : a.putPages reinsert.length first last pc with
    | mk b control =>
      rw [hput] at hc
      cases control with
      | goto pc₁ =>
        cases hc
        have hle := putPages_left hput
        simp only [TakePc.left]
        omega
      | ret =>
        have hpos := pc.left_pos
        obtain rfl := Control.goto.inj hc
        split <;> simp only [TakePc.left] <;> omega
      | panic => cases hc
  | storeToFree =>
    simp only [takePages] at hc
    split at hc
    · cases hc
      exact Nat.le_refl _
    · cases hc
  | storeDelay => cases hc

theorem dropPages_left {l : List Addr} {pc : MaybePc} (h : dropPages l = .goto pc) :
    pc.left a ≤ 2 * l.length := by
  cases l with
  | nil => cases h
  | cons p l =>
    cases h
    exact Nat.le_refl _

theorem maybeFree_left {pc pc' : MaybePc} (h : a.maybeFreePages pc = (a', .goto pc')) :
    pc'.left a' + 1 ≤ pc.left a := by
  have hc := congrArg Prod.snd h
  cases pc with
  | loadDelay | fetchAdd =>
    have ha : a'.parkedPages = a.parkedPages := (congrArg (fun r => r.1.parkedPages) h).symm
    simp only [maybeFreePages] at hc
    split at hc
    · cases hc
      simp only [MaybePc.left, ha]
      omega
    · cases hc
  | swapToFree =>
    have hle : pc'.left a' ≤ 2 * a.parkedPages := dropPages_left hc
    show pc'.left a' + 1 ≤ 2 * a.parkedPages + 1
    omega
  | dropPage p rest pc =>
    simp only [maybeFreePages] at hc
    rcases dropPage_control a p pc with e | ⟨rfl, e⟩
    · rw [e] at hc
      have hle : pc'.left a' ≤ 2 * rest.length := dropPages_left hc
      cases pc with
      | fetch => exact Nat.le_succ_of_le (Nat.succ_le_succ hle)
      | deallocate => exact Nat.succ_le_succ hle
    · rw [e] at hc
      cases hc
      exact Nat.le_refl _

theorem findPlace_left {pc pc' : FindPc} (hw : pc.writes = true) (hw' : pc'.writes = true)
    (h : a.findPlace pc = (a', .goto pc')) : pc'.left a' + 1 ≤ pc.left a := by
  have hc := congrArg Prod.snd h
  have ha := congrArg Prod.fst h
  cases pc with
  | loadFree | acquire | loadNext | casFree | clearInFree | loadWriter | swapWriter | loadContended =>
    cases hw
  | recheckFree | loadPending | loadToFree =>
    subst ha
    obtain rfl := Control.goto.inj hc
    split
    · simp only [FindPc.left, findPlace]
      omega
    · simp only [FindPc.left, TakePc.left, findPlace]
      omega
  | swapPending =>
    subst ha
    cases hc
    exact Nat.le_refl _
  | swapFree =>
    subst ha
    simp only [findPlace] at hc
    split at hc
    · cases hc
      exact Nat.le_refl _
    · cases hc
  | maybeFree guarded pc =>
    obtain rfl : guarded = true := hw
    simp only [findPlace] at hc ha
    cases hm : a.maybeFreePages pc with
    | mk b control =>
      rw [hm] at hc ha
      obtain rfl : b = a' := ha
      cases control with
      | goto pc₁ =>
        cases hc
        exact maybeFree_left hm
      | ret =>
        cases hc
        exact pc.left_pos
      | panic => cases hc
  | take pc =>
    simp only [findPlace] at hc ha
    cases ht : a.takePages pc with
    | mk b control =>
      rw [ht] at hc ha
      obtain rfl : b = a' := ha
      cases control with
      | goto pc₁ =>
        cases hc
        exact takePages_left ht
      | ret =>
        cases hc
        exact pc.left_pos
      | panic => cases hc
  | loadPages =>
    cases hc
    exact Nat.le_refl _
  | put n first last pc =>
    simp only [findPlace] at hc
    cases hp : a.putPages n first last pc with
    | mk b control =>
      rw [hp] at hc
      cases control with
      | goto pc₁ =>
        cases hc
        exact putPages_left hp
      | ret =>
        cases hc
        exact pc.left_pos
      | panic => cases hc
  | unlock =>
    cases hc
    cases hw'

/-! ## The walks of `shrink_to_fit` -/

/-- At most `k` operations come before the last one: four for each page that the first walk has
not reached, and one in `retain`; three for each page that the second walk has not reached. -/
def ShrinkPc.Left (a : SharedArena) (k : Nat) : ShrinkPc → Prop
  | .swapFree => 8 * a.heap.size + 10 ≤ k
  | .loadPages start => ∃ l, Linked a.nextFree start l ∧ 5 * l.length + 3 * a.heap.size + 9 ≤ k
  | .walk start current toDrop =>
    ∃ l, Linked a.nextFree (readLink a.nextFree start current) l ∧
      5 * l.length + toDrop.length + 3 * a.heap.size + 8 ≤ k
  | .walkNext _ _ value toDrop =>
    ∃ l, Linked a.nextFree (a.nextFree value) l ∧
      5 * l.length + toDrop.length + 3 * a.heap.size + 12 ≤ k
  | .walkBits _ _ value _ toDrop =>
    ∃ l, Linked a.nextFree (a.nextFree value) l ∧
      5 * l.length + toDrop.length + 3 * a.heap.size + 11 ≤ k
  | .walkCas _ _ value _ toDrop =>
    ∃ l, Linked a.nextFree (a.nextFree value) l ∧
      5 * l.length + toDrop.length + 3 * a.heap.size + 10 ≤ k
  | .retain _ _ _ rest => rest.length + 3 * a.heap.size + 8 ≤ k
  | .full _ _ current =>
    ∃ l, Linked a.next (readLink a.next a.fullList current) l ∧ 3 * l.length + 7 ≤ k
  | .fullNext _ _ _ value => ∃ l, Linked a.next (a.next value) l ∧ 3 * l.length + 9 ≤ k
  | .fullCas _ _ _ value _ => ∃ l, Linked a.next (a.next value) l ∧ 3 * l.length + 8 ≤ k
  | .storeDelay _ _ => 6 ≤ k
  | .swapToFree _ _ => 5 ≤ k
  | .storeToFree _ _ _ => 4 ≤ k
  | .restore _ _ => 3 ≤ k
  | .subPages _ => 2 ≤ k
  | .clearShrinking => 1 ≤ k
  | .unlock => True
  | .swapShrinking | .swapWriter => False

theorem ShrinkPc.Left.mono {pc : ShrinkPc} {m : Nat} (h : pc.Left a k) (hk : k ≤ m) :
    pc.Left a m := by
  cases pc with
  | swapFree | retain | storeDelay | swapToFree | storeToFree | restore | subPages | clearShrinking =>
    exact Nat.le_trans h hk
  | loadPages | walk | walkNext | walkBits | walkCas | full | fullNext | fullCas =>
    obtain ⟨l, hl, hle⟩ := h
    exact ⟨l, hl, Nat.le_trans hle hk⟩
  | swapShrinking | swapWriter | unlock => exact h

variable {t : Tid} {place : Addr → Place Tid Shelf} {listed chain bag : List Addr}

theorem length_le_size (h : Placed a.lists place listed) {l : List Addr} (hl : l.Nodup)
    (hplace : ∀ q ∈ l, place q ≠ .aside .fresh) : l.length ≤ a.heap.size := by
  have hsub : l ⊆ List.range a.heap.size := by
    intro q hq
    exact List.mem_range.mpr (Nat.lt_of_not_le fun hle => hplace q hq ((h.fresh q).mpr hle))
  have hle := (hl.subperm hsub).length_le
  rwa [List.length_range] at hle

theorem listed_le_size (h : Placed a.lists place listed) : listed.length ≤ a.heap.size :=
  length_le_size h h.full.nodup fun q hq => (h.listed q hq).1

theorem held_le_size (h : Placed a.lists place listed) {l : List Addr} (hh : Holds place t l) :
    l.length ≤ a.heap.size := by
  refine length_le_size h hh.nodup fun q hq => ?_
  rw [hh.mem hq]
  exact fun e => by cases e

theorem retainFrom_left (h : Placed a.lists place listed) (start : Ptr) (kept rest : List Addr) :
    (retainFrom start kept rest).Left a (rest.length + 3 * a.heap.size + 7) := by
  cases rest with
  | nil =>
    refine ⟨listed, h.full, ?_⟩
    have hle := listed_le_size h
    rw [List.length_nil]
    omega
  | cons p rest =>
    show rest.length + 3 * a.heap.size + 8 ≤ rest.length + 1 + 3 * a.heap.size + 7
    omega

theorem walkCas_left {start current : Ptr} {value : Addr} {nextValue : Ptr} {toDrop : List Addr}
    {pc' : ShrinkPc} (hh : Holds place t (chain ++ bag))
    (hs : (ShrinkPc.walkCas start current value nextValue toDrop).Shape a.lists listed chain bag)
    (hleft : (ShrinkPc.walkCas start current value nextValue toDrop).Left a k)
    (hstep : a.shrinkToFit (.walkCas start current value nextValue toDrop) = (a', .goto pc')) :
    ∃ m, pc'.Left a' m ∧ m + 1 ≤ k := by
  obtain ⟨rfl, rfl, pre, rest, rfl, hw⟩ := hs
  obtain ⟨l, hl, hk⟩ := hleft
  have hread : readLink a.nextFree start current = some value := hw.read
  obtain rfl : l = rest := hl.unique hw.advance.ahead
  simp only [shrinkToFit, hread, ite_true] at hstep
  cases current with
  | none =>
    obtain ⟨rfl, hc⟩ := Prod.mk.inj hstep
    obtain rfl := Control.goto.inj hc
    refine ⟨_, ⟨l, hl, Nat.le_refl _⟩, ?_⟩
    rw [List.length_append, List.length_singleton]
    omega
  | some c =>
    obtain ⟨rfl, hc⟩ := Prod.mk.inj hstep
    obtain rfl := Control.goto.inj hc
    obtain ⟨hmem, -⟩ := hw.unlink
    have hnot : c ∉ l := by
      intro hc
      have hnodup := (List.nodup_append.mp (List.nodup_append.mp hh.nodup).1).2.2
      exact hnodup c hmem c (List.mem_cons_of_mem value hc) rfl
    have hlinks : (a.setPage c { a.page c with nextFree := a.nextFree value }).nextFree =
        Function.update a.nextFree c (a.nextFree value) := PageOps.nextFree_set ..
    refine ⟨_, ⟨l, ?_, Nat.le_refl _⟩, ?_⟩
    · have hrelinked := hl.relink start hnot
      rw [← hlinks] at hrelinked
      exact hrelinked
    · rw [List.length_append, List.length_singleton]
      show 5 * l.length + (bag.length + 1) + 3 * a.heap.size + 8 + 1 ≤ k
      omega

theorem fullCas_left {start current : Ptr} {value : Addr} {nextValue : Ptr} {toDrop : List Addr}
    {pc' : ShrinkPc} (h : Placed a.lists place listed)
    (hs : (ShrinkPc.fullCas start toDrop current value nextValue).Shape a.lists listed chain bag)
    (hleft : (ShrinkPc.fullCas start toDrop current value nextValue).Left a k)
    (hstep : a.shrinkToFit (.fullCas start toDrop current value nextValue) = (a', .goto pc')) :
    ∃ m, pc'.Left a' m ∧ m + 1 ≤ k := by
  obtain ⟨rfl, -, rfl, pre, rest, rfl, hw, -⟩ := hs
  obtain ⟨l, hl, hk⟩ := hleft
  have hread : readLink a.next a.fullList current = some value := hw.read
  obtain rfl : l = rest := hl.unique hw.advance.ahead
  simp only [shrinkToFit, hread, ite_true] at hstep
  cases current with
  | none =>
    obtain ⟨rfl, hc⟩ := Prod.mk.inj hstep
    obtain rfl := Control.goto.inj hc
    exact ⟨_, ⟨l, hl, Nat.le_refl _⟩, hk⟩
  | some c =>
    obtain ⟨rfl, hc⟩ := Prod.mk.inj hstep
    obtain rfl := Control.goto.inj hc
    obtain ⟨hmem, -⟩ := hw.unlink
    have hnot : c ∉ l := by
      intro hc
      have hnodup := (List.nodup_append.mp h.full.nodup).2.2
      exact hnodup c hmem c (List.mem_cons_of_mem value hc) rfl
    have hlinks : (a.setPage c { a.page c with next := a.next value }).next =
        Function.update a.next c (a.next value) := PageOps.next_set ..
    refine ⟨_, ⟨l, ?_, Nat.le_refl _⟩, hk⟩
    have hrelinked := hl.relink a.fullList hnot
    rw [← hlinks] at hrelinked
    exact hrelinked

theorem shrinkToFit_left {pc pc' : ShrinkPc} (h : Placed a.lists place listed)
    (hh : Holds place t (chain ++ bag)) (hshape : pc.Shape a.lists listed chain bag)
    (hleft : pc.Left a k) (hs : a.shrinkToFit pc = (a', .goto pc')) :
    ∃ m, pc'.Left a' m ∧ m + 1 ≤ k := by
  cases pc with
  | swapShrinking | swapWriter => exact hleft.elim
  | walkCas => exact walkCas_left hh hshape hleft hs
  | fullCas => exact fullCas_left h hshape hleft hs
  | swapFree =>
    obtain ⟨rfl, hc⟩ := Prod.mk.inj hs
    obtain rfl := Control.goto.inj hc
    obtain ⟨l, hl, hmem⟩ := h.circulates.free
    have hle : l.length ≤ a.heap.size := by
      refine length_le_size h hl.nodup fun q hq => ?_
      rw [(hmem q).mp hq]
      exact fun e => by cases e
    have hk : 8 * a.heap.size + 10 ≤ k := hleft
    refine ⟨_, ⟨l, hl, Nat.le_refl _⟩, ?_⟩
    show 5 * l.length + 3 * a.heap.size + 9 + 1 ≤ k
    omega
  | loadPages start =>
    obtain ⟨rfl, hc⟩ := Prod.mk.inj hs
    obtain rfl := Control.goto.inj hc
    obtain ⟨l, hl, hk⟩ := hleft
    refine ⟨_, ⟨l, hl, Nat.le_refl _⟩, ?_⟩
    rw [List.length_nil]
    omega
  | walk start current toDrop =>
    obtain ⟨l, hl, hk⟩ := hleft
    have hread := hl.head_eq
    cases l with
    | nil =>
      simp only [shrinkToFit, hread, List.head?_nil] at hs
      obtain ⟨rfl, hc⟩ := Prod.mk.inj hs
      obtain rfl := Control.goto.inj hc
      refine ⟨_, retainFrom_left h start [] toDrop, ?_⟩
      rw [List.length_nil] at hk
      omega
    | cons value l =>
      simp only [shrinkToFit, hread, List.head?_cons] at hs
      obtain ⟨rfl, hc⟩ := Prod.mk.inj hs
      obtain rfl := Control.goto.inj hc
      refine ⟨_, ⟨l, hl.2, Nat.le_refl _⟩, ?_⟩
      rw [List.length_cons] at hk
      omega
  | walkNext start current value toDrop =>
    obtain ⟨rfl, hc⟩ := Prod.mk.inj hs
    obtain rfl := Control.goto.inj hc
    obtain ⟨l, hl, hk⟩ := hleft
    exact ⟨_, ⟨l, hl, Nat.le_refl _⟩, hk⟩
  | walkBits start current value nextValue toDrop =>
    obtain ⟨l, hl, hk⟩ := hleft
    simp only [shrinkToFit] at hs
    split at hs
    · obtain ⟨rfl, hc⟩ := Prod.mk.inj hs
      obtain rfl := Control.goto.inj hc
      exact ⟨_, ⟨l, hl, Nat.le_refl _⟩, hk⟩
    · obtain ⟨rfl, hc⟩ := Prod.mk.inj hs
      obtain rfl := Control.goto.inj hc
      refine ⟨_, ⟨l, hl, Nat.le_refl _⟩, ?_⟩
      omega
  | retain start kept page rest =>
    obtain ⟨rfl, hc⟩ := Prod.mk.inj hs
    obtain rfl := Control.goto.inj hc
    exact ⟨_, retainFrom_left h start _ rest, hleft⟩
  | full start toDrop current =>
    obtain ⟨l, hl, hk⟩ := hleft
    have hread := hl.head_eq
    cases l with
    | nil =>
      simp only [shrinkToFit, hread, List.head?_nil] at hs
      obtain ⟨rfl, hc⟩ := Prod.mk.inj hs
      obtain rfl := Control.goto.inj hc
      split
      · exact ⟨6, Nat.le_refl _, hk⟩
      · exact ⟨3, Nat.le_refl _, Nat.le_trans (by omega) hk⟩
    | cons value l =>
      simp only [shrinkToFit, hread, List.head?_cons] at hs
      obtain ⟨rfl, hc⟩ := Prod.mk.inj hs
      obtain rfl := Control.goto.inj hc
      refine ⟨_, ⟨l, hl.2, Nat.le_refl _⟩, ?_⟩
      rw [List.length_cons] at hk
      omega
  | fullNext start toDrop current value =>
    obtain ⟨l, hl, hk⟩ := hleft
    simp only [shrinkToFit] at hs
    split at hs
    · obtain ⟨rfl, hc⟩ := Prod.mk.inj hs
      obtain rfl := Control.goto.inj hc
      exact ⟨_, ⟨l, hl, Nat.le_refl _⟩, hk⟩
    · obtain ⟨rfl, hc⟩ := Prod.mk.inj hs
      obtain rfl := Control.goto.inj hc
      refine ⟨_, ⟨l, hl, Nat.le_refl _⟩, ?_⟩
      omega
  | storeDelay | swapToFree | subPages =>
    obtain ⟨rfl, hc⟩ := Prod.mk.inj hs
    obtain rfl := Control.goto.inj hc
    exact ⟨_, Nat.le_refl _, hleft⟩
  | clearShrinking =>
    obtain ⟨rfl, hc⟩ := Prod.mk.inj hs
    obtain rfl := Control.goto.inj hc
    exact ⟨0, trivial, hleft⟩
  | storeToFree | restore =>
    have hc := congrArg Prod.snd hs
    simp only [shrinkToFit] at hc
    split at hc
    · obtain rfl := Control.goto.inj hc
      exact ⟨_, Nat.le_refl _, hleft⟩
    · cases hc
  | unlock =>
    have hc := congrArg Prod.snd hs
    cases hc

/-! ## What the others do meanwhile -/

theorem ShrinkPc.Left.frame {pc : ShrinkPc} (hshape : pc.Shape a.lists listed chain bag)
    (hleft : pc.Left a k) (hn : ∀ q ∈ chain, a'.nextFree q = a.nextFree q) (hnext : a'.next = a.next)
    (hfull : a'.fullList = a.fullList) (hsize : a'.heap.size = a.heap.size) : pc.Left a' k := by
  have hwalk : ∀ {start current : Ptr} {pre rest : List Addr}, chain = pre ++ rest →
      Walk a.nextFree start current pre rest → Walk a'.nextFree start current pre rest := by
    intro start current pre rest e hw
    exact hw.congr fun q hq => hn q (e ▸ hq)
  have hbehind : ∀ {start current : Ptr} {value : Addr} {pre rest l : List Addr},
      chain = pre ++ value :: rest → Walk a.nextFree start current pre (value :: rest) →
      Linked a.nextFree (a.nextFree value) l → Linked a'.nextFree (a'.nextFree value) l := by
    intro start current value pre rest l e hw hl
    obtain rfl : l = rest := hl.unique hw.advance.ahead
    exact (hwalk e hw).advance.ahead
  cases pc with
  | swapShrinking | swapWriter => exact hleft.elim
  | swapFree =>
    show 8 * a'.heap.size + 10 ≤ k
    rw [hsize]
    exact hleft
  | loadPages start =>
    obtain ⟨l, hl, hk⟩ := hleft
    obtain rfl : l = chain := hl.unique hshape.1
    refine ⟨l, hl.congr hn, ?_⟩
    rw [hsize]
    exact hk
  | walk start current toDrop =>
    obtain ⟨l, hl, hk⟩ := hleft
    obtain ⟨-, pre, rest, e, hw⟩ := hshape
    obtain rfl : l = rest := hl.unique hw.ahead
    refine ⟨l, (hwalk e hw).ahead, ?_⟩
    rw [hsize]
    exact hk
  | walkNext start current value toDrop =>
    obtain ⟨-, pre, rest, e, hw⟩ := hshape
    unfold Left
    rw [hsize]
    exact hleft.imp fun l hl => ⟨hbehind e hw hl.1, hl.2⟩
  | walkBits start current value nextValue toDrop | walkCas start current value nextValue toDrop =>
    obtain ⟨-, -, pre, rest, e, hw⟩ := hshape
    unfold Left
    rw [hsize]
    exact hleft.imp fun l hl => ⟨hbehind e hw hl.1, hl.2⟩
  | retain start kept page rest =>
    show rest.length + 3 * a'.heap.size + 8 ≤ k
    rw [hsize]
    exact hleft
  | full =>
    unfold Left
    rw [hnext, hfull]
    exact hleft
  | fullNext | fullCas =>
    unfold Left
    rw [hnext]
    exact hleft
  | storeDelay | swapToFree | storeToFree | restore | subPages | clearShrinking | unlock =>
    exact hleft

structure AddsNone (a a' : SharedArena) : Prop where
  size : a'.heap.size = a.heap.size
  parked : a'.parkedPages ≤ a.parkedPages

theorem AddsNone.of_toFree (hsize : a'.heap.size = a.heap.size) (h : a'.toFree = a.toFree) :
    AddsNone a a' := by
  refine ⟨hsize, ?_⟩
  unfold parkedPages
  rw [h]

theorem dropPage_quiet {p : Addr} {pc : DropPagePc} : AddsNone a (a.dropPage p pc).1 := by
  refine .of_toFree ?_ rfl
  cases pc <;> rfl

theorem maybeFree_quiet {pc : MaybePc} : AddsNone a (a.maybeFreePages pc).1 := by
  cases pc with
  | loadDelay | fetchAdd => exact .of_toFree rfl rfl
  | swapToFree => exact ⟨rfl, Nat.zero_le _⟩
  | dropPage p rest pc => exact dropPage_quiet

theorem findPlace_quiet {pc : FindPc} (hw : pc.writes = false) : AddsNone a (a.findPlace pc).1 := by
  cases pc with
  | loadFree | casFree =>
    simp only [findPlace]
    split <;> exact .of_toFree rfl rfl
  | acquire | loadNext | clearInFree | loadWriter | swapWriter | loadContended =>
    exact .of_toFree rfl rfl
  | maybeFree guarded pc => exact maybeFree_quiet
  | recheckFree | loadPending | swapPending | swapFree | loadToFree | take | loadPages | put
  | unlock => cases hw

end SharedArena

namespace SharedState

open SharedArena

variable {s s' : SharedState} {a : SharedAct} {t : Tid} {k : Nat}

theorem step_of_alloc {pc : FindPc} (ht : s.threads.get t = .alloc pc) :
    machine.step s (.step t) = some
      { arena := (s.arena.findPlace pc).1
        handles := made (s.arena.findPlace pc).2 ++ s.handles
        threads := s.threads.set t (.afterAlloc (s.arena.findPlace pc).2) } := by
  show stepThread s t = _
  simp only [stepThread, ht]

theorem step_of_shrink {pc : ShrinkPc} (ht : s.threads.get t = .shrink pc) :
    machine.step s (.step t) = some
      { s with
        arena := (s.arena.shrinkToFit pc).1
        threads := s.threads.set t (.afterShrink (s.arena.shrinkToFit pc).2) } := by
  show stepThread s t = _
  simp only [stepThread, ht]

theorem Moves.other (hm : Moves s a s') (ht : t ≠ a.thread) :
    s'.threads.get t = s.threads.get t := by
  cases hm <;> exact Store.get_set_ne _ _ ht

theorem Moves.quiet (hm : Moves s a s') (hw : (s.threads.get a.thread).writes = false) :
    AddsNone s.arena s'.arena := by
  cases hm with
  | startAlloc | startShrink | startDrop => exact .of_toFree rfl rfl
  | @alloc t pc arena control ht hs =>
    have hw : (s.threads.get t).writes = false := hw
    rw [ht] at hw
    obtain rfl : (s.arena.findPlace pc).1 = arena := congrArg Prod.fst hs
    exact findPlace_quiet hw
  | @shrink t pc arena control ht hs =>
    have hw : (s.threads.get t).writes = false := hw
    rw [ht] at hw
    obtain rfl : (s.arena.shrinkToFit pc).1 = arena := congrArg Prod.fst hs
    cases pc with
    | swapShrinking | swapWriter => exact .of_toFree rfl rfl
    | _ => cases hw
  | giveBlock | freeBlock | push => exact .of_toFree rfl rfl

end SharedState

/-! ## The bound -/

namespace SharedArena

open SharedState

variable {s s' : SharedState} {a : SharedAct} {t : Tid} {k : Nat} {place : Addr → Place Tid Shelf}
  {listed : List Addr}

def holdsLock (t : Tid) (s : SharedState) : Bool := (s.threads.get t).writes

def FindLeft (t : Tid) (s : SharedState) (k : Nat) : Prop :=
  ∃ pc, s.threads.get t = .alloc pc ∧ pc.left s.arena ≤ k

def ShrinkLeft (t : Tid) (s : SharedState) (k : Nat) : Prop :=
  ∃ pc, s.threads.get t = .shrink pc ∧ pc.Left s.arena k

theorem steps_eq_false (h : t ≠ a.thread) : steps t a = false := by
  cases a with
  | step u => exact decide_eq_false fun e => h e.symm
  | alloc | shrink | drop => rfl

theorem not_writes_of_ne (hg : GuardInv s) (hw : holdsLock t s = true) (h : t ≠ a.thread) :
    (s.threads.get a.thread).writes = false := by
  cases hu : (s.threads.get a.thread).writes with
  | false => rfl
  | true => exact absurd (hg.lock.one t a.thread hw hu) h

theorem findLeft_step (hg : GuardInv s) (hm : Moves s a s') (hw : holdsLock t s = true)
    (hw' : holdsLock t s' = true) (h : FindLeft t s k) :
    ∃ m, FindLeft t s' m ∧ m + (if steps t a = true then 1 else 0) ≤ k := by
  obtain ⟨pc, ht, hk⟩ := h
  by_cases e : t = a.thread
  · subst e
    have hpc : pc.writes = true := by
      unfold holdsLock at hw
      rwa [ht] at hw
    cases hm with
    | startAlloc hi | startShrink hi | startDrop hi =>
      have e := ht.symm.trans hi
      cases e
    | shrink hi | giveBlock hi | freeBlock hi | push hi =>
      have e := ht.symm.trans hi
      cases e
    | @alloc t pc₁ arena control hi hs =>
      obtain rfl : pc₁ = pc := SharedCall.alloc.inj (hi.symm.trans ht)
      have hself : (s.threads.set t (.afterAlloc control)).get t = .afterAlloc control :=
        Store.get_set_self _ _ _
      have hw' : ((s.threads.set t (.afterAlloc control)).get t).writes = true := hw'
      rw [hself] at hw'
      cases control with
      | goto pc' =>
        refine ⟨_, ⟨pc', hself, Nat.le_refl _⟩, ?_⟩
        have hle := findPlace_left hpc hw' hs
        show pc'.left arena + (if steps t (.step t) = true then 1 else 0) ≤ k
        split <;> omega
      | ret | panic => cases hw'
  · have hadds := hm.quiet (not_writes_of_ne hg hw e)
    refine ⟨k, ⟨pc, (hm.other e).trans ht, ?_⟩, ?_⟩
    · exact Nat.le_trans (pc.left_mono hadds.parked) hk
    · rw [steps_eq_false e]
      exact Nat.le_refl _

theorem shrinkLeft_step (hl : SharedListsInv False s place listed) (hg : GuardInv s)
    (hpop : s.popsCurrent a = true) (hm : Moves s a s') (hw : holdsLock t s = true)
    (hw' : holdsLock t s' = true) (h : ShrinkLeft t s k) :
    ∃ m, ShrinkLeft t s' m ∧ m + (if steps t a = true then 1 else 0) ≤ k := by
  obtain ⟨pc, ht, hleft⟩ := h
  obtain ⟨chain, bag, hh, hshape⟩ := hl.stands t
  rw [ht] at hshape
  by_cases e : t = a.thread
  · subst e
    cases hm with
    | startAlloc hi | startShrink hi | startDrop hi =>
      have e := ht.symm.trans hi
      cases e
    | alloc hi | giveBlock hi | freeBlock hi | push hi =>
      have e := ht.symm.trans hi
      cases e
    | @shrink t pc₁ arena control hi hs =>
      obtain rfl : pc₁ = pc := SharedCall.shrink.inj (hi.symm.trans ht)
      have hself : (s.threads.set t (.afterShrink control)).get t = .afterShrink control :=
        Store.get_set_self _ _ _
      have hw' : ((s.threads.set t (.afterShrink control)).get t).writes = true := hw'
      rw [hself] at hw'
      cases control with
      | goto pc' =>
        obtain ⟨m, hm, hle⟩ := shrinkToFit_left hl.placed hh hshape hleft hs
        refine ⟨m, ⟨pc', hself, hm⟩, ?_⟩
        split <;> omega
      | ret | panic => cases hw'
  · have hquiet := not_writes_of_ne hg hw e
    have hadds := hm.quiet hquiet
    obtain ⟨place', listed', -, hmoved⟩ := hl.turn hg hpop (fun e => e.elim) hm
    obtain ⟨hfull, hnext, -⟩ := hmoved.quiet hquiet
    refine ⟨k, ⟨pc, (hm.other e).trans ht, ?_⟩, ?_⟩
    · refine hleft.frame hshape (fun q hq => ?_) hnext hfull hadds.size
      exact hmoved.nextFree t e q (hh.mem (List.mem_append_left bag hq))
    · rw [steps_eq_false e]
      exact Nat.le_refl _

/-! ## Where the writer is -/

theorem TakePc.left_le {pc : TakePc} {arena : SharedArena} {chain bag : List Addr}
    (h : Placed arena.lists place listed) (hh : Holds place t (chain ++ bag))
    (hshape : pc.Shape arena.lists listed chain bag) (hparked : arena.parkedPages ≤ arena.heap.size) :
    pc.left arena ≤ 3 * arena.heap.size + 10 := by
  have hle := held_le_size h hh
  rw [List.length_append] at hle
  cases pc with
  | swapToFree =>
    show 3 * arena.parkedPages + 10 ≤ _
    omega
  | loadPages toFree =>
    obtain ⟨-, rfl, -⟩ := hshape
    show 3 * bag.length + 9 ≤ _
    omega
  | linkFree kept reinsert rest =>
    obtain ⟨rfl, -, ⟨l, e, -⟩, -, -⟩ := hshape
    rw [e, List.length_append] at hle
    show 3 * rest.length + 8 ≤ _
    omega
  | link kept reinsert rest =>
    obtain ⟨rfl, -, -, ⟨l, e, -⟩, -⟩ := hshape
    rw [e, List.length_append] at hle
    show 3 * rest.length + 7 ≤ _
    omega
  | setInFree kept reinsert rest =>
    obtain ⟨⟨rfl, -, ⟨l, e, -⟩, -, -⟩, -⟩ := hshape
    rw [e, List.length_append, List.length_tail] at hle
    show 3 * rest.length + 6 ≤ _
    omega
  | put kept reinsert first last pc =>
    show pc.left + 2 ≤ _
    cases pc <;> simp only [PutPc.left] <;> omega
  | storeToFree | storeDelay =>
    simp only [TakePc.left]
    omega

theorem FindPc.left_le {pc : FindPc} {arena : SharedArena} {chain bag : List Addr}
    (h : Placed arena.lists place listed) (hh : Holds place t (chain ++ bag))
    (hshape : pc.Shape arena.lists place listed chain bag) :
    pc.left arena ≤ 3 * arena.heap.size + 13 := by
  have hparked : arena.parkedPages ≤ arena.heap.size := by
    refine length_le_size h h.nodup fun q hq => ?_
    rw [(h.parked q).mpr hq]
    exact fun e => by cases e
  have hle := held_le_size h hh
  rw [List.length_append] at hle
  cases pc with
  | recheckFree | loadPending | swapPending | swapFree | loadToFree =>
    simp only [FindPc.left]
    omega
  | maybeFree guarded pc =>
    cases pc with
    | loadDelay | fetchAdd | swapToFree =>
      simp only [FindPc.left, MaybePc.left]
      omega
    | dropPage p rest pc =>
      cases pc with
      | fetch =>
        obtain ⟨-, rfl, -⟩ := hshape
        rw [List.length_cons] at hle
        simp only [FindPc.left, MaybePc.left]
        omega
      | deallocate =>
        obtain ⟨-, rfl, -⟩ := hshape
        simp only [FindPc.left, MaybePc.left]
        omega
  | take pc =>
    have htake : pc.left arena ≤ 3 * arena.heap.size + 10 := TakePc.left_le h hh hshape hparked
    show pc.left arena ≤ _
    omega
  | put n first last pc =>
    show pc.left ≤ _
    cases pc <;> simp only [PutPc.left] <;> omega
  | loadFree | acquire | loadNext | casFree | clearInFree | loadWriter | swapWriter | loadContended
  | loadPages | unlock =>
    simp only [FindPc.left]
    omega

theorem ShrinkPc.left_of_shape {pc : ShrinkPc} {arena : SharedArena} {chain bag : List Addr}
    (h : Placed arena.lists place listed) (hh : Holds place t (chain ++ bag))
    (hshape : pc.Shape arena.lists listed chain bag) (hw : pc.writes = true) :
    pc.Left arena (8 * arena.heap.size + 10) := by
  have hle := held_le_size h hh
  have hle' := listed_le_size h
  rw [List.length_append] at hle
  cases pc with
  | swapShrinking | swapWriter => cases hw
  | swapFree => exact Nat.le_refl _
  | loadPages start =>
    refine ⟨chain, hshape.1, ?_⟩
    omega
  | walk start current toDrop =>
    obtain ⟨rfl, pre, rest, rfl, hwalk⟩ := hshape
    rw [List.length_append] at hle
    refine ⟨rest, hwalk.ahead, ?_⟩
    omega
  | walkNext start current value toDrop =>
    obtain ⟨rfl, pre, rest, rfl, hwalk⟩ := hshape
    rw [List.length_append, List.length_cons] at hle
    refine ⟨rest, hwalk.advance.ahead, ?_⟩
    omega
  | walkBits start current value nextValue toDrop =>
    obtain ⟨rfl, -, pre, rest, rfl, hwalk⟩ := hshape
    rw [List.length_append, List.length_cons] at hle
    refine ⟨rest, hwalk.advance.ahead, ?_⟩
    omega
  | walkCas start current value nextValue toDrop =>
    obtain ⟨rfl, -, pre, rest, rfl, hwalk⟩ := hshape
    rw [List.length_append, List.length_cons] at hle
    refine ⟨rest, hwalk.advance.ahead, ?_⟩
    omega
  | retain start kept page rest =>
    obtain ⟨rfl, -⟩ := hshape
    rw [List.length_append, List.length_cons] at hle
    show rest.length + 3 * arena.heap.size + 8 ≤ _
    omega
  | full start toDrop current =>
    obtain ⟨-, -, pre, rest, rfl, hwalk, -⟩ := hshape
    rw [List.length_append] at hle'
    refine ⟨rest, hwalk.ahead, ?_⟩
    omega
  | fullNext start toDrop current value =>
    obtain ⟨-, -, pre, rest, rfl, hwalk, -⟩ := hshape
    rw [List.length_append, List.length_cons] at hle'
    refine ⟨rest, hwalk.advance.ahead, ?_⟩
    omega
  | fullCas start toDrop current value nextValue =>
    obtain ⟨-, -, -, pre, rest, rfl, hwalk, -⟩ := hshape
    rw [List.length_append, List.length_cons] at hle'
    refine ⟨rest, hwalk.advance.ahead, ?_⟩
    omega
  | storeDelay | swapToFree | storeToFree | restore | subPages | clearShrinking =>
    unfold Left
    omega
  | unlock => trivial

/-! ## What is left goes down -/

def LockLeft (t : Tid) (s : SharedState) (k : Nat) : Prop := FindLeft t s k ∨ ShrinkLeft t s k

theorem LockLeft.start (hl : SharedListsInv False s place listed) (hw : holdsLock t s = true) :
    LockLeft t s (8 * s.arena.heap.size + 13) := by
  obtain ⟨chain, bag, hh, hshape⟩ := hl.stands t
  unfold holdsLock at hw
  cases hc : s.threads.get t with
  | alloc pc =>
    rw [hc] at hshape
    have hle : pc.left s.arena ≤ 3 * s.arena.heap.size + 13 := FindPc.left_le hl.placed hh hshape
    exact Or.inl ⟨pc, hc, by omega⟩
  | shrink pc =>
    rw [hc] at hshape hw
    have hleft : pc.Left s.arena (8 * s.arena.heap.size + 10) :=
      ShrinkPc.left_of_shape hl.placed hh hshape hw
    exact Or.inr ⟨pc, hc, hleft.mono (by omega)⟩
  | idle | drop | panicked =>
    rw [hc] at hw
    cases hw

theorem LockLeft.step (hl : SharedListsInv False s place listed) (hg : GuardInv s)
    (hpop : s.popsCurrent a = true) (hm : Moves s a s') (hw : holdsLock t s = true)
    (hw' : holdsLock t s' = true) (h : LockLeft t s k) :
    ∃ m, LockLeft t s' m ∧ m + (if steps t a = true then 1 else 0) ≤ k := by
  rcases h with h | h
  · obtain ⟨m, hleft, hle⟩ := findLeft_step hg hm hw hw' h
    exact ⟨m, Or.inl hleft, hle⟩
  · obtain ⟨m, hleft, hle⟩ := shrinkLeft_step hl hg hpop hm hw hw' h
    exact ⟨m, Or.inr hleft, hle⟩

/-- Whatever the others do, a call of `alloc` that has become the writer is not the writer any more
after three operations for each parked page and some more, in every run. In the runs where no
`compare_exchange` succeeds with a link that has changed, any writer is done after eight operations
for each page that was made and some more. The cells of a page that was deallocated stay in the
model, and its address is not used again. -/
theorem lock_released :
    (∀ {s s' : SharedState} {t : Tid} {as : List SharedAct}, machine.Reach Machine.always s →
      s.threads.get t = .alloc .recheckFree → machine.run s as = some s' →
      3 * s.arena.parkedPages + 13 < as.countP (steps t) → machine.Ends (holdsLock t) s as) ∧
    ∀ {s s' : SharedState} {t : Tid} {as : List SharedAct},
      (machine.restrict SharedState.popsCurrent).Reach Machine.always s → holdsLock t s = true →
      (machine.restrict SharedState.popsCurrent).run s as = some s' →
      8 * s.arena.heap.size + 13 < as.countP (steps t) →
      (machine.restrict SharedState.popsCurrent).Ends (holdsLock t) s as := by
  constructor
  · intro s s' t as h ht hr hmany
    have hw : holdsLock t s = true := by
      unfold holdsLock
      rw [ht]
      rfl
    have hmany' : 3 * s.arena.parkedPages + 13 + machine.spent (fun _ _ _ => 0) s as <
        as.countP (steps t) := by
      rw [Machine.spent_zero]
      exact hmany
    refine Machine.ends_of_spent (L := FindLeft t) ?_ h hw ⟨_, ht, Nat.le_refl _⟩ hr hmany'
    intro s s' a n hreach hs hc hc' hleft
    exact findLeft_step (GuardInv.of_reach hreach) (moves_of_step hs) hc hc' hleft
  · intro s s' t as h hw hr hmany
    have hmany' : 8 * s.arena.heap.size + 13 +
        (machine.restrict SharedState.popsCurrent).spent (fun _ _ _ => 0) s as <
        as.countP (steps t) := by
      rw [Machine.spent_zero]
      exact hmany
    obtain ⟨place, listed, hl⟩ := SharedListsInv.of_popsCurrent (fun _ _ hc => hc) h.of_restrict
    refine Machine.ends_of_spent (L := LockLeft t) ?_ h hw (.start hl hw) hr hmany'
    intro s s' a n hreach hs hc hc' hleft
    obtain ⟨hpop, hs⟩ := Machine.restrict_step hs
    obtain ⟨place, listed, hl⟩ :=
      SharedListsInv.of_popsCurrent (fun _ _ hc => hc) hreach.of_restrict
    exact hleft.step hl (GuardInv.of_reach hreach.of_restrict) hpop (moves_of_step hs) hc hc'

/-- Thread 1 drops a block while thread 0 makes new pages; thread 0 shrinks two pages. -/
theorem lock_released_both :
    (∃ (s : SharedState) (as : List SharedAct), s.threads.get 0 = .alloc .recheckFree ∧
      .drop 1 0 5 ∈ as ∧ machine.Ends (holdsLock 0) s as) ∧
    ∃ (s : SharedState) (as : List SharedAct), s.threads.get 0 = .shrink .swapFree ∧
      s.handles.length = 1 ∧ (machine.restrict SharedState.popsCurrent).Ends (holdsLock 0) s as := by
  constructor
  · have hstart : machine.init (.start 1) := ⟨1, rfl⟩
    let as : List SharedAct := SharedAct.steps 0 3 ++ SharedAct.drops 1 0 5 7 ++ SharedAct.steps 0 11
    obtain ⟨s, hs, hp⟩ := Machine.Reach.exists_of_runIf hstart (fun _ _ => true)
      (SharedAct.takes 0 63 ++ SharedAct.allocs 0 8)
      (fun s => s.threads.get 0 = .alloc .recheckFree ∧ s.arena.parkedPages = 0 ∧
        (machine.run s as).isSome = true) (fun _ _ _ => trivial) (by decide +kernel)
    obtain ⟨ht, hparked, hr⟩ := of_decide_eq_true hp
    obtain ⟨s', hr⟩ := Option.isSome_iff_exists.mp hr
    have hmany : 3 * s.arena.parkedPages + 13 < as.countP (steps 0) := by
      rw [hparked]
      decide
    exact ⟨s, as, ht, by decide, lock_released.1 hs ht hr hmany⟩
  · have hstart : (machine.restrict SharedState.popsCurrent).init (.start 126) := ⟨126, rfl⟩
    let as : List SharedAct := SharedAct.steps 0 24 ++ SharedAct.takes 0 2
    obtain ⟨s, hs, hp⟩ := Machine.Reach.exists_of_runIf hstart (fun _ _ => true)
      (SharedAct.takes 0 1 ++ .shrink 0 :: SharedAct.steps 0 2)
      (fun s => s.threads.get 0 = .shrink .swapFree ∧ s.handles.length = 1 ∧ s.arena.heap.size = 2 ∧
        ((machine.restrict SharedState.popsCurrent).run s as).isSome = true)
      (fun _ _ _ => trivial) (by decide +kernel)
    obtain ⟨ht, hlen, hsize, hr⟩ := of_decide_eq_true hp
    obtain ⟨s', hr⟩ := Option.isSome_iff_exists.mp hr
    have hw : holdsLock 0 s = true := by
      unfold holdsLock
      rw [ht]
      rfl
    have hmany : 8 * s.arena.heap.size + 13 < as.countP (steps 0) := by
      rw [hsize]
      decide
    exact ⟨s, as, ht, hlen, lock_released.2 hs hw hr hmany⟩

end SharedArena

end MemoryPools
