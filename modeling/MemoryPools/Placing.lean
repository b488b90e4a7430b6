import MemoryPools.SessionSound
import MemoryPools.ArenaBlocks
import MemoryPools.SharedArenaBlocks
import MemoryPools.SharedArenaSound

/-!
# Where `find_place` finds a block

The call returns, and what it writes is known: it takes one bit of a page that was there,
or of a new one. A page that it unlinks is full.
-/

namespace MemoryPools

open Interleave

/-! ## What a call leaves alone -/

/-- The pages of `v` are there in `v'`, and their blocks but `x` are free if they were; `word`
are the bits of the pages. -/
structure View.Frames (v v' : View) (word word' : Addr → Bitfield) (x : Option Block) : Prop where
  size : v.size ≤ v'.size
  freed : v.freed <:+ v'.freed
  bits : ∀ q < v.size, ∀ j < 63, some (q, j) ≠ x → (word' q).getLsbD j = (word q).getLsbD j

namespace View.Frames

variable {v v' v'' : View} {word word' word'' : Addr → Bitfield} {x : Option Block}

theorem same (hsize : v'.size = v.size) (hfreed : v'.freed = v.freed) (hw : word' = word) :
    v.Frames v' word word' x := by
  refine ⟨Nat.le_of_eq hsize.symm, ?_, fun _ _ _ _ _ => by rw [hw]⟩
  rw [hfreed]

theorem trans (h : v.Frames v' word word' none) (h' : v'.Frames v'' word' word'' x) :
    v.Frames v'' word word'' x where
  size := Nat.le_trans h.size h'.size
  freed := h.freed.trans h'.freed
  bits q hq j hj hne := by
    rw [h'.bits q (Nat.lt_of_lt_of_le hq h.size) j hj hne, h.bits q hq j hj (by simp)]

end View.Frames

namespace SharedArena

variable {a a' : SharedArena} {p : Addr} {i : Nat} {pc pc' : FindPc}

theorem findPlace_suffix {control : Control FindPc (Addr × Nat)}
    (hs : a.findPlace pc = (a', control)) : a.heap.freed <:+ a'.heap.freed := by
  cases pc with
  | loadFree | casFree =>
    simp only [findPlace] at hs
    split at hs <;> obtain ⟨rfl, -⟩ := Prod.mk.inj hs
    · exact List.suffix_refl _
    · exact List.suffix_refl _
  | maybeFree guarded pc =>
    simp only [findPlace] at hs
    obtain ⟨rfl, -⟩ := Prod.mk.inj hs
    cases pc with
    | dropPage p rest pc =>
      cases pc with
      | fetch => exact List.suffix_refl _
      | deallocate => exact List.suffix_cons _ _
    | loadDelay | fetchAdd | swapToFree => exact List.suffix_refl _
  | take pc =>
    simp only [findPlace] at hs
    obtain ⟨rfl, -⟩ := Prod.mk.inj hs
    rw [freed_takePages]
  | put n first last pc =>
    simp only [findPlace] at hs
    obtain ⟨rfl, -⟩ := Prod.mk.inj hs
    rw [freed_putPages]
  | acquire | loadNext | clearInFree | loadWriter | swapWriter | loadContended | recheckFree
  | loadPending | swapPending | swapFree | loadToFree | loadPages | unlock =>
    obtain ⟨rfl, -⟩ := Prod.mk.inj hs
    exact List.suffix_refl _

def Aims (a : SharedArena) : FindPc → Prop
  | .acquire p (.fetchAnd i) => (a.page p).bitfield.ctz.toNat = i ∧ i ≠ 63
  | _ => True

theorem aims_of_blind {control : Control FindPc (Addr × Nat)} (h : blind control = true)
    (hc : control = .goto pc) : a.Aims pc := by
  subst hc
  cases pc with
  | acquire => cases h
  | _ => trivial

/-- `acquire_free_block` either finds the page full or takes a block. -/
theorem acquire_keeps {pc : PageSharedArena.AcquirePc} (haims : a.Aims (.acquire p pc))
    (hs : a.findPlace (.acquire p pc) = (a', .goto pc')) :
    a.view.Frames a'.view a.word a'.word none ∧ a'.Aims pc' := by
  cases pc with
  | load =>
    have hw : (a.setPage p (a.page p)).word = a.word := word_setPage_same rfl
    by_cases h63 : (a.page p).bitfield.ctz.toNat = 63
    · simp only [findPlace, PageSharedArena.acquireFreeBlock, blockPerPage_eq, h63, ite_true,
        Prod.mk.injEq, Control.goto.injEq] at hs
      obtain ⟨rfl, rfl⟩ := hs
      exact ⟨.same rfl rfl hw, trivial⟩
    · simp only [findPlace, PageSharedArena.acquireFreeBlock, blockPerPage_eq, h63, ite_false,
        Prod.mk.injEq, Control.goto.injEq] at hs
      obtain ⟨rfl, rfl⟩ := hs
      refine ⟨.same rfl rfl hw, ?_, h63⟩
      rw [page_setPage, if_pos rfl]
  | fetchAnd i =>
    obtain ⟨hctz, h63⟩ := haims
    have hzero : (a.page p).bitfield = 0 := by
      by_contra hne
      have hbit := getLsbD_ctz hne
      have hlt := ctz_lt hne
      rw [hctz] at hbit hlt
      have hi : i < 63 := by omega
      have hset : ¬ (a.page p).bitfield &&& bit i = 0 := by
        rw [and_bit_eq_zero hi, hbit]
        simp
      simp only [findPlace, PageSharedArena.acquireFreeBlock, hset, hi, blockPerPage_eq, ne_eq,
        not_false_eq_true, ite_true, Prod.mk.injEq, reduceCtorEq, and_false] at hs
    have hand : (a.page p).bitfield &&& bit i = 0 := by simp [hzero]
    simp only [findPlace, PageSharedArena.acquireFreeBlock, hand, ne_eq, not_true_eq_false,
      ite_false, Prod.mk.injEq, Control.goto.injEq] at hs
    obtain ⟨rfl, rfl⟩ := hs
    have hsame : (a.page p).bitfield &&& ~~~bit i = a.word p := by simp [word, hzero]
    exact ⟨.same rfl rfl (word_setPage_same hsame), trivial⟩

theorem findPlace_keeps (haims : a.Aims pc) (hs : a.findPlace pc = (a', .goto pc')) :
    a.view.Frames a'.view a.word a'.word none ∧ a'.Aims pc' := by
  cases hpc : pc with
  | acquire p pc₁ =>
    subst hpc
    exact acquire_keeps haims hs
  | _ =>
    obtain ⟨hw, hsize⟩ := findPlace_word hs
    have hframes : (∀ q < a.heap.size, ∀ j < 63, (a'.word q).getLsbD j = (a.word q).getLsbD j) →
        a.view.Frames a'.view a.word a'.word none :=
      fun hbits => ⟨hsize, findPlace_suffix hs, fun q hq j hj _ => hbits q hq j hj⟩
    cases hw with
    | look hp hw => exact ⟨hframes fun q _ j _ => by rw [hw], trivial⟩
    | scan | take => cases hpc
    | giveUp hw hc =>
      refine ⟨hframes fun q _ j hj => ?_, aims_of_blind hc rfl⟩
      rw [hw, Function.update_apply]
      split
      · rename_i e
        rw [getLsbD_sub_mask_lt hj, e]
      · rfl
    | grow hw hc =>
      refine ⟨hframes fun q hq j _ => ?_, aims_of_blind hc rfl⟩
      rcases hw q with e | e
      · rw [e]
      · exact absurd hq (Nat.not_lt.mpr e.1)
    | keep hw hc => exact ⟨hframes fun q _ j _ => by rw [hw], aims_of_blind hc rfl⟩

theorem findPlace_takes (hs : a.findPlace pc = (a', .ret (p, i))) :
    a.view.Frames a'.view a.word a'.word (some (p, i)) := by
  obtain ⟨hw, hsize⟩ := findPlace_word hs
  refine ⟨hsize, findPlace_suffix hs, fun q _ j _ hne => ?_⟩
  cases hw with
  | @take q' i' _ hw hc =>
    rcases hc with ⟨hret, hi, -⟩ | hgoto | hgoto
    · obtain ⟨rfl, rfl⟩ := Prod.mk.inj (Control.ret.inj hret)
      rw [hw, Function.update_apply]
      by_cases e : q = p
      · have hj : ¬ i = j := fun e' => hne (by rw [e, e'])
        rw [if_pos e, getLsbD_and_not_bit hi, e]
        simp [hj]
      · rw [if_neg e]
    · cases hgoto
    · cases hgoto
  | giveUp _ hc | grow _ hc | keep _ hc => cases hc

theorem findPlace_frames (h : Returns findPlace a .loadFree a' (p, i)) :
    a.view.Frames a'.view a.word a'.word (some (p, i)) := by
  obtain ⟨a₁, pc₁, hgoes, hret⟩ := h
  have hkeeps := hgoes.keeps (P := fun a₂ pc => a.view.Frames a₂.view a.word a₂.word none ∧
    a₂.Aims pc) (fun hs he => ?_) ⟨.same rfl rfl rfl, trivial⟩
  · exact hkeeps.1.trans (findPlace_takes hret)
  · obtain ⟨hframes, haims⟩ := findPlace_keeps hs.2 he
    exact ⟨hs.1.trans hframes, haims⟩

end SharedArena

namespace Arena

variable {a a' : Arena} {p q : Addr} {i : Nat} {pc pc' : FindPc}

def bitsAt (a : Arena) (pc : FindPc) (q : Addr) : Bitfield :=
  (a.words q).1 ||| (a.words q).2 ||| (ArenaCall.alloc pc).swapped q

theorem bitsAt_congr (hw : ∀ q, a'.words q = a.words q)
    (hs : ∀ q, (ArenaCall.alloc pc').swapped q = (ArenaCall.alloc pc).swapped q) :
    a'.bitsAt pc' = a.bitsAt pc := by
  funext q
  unfold bitsAt
  rw [hw, hs]

theorem acquire_keeps {pc : PageArena.AcquirePc}
    (hs : a.findPlace (.acquire p pc) = (a', .goto pc')) :
    a'.heap.size = a.heap.size ∧ a'.bitsAt pc' = a.bitsAt (.acquire p pc) := by
  have hword : ∀ q, (a.setPage p (a.page p)).words q = a.words q :=
    fun q => words_setPage_same rfl
  cases pc with
  | scan =>
    by_cases h63 : (a.page p).bitfield.ctz.toNat = 63
    · simp only [findPlace, PageArena.acquireFreeBlock, blockPerPage_eq, h63, ite_true,
        Prod.mk.injEq, Control.goto.injEq] at hs
      obtain ⟨rfl, rfl⟩ := hs
      exact ⟨rfl, bitsAt_congr hword fun _ => rfl⟩
    · by_cases hlt : (a.page p).bitfield.ctz.toNat < 63
      · simp only [findPlace, PageArena.acquireFreeBlock, blockPerPage_eq, h63, hlt, ite_true,
          ite_false, Prod.mk.injEq, reduceCtorEq, and_false] at hs
      · simp only [findPlace, PageArena.acquireFreeBlock, blockPerPage_eq, h63, hlt, ite_false,
          Prod.mk.injEq, reduceCtorEq, and_false] at hs
  | loadAtomic =>
    by_cases hz : (a.page p).bitfieldAtomic = 0
    · simp only [findPlace, PageArena.acquireFreeBlock, hz, ne_eq, not_true_eq_false, ite_false,
        Prod.mk.injEq, Control.goto.injEq] at hs
      obtain ⟨rfl, rfl⟩ := hs
      exact ⟨rfl, bitsAt_congr hword fun _ => rfl⟩
    · simp only [findPlace, PageArena.acquireFreeBlock, hz, ne_eq, not_false_eq_true, ite_true,
        Prod.mk.injEq, Control.goto.injEq] at hs
      obtain ⟨rfl, rfl⟩ := hs
      exact ⟨rfl, bitsAt_congr hword fun _ => rfl⟩
  | swapAtomic =>
    simp only [findPlace, PageArena.acquireFreeBlock, Prod.mk.injEq, Control.goto.injEq] at hs
    obtain ⟨rfl, rfl⟩ := hs
    refine ⟨rfl, funext fun q => ?_⟩
    simp only [bitsAt, words_setPage, ArenaCall.swapped]
    by_cases e : q = p
    · simp [e, words]
    · simp [e, Ne.symm e]
  | merge swapped =>
    simp only [findPlace, PageArena.acquireFreeBlock, Prod.mk.injEq, Control.goto.injEq] at hs
    obtain ⟨rfl, rfl⟩ := hs
    refine ⟨rfl, funext fun q => ?_⟩
    simp only [bitsAt, words_setPage, ArenaCall.swapped]
    by_cases e : q = p
    · simp [e, words, BitVec.or_assoc, BitVec.or_comm swapped]
    · simp [e, Ne.symm e]

theorem findPlace_keeps (hs : a.findPlace pc = (a', .goto pc')) :
    a.view.Frames a'.view (a.bitsAt pc) (a'.bitsAt pc') none := by
  obtain ⟨hfreed, hwords, -⟩ := findPlace_frame hs
  cases pc with
  | acquire p pc =>
    obtain ⟨hsize, hbits⟩ := acquire_keeps hs
    exact .same hsize hfreed hbits
  | loadFull =>
    obtain ⟨rfl, hpc⟩ := Prod.mk.inj hs
    obtain rfl := Control.goto.inj hpc
    refine ⟨Nat.le_add_right _ _, List.suffix_refl _, fun q hq j _ _ => ?_⟩
    have e := (hwords q (by simp)).resolve_right (Nat.not_le.mpr hq)
    simp only [bitsAt, e, ArenaCall.swapped]
  | getFree =>
    simp only [findPlace] at hs
    split at hs
    · cases hs
      exact .same rfl rfl rfl
    · cases hs
      exact .same rfl rfl rfl
  | setFree =>
    simp only [findPlace] at hs
    split at hs
    · cases hs
      exact .same rfl rfl rfl
    · cases hs
  | unlink | swapPending | swapFull =>
    cases hs
    exact .same rfl rfl rfl
  | clearInFree p | linkLast n first p =>
    cases hs
    exact .same rfl rfl (bitsAt_congr (fun q => words_setPage_same rfl) fun _ => rfl)
  | loadPending =>
    obtain ⟨rfl, hpc⟩ := Prod.mk.inj hs
    obtain rfl := Control.goto.inj hpc
    refine .same rfl rfl (bitsAt_congr (fun q => rfl) fun q => ?_)
    split <;> rfl

theorem findPlace_takes (hs : a.findPlace pc = (a', .ret (p, i))) :
    a.view.Frames a'.view (a.bitsAt pc) (a'.bitsAt .getFree) (some (p, i)) := by
  obtain ⟨hfreed, -, hret⟩ := findPlace_frame hs
  obtain ⟨pc, rfl⟩ := hret p i rfl
  cases pc with
  | scan =>
    simp only [findPlace, PageArena.acquireFreeBlock] at hs
    by_cases h63 : (a.page p).bitfield.ctz.toNat = 63
    · simp [h63] at hs
    · by_cases hlt : (a.page p).bitfield.ctz.toNat < 63
      · simp only [blockPerPage_eq, h63, hlt, ite_true, ite_false, Prod.mk.injEq, Control.ret.injEq,
          true_and] at hs
        obtain ⟨rfl, rfl⟩ := hs
        refine ⟨Nat.le_refl _, List.suffix_refl _, fun q _ j _ hne => ?_⟩
        simp only [bitsAt, words_setPage, ArenaCall.swapped]
        by_cases e : q = p
        · have hj : ¬ (a.page p).bitfield.ctz.toNat = j := fun e' => hne (by rw [e, e'])
          simp only [e, ite_true, BitVec.getLsbD_or, getLsbD_and_not_bit hlt, hj, words]
          simp
        · simp [e]
      · simp [h63, hlt] at hs
  | loadAtomic =>
    simp only [findPlace, PageArena.acquireFreeBlock] at hs
    split at hs
    · cases hs
    · rename_i hc
      split at hc <;> cases hc
    · cases hs
    · cases hs
  | swapAtomic | merge =>
    simp only [findPlace, PageArena.acquireFreeBlock] at hs
    cases hs

theorem findPlace_frames (h : Returns findPlace a .getFree a' (p, i)) :
    a.view.Frames a'.view (a.bitsAt .getFree) (a'.bitsAt .getFree) (some (p, i)) := by
  obtain ⟨a₁, pc₁, hgoes, hret⟩ := h
  have hkeeps := hgoes.keeps (P := fun a₂ pc => a.view.Frames a₂.view (a.bitsAt .getFree)
    (a₂.bitsAt pc) none) (fun hs he => hs.trans (findPlace_keeps he)) (.same rfl rfl rfl)
  exact hkeeps.trans (findPlace_takes hret)

end Arena

namespace Pool

variable {a a' : Pool} {p : Addr} {i : Nat} {pc pc' : FindPc}

def word (a : Pool) (p : Addr) : Bitfield := (a.page p).bitfield

theorem word_setPage {x : PagePool} :
    (a.setPage p x).word = Function.update a.word p x.bitfield := by
  funext q
  show ((a.heap.set p x).get q).bitfield = _
  rw [Heap.get_set, Function.update_apply]
  split <;> rfl

theorem word_setPage_same {x : PagePool} (h : x.bitfield = a.word p) :
    (a.setPage p x).word = a.word := by
  rw [word_setPage, h, Function.update_eq_self]

theorem acquire_some {page : PagePool} {i : Nat} {x : PagePool}
    (h : page.acquireFreeBlock = some (x, some i)) :
    i < 63 ∧ x.bitfield = page.bitfield &&& ~~~bit i := by
  unfold PagePool.acquireFreeBlock at h
  by_cases h63 : page.bitfield.ctz.toNat = 63
  · simp [h63] at h
  · by_cases hlt : page.bitfield.ctz.toNat < 63
    · simp only [blockPerPage_eq, h63, hlt, ite_true, ite_false, Option.some.injEq, Prod.mk.injEq] at h
      obtain ⟨rfl, rfl⟩ := h
      exact ⟨hlt, rfl⟩
    · simp [h63, hlt] at h

theorem acquire_none {page x : PagePool} (h : page.acquireFreeBlock = some (x, none)) :
    x = page := by
  unfold PagePool.acquireFreeBlock at h
  by_cases h63 : page.bitfield.ctz.toNat = 63
  · simpa [h63, eq_comm] using h
  · by_cases hlt : page.bitfield.ctz.toNat < 63
    · simp [h63, hlt] at h
    · simp [h63, hlt] at h

theorem findPlace_keeps (hs : a.findPlace pc = (a', .goto pc')) :
    a.view.Frames a'.view a.word a'.word none := by
  cases pc with
  | getFree =>
    simp only [findPlace] at hs
    split at hs
    · rename_i p hp
      split at hs
      · cases hs
      · rename_i x hx
        cases hs
        rw [acquire_none hx]
        exact .same rfl rfl (word_setPage_same rfl)
      · cases hs
    · cases hs
      exact .same rfl rfl rfl
  | allocNewPage =>
    cases hs
    refine ⟨Nat.le_add_right _ _, List.suffix_refl _, fun q hq j _ _ => ?_⟩
    have hne : q ≠ a.heap.size := Nat.ne_of_lt hq
    have e : a.allocNewPage.page q = a.page q :=
      ((Heap.get_set _ _ _ q).trans (if_neg hne)).trans (Heap.get_makeList_old (Or.inl hq))
    unfold word
    rw [e]

theorem findPlace_takes (hs : a.findPlace pc = (a', .ret (p, i))) :
    a.view.Frames a'.view a.word a'.word (some (p, i)) := by
  cases pc with
  | getFree =>
    simp only [findPlace] at hs
    split at hs
    · split at hs
      · rename_i x index hx
        cases hs
        obtain ⟨hi, hbits⟩ := acquire_some hx
        refine ⟨Nat.le_refl _, List.suffix_refl _, fun q _ j _ hne => ?_⟩
        rw [word_setPage, Function.update_apply, hbits]
        by_cases e : q = p
        · have hj : ¬ i = j := fun e' => hne (by rw [e, e'])
          rw [if_pos e, getLsbD_and_not_bit hi, e]
          simp [hj, word]
        · rw [if_neg e]
      · cases hs
      · cases hs
    · cases hs
  | allocNewPage => cases hs

theorem findPlace_frames (h : Returns findPlace a .getFree a' (p, i)) :
    a.view.Frames a'.view a.word a'.word (some (p, i)) := by
  obtain ⟨a₁, pc₁, hgoes, hret⟩ := h
  have hkeeps := hgoes.keeps (P := fun a₂ _ => a.view.Frames a₂.view a.word a₂.word none)
    (fun hs he => hs.trans (findPlace_keeps he)) (.same rfl rfl rfl)
  exact hkeeps.trans (findPlace_takes hret)

end Pool

/-! ## The three kinds -/

namespace PageKind

variable {t : PageKind} {p : Addr} {i : Nat}

def word : (t : PageKind) → t.Arena → Addr → Bitfield
  | .sharedArena, a, p => SharedArena.word a p
  | .arena, a, p => (Arena.words a p).1 ||| (Arena.words a p).2
  | .pool, a, p => Pool.word a p

theorem held_iff (t : PageKind) (a : t.Arena) :
    ((t.calls.view a).word p).held i ↔ i < 63 ∧ (t.word a p).getLsbD i = false := by
  cases t with
  | sharedArena | pool => exact Iff.rfl
  | arena =>
    show _ ↔ _ ∧ ((Arena.words a p).1 ||| (Arena.words a p).2).getLsbD i = false
    rw [BitVec.getLsbD_or, Bool.or_eq_false_iff]
    exact Iff.rfl

theorem findPlace_frames {a a' : t.Arena} (h : Completes t.calls.findPlace a a' (p, i)) :
    (t.calls.view a).Frames (t.calls.view a') (t.word a) (t.word a') (some (p, i)) := by
  cases t with
  | sharedArena => exact SharedArena.findPlace_frames h.returns
  | pool => exact Pool.findPlace_frames h.returns
  | arena =>
    have hbits : ∀ a : MemoryPools.Arena, a.bitsAt .getFree = PageKind.word .arena a := by
      intro a
      funext q
      simp [Arena.bitsAt, ArenaCall.swapped, word]
    have hf := Arena.findPlace_frames h.returns
    rw [hbits a, hbits a'] at hf
    exact hf

end PageKind

/-! ## The lists -/

structure View.Lists (v : View) (free pending full : List Addr) : Prop where
  free : Linked v.nextFree v.free free
  pending : Linked v.nextFree v.pending pending
  full : Linked v.next v.full full

theorem View.Shows.lists {v : View} {b : Book} (h : v.Shows b) : v.Lists b.free b.pending b.listed :=
  ⟨h.free, h.pending, h.full⟩

namespace Book.Fetch

variable {b b' : Book} {n : Nat} {q : Addr}

theorem listed (h : Fetch b n b') : b.listed <:+ b'.listed := by
  cases h with
  | found | pending => exact List.suffix_refl _
  | unpark | grow => exact List.suffix_append _ _

/-- A page that is not on the lists any more was full. -/
theorem full_of_unlinked (h : Fetch b n b') (hq : q ∈ b.free ++ b.pending)
    (hnot : q ∉ b'.free ++ b'.pending) : b.full q = true := by
  have hdropped : q ∈ b.free → q ∉ b.free.dropWhile b.full → b.full q = true := by
    intro hq hnot
    by_contra hroom
    exact hnot (Tidy.mem_dropWhile hq (by simpa using hroom))
  rw [List.mem_append] at hq
  cases h with
  | found hne =>
    rcases hq with hq | hq
    · exact hdropped hq fun hm => hnot (List.mem_append_left _ hm)
    · exact absurd (List.mem_append_right _ hq) hnot
  | pending hall hne hparked =>
    rcases hq with hq | hq
    · exact hdropped hq (by simp [hall])
    · exact absurd (List.mem_append_left _ hq) hnot
  | unpark hall hpending | grow hall hpending =>
    rcases hq with hq | hq
    · exact hdropped hq (by simp [hall])
    · rw [hpending] at hq
      cases hq

end Book.Fetch

/-! ## The call in a program -/

namespace Session

variable {σ V : Type}

/-- `find_place`: the counters and the values of the blocks are no part of the pool. -/
def findPlace (K : Kind σ) (fuel : Nat) (s : Session σ V) : Session σ V × Control Unit Block :=
  match K.findPlace fuel s.arena with
  | (arena, control) => ({ s with arena }, control)

theorem findPlace_completes {K : Kind σ} {s : Session σ V} {arena : σ} {x : Block}
    (h : Completes K.findPlace s.arena arena x) :
    Completes (Session.findPlace K) s { s with arena } x := by
  refine ⟨?_, fun fuel => ?_⟩
  · obtain ⟨n, hn⟩ := h.enough
    exact ⟨n, fun fuel hf => by simp only [findPlace, hn fuel hf]⟩
  · rcases h.cases fuel with e | e
    · left
      simp only [findPlace, e]
    · right
      simp only [findPlace, e]

end Session

theorem Kind.Alive.bit_iff {t : PageKind} {a : t.Arena} {b : Book} (h : t.calls.Alive a b)
    {q : Addr} (hq : q < (t.calls.view a).size)
    (hkept : q ∉ (t.calls.view a).freed.map Freed.page) {j : Nat} (hj : j < 63) :
    (t.word a q).getLsbD j = true ↔ (q, j) ∉ b.live := by
  rw [← h.shows.held q ((h.shows.kept q).mpr ⟨hq, hkept⟩) j, t.held_iff]
  simp [hj]

/-- `find_place` returns a block that was free, or that is on a page that it made. It takes
the bit of the block and changes no other bit of a page that was there, no counter and no
value. The pages that it unlinks have no free block. -/
theorem findPlace_framed {t : PageKind} {V : Type} {cap : Nat} {s : Session t.Arena V}
    (h : (sessionMachine t.calls cap V).Reach Machine.always s) (ha : s.alive = true) :
    ∃ (s' : Session t.Arena V) (p : Addr) (i : Nat)
      (free pending full free' pending' full' : List Addr),
      Completes (Session.findPlace t.calls) s s' (p, i) ∧
      (t.calls.view s.arena).Lists free pending full ∧
      (t.calls.view s'.arena).Lists free' pending' full' ∧
      i < 63 ∧ p ∈ free' ∧ p < (t.calls.view s'.arena).size ∧
      (p < (t.calls.view s.arena).size → p ∉ (t.calls.view s.arena).freed.map Freed.page ∧
        (t.word s.arena p).getLsbD i = true) ∧
      (t.word s'.arena p).getLsbD i = false ∧
      (∀ q < (t.calls.view s.arena).size, ∀ j < 63, (q, j) ≠ (p, i) →
        (t.word s'.arena q).getLsbD j = (t.word s.arena q).getLsbD j) ∧
      s.counter (p, i) = 0 ∧ s'.counter = s.counter ∧ s'.value = s.value ∧
      (∀ q ∈ free ++ pending, q ∉ free' ++ pending' →
        ∀ j < 63, (t.word s.arena q).getLsbD j = false) ∧
      full <:+ full' := by
  obtain ⟨b, hs⟩ := Kind.Sound.of_reach t.lawful h
  have hk := hs.alive ha
  obtain ⟨n, b', p, i, rest, arena, hf, hfree, hi, hnew, hcall, hk', hsize⟩ :=
    t.lawful.findPlace hk (hs.length_listed_le ha)
  have hframes := PageKind.findPlace_frames hcall
  have hlisted : p ∈ b'.listed := (hk.tidy.fetch hf).free_listed (by simp [hfree])
  obtain ⟨hlt, hkept⟩ := (hk'.shows.kept p).mp (List.mem_append_left _ hlisted)
  rw [hf.live] at hnew
  refine ⟨{ s with arena }, p, i, b.free, b.pending, b.listed, b'.free, b'.pending, b'.listed,
    Session.findPlace_completes hcall, hk.shows.lists, hk'.shows.lists, hi, by simp [hfree], hlt,
    fun hold => ?_, ?_, fun q hq j hj hne => ?_, hs.counter_zero hnew, rfl, rfl,
    fun q hq hnot j hj => ?_, hf.listed⟩
  · have hkept' : p ∉ (t.calls.view s.arena).freed.map Freed.page :=
      fun hm => hkept ((hframes.freed.map Freed.page).subset hm)
    exact ⟨hkept', (hk.bit_iff hold hkept' hi).mpr hnew⟩
  · have htaken := hk'.bit_iff hlt hkept hi
    rw [← Bool.not_eq_true, htaken]
    simp
  · exact hframes.bits q hq j hj fun e => hne (Option.some.inj e)
  · have hfull := Book.full_iff.mp (hf.full_of_unlinked hq hnot) j hj
    obtain ⟨hq', hkept'⟩ := (hk.shows.kept q).mp (List.mem_append_left _ (hk.tidy.sub q hq))
    rw [← Bool.not_eq_true, hk.bit_iff hq' hkept' hj]
    exact fun hnot => hnot hfull

/-- The second value of a shared arena. -/
theorem findPlace_framed_second : ∃ (s s' : Session SharedArena Nat) (x : Block),
    (sessionMachine SharedArena.kind 1 Nat).Reach Machine.always s ∧ s.handles.length = 1 ∧
      Completes (Session.findPlace SharedArena.kind) s s' x ∧ s'.value = s.value ∧
      s.counter x = 0 := by
  have hrun : ((sessionMachine SharedArena.kind 1 Nat).run (.start SharedArena.kind 1)
      [(9, .alloc .alloc 5)]).any (fun s => s.alive = true ∧ s.handles.length = 1) = true := by
    decide +kernel
  have hinit : (sessionMachine SharedArena.kind 1 Nat).init (.start SharedArena.kind 1) :=
    ⟨rfl, by decide +kernel⟩
  obtain ⟨s, h, hend⟩ := Machine.Trace.exists_of_run (f := Prod.snd) hinit hrun
  obtain ⟨ha, hlen⟩ := of_decide_eq_true hend
  obtain ⟨s', p, i, -, -, -, -, -, -, hcall, -, -, -, -, -, -, -, -, hzero, -, hvalue, -⟩ :=
    findPlace_framed (t := .sharedArena) h.reach ha
  exact ⟨s, s', (p, i), h.reach, hlen, hcall, hvalue, hzero⟩

/-! ## Parked pages that are put back -/

namespace SharedArena

open PageSharedArena (ops)

variable {a a' : SharedArena} {v full : List Addr}

theorem takePages_keeps {pc : TakePc} {control : Control TakePc Unit}
    (hs : a.takePages pc = (a', control)) :
    a'.word = a.word ∧ a'.heap.size = a.heap.size ∧ a'.heap.freed = a.heap.freed := by
  obtain rfl := congrArg Prod.fst hs
  exact ⟨takePages_word.1, takePages_word.2, freed_takePages⟩

/-- `take_pages_to_be_freed` of the writer: as many pages as there are in the lists, but one
at least, leave the end of `to_free`. They are the new free list, and stand in front of the
pages that were listed. The sum is that of machine words. -/
theorem takePages_splits (hsome : a.toFree = some v) (hne : v ≠ []) (hnodup : v.Nodup)
    (hfull : Linked a.next a.fullList full) (hout : ∀ p ∈ v, p ∉ full)
    (hnone : a.freeList = none) :
    ∃ (a' : SharedArena) (kept again : List Addr), v = kept ++ again ∧
      again.length = min v.length (max a.npages 1) ∧
      Completes (bounded takePages .swapToFree) a a' () ∧
      Linked a'.nextFree a'.freeList again ∧ Linked a'.next a'.fullList (again ++ full) ∧
      a'.npages = (a.npages + again.length) % 2 ^ 64 ∧
      (a.npages + again.length < 2 ^ 64 → a'.npages = a.npages + again.length) ∧
      (∀ p ∈ again, a'.inFreeList p = true) ∧
      a'.toFree = (if kept = [] then none else some kept) ∧
      (kept ++ (again ++ full)).Nodup ∧
      a'.pendingFreeList = a.pendingFreeList ∧ a'.word = a.word ∧
      a'.heap.size = a.heap.size ∧ a'.heap.freed = a.heap.freed := by
  obtain ⟨again, hagain⟩ : ∃ again, again = v.drop (v.length - max a.npages 1) := ⟨_, rfl⟩
  obtain ⟨kept, hkept⟩ : ∃ kept, kept = v.take (v.length - max a.npages 1) := ⟨_, rfl⟩
  have hsplit : v = kept ++ again := by rw [hkept, hagain, List.take_append_drop]
  have hpos : 0 < v.length := List.length_pos_of_ne_nil hne
  have hlen : again.length = min v.length (max a.npages 1) := by
    rw [hagain, List.length_drop]
    omega
  have hne' : again ≠ [] := by
    apply List.ne_nil_of_length_pos
    omega
  have hsub : ∀ p ∈ again, p ∈ v := by
    intro p hp
    rw [hsplit]
    exact List.mem_append_right _ hp
  have hold : ∀ p ∈ full, p ∉ again := fun p hp hm => hout p (hsub p hm) hp
  obtain ⟨first, hfirst⟩ : ∃ first, again.head? = some first := ⟨_, List.head?_eq_some_head hne'⟩
  obtain ⟨last, hlast⟩ : ∃ last, again.getLast? = some last :=
    ⟨_, List.getLast?_eq_some_getLast hne'⟩
  have hnodup' : again.Nodup := by
    rw [hagain]
    exact (List.drop_sublist _ _).nodup hnodup
  obtain ⟨heap, next, nextFree, flag, delay, hret, hview, hchain, hchain', hflag, hother⟩ :=
    takePages_returns hsome hkept hagain hnodup' hfirst hlast hnone
  rw [hfirst] at hchain hchain'
  have hnext : ops.next heap = Function.update next last a.fullList := congrArg View.next hview
  have hnextFree : ops.nextFree heap = nextFree := congrArg View.nextFree hview
  have hflags : ops.inFreeList heap = flag := congrArg View.inFreeList hview
  have hfull' : Linked next a.fullList full :=
    Linked.congr (fun q hq => (hother q (hold q hq)).2.1) hfull
  have hkeeps := hret.keeps (P := fun s => s.word = a.word ∧ s.heap.size = a.heap.size ∧
    s.heap.freed = a.heap.freed) (fun hs he => ?_) ⟨rfl, rfl, rfl⟩
  · refine ⟨_, kept, again, hsplit, hlen, hret.completes, ?_, ?_, rfl, Nat.mod_eq_of_lt,
      fun p hp => ?_, rfl, ?_, rfl, hkeeps⟩
    · show Linked (ops.nextFree heap) (some first) again
      rw [hnextFree]
      exact hchain
    · show Linked (ops.next heap) (some first) (again ++ full)
      rw [hnext]
      exact (hchain'.join hlast hfull' fun p hp => hout p (hsub p hp)).1
    · show ops.inFreeList heap p = true
      rw [hflags]
      exact hflag p hp
    · rw [← List.append_assoc, ← hsplit]
      apply List.nodup_append.mpr
      refine ⟨hnodup, hfull.nodup, fun p hp q hq e => ?_⟩
      rw [e] at hp
      exact hout q hp hq
  · obtain ⟨hw, hsize, hfreed⟩ := takePages_keeps he
    exact ⟨hw.trans hs.1, hsize.trans hs.2.1, hfreed.trans hs.2.2⟩

/-- Two pages are parked and one is listed: the second one is put in front of it. Its links
are those that it had in a list of all three. -/
theorem takePages_splits_second : ∃ (a a' : SharedArena) (kept again : List Addr),
    a.toFree = some [2, 1] ∧ [2, 1] = kept ++ again ∧ again.length = 1 ∧
      Linked a'.next a'.fullList (again ++ [0]) := by
  let a : SharedArena := { withCapacity 127 with
    freeList := none, fullList := some 0, npages := 1, writer := true, toFree := some [2, 1] }
  have hend : a.next 0 = none := by decide +kernel
  have hfull : Linked a.next a.fullList [0] := ⟨rfl, hend⟩
  obtain ⟨a', kept, again, hsplit, hlen, -, -, hlinked, -⟩ :=
    takePages_splits (a := a) rfl (by decide) (by decide) hfull (by decide) rfl
  exact ⟨a, a', kept, again, rfl, hsplit, hlen, hlinked⟩

end SharedArena

end MemoryPools
