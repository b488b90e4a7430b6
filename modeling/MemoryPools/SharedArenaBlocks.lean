import MemoryPools.SharedArenaLists

/-!
# Who owns the blocks of a shared arena

A block has an owner while a handle to it exists or a drop of it did not add its
bit yet. It then has one owner, its page exists and its bit is clear. In a run
without `shrink_to_fit` no page is given up, so every word keeps the arena's bit.
-/

namespace MemoryPools

open Interleave

def SharedCall.hand : SharedCall → Option (Addr × Nat)
  | .drop p i .fetchAdd => some (p, i)
  | _ => none

instance : Holder SharedCall (Addr × Nat) := ⟨SharedCall.hand⟩

def SharedArena.word (a : SharedArena) (p : Addr) : Bitfield := (a.page p).bitfield

def SharedState.Live (s : SharedState) (p : Addr) (i : Nat) : Prop :=
  Owned s.handles (handOf s.threads) (p, i)

/-! ## What a step does to the words -/

namespace SharedArena

variable {a a' : SharedArena} {p q : Addr} {x : PageSharedArena}

theorem word_setPage : (a.setPage p x).word = Function.update a.word p x.bitfield := by
  funext q
  unfold word
  rw [page_setPage, Function.update_apply]
  split <;> rfl

theorem word_setPage_same (h : x.bitfield = a.word p) : (a.setPage p x).word = a.word := by
  rw [word_setPage, h, Function.update_eq_self]

def blind : Control FindPc (Addr × Nat) → Bool
  | .goto (.acquire _ _) | .ret _ => false
  | _ => true

inductive WordMoves (a a' : SharedArena) : FindPc → Control FindPc (Addr × Nat) → Prop
  | look {p : Addr} (hp : a.freeList = some p) (hw : a'.word = a.word) :
    WordMoves a a' .loadFree (.goto (.acquire p .load))
  | scan {p : Addr} {i : Nat} (hi : i ≤ 64) (h63 : i ≠ 63) (hw : a'.word = a.word) :
    WordMoves a a' (.acquire p .load) (.goto (.acquire p (.fetchAnd i)))
  | take {p : Addr} {i : Nat} {control : Control FindPc (Addr × Nat)}
    (hw : a'.word = Function.update a.word p (a.word p &&& ~~~bit i))
    (hc : control = .ret (p, i) ∧ i < 63 ∧ (a.word p).getLsbD i = true ∨
      control = .goto (.acquire p .load) ∨
      control = .goto (.loadNext p)) : WordMoves a a' (.acquire p (.fetchAnd i)) control
  | giveUp {guarded : Bool} {p : Addr} {rest : List Addr} {control : Control FindPc (Addr × Nat)}
    (hw : a'.word = Function.update a.word p (a.word p - maskArenaBit))
      (hc : blind control = true) :
    WordMoves a a' (.maybeFree guarded (.dropPage p rest .fetch)) control
  | grow {control : Control FindPc (Addr × Nat)}
    (hw : ∀ q, a'.word q = a.word q ∨ a.heap.size ≤ q ∧ a'.word q = BitVec.allOnes 64)
      (hc : blind control = true) :
    WordMoves a a' .loadPages control
  | keep {pc : FindPc} {control : Control FindPc (Addr × Nat)} (hw : a'.word = a.word)
      (hc : blind control = true) :
    WordMoves a a' pc control

theorem word_makeList {n : Nat} :
    ({ a with heap := (a.heap.makeList PageSharedArena.new n).1 } : SharedArena).word q = a.word q ∨
    a.heap.size ≤ q ∧
      ({ a with heap := (a.heap.makeList PageSharedArena.new n).1 } : SharedArena).word q =
        BitVec.allOnes 64 := by
  unfold word page
  rcases Heap.get_makeList PageSharedArena.new n a.heap q with e | ⟨hq, next, e⟩
  · exact Or.inl (by rw [e])
  · exact Or.inr ⟨hq, by rw [e]; rfl⟩

theorem putPages_word {n : Nat} {first last : Addr} {pc : PutPc} :
    (a.putPages n first last pc).1.word = a.word ∧ (a.putPages n first last pc).1.heap.size =
    a.heap.size := by
  cases pc with
  | storeNext => exact ⟨word_setPage_same rfl, rfl⟩
  | loadFull | swapFull | loadFree | swapFree | addPages => exact ⟨rfl, rfl⟩

theorem takePages_word {pc : TakePc} :
    (a.takePages pc).1.word = a.word ∧ (a.takePages pc).1.heap.size = a.heap.size := by
  cases pc with
  | linkFree kept reinsert rest | link kept reinsert rest | setInFree kept reinsert rest =>
    cases rest with
    | nil => exact ⟨rfl, rfl⟩
    | cons => exact ⟨word_setPage_same rfl, rfl⟩
  | put => exact putPages_word
  | swapToFree | loadPages | storeToFree | storeDelay => exact ⟨rfl, rfl⟩

theorem blind_maybeFree {guarded : Bool} {control : Control MaybePc Unit} :
    blind (match control with
      | .goto pc => .goto (.maybeFree guarded pc)
      | .ret () => .goto (if guarded then .unlock else .loadFree)
      | .panic => .panic) = true := by
  cases control with
  | goto | panic => rfl
  | ret => cases guarded <;> rfl

theorem acquire_word {pc : PageSharedArena.AcquirePc} {control : Control FindPc (Addr × Nat)}
    (hs : a.findPlace (.acquire p pc) = (a', control)) :
    WordMoves a a' (.acquire p pc) control := by
  cases pc with
  | load =>
    have hw : (a.setPage p (a.page p)).word = a.word := word_setPage_same rfl
    have hle : (a.page p).bitfield.ctz.toNat ≤ 64 := ctz_le_width
    by_cases h63 : (a.page p).bitfield.ctz.toNat = 63
    · simp only [findPlace, PageSharedArena.acquireFreeBlock, blockPerPage_eq, h63, ite_true] at hs
      obtain ⟨rfl, rfl⟩ := Prod.mk.inj hs
      exact .keep hw rfl
    · simp only [findPlace, PageSharedArena.acquireFreeBlock, blockPerPage_eq, h63, ite_false] at hs
      obtain ⟨rfl, rfl⟩ := Prod.mk.inj hs
      exact .scan hle h63 hw
  | fetchAnd i =>
    have hw : ∀ y : PageSharedArena, y.bitfield = a.word p &&& ~~~bit i →
        (a.setPage p y).word = Function.update a.word p (a.word p &&& ~~~bit i) := by
      intro y e
      rw [word_setPage, e]
    by_cases hbit : (a.page p).bitfield &&& bit i = 0
    · simp only [findPlace, PageSharedArena.acquireFreeBlock, hbit, ne_eq, not_true_eq_false,
        ite_false] at hs
      obtain ⟨rfl, rfl⟩ := Prod.mk.inj hs
      exact .take (hw _ rfl) (Or.inr (Or.inl rfl))
    · by_cases hi : i < 63
      · simp only [findPlace, PageSharedArena.acquireFreeBlock, hbit, hi, blockPerPage_eq, ne_eq,
          not_false_eq_true,
          ite_true] at hs
        obtain ⟨rfl, rfl⟩ := Prod.mk.inj hs
        refine .take (hw _ rfl) (Or.inl ⟨rfl, hi, ?_⟩)
        by_contra hne
        exact hbit ((and_bit_eq_zero hi).mpr (Bool.eq_false_iff.mpr hne))
      · simp only [findPlace, PageSharedArena.acquireFreeBlock, hbit, hi, blockPerPage_eq, ne_eq,
          not_false_eq_true,
          ite_true, ite_false] at hs
        obtain ⟨rfl, rfl⟩ := Prod.mk.inj hs
        exact .take (hw _ rfl) (Or.inr (Or.inr rfl))

theorem findPlace_word {pc : FindPc} {control : Control FindPc (Addr × Nat)}
    (hs : a.findPlace pc = (a', control)) :
    WordMoves a a' pc control ∧ a.heap.size ≤ a'.heap.size := by
  cases pc with
  | acquire p pc =>
    refine ⟨acquire_word hs, ?_⟩
    simp only [findPlace] at hs
    obtain ⟨rfl, -⟩ := Prod.mk.inj hs
    exact Nat.le_refl _
  | loadFree =>
    simp only [findPlace] at hs
    split at hs <;> obtain ⟨rfl, rfl⟩ := Prod.mk.inj hs
    · rename_i p hp
      exact ⟨.look hp rfl, Nat.le_refl _⟩
    · exact ⟨.keep rfl rfl, Nat.le_refl _⟩
  | loadNext | swapPending | unlock =>
    obtain ⟨rfl, rfl⟩ := Prod.mk.inj hs
    exact ⟨.keep rfl rfl, Nat.le_refl _⟩
  | casFree =>
    simp only [findPlace] at hs
    split at hs <;> obtain ⟨rfl, rfl⟩ := Prod.mk.inj hs
    · exact ⟨.keep rfl rfl, Nat.le_refl _⟩
    · exact ⟨.keep rfl rfl, Nat.le_refl _⟩
  | clearInFree p =>
    obtain ⟨rfl, rfl⟩ := Prod.mk.inj hs
    exact ⟨.keep (word_setPage_same rfl) rfl, Nat.le_refl _⟩
  | loadWriter | swapWriter | loadContended | recheckFree | loadPending | swapFree | loadToFree =>
    obtain ⟨rfl, rfl⟩ := Prod.mk.inj hs
    refine ⟨.keep rfl ?_, Nat.le_refl _⟩
    split <;> rfl
  | maybeFree guarded pc =>
    simp only [findPlace] at hs
    obtain ⟨rfl, rfl⟩ := Prod.mk.inj hs
    cases pc with
    | dropPage p rest pc =>
      cases pc with
      | fetch => exact ⟨.giveUp word_setPage blind_maybeFree, Nat.le_refl _⟩
      | deallocate => exact ⟨.keep (word_setPage_same (a := a) rfl) blind_maybeFree, Nat.le_refl _⟩
    | loadDelay | fetchAdd | swapToFree => exact ⟨.keep rfl blind_maybeFree, Nat.le_refl _⟩
  | take pc =>
    simp only [findPlace] at hs
    obtain ⟨rfl, rfl⟩ := Prod.mk.inj hs
    refine ⟨.keep takePages_word.1 ?_, Nat.le_of_eq takePages_word.2.symm⟩
    cases (a.takePages pc).2 <;> rfl
  | loadPages =>
    obtain ⟨rfl, rfl⟩ := Prod.mk.inj hs
    exact ⟨.grow (fun q => word_makeList) rfl, Nat.le_add_right _ _⟩
  | put n first last pc =>
    simp only [findPlace] at hs
    obtain ⟨rfl, rfl⟩ := Prod.mk.inj hs
    refine ⟨.keep putPages_word.1 ?_, Nat.le_of_eq putPages_word.2.symm⟩
    cases (a.putPages n first last pc).2 <;> rfl

theorem shrinkToFit_word {pc : ShrinkPc} {control : Control ShrinkPc Bool}
    (hs : a.shrinkToFit pc = (a', control)) :
    a'.word = a.word ∧ a'.heap.size = a.heap.size := by
  cases pc with
  | walkCas start current | fullCas start _ current =>
    simp only [shrinkToFit] at hs
    split at hs
    · cases current with
      | none => obtain ⟨rfl, -⟩ := Prod.mk.inj hs; exact ⟨rfl, rfl⟩
      | some c => obtain ⟨rfl, -⟩ := Prod.mk.inj hs; exact ⟨word_setPage_same rfl, rfl⟩
    · obtain ⟨rfl, -⟩ := Prod.mk.inj hs; exact ⟨rfl, rfl⟩
  | walk | walkBits | full | fullNext =>
    simp only [shrinkToFit] at hs
    split at hs <;> · obtain ⟨rfl, -⟩ := Prod.mk.inj hs; exact ⟨rfl, rfl⟩
  | swapShrinking | swapWriter | swapFree | loadPages | walkNext | retain | storeDelay | swapToFree
  | storeToFree | restore
    | subPages | clearShrinking | unlock =>
    obtain ⟨rfl, -⟩ := Prod.mk.inj hs
    exact ⟨rfl, rfl⟩

end SharedArena

/-! ## The invariant -/

/-- A call that looks for a block is on a page that exists and passes by the arena's bit. -/
def SharedCall.Looks (size : Nat) : SharedCall → Prop
  | .alloc (.acquire p .load) => p < size
  | .alloc (.acquire p (.fetchAnd i)) => p < size ∧ i ≤ 64 ∧ i ≠ 63
  | _ => True

theorem SharedCall.Looks.mono {n m : Nat} {c : SharedCall} (h : c.Looks n) (hle : n ≤ m) :
    c.Looks m := by
  cases c with
  | alloc pc =>
    cases pc with
    | acquire p pc =>
      cases pc with
      | load => exact Nat.lt_of_lt_of_le h hle
      | fetchAnd => exact ⟨Nat.lt_of_lt_of_le h.1 hle, h.2⟩
    | _ => trivial
  | idle | shrink | drop | panicked => trivial

theorem SharedCall.looks_of_blind {n : Nat} {control : Control SharedArena.FindPc (Addr × Nat)}
    (h : SharedArena.blind control = true) : (SharedCall.afterAlloc control).Looks n := by
  cases control with
  | goto pc =>
    cases pc with
    | acquire => cases h
    | _ => trivial
  | ret | panic => trivial

structure SharedBlocksInv (s : SharedState) : Prop where
  ledger : Ledger s.handles (handOf s.threads)
  live : ∀ p i, s.Live p i → p < s.arena.heap.size ∧ i < 63 ∧ (s.arena.word p).getLsbD i = false
  looks : ∀ t, (s.threads.get t).Looks s.arena.heap.size

namespace SharedBlocksInv

variable {s s' : SharedState} {arena : SharedArena} {handles : List (Addr × Nat)} {t : Tid}
  {c : SharedCall}

theorem thread (h : SharedBlocksInv s) (hsize : s.arena.heap.size ≤ arena.heap.size)
    (hl : Ledger handles (handOf (s.threads.set t c)))
    (hlive : ∀ p i, Owned handles (handOf (s.threads.set t c)) (p, i) → p < s.arena.heap.size ∧
      i < 63 ∧ (arena.word p).getLsbD i = false)
    (hc : c.Looks s.arena.heap.size) :
    SharedBlocksInv { arena, handles, threads := s.threads.set t c } := by
  refine ⟨hl, fun p i hi => ?_, fun u => ?_⟩
  · obtain ⟨h1, h2, h3⟩ := hlive p i hi
    exact ⟨Nat.lt_of_lt_of_le h1 hsize, h2, h3⟩
  · show ((s.threads.set t c).get u).Looks arena.heap.size
    rw [Store.get_set]
    split
    · exact hc.mono hsize
    · exact (h.looks u).mono hsize

theorem keep (h : SharedBlocksInv s) (hsize : s.arena.heap.size ≤ arena.heap.size)
    (hhand : c.hand = handOf s.threads t)
    (hword : ∀ p i, s.Live p i → (s.arena.word p).getLsbD i = false →
      (arena.word p).getLsbD i = false)
    (hc : c.Looks s.arena.heap.size) :
    SharedBlocksInv { s with arena, threads := s.threads.set t c } := by
  have hsame := handOf_set_same s.threads hhand
  refine h.thread hsize (h.ledger.congr hsame) (fun p i hi => ?_) hc
  have hi : s.Live p i := (owned_congr hsame).mp hi
  obtain ⟨h1, h2, h3⟩ := h.live p i hi
  exact ⟨h1, h2, hword p i hi h3⟩

theorem alloc (h : SharedBlocksInv s)
    (hlt : ∀ p, s.arena.freeList = some p → p < s.arena.heap.size) {pc : SharedArena.FindPc}
    {control : Control SharedArena.FindPc (Addr × Nat)} (ht : s.threads.get t = .alloc pc)
    (hs : s.arena.findPlace pc = (arena, control)) :
    SharedBlocksInv { arena, handles := SharedState.made control ++ s.handles,
                      threads := s.threads.set t (.afterAlloc control) } := by
  obtain ⟨hw, hsize⟩ := SharedArena.findPlace_word hs
  have hhand : handOf s.threads t = none := handOf_get ht
  have hlooks := h.looks t
  rw [ht] at hlooks
  -- a call that goes on blindly
  have hblind : SharedArena.blind control = true →
      (∀ p i, s.Live p i → (s.arena.word p).getLsbD i = false → (arena.word p).getLsbD i = false) →
      SharedBlocksInv { arena, handles := SharedState.made control ++ s.handles,
                        threads := s.threads.set t (.afterAlloc control) } := by
    intro hc hword
    have hc' := SharedCall.looks_of_blind (n := s.arena.heap.size) hc
    cases control with
    | goto | panic => exact h.keep hsize hhand.symm hword hc'
    | ret => cases hc
  cases hw with
  | look hp hw => exact h.keep hsize hhand.symm (fun p i _ hb => by rw [hw]; exact hb) (hlt _ hp)
  | scan hi h63 hw =>
    exact h.keep hsize hhand.symm (fun p i _ hb => by rw [hw]; exact hb) ⟨hlooks, hi, h63⟩
  | @take p i _ hw hc =>
    have hword : ∀ q j, (s.arena.word q).getLsbD j = false → (arena.word q).getLsbD j = false := by
      intro q j hb
      rw [hw, Function.update_apply]
      split
      · rename_i e
        rw [← e, BitVec.getLsbD_and, hb]; rfl
      · exact hb
    rcases hc with ⟨rfl, hi, hbit⟩ | rfl | rfl
    · -- the bit was set, so the block had no owner
      have hfree : ¬ s.Live p i := by
        intro hl
        have := (h.live p i hl).2.2
        rw [hbit] at this
        cases this
      have hsame : ∀ u, handOf (s.threads.set t .idle) u = handOf s.threads u :=
        handOf_set_same _ hhand.symm
      refine h.thread hsize ?_ (fun q j hq => ?_) trivial
      · exact (h.ledger.congr hsame).insert (fun e => hfree (Or.inl e))
          fun u e => hfree (Or.inr ⟨u, by rw [← hsame u]; exact e⟩)
      · rcases owned_insert.mp hq with hq | e
        · obtain ⟨h1, h2, h3⟩ := h.live q j ((owned_congr hsame).mp hq)
          exact ⟨h1, h2, hword q j h3⟩
        · obtain ⟨rfl, rfl⟩ := Prod.mk.inj e
          refine ⟨hlooks.1, hi, ?_⟩
          rw [hw, Function.update_self, getLsbD_and_not_bit hi]
          simp
    · exact h.keep hsize hhand.symm (fun q j _ => hword q j) hlooks.1
    · exact h.keep hsize hhand.symm (fun q j _ => hword q j) trivial
  | giveUp hw hc =>
    apply hblind hc
    intro q j hl hb
    rw [hw, Function.update_apply]
    split
    · rename_i e
      rw [← e, getLsbD_sub_mask_lt (h.live q j hl).2.1]; exact hb
    · exact hb
  | grow hw hc =>
    apply hblind hc
    intro q j hl hb
    rcases hw q with e | ⟨hq, -⟩
    · rw [e]; exact hb
    · exact absurd (h.live q j hl).1 (Nat.not_lt.mpr hq)
  | keep hw hc => exact hblind hc fun q j _ hb => by rw [hw]; exact hb

theorem step (h : SharedBlocksInv s)
    (hlt : ∀ p, s.arena.freeList = some p → p < s.arena.heap.size) {a : SharedAct}
    (hm : SharedState.Moves s a s') : SharedBlocksInv s' := by
  cases hm with
  | startAlloc ht => exact h.keep (Nat.le_refl _) (handOf_get ht).symm (fun _ _ _ hb => hb) trivial
  | startShrink ht => exact h.keep (Nat.le_refl _) (handOf_get ht).symm (fun _ _ _ hb => hb) trivial
  | @startDrop t p i ht hi =>
    refine h.thread (Nat.le_refl _) (h.ledger.take hi (handOf_set_self _) (handOf_set_ne _))
      (fun q j hq => ?_) trivial
    exact h.live q j
      ((owned_take h.ledger hi (handOf_get ht) (handOf_set_self _) (handOf_set_ne _)).mp hq)
  | alloc ht hs => exact h.alloc hlt ht hs
  | @shrink t pc arena control ht hs =>
    obtain ⟨hw, hsize⟩ := SharedArena.shrinkToFit_word hs
    have hword : ∀ p i, s.Live p i → (s.arena.word p).getLsbD i = false →
      (arena.word p).getLsbD i = false :=
      fun p i _ hb => by rw [hw]; exact hb
    cases control with
    | goto => exact h.keep (Nat.le_of_eq hsize.symm) (handOf_get ht).symm hword trivial
    | ret => exact h.keep (Nat.le_of_eq hsize.symm) (handOf_get ht).symm hword trivial
    | panic => exact h.keep (Nat.le_of_eq hsize.symm) (handOf_get ht).symm hword trivial
  | @giveBlock t p i page last ht hg =>
    obtain ⟨rfl, -⟩ := Prod.mk.inj hg
    have h0 : handOf s.threads t = some (p, i) := handOf_get ht
    have h1 : handOf
        (s.threads.set t (.drop p i (if last then .deallocate else .push .loadInFree))) t = none := by
      rw [handOf_set_self]
      cases last <;> rfl
    obtain ⟨-, hi, hbit⟩ := h.live p i (Or.inr ⟨t, h0⟩)
    refine h.thread (Nat.le_refl _) (h.ledger.give h1 (handOf_set_ne _)) (fun q j hq => ?_) trivial
    obtain ⟨hlive, hne⟩ := (owned_give h.ledger h0 h1 (handOf_set_ne _)).mp hq
    obtain ⟨h2, h3, h4⟩ := h.live q j hlive
    refine ⟨h2, h3, ?_⟩
    rw [SharedArena.word_setPage, Function.update_apply]
    split
    · rename_i e
      subst e
      have hij : i ≠ j := fun e => hne (by rw [e])
      exact (getLsbD_add_bit hi hbit j).trans (by simp [hij]; exact h4)
    · exact h4
  | @freeBlock t p i ht =>
    have hw :
      ({ s.arena with heap := (s.arena.heap.set p (s.arena.page p)).free (.dropBlock p) } :
      SharedArena).word =
        s.arena.word := SharedArena.word_setPage_same (a := s.arena) rfl
    exact h.keep (Nat.le_refl _) (handOf_get ht).symm (fun _ _ _ hb => by rw [hw]; exact hb) trivial
  | @push t p i pc links pending control ht hp =>
    have hw :
      ({ s.arena.setPage p { s.arena.page p with toPageLinks := links } with
          pendingFreeList := pending } :
        SharedArena).word = s.arena.word := SharedArena.word_setPage_same (a := s.arena) rfl
    have hword : ∀ q j, s.Live q j → (s.arena.word q).getLsbD j = false →
        (({ s.arena.setPage p { s.arena.page p with toPageLinks := links } with
          pendingFreeList := pending } :
          SharedArena).word q).getLsbD j = false := fun q j _ hb => by rw [hw]; exact hb
    cases control with
    | goto => exact h.keep (Nat.le_refl _) (handOf_get ht).symm hword trivial
    | ret => exact h.keep (Nat.le_refl _) (handOf_get ht).symm hword trivial
    | panic => exact h.keep (Nat.le_refl _) (handOf_get ht).symm hword trivial

theorem start (cap : Nat) : SharedBlocksInv (.start cap) := by
  have hthread : ∀ t, (SharedState.start cap).threads.get t = .idle := Store.get_empty
  have hhand : ∀ t, handOf (SharedState.start cap).threads t = none :=
    fun t => handOf_get (hthread t)
  refine ⟨ledger_empty List.nodup_nil hhand, fun p i hl => ?_, fun t => ?_⟩
  · have := (owned_empty hhand).mp hl
    cases this
  · rw [hthread]; trivial

theorem of_reach {C : SharedState → SharedAct → Prop} (hpop : ∀ s a, C s a → s.popsCurrent a = true)
    (h : SharedArena.machine.Reach C s) : SharedBlocksInv s := by
  refine h.invariant ?_ fun s a s' hr hi _ hs => ?_
  · intro s hs
    obtain ⟨cap, rfl⟩ := hs
    exact start cap
  · obtain ⟨place, listed, hl⟩ := SharedListsInv.of_popsCurrent hpop hr
    refine hi.step (fun p hp => Nat.lt_of_not_le fun hle => ?_) (SharedState.moves_of_step hs)
    have hcirc := hl.placed.circulates
    rw [show s.arena.lists.free = some p from hp] at hcirc
    have hfree := hcirc.head_free
    rw [(hl.placed.fresh p).mpr hle] at hfree
    cases hfree

end SharedBlocksInv

/-! ## Runs without `shrink_to_fit` -/

/-- The call is `shrink_to_fit`, or has to do with pages that it parked. -/
def SharedCall.parks : SharedCall → Bool
  | .shrink _ | .alloc (.take _) | .alloc (.maybeFree _ (.dropPage _ _ _)) => true
  | _ => false

namespace SharedArena

variable {a a' : SharedArena}

theorem toFree_putPages {n : Nat} {first last : Addr} {pc : PutPc} :
    (a.putPages n first last pc).1.toFree = a.toFree := by
  cases pc <;> rfl

theorem findPlace_parks {pc : FindPc} {control : Control FindPc (Addr × Nat)}
    (hs : a.findPlace pc = (a', control)) (htf : a.toFree = none)
    (hpc : (SharedCall.alloc pc).parks = false) :
    a'.toFree = none ∧ (SharedCall.afterAlloc control).parks = false := by
  cases pc with
  | loadFree | casFree =>
    simp only [findPlace] at hs
    split at hs <;> obtain ⟨rfl, rfl⟩ := Prod.mk.inj hs
    · exact ⟨htf, rfl⟩
    · exact ⟨htf, rfl⟩
  | acquire p pc =>
    simp only [findPlace] at hs
    obtain ⟨rfl, rfl⟩ := Prod.mk.inj hs
    refine ⟨htf, ?_⟩
    split <;> rfl
  | loadNext | clearInFree | swapPending | loadPages | unlock =>
    obtain ⟨rfl, rfl⟩ := Prod.mk.inj hs
    exact ⟨htf, rfl⟩
  | loadWriter | swapWriter | loadContended | recheckFree | loadPending | swapFree =>
    obtain ⟨rfl, rfl⟩ := Prod.mk.inj hs
    refine ⟨htf, ?_⟩
    split <;> rfl
  | loadToFree =>
    simp only [findPlace, htf, ite_true] at hs
    obtain ⟨rfl, rfl⟩ := Prod.mk.inj hs
    exact ⟨htf, rfl⟩
  | maybeFree guarded pc =>
    cases pc with
    | loadDelay =>
      by_cases hd : a.toFreeDelay < delayDropShrink
      · simp only [findPlace, maybeFreePages, hd, ite_true] at hs
        obtain ⟨rfl, rfl⟩ := Prod.mk.inj hs
        exact ⟨htf, rfl⟩
      · simp only [findPlace, maybeFreePages, hd, ite_false] at hs
        obtain ⟨rfl, rfl⟩ := Prod.mk.inj hs
        exact ⟨htf, by cases guarded <;> rfl⟩
    | fetchAdd =>
      by_cases hd : a.toFreeDelay = delayDropShrink - 1
      · simp only [findPlace, maybeFreePages, hd, ite_true] at hs
        obtain ⟨rfl, rfl⟩ := Prod.mk.inj hs
        exact ⟨htf, rfl⟩
      · simp only [findPlace, maybeFreePages, hd, ite_false] at hs
        obtain ⟨rfl, rfl⟩ := Prod.mk.inj hs
        exact ⟨htf, by cases guarded <;> rfl⟩
    | swapToFree =>
      -- there is nothing to drop
      simp only [findPlace, maybeFreePages, htf] at hs
      obtain ⟨rfl, rfl⟩ := Prod.mk.inj hs
      exact ⟨rfl, by cases guarded <;> rfl⟩
    | dropPage => cases hpc
  | take => cases hpc
  | put n first last pc =>
    simp only [findPlace] at hs
    obtain ⟨rfl, rfl⟩ := Prod.mk.inj hs
    refine ⟨toFree_putPages.trans htf, ?_⟩
    cases (a.putPages n first last pc).2 <;> rfl

end SharedArena

def SharedCall.Fetches (q : Addr) : SharedCall → Prop
  | .alloc (.maybeFree _ (.dropPage p _ .fetch)) => p = q
  | _ => False

theorem SharedCall.not_fetches {c : SharedCall} {q : Addr} (h : c.parks = false) : ¬ c.Fetches q := by
  intro hq
  unfold Fetches at hq
  split at hq
  · cases h
  · exact hq

/-- Only `drop_page` clears the arena's bit. -/
theorem SharedBlocksInv.arenaBit {s s' : SharedState} {a : SharedAct} {q : Addr}
    (hb : SharedBlocksInv s) (hm : SharedState.Moves s a s')
    (h : (s.arena.word q).getLsbD 63 = true) (hq : ¬ (s.threads.get a.thread).Fetches q) :
    (s'.arena.word q).getLsbD 63 = true := by
  cases hm with
  | startAlloc | startShrink | startDrop => exact h
  | @alloc t pc arena control ht hs =>
    have hq : ¬ (s.threads.get t).Fetches q := hq
    show (arena.word q).getLsbD 63 = true
    cases (SharedArena.findPlace_word hs).1 with
    | look _ hw | scan _ _ hw | keep hw => rw [hw]; exact h
    | @take p i _ hw =>
      have hlooks := hb.looks t
      rw [ht] at hlooks
      obtain ⟨-, hi, h63⟩ := hlooks
      rw [hw, Function.update_apply]
      split
      · rename_i e
        have hne : i % 64 ≠ 63 := by omega
        unfold bit bitfieldWidth
        rw [getLsbD_and_not_twoPow (by omega), ← e, h]
        simp [hne]
      · exact h
    | @giveUp guarded p rest _ hw =>
      rw [ht] at hq
      have hne : q ≠ p := fun e => hq e.symm
      rw [hw, Function.update_of_ne hne]
      exact h
    | grow hw =>
      rcases hw q with e | ⟨-, e⟩
      · rw [e]; exact h
      · rw [e]; simp
  | @shrink t pc arena control ht hs =>
    show (arena.word q).getLsbD 63 = true
    rw [(SharedArena.shrinkToFit_word hs).1]
    exact h
  | @giveBlock t p i page last ht hg =>
    obtain ⟨rfl, -⟩ := Prod.mk.inj hg
    obtain ⟨-, hi, hbit⟩ := hb.live p i (Or.inr ⟨t, handOf_get ht⟩)
    rw [SharedArena.word_setPage, Function.update_apply]
    split
    · rename_i e
      subst e
      exact (getLsbD_add_bit hi hbit 63).trans (by rw [h]; rfl)
    · exact h
  | @freeBlock t p i ht =>
    have hw :
      ({ s.arena with heap := (s.arena.heap.set p (s.arena.page p)).free (.dropBlock p) } :
      SharedArena).word =
        s.arena.word := SharedArena.word_setPage_same (a := s.arena) rfl
    rw [hw]
    exact h
  | @push t p i pc links pending control ht hp =>
    have hw :
      ({ s.arena.setPage p { s.arena.page p with toPageLinks := links } with
          pendingFreeList := pending } :
        SharedArena).word = s.arena.word := SharedArena.word_setPage_same (a := s.arena) rfl
    rw [hw]
    exact h

structure UnshrunkInv (s : SharedState) : Prop where
  toFree : s.arena.toFree = none
  calls : ∀ t, (s.threads.get t).parks = false
  arenaBit : ∀ p, (s.arena.word p).getLsbD 63 = true

namespace UnshrunkInv

variable {s s' : SharedState} {arena : SharedArena} {handles : List (Addr × Nat)} {t : Tid}
  {c : SharedCall}

theorem thread (h : UnshrunkInv s) (htf : arena.toFree = none) (hc : c.parks = false)
    (hword : ∀ p, (arena.word p).getLsbD 63 = true) :
    UnshrunkInv { arena, handles, threads := s.threads.set t c } := by
  refine ⟨htf, fun u => ?_, hword⟩
  show ((s.threads.set t c).get u).parks = false
  rw [Store.get_set]
  split
  · exact hc
  · exact h.calls u

theorem step (h : UnshrunkInv s) (hb : SharedBlocksInv s) {a : SharedAct} (ha : a.noShrink = true)
    (hm : SharedState.Moves s a s') : UnshrunkInv s' := by
  have hbit := fun p => hb.arenaBit hm (h.arenaBit p) (SharedCall.not_fetches (h.calls a.thread))
  cases hm with
  | startAlloc | startDrop => exact h.thread h.toFree rfl hbit
  | startShrink => cases ha
  | @alloc t pc arena control ht hs =>
    have hpc := h.calls t
    rw [ht] at hpc
    obtain ⟨htf, hc⟩ := SharedArena.findPlace_parks hs h.toFree hpc
    exact h.thread htf hc hbit
  | @shrink t pc arena control ht hs =>
    have := h.calls t
    rw [ht] at this
    cases this
  | @giveBlock t p i page last ht hg =>
    obtain ⟨rfl, -⟩ := Prod.mk.inj hg
    exact h.thread h.toFree (by cases last <;> rfl) hbit
  | freeBlock ht => exact h.thread h.toFree rfl hbit
  | @push t p i pc links pending control ht hp =>
    refine h.thread h.toFree ?_ hbit
    cases control <;> rfl

theorem start (cap : Nat) : UnshrunkInv (.start cap) := by
  refine ⟨rfl, fun t => ?_, fun p => ?_⟩
  · rw [show (SharedState.start cap).threads.get t = .idle from Store.get_empty t]; rfl
  · have hword : (SharedState.start cap).arena.word p = BitVec.allOnes 64 := by
      rcases Heap.get_makeList PageSharedArena.new (pagesFor cap) Heap.empty p with e | ⟨-, next, e⟩
      · exact (congrArg PageSharedArena.bitfield (e.trans (Heap.get_empty p))).trans rfl
      · exact (congrArg PageSharedArena.bitfield e).trans rfl
    rw [hword]; simp

theorem of_reach {C : SharedState → SharedAct → Prop}
    (hpop : ∀ s a, C s a → s.popsCurrent a = true) (hC : ∀ s a, C s a → a.noShrink = true)
    (h : SharedArena.machine.Reach C s) : UnshrunkInv s := by
  refine h.invariant ?_ fun s a s' hr hi hc hs => ?_
  · intro s hs
    obtain ⟨cap, rfl⟩ := hs
    exact start cap
  · exact hi.step (SharedBlocksInv.of_reach hpop hr) (hC s a hc) (SharedState.moves_of_step hs)

theorem retainsAll (h : UnshrunkInv s) (a : SharedAct) : s.retainsAll a = true := by
  cases a with
  | alloc | shrink | drop => rfl
  | step t =>
    have hpc := h.calls t
    unfold SharedState.retainsAll
    cases hc : s.threads.get t with
    | shrink pc =>
      rw [hc] at hpc
      cases hpc
    | idle | alloc | drop | panicked => simp [hc]

end UnshrunkInv

end MemoryPools
