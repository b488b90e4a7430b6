import MemoryPools.Arena
import MemoryPools.Page.ArenaSound

/-!
# Who owns the blocks of an arena

A block has an owner while a handle to it exists or a drop of it did not add its
bit yet. It then has one owner, and its bit is clear in both words of its page and
in the word that the owner of the arena swapped out.
-/

namespace MemoryPools

open Interleave

def DropThread.hand : DropThread → Option (Addr × Nat)
  | .drop p i .fetchAdd => some (p, i)
  | _ => none

instance : Holder DropThread (Addr × Nat) := ⟨DropThread.hand⟩

def ArenaCall.swapped (p : Addr) : ArenaCall → Bitfield
  | .alloc (.acquire q (.merge swapped)) => if q = p then swapped else 0
  | _ => 0

def Arena.words (a : Arena) (p : Addr) : Bitfield × Bitfield :=
  ((a.page p).bitfield, (a.page p).bitfieldAtomic)

namespace ArenaState

def Live (s : ArenaState) (p : Addr) (i : Nat) : Prop := Owned s.handles (handOf s.threads) (p, i)

/-- Bit `i` of page `p` is set nowhere. -/
def Clear (s : ArenaState) (p : Addr) (i : Nat) : Prop :=
  (s.arena.words p).1.getLsbD i = false ∧ (s.arena.words p).2.getLsbD i = false ∧
    (s.owner.swapped p).getLsbD i = false

end ArenaState

namespace Arena

variable {a a' : Arena} {p q : Addr} {x : PageArena}

theorem page_setPage : (a.setPage p x).page q = if q = p then x else a.page q :=
  Heap.get_set _ _ _ _

theorem words_setPage : (a.setPage p x).words q =
    if q = p then (x.bitfield, x.bitfieldAtomic) else a.words q := by
  unfold words
  rw [page_setPage]
  split <;> rfl

theorem words_setPage_same (h : (x.bitfield, x.bitfieldAtomic) = a.words p) :
    (a.setPage p x).words q = a.words q := by
  rw [words_setPage]
  split
  · rename_i e; rw [h, e]
  · rfl

theorem unused_congr (h : a'.words q = a.words q) : a'.unused q = a.unused q := by
  unfold words at h
  unfold unused
  rw [(Prod.mk.inj h).1, (Prod.mk.inj h).2]

theorem words_dropPage {pc : DropPagePc} {control : Control DropPagePc Unit}
    (h : a.dropPage p pc = (a', control)) :
    a'.words q = if pc = .fetch ∧ q = p then ((a.words p).1, (a.words p).2 ||| (a.words p).1)
    else a.words q := by
  obtain ⟨rfl, -⟩ := Prod.mk.inj h
  cases pc with
  | fetch =>
    apply (words_setPage (a := a)).trans
    simp only [true_and]
    rfl
  | deallocate =>
    apply (words_setPage_same (a := a) rfl).trans
    rw [if_neg (fun e => by cases e.1)]

theorem words_makeList {n : Nat} :
    ({ a with heap := (a.heap.makeList PageArena.new n).1 } : Arena).words q = a.words q ∨
    (a.heap.size ≤ q ∧ ({ a with heap := (a.heap.makeList PageArena.new n).1 } : Arena).words q =
      (BitVec.allOnes 64, 0)) := by
  unfold words page
  rcases Heap.get_makeList PageArena.new n a.heap q with e | ⟨hq, next, e⟩
  · exact Or.inl (by rw [e])
  · exact Or.inr ⟨hq, by rw [e]; rfl⟩

/-- `find_place` deallocates nothing, writes the words of the page that it looks at
and of new pages, and returns a block of the former. -/
theorem findPlace_frame {pc : FindPc} {control : Control FindPc (Addr × Nat)}
    (h : a.findPlace pc = (a', control)) :
    a'.heap.freed = a.heap.freed ∧
    (∀ q, (∀ pc', pc ≠ .acquire q pc') → a'.words q = a.words q ∨ a.heap.size ≤ q) ∧
    ∀ p i, control = .ret (p, i) → ∃ pc', pc = .acquire p pc' := by
  cases pc with
  | acquire p pc =>
    simp only [findPlace] at h
    obtain ⟨rfl, rfl⟩ := Prod.mk.inj h
    refine ⟨rfl, fun q hq => Or.inl ?_, fun r i hr => ?_⟩
    · rw [words_setPage, if_neg fun e => hq pc (by rw [e])]
    · split at hr
      · cases hr
      · obtain rfl := (Prod.mk.inj (Control.ret.inj hr)).1
        exact ⟨_, rfl⟩
      · cases hr
      · cases hr
  | loadFull =>
    obtain ⟨rfl, rfl⟩ := Prod.mk.inj h
    exact ⟨rfl, fun q _ => (words_makeList (a := a)).imp_right And.left, fun p i e => by cases e⟩
  | clearInFree | linkLast =>
    obtain ⟨rfl, rfl⟩ := Prod.mk.inj h
    exact ⟨rfl, fun q _ => Or.inl (words_setPage_same rfl), fun p i e => by cases e⟩
  | unlink | swapPending | swapFull =>
    obtain ⟨rfl, rfl⟩ := Prod.mk.inj h
    exact ⟨rfl, fun q _ => Or.inl rfl, fun p i e => by cases e⟩
  | loadPending =>
    obtain ⟨rfl, rfl⟩ := Prod.mk.inj h
    exact ⟨rfl, fun q _ => Or.inl rfl, fun p i e => by cases e⟩
  | getFree | setFree =>
    simp only [findPlace] at h
    split at h <;> obtain ⟨rfl, rfl⟩ := Prod.mk.inj h
    · exact ⟨rfl, fun q _ => Or.inl rfl, fun p i e => by cases e⟩
    · exact ⟨rfl, fun q _ => Or.inl rfl, fun p i e => by cases e⟩

/-- Only the `drop_page` calls of `shrink_to_fit` write words and deallocate, and
they start from a recheck. -/
theorem shrinkToFit_frame {pc : ShrinkPc} {control : Control ShrinkPc Bool}
    (h : a.shrinkToFit pc = (a', control))
    (hpc : ∀ start toDrop p rest pc', pc ≠ .dropPage start toDrop p rest pc') :
    a'.heap.freed = a.heap.freed ∧ (∀ q, a'.words q = a.words q) ∧
    ∀ start toDrop p rest pc', control = .goto (.dropPage start toDrop p rest pc') →
    pc' = .fetch := by
  cases pc with
  | dropPage start toDrop p rest pc => exact absurd rfl (hpc start toDrop p rest pc)
  | takeFree | walkNext =>
    obtain ⟨rfl, rfl⟩ := Prod.mk.inj h
    exact ⟨rfl, fun q => rfl, fun _ _ _ _ _ e => by cases e⟩
  | walk | walkBits | full | fullNext | restore =>
    simp only [shrinkToFit] at h
    split at h <;> obtain ⟨rfl, rfl⟩ := Prod.mk.inj h
    · exact ⟨rfl, fun q => rfl, fun _ _ _ _ _ e => by cases e⟩
    · exact ⟨rfl, fun q => rfl, fun _ _ _ _ _ e => by cases e⟩
  | walkCas | fullCas =>
    simp only [shrinkToFit] at h
    split at h
    · split at h <;> obtain ⟨rfl, rfl⟩ := Prod.mk.inj h
      · exact ⟨rfl, fun q => rfl, fun _ _ _ _ _ e => by cases e⟩
      · exact ⟨rfl, fun q => words_setPage_same rfl, fun _ _ _ _ _ e => by cases e⟩
    · obtain ⟨rfl, rfl⟩ := Prod.mk.inj h
      exact ⟨rfl, fun q => rfl, fun _ _ _ _ _ e => by cases e⟩
  | recheck start toDrop rest =>
    simp only [shrinkToFit] at h
    split at h
    · split at h <;> obtain ⟨rfl, rfl⟩ := Prod.mk.inj h
      · exact ⟨rfl, fun q => rfl, fun _ _ _ _ _ e => by cases e; rfl⟩
      · exact ⟨rfl, fun q => rfl, fun _ _ _ _ _ e => by cases e⟩
    · obtain ⟨rfl, rfl⟩ := Prod.mk.inj h
      exact ⟨rfl, fun q => rfl, fun _ _ _ _ _ e => by cases e⟩

end Arena

/-! ## The invariant -/

/-- The words of a page that the arena owns have no bit in common, the arena's bit
stays with the owner. -/
structure Split (x y z : Bitfield) : Prop where
  arenaBit : x.getLsbD 63 = true
  apart : y.getLsbD 63 = false → PageArena.Apart x y z

theorem Split.settle {x y z : Bitfield} (h : Split x y z) : Split x y 0 :=
  ⟨h.arenaBit, fun h63 => ⟨(h.apart h63).xy, fun _ _ => by simp, fun _ _ => by simp⟩⟩

theorem Split.new : Split (BitVec.allOnes 64) 0 0 :=
  ⟨by simp, fun _ => ⟨fun _ _ => by simp, fun _ _ => by simp, fun _ _ => by simp⟩⟩

structure BlocksInv (s : ArenaState) : Prop where
  ledger : Ledger s.handles (handOf s.threads)
  split : ∀ p, Split (s.arena.words p).1 (s.arena.words p).2 (s.owner.swapped p)
  lt : ∀ p i, s.Live p i → p < s.arena.heap.size
  index : ∀ p i, s.Live p i → i < 63
  clear : ∀ p i, s.Live p i → s.Clear p i

namespace BlocksInv

variable {s s' : ArenaState}

/-- A step that makes no handle and sets no bit of a live block. -/
theorem mono (h : BlocksInv s) (hl : Ledger s'.handles (handOf s'.threads))
    (hlive : ∀ p i, s'.Live p i → s.Live p i) (hsize : s.arena.heap.size ≤ s'.arena.heap.size)
    (hsplit : ∀ p, Split (s'.arena.words p).1 (s'.arena.words p).2 (s'.owner.swapped p))
    (hclear : ∀ p i, s.Live p i → s.Clear p i → s'.Live p i → s'.Clear p i) : BlocksInv s' := by
  refine ⟨hl, hsplit, fun p i hi => ?_, fun p i hi => h.index p i (hlive p i hi), fun p i hi => ?_⟩
  · exact Nat.lt_of_lt_of_le (h.lt p i (hlive p i hi)) hsize
  · have hi' := hlive p i hi
    exact hclear p i hi' (h.clear p i hi') hi

theorem keep (h : BlocksInv s) (hl : Ledger s'.handles (handOf s'.threads))
    (hlive : ∀ p i, s'.Live p i → s.Live p i) (hsize : s.arena.heap.size ≤ s'.arena.heap.size)
    (hw : ∀ p, s'.arena.words p = s.arena.words p)
    (hsw : ∀ p, s'.owner.swapped p = 0 ∨ s'.owner.swapped p = s.owner.swapped p) :
    BlocksInv s' := by
  refine h.mono hl hlive hsize (fun p => ?_) fun p i _ hc _ => ?_
  · rw [hw]
    rcases hsw p with e | e
    · rw [e]; exact (h.split p).settle
    · rw [e]; exact h.split p
  · obtain ⟨h1, h2, h3⟩ := hc
    refine ⟨by rw [hw]; exact h1, by rw [hw]; exact h2, ?_⟩
    rcases hsw p with e | e
    · rw [e]; simp
    · rw [e]; exact h3

theorem owner_keep (h : BlocksInv s) {arena : Arena} {owner : ArenaCall}
    (hsize : s.arena.heap.size ≤ arena.heap.size) (hw : ∀ p, arena.words p = s.arena.words p)
    (hsw : ∀ p, owner.swapped p = 0) :
    BlocksInv { s with arena, owner } :=
  h.keep h.ledger (fun _ _ h => h) hsize hw fun p => Or.inl (hsw p)

theorem dropPage (h : BlocksInv s) {arena : Arena} {owner : ArenaCall} {p : Addr}
    {pc : DropPagePc} {control : Control DropPagePc Unit}
    (hd : s.arena.dropPage p pc = (arena, control)) (hsw : ∀ q, owner.swapped q = 0) :
    BlocksInv { s with arena, owner } := by
  have hw := fun q => Arena.words_dropPage (q := q) hd
  have hsize : arena.heap.size = s.arena.heap.size := by
    obtain ⟨rfl, -⟩ := Prod.mk.inj hd
    split <;> rfl
  refine h.mono h.ledger (fun _ _ h => h) (by simp [hsize]) (fun q => ?_) fun q i _ hc _ => ?_
  · simp only [hw, hsw]
    split
    · have h63 := (h.split p).arenaBit
      exact ⟨h63, fun e => by rw [BitVec.getLsbD_or, h63] at e; simp at e⟩
    · exact (h.split q).settle
  · obtain ⟨h1, h2, -⟩ := hc
    simp only [ArenaState.Clear, hw, hsw]
    split
    · rename_i e
      obtain ⟨-, rfl⟩ := e
      simp [h1, h2]
    · exact ⟨h1, h2, by simp⟩

theorem acquire_words (h : BlocksInv s) {p : Addr} {x : PageArena} {o : ArenaCall}
    (hsw : ∀ q, q ≠ p → o.swapped q = 0)
    (hsplit : Split x.bitfield x.bitfieldAtomic (o.swapped p))
    (hclear : ∀ i, s.Clear p i → x.bitfield.getLsbD i = false ∧ x.bitfieldAtomic.getLsbD i = false ∧
      (o.swapped p).getLsbD i = false) :
    BlocksInv { s with arena := s.arena.setPage p x, owner := o } := by
  have hwords := fun q => Arena.words_setPage (a := s.arena) (p := p) (q := q) (x := x)
  refine h.mono h.ledger (fun _ _ h => h) (Nat.le_refl _) (fun q => ?_) fun q i _ hc _ => ?_
  · by_cases e : q = p
    · simp only [hwords, e, ite_true]; exact hsplit
    · simp only [hwords, e, ite_false, hsw q e]; exact (h.split q).settle
  · by_cases e : q = p
    · subst e
      simp only [ArenaState.Clear, hwords, ite_true]; exact hclear i hc
    · simp only [ArenaState.Clear, hwords, e, ite_false, hsw q e]
      exact ⟨hc.1, hc.2.1, by simp⟩

theorem acquire_take (h : BlocksInv s) {p : Addr} {i : Nat}
    (ho : s.owner = .alloc (.acquire p .scan)) (hp : p < s.arena.heap.size)
    (h63 : (s.arena.words p).2.getLsbD 63 = false) (hi : i < 63)
    (hbit : (s.arena.page p).bitfield.getLsbD i = true) :
    BlocksInv (s.afterAlloc (s.arena.setPage p
      { s.arena.page p with bitfield := (s.arena.page p).bitfield &&& ~~~bit i })
      (.ret (p, i))) := by
  have hb := fun j => getLsbD_and_not_bit (x := (s.arena.page p).bitfield) hi j
  have hfree : ¬ s.Live p i := by
    intro hl
    have hc := (h.clear p i hl).1
    unfold Arena.words at hc
    rw [hbit] at hc; cases hc
  have hw : (s.arena.words p).1 = (s.arena.page p).bitfield := rfl
  have hapart := (h.split p).apart h63
  -- the block is free, so its bit is in no other word
  have h1 := h.acquire_words (p := p) (o := .idle)
    (x := { s.arena.page p with bitfield := (s.arena.page p).bitfield &&& ~~~bit i })
      (fun _ _ => rfl)
    ⟨by rw [hb, ← hw, (h.split p).arenaBit]; simp; omega,
      fun _ => ⟨fun j hj => hapart.xy j ?_, fun j _ => by
      simp [ArenaCall.swapped], fun j _ => by simp [ArenaCall.swapped]⟩⟩
    (fun j hc => ⟨by rw [hb, ← hw, hc.1]; simp, hc.2.1, by simp [ArenaCall.swapped]⟩)
  · have hlive : ∀ arena q j, (s.afterAlloc arena (.ret (p, i))).Live q j ↔ s.Live q j ∨
      (q, j) = (p, i) :=
      fun arena q j => owned_insert
    refine ⟨h.ledger.insert (fun e => hfree (Or.inl e)) (fun u e => hfree (Or.inr ⟨u, e⟩)),
      h1.split, ?_, ?_, ?_⟩
    · intro q j hq
      rcases (hlive _ q j).mp hq with hq | e
      · exact h1.lt q j hq
      · rw [(Prod.mk.inj e).1]; exact hp
    · intro q j hq
      rcases (hlive _ q j).mp hq with hq | e
      · exact h.index q j hq
      · rw [(Prod.mk.inj e).2]; exact hi
    · intro q j hq
      rcases (hlive _ q j).mp hq with hq | e
      · exact h1.clear q j hq
      · obtain ⟨rfl, rfl⟩ := Prod.mk.inj e
        refine ⟨?_, ?_, by simp [ArenaState.afterAlloc, ArenaCall.swapped]⟩
        · simp [ArenaState.afterAlloc, Arena.words_setPage, hb]
        · simp only [ArenaState.afterAlloc, Arena.words_setPage, ite_true]
          exact hapart.xy _ hbit
  · rw [hb] at hj
    rw [hw]
    simpa using (Bool.and_eq_true_iff.mp hj).1

theorem acquire (h : BlocksInv s) {p : Addr} {pc : PageArena.AcquirePc}
    (ho : s.owner = .alloc (.acquire p pc)) (hp : p < s.arena.heap.size)
    (h63 : (s.arena.words p).2.getLsbD 63 = false) {arena : Arena}
    {control : Control Arena.FindPc (Addr × Nat)}
    (hs : s.arena.findPlace (.acquire p pc) = (arena, control)) :
    BlocksInv (s.afterAlloc arena control) := by
  have hapart := (h.split p).apart h63
  have hclear : ∀ i, s.Clear p i → (s.arena.page p).bitfield.getLsbD i = false ∧
      (s.arena.page p).bitfieldAtomic.getLsbD i = false ∧ (s.owner.swapped p).getLsbD i = false :=
        fun i hc => hc
  cases pc with
  | scan =>
    by_cases hz : (s.arena.page p).bitfield.ctz.toNat = 63
    · simp only [Arena.findPlace, PageArena.acquireFreeBlock, blockPerPage_eq, hz, ite_true] at hs
      obtain ⟨rfl, rfl⟩ := Prod.mk.inj hs
      exact h.owner_keep (Nat.le_refl _) (fun q => Arena.words_setPage_same rfl) fun q => rfl
    · obtain ⟨i, hi, hbit, hacq⟩ := PageArena.acquire_scan (h.split p).arenaBit hz
      simp only [Arena.findPlace, hacq] at hs
      obtain ⟨rfl, rfl⟩ := Prod.mk.inj hs
      exact h.acquire_take ho hp h63 hi hbit
  | loadAtomic =>
    by_cases hz : (s.arena.page p).bitfieldAtomic = 0
    · simp only [Arena.findPlace, PageArena.acquireFreeBlock, hz, ne_eq, not_true_eq_false,
        ite_false] at hs
      obtain ⟨rfl, rfl⟩ := Prod.mk.inj hs
      exact h.owner_keep (Nat.le_refl _) (fun q => Arena.words_setPage_same rfl) fun q => rfl
    · simp only [Arena.findPlace, PageArena.acquireFreeBlock, hz, ne_eq, not_false_eq_true,
        ite_true] at hs
      obtain ⟨rfl, rfl⟩ := Prod.mk.inj hs
      exact h.owner_keep (Nat.le_refl _) (fun q => Arena.words_setPage_same rfl) fun q => rfl
  | swapAtomic =>
    obtain ⟨rfl, rfl⟩ := Prod.mk.inj hs
    refine h.acquire_words (fun q hq => by simp [ArenaCall.swapped, Ne.symm hq]) ?_ fun i hc => ?_
    · refine ⟨(h.split p).arenaBit,
        fun _ => ⟨fun j _ => by simp, fun j hj => ?_, fun j hj => by simp at hj⟩⟩
      simp only [ArenaCall.swapped, ite_true]
      exact hapart.xy j hj
    · simp only [ArenaCall.swapped, ite_true]
      exact ⟨hc.1, by simp, hc.2.1⟩
  | merge v =>
    obtain ⟨rfl, rfl⟩ := Prod.mk.inj hs
    have hv : s.owner.swapped p = v := by rw [ho]; simp [ArenaCall.swapped]
    rw [hv] at hapart
    have hyz : ∀ j, v.getLsbD j = true → (s.arena.words p).2.getLsbD j = false := by
      intro j hj
      by_contra hy
      have := hapart.yz j (by simpa using hy)
      rw [hj] at this; cases this
    refine h.acquire_words (fun q hq => rfl) ⟨?_, fun _ => ⟨fun j hj => ?_, fun j _ => by
      simp [ArenaCall.swapped], fun j _ => by simp [ArenaCall.swapped]⟩⟩ fun i hc => ?_
    · rw [BitVec.getLsbD_or, show (s.arena.page p).bitfield.getLsbD 63 = true
        from (h.split p).arenaBit]
      rfl
    · rw [BitVec.getLsbD_or, Bool.or_eq_true] at hj
      rcases hj with hj | hj
      · exact hapart.xy j hj
      · exact hyz j hj
    · obtain ⟨h1, h2, h3⟩ := hclear i hc
      rw [hv] at h3
      exact ⟨by rw [BitVec.getLsbD_or, h1, h3]; rfl, h2, by simp [ArenaCall.swapped]⟩

theorem alloc (h : BlocksInv s) {pc : Arena.FindPc} (ho : s.owner = .alloc pc)
    (hacq : ∀ p pc, s.owner = .alloc (.acquire p pc) → p < s.arena.heap.size ∧
      (s.arena.words p).2.getLsbD 63 = false)
    {arena : Arena} {control : Control Arena.FindPc (Addr × Nat)}
    (hs : s.arena.findPlace pc = (arena, control)) :
    BlocksInv (s.afterAlloc arena control) := by
  cases pc with
  | acquire p pc => exact h.acquire ho (hacq p pc ho).1 (hacq p pc ho).2 hs
  | getFree =>
    simp only [Arena.findPlace] at hs
    split at hs <;> obtain ⟨rfl, rfl⟩ := Prod.mk.inj hs
    · exact h.owner_keep (Nat.le_refl _) (fun q => rfl) fun q => rfl
    · exact h.owner_keep (Nat.le_refl _) (fun q => rfl) fun q => rfl
  | unlink p =>
    obtain ⟨rfl, rfl⟩ := Prod.mk.inj hs
    exact h.owner_keep (Nat.le_refl _) (fun q => rfl) fun q => rfl
  | clearInFree p =>
    obtain ⟨rfl, rfl⟩ := Prod.mk.inj hs
    exact h.owner_keep (Nat.le_refl _) (fun q => Arena.words_setPage_same rfl) fun q => rfl
  | loadPending =>
    obtain ⟨rfl, rfl⟩ := Prod.mk.inj hs
    apply h.owner_keep (Nat.le_refl _) (fun q => rfl)
    intro q
    split <;> rfl
  | swapPending =>
    obtain ⟨rfl, rfl⟩ := Prod.mk.inj hs
    exact h.owner_keep (Nat.le_refl _) (fun q => rfl) fun q => rfl
  | loadFull =>
    obtain ⟨rfl, rfl⟩ := Prod.mk.inj hs
    refine h.mono h.ledger (fun _ _ h => h) (Nat.le_add_right _ _) (fun q => ?_)
      fun q i hl hc _ => ?_
    · rcases Arena.words_makeList (a := s.arena) (n := growth s.arena.npages)
        (q := q) with e | ⟨-, e⟩
      · exact e ▸ (h.split q).settle
      · exact e ▸ Split.new
    · -- the new pages are not yet in use
      rcases Arena.words_makeList (a := s.arena) (n := growth s.arena.npages)
        (q := q) with e | ⟨hq, -⟩
      · obtain ⟨h1, h2, -⟩ := hc
        exact ⟨(congrArg (fun w => w.1.getLsbD i) e).trans h1,
          (congrArg (fun w => w.2.getLsbD i) e).trans h2,
          by simp [ArenaState.afterAlloc, ArenaCall.swapped]⟩
      · exact absurd (h.lt q i hl) (Nat.not_lt.mpr hq)
  | linkLast n first last current =>
    obtain ⟨rfl, rfl⟩ := Prod.mk.inj hs
    exact h.owner_keep (Nat.le_refl _) (fun q => Arena.words_setPage_same rfl) fun q => rfl
  | swapFull n first =>
    obtain ⟨rfl, rfl⟩ := Prod.mk.inj hs
    exact h.owner_keep (Nat.le_refl _) (fun q => rfl) fun q => rfl
  | setFree n first =>
    simp only [Arena.findPlace] at hs
    split at hs <;> obtain ⟨rfl, rfl⟩ := Prod.mk.inj hs
    · exact h.owner_keep (Nat.le_refl _) (fun q => rfl) fun q => rfl
    · exact h.owner_keep (Nat.le_refl _) (fun q => rfl) fun q => rfl

theorem shrink (h : BlocksInv s) {pc : Arena.ShrinkPc} {arena : Arena}
    {control : Control Arena.ShrinkPc Bool} (hs : s.arena.shrinkToFit pc = (arena, control)) :
    BlocksInv (s.afterShrink arena control) := by
  cases pc with
  | dropPage start toDrop p rest pc =>
    cases hd : s.arena.dropPage p pc with
    | mk a c =>
      simp only [Arena.shrinkToFit, hd] at hs
      obtain ⟨rfl, rfl⟩ := Prod.mk.inj hs
      cases c <;> exact h.dropPage hd fun q => rfl
  | walkCas start current value nextValue toDrop =>
    simp only [Arena.shrinkToFit] at hs
    split at hs
    · split at hs <;> obtain ⟨rfl, rfl⟩ := Prod.mk.inj hs
      · exact h.owner_keep (Nat.le_refl _) (fun q => rfl) fun q => rfl
      · exact h.owner_keep (Nat.le_refl _) (fun q => Arena.words_setPage_same rfl) fun q => rfl
    · obtain ⟨rfl, rfl⟩ := Prod.mk.inj hs
      exact h.owner_keep (Nat.le_refl _) (fun q => rfl) fun q => rfl
  | fullCas start toDrop current value nextValue =>
    simp only [Arena.shrinkToFit] at hs
    split at hs
    · split at hs <;> obtain ⟨rfl, rfl⟩ := Prod.mk.inj hs
      · exact h.owner_keep (Nat.le_refl _) (fun q => rfl) fun q => rfl
      · exact h.owner_keep (Nat.le_refl _) (fun q => Arena.words_setPage_same rfl) fun q => rfl
    · obtain ⟨rfl, rfl⟩ := Prod.mk.inj hs
      exact h.owner_keep (Nat.le_refl _) (fun q => rfl) fun q => rfl
  | takeFree | walkNext =>
    obtain ⟨rfl, rfl⟩ := Prod.mk.inj hs
    exact h.owner_keep (Nat.le_refl _) (fun q => rfl) fun q => rfl
  | walk | walkBits | full | fullNext | restore =>
    simp only [Arena.shrinkToFit] at hs
    split at hs <;> obtain ⟨rfl, rfl⟩ := Prod.mk.inj hs
    · exact h.owner_keep (Nat.le_refl _) (fun q => rfl) fun q => rfl
    · exact h.owner_keep (Nat.le_refl _) (fun q => rfl) fun q => rfl
  | recheck start toDrop rest =>
    cases rest with
    | nil =>
      obtain ⟨rfl, rfl⟩ := Prod.mk.inj hs
      exact h.owner_keep (Nat.le_refl _) (fun q => rfl) fun q => rfl
    | cons p rest =>
      simp only [Arena.shrinkToFit] at hs
      split at hs <;> obtain ⟨rfl, rfl⟩ := Prod.mk.inj hs
      · exact h.owner_keep (Nat.le_refl _) (fun q => rfl) fun q => rfl
      · exact h.owner_keep (Nat.le_refl _) (fun q => rfl) fun q => rfl

theorem release (h : BlocksInv s) {pc : Arena.ReleasePc} {arena : Arena}
    {control : Control Arena.ReleasePc Unit} (hs : s.arena.release pc = (arena, control)) :
    BlocksInv (s.afterRelease arena control) := by
  have hfrom : ∀ (next : Ptr) arena,
    (∀ owner, (∀ q, owner.swapped q = 0) → BlocksInv { s with arena, owner }) →
      BlocksInv (s.afterRelease arena (Arena.releaseFrom next)) := by
    intro next arena hk
    cases next with
    | none => exact hk _ fun q => rfl
    | some p => exact hk _ fun q => rfl
  cases pc with
  | loadFull =>
    obtain ⟨rfl, rfl⟩ := Prod.mk.inj hs
    exact hfrom _ _ fun owner hsw => h.owner_keep (Nat.le_refl _) (fun q => rfl) hsw
  | loadNext p =>
    obtain ⟨rfl, rfl⟩ := Prod.mk.inj hs
    exact h.owner_keep (Nat.le_refl _) (fun q => rfl) fun q => rfl
  | dropPage p next pc =>
    cases hd : s.arena.dropPage p pc with
    | mk a c =>
      simp only [Arena.release, hd] at hs
      obtain ⟨rfl, rfl⟩ := Prod.mk.inj hs
      cases c with
      | goto pc => exact h.dropPage hd fun q => rfl
      | ret => exact hfrom _ _ fun owner hsw => h.dropPage hd hsw
      | panic => exact h.dropPage hd fun q => rfl

theorem step (h : BlocksInv s) {a : ArenaAct}
    (hacq : ∀ p pc, s.owner = .alloc (.acquire p pc) → p < s.arena.heap.size ∧
      (s.arena.words p).2.getLsbD 63 = false)
    (hm : ArenaState.Moves s a s') : BlocksInv s' := by
  cases hm with
  | startAlloc | startShrink | startRelease =>
    exact h.owner_keep (Nat.le_refl _) (fun q => rfl) fun q => rfl
  | alloc ho hs => exact h.alloc ho hacq hs
  | shrink ho hs => exact h.shrink hs
  | release ho hs => exact h.release hs
  | @startDrop t p i ht hi =>
    have h0 : handOf s.threads t = none := handOf_get ht
    exact h.keep (h.ledger.take hi (handOf_set_self _) (handOf_set_ne _))
      (fun q j => (owned_take h.ledger hi h0 (handOf_set_self _) (handOf_set_ne _)).mp)
        (Nat.le_refl _) (fun q => rfl)
      fun q => Or.inr rfl
  | @giveBlock t _ p i page last ht hg =>
    obtain ⟨rfl, rfl⟩ := Prod.mk.inj hg
    have h0 : handOf s.threads t = some (p, i) := handOf_get ht
    have h1 : ∀ last : Bool,
      (DropThread.drop p i (if last then .deallocate else .push .loadInFree)).hand = none :=
      fun last => by cases last <;> rfl
    have h1 := (handOf_set_self s.threads (t := t)).trans
      (h1 (decide ((s.arena.page p).bitfieldAtomic ||| bit i = BitVec.allOnes 64)))
    have hlive : s.Live p i := Or.inr ⟨t, h0⟩
    obtain ⟨hb, ha, hv⟩ := h.clear p i hlive
    have hlt := h.index p i hlive
    have hadd := fun j => getLsbD_add_bit hlt ha j
    have howned := fun q j => owned_give (y := (q, j)) h.ledger h0 h1 (handOf_set_ne _)
    have hwords := fun q => Arena.words_setPage (a := s.arena) (p := p) (q := q)
      (x := { s.arena.page p with bitfieldAtomic := (s.arena.page p).bitfieldAtomic + bit i })
    refine h.mono (h.ledger.give h1 (handOf_set_ne _)) (fun q j hq => ((howned q j).mp hq).1)
      (Nat.le_refl _)
      (fun q => ?_) fun q j _ hc hq => ?_
    · simp only [hwords]
      split
      · rename_i e
        subst e
        refine ⟨(h.split q).arenaBit, fun h63 => ?_⟩
        have h63' : (s.arena.words q).2.getLsbD 63 = false := by
          have := hadd 63
          unfold Arena.words at this ⊢
          rw [this] at h63
          exact (Bool.or_eq_false_iff.mp h63).1
        have hapart := (h.split q).apart h63'
        refine ⟨fun j hj => ?_, hapart.xz, fun j hj => ?_⟩
        · have := hapart.xy j hj
          unfold Arena.words at *
          rw [hadd]; grind
        · have := hapart.yz j
          unfold Arena.words at *
          rw [hadd] at hj; grind
      · exact h.split q
    · simp only [ArenaState.Clear, hwords]
      split
      · rename_i e
        subst e
        refine ⟨hc.1, ?_, hc.2.2⟩
        have hne : i ≠ j := by
          intro e
          exact ((howned q j).mp hq).2 (by rw [e])
        unfold ArenaState.Clear Arena.words at *
        rw [hadd]; simp [hc.2.1, hne]
      · exact hc
  | @freeBlock t _ p i ht =>
    have h0 : handOf s.threads t = none := handOf_get ht
    have hsame : ∀ u, handOf (s.threads.set t .idle) u = handOf s.threads u :=
      handOf_set_same _ h0.symm
    exact h.keep (h.ledger.congr hsame) (fun q j => (owned_congr hsame).mp) (Nat.le_refl _)
      (fun q => Arena.words_setPage_same (a := s.arena) rfl) fun q => Or.inr rfl
  | @push t _ p i pc links pending control ht hp =>
    have h0 : handOf s.threads t = none := handOf_get ht
    have h1 : (ArenaState.afterDrop p i (control.map .push)).hand = none := by cases control <;> rfl
    have hsame := handOf_set_same s.threads (h1.trans h0.symm)
    exact h.keep (h.ledger.congr hsame) (fun q j => (owned_congr hsame).mp) (Nat.le_refl _)
      (fun q => Arena.words_setPage_same (a := s.arena) rfl) fun q => Or.inr rfl

theorem words_start (cap : Nat) (p : Addr) :
    (ArenaState.start cap).arena.words p = (BitVec.allOnes 64, 0) := by
  rcases Arena.words_makeList (a := ⟨Heap.empty, none, none, none, 0⟩) (n := pagesFor cap)
    (q := p) with e | ⟨-, e⟩
  · apply Eq.trans e
    unfold Arena.words Arena.page
    rw [Heap.get_empty]; rfl
  · exact e

theorem start (cap : Nat) : BlocksInv (.start cap) := by
  have hhand : ∀ t, handOf (ArenaState.start cap).threads t = none := by
    intro t
    show Holder.hand ((Store.empty : Store DropThread).get t) = none
    rw [Store.get_empty]; rfl
  have hnone : ∀ p i, ¬ (ArenaState.start cap).Live p i := by
    intro p i hl
    rcases hl with hl | ⟨t, ht⟩
    · cases hl
    · rw [hhand t] at ht; cases ht
  refine ⟨ledger_empty List.nodup_nil hhand, fun p => ?_, fun p i hl => absurd hl (hnone p i),
    fun p i hl => absurd hl (hnone p i), fun p i hl => absurd hl (hnone p i)⟩
  rw [words_start]
  exact Split.new

end BlocksInv

end MemoryPools
