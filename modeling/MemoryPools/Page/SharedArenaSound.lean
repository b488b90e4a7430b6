import MemoryPools.Page.Release

/-!
# Pages of a `SharedArena`: references and exclusive blocks

The bitfield counts the references to a page (`refs_lawful`). While the arena
owns the page a clear bit is a block with exactly one owner (`block_exclusive`).
A drop goes on using the page after it gave its bit back, so the page may be
deallocated under it (`page_touched_after_free`).
-/

namespace MemoryPools

open Interleave

namespace PageSharedArena

def refs : Refs PageSharedArena where
  Wf _ := True
  held page i := i < blockPerPage ∧ page.bitfield.getLsbD i = false
  -- the bit of the arena is inverted
  owned page := page.bitfield.getLsbD 63 = true

theorem refs_lawful : refs.Lawful ops where
  lt h := h.1
  giveBlock := by
    intro page page' i last _ hi hg
    obtain ⟨hlt, hi⟩ := hi
    rw [blockPerPage_eq] at hlt
    obtain ⟨rfl, rfl⟩ := Prod.mk.inj hg
    have hb := getLsbD_add_bit hlt hi
    refine ⟨trivial, ?_, ?_, ?_⟩
    · intro j
      simp only [refs, hb]
      grind
    · simp only [refs, hb]
      grind
    · simp only [refs, decide_eq_true_eq, ← add_bit_eq_or hlt hi, not_eq_mask_iff, blockPerPage_eq]
      grind
  givePage := by
    intro page page' last _ ho hg
    obtain ⟨rfl, rfl⟩ := Prod.mk.inj hg
    have hb := getLsbD_sub_mask ho
    refine ⟨trivial, ?_, ?_, ?_⟩
    · intro j
      simp only [refs, hb, blockPerPage_eq]
      grind
    · simp only [refs, hb]
      grind
    · simp only [refs, decide_eq_true_eq, hb, blockPerPage_eq, not_eq_zero_iff_ones, eq_ones_iff]
      simp only [refs] at ho
      grind
  setLinks _ _ := ⟨trivial, fun _ => Iff.rfl, Iff.rfl⟩

def machine : Addr → Machine (PageState PageSharedArena AcquirePc) PageAct := ops.machine refs

def withLive (live : List Nat) : PageState PageSharedArena AcquirePc where
  page := { new none with bitfield := freeBits live }
  pending := none
  handles := live
  threads := Store.empty
  arena := .owns
  deallocs := 0

theorem start_withLive {live : List Nat} (hn : live.Nodup) (h : ∀ i ∈ live, i < 63) :
    PageState.Start refs (withLive live) := by
  refine ⟨trivial, hn, fun i => ?_, ?_, rfl, rfl, rfl⟩
  · simp only [refs, withLive, blockPerPage_eq]
    constructor
    · intro ⟨hi, hb⟩
      rw [getLsbD_freeBits (by omega) h] at hb
      simpa using hb
    · intro hi
      refine ⟨h i hi, ?_⟩
      rw [getLsbD_freeBits (by have := h i hi; omega) h]
      simpa using hi
  · simp only [refs, withLive]
    rw [getLsbD_freeBits (by omega) h]
    simp only [Bool.not_eq_eq_eq_not, Bool.not_true, decide_eq_false_iff_not]
    intro h63
    have := h 63 h63
    omega

/-! ## Drops against the release of the page -/

/-- The steps of `drop_block` calls and of the arena, where `deallocate_page` waits
for the drops that are still using the page. -/
def quietFree (s : PageState PageSharedArena AcquirePc) (a : PageAct) : Prop :=
  a.isAcquire = false ∧ (s.frees a = true → s.noPush = true)

instance (s : PageState PageSharedArena AcquirePc) (a : PageAct) : Decidable (quietFree s a) :=
  inferInstanceAs (Decidable (_ ∧ _))

/-- If `deallocate_page` is only executed while no `drop_block` is past its
`fetch_add`, no `drop_block` touches the page after that. -/
theorem page_untouched_after_free {self : Addr} {s : PageState PageSharedArena AcquirePc}
    (h : (machine self).Reach quietFree s) (hf : s.deallocs ≠ 0) :
    ∀ t i pc, s.threads.get t = .drop i pc → pc.touchesPage = false := by
  have hinv : ReleaseInv refs s := ReleaseInv.of_reach refs_lawful (fun _ _ hc => hc.1) h
  have hpush : s.deallocs ≠ 0 → s.noPush = true := by
    refine h.invariant (I := fun s => s.deallocs ≠ 0 → s.noPush = true)
      (fun s (hs : PageState.Start refs s) hf => absurd hs.deallocs hf) ?_
    intro s a s' hr hn hc hs
    exact noPush_step (ReleaseInv.of_reach refs_lawful (fun _ _ hc => hc.1) hr) hc.2 hn hs
  intro t i pc ht
  obtain ⟨hr, hd⟩ := hinv.gone hf
  cases pc with
  | fetchAdd => exact absurd (Or.inl ⟨i, Or.inr ⟨t, handOf_get ht⟩⟩) hr
  | deallocate => exact absurd ⟨i, ht⟩ (hd (some t))
  | push pc => exact absurd ht (PageState.noPush_iff.mp (hpush hf) t i pc)

def lateFree : List PageAct :=
  [.drop 0 0, .step 0 true, .step 0 true, .dropPage, .stepArena, .stepArena]

theorem page_untouched_after_lateFree : ∃ s : PageState PageSharedArena AcquirePc, s.deallocs ≠ 0 ∧
    ∀ t i pc, s.threads.get t = .drop i pc → pc.touchesPage = false := by
  have hstart : (machine 0).init (withLive [0]) := start_withLive (by decide) (by decide)
  obtain ⟨s, hs, hp⟩ :=
    Machine.Reach.exists_of_runIf hstart (fun s a => decide (quietFree s a)) lateFree
    (fun s => s.deallocs ≠ 0) (fun _ _ h => of_decide_eq_true h) (by decide +kernel)
  have hf : s.deallocs ≠ 0 := of_decide_eq_true hp
  exact ⟨s, hf, page_untouched_after_free hs hf⟩

/-- A drop gives its bit back, the arena releases the page as its last owner, and
the drop goes on to read `in_free_list`. -/
def earlyFree : List PageAct := [.drop 0 0, .step 0 true, .dropPage, .stepArena, .stepArena]

theorem page_touched_after_free : ∃ s, (machine 0).Reach (fun _ a => a.isAcquire = false) s ∧
    s.deallocs ≠ 0 ∧ ∃ t i pc, s.threads.get t = .drop i pc ∧ pc.touchesPage = true := by
  have hstart : (machine 0).init (withLive [0]) := start_withLive (by decide) (by decide)
  obtain ⟨s, hs, hp⟩ :=
    Machine.Reach.exists_of_runIf hstart (fun _ a => decide (a.isAcquire = false)) earlyFree
    (fun s => s.deallocs ≠ 0 ∧ s.threads.get 0 = .drop 0 (.push .loadInFree))
      (fun _ _ h => of_decide_eq_true h)
    (by decide +kernel)
  obtain ⟨h1, h2⟩ := of_decide_eq_true hp
  exact ⟨s, hs, h1, 0, 0, _, h2, rfl⟩

/-! ## Exclusive blocks while the arena owns the page -/

structure BlockInv (s : PageState PageSharedArena AcquirePc) : Prop where
  ledger : Ledger s.handles (handOf s.threads)
  arena : s.arena = .owns
  arenaBit : s.page.bitfield.getLsbD 63 = true
  held : ∀ i, refs.held s.page i ↔ s.Live i
  -- the index was read from a word with the arena's bit set
  index_lt : ∀ t i, s.threads.get t = .acquire (.fetchAnd i) → i < blockPerPage

theorem BlockInv.start {s : PageState PageSharedArena AcquirePc} (h : PageState.Start refs s) :
    BlockInv s := by
  have hidle : ∀ t, s.threads.get t = .idle := by
    intro t; rw [h.threads, Store.get_empty]; rfl
  have hhand : ∀ t, handOf s.threads t = none :=
    fun t => handOf_get (hidle t)
  refine ⟨ledger_empty h.nodup hhand, h.arena, h.owned, fun i => ?_, fun t i ht => ?_⟩
  · rw [h.held]; exact (owned_empty hhand).symm
  · rw [hidle t] at ht; cases ht

theorem index_lt_set {m : Store (PageThread AcquirePc)} {t : Tid} {p : PageThread AcquirePc}
    (h : ∀ t i, m.get t = .acquire (.fetchAnd i) → i < blockPerPage)
    (hp : ∀ i, p = .acquire (.fetchAnd i) → i < blockPerPage) (u : Tid) (i : Nat)
    (hu : (m.set t p).get u = .acquire (.fetchAnd i)) : i < blockPerPage := by
  rw [Store.get_set] at hu
  split at hu
  · exact hp i hu
  · exact h u i hu

/-- What the bits of a page say after a `fetch_and` of `acquire_free_block`. -/
theorem held_fetchAnd {page : PageSharedArena} {i : Nat} (hi : i < 63) (j : Nat) :
    refs.held { page with bitfield := page.bitfield &&& ~~~bit i } j ↔
    refs.held page j ∨ j = i := by
  simp only [refs, getLsbD_and_not_bit hi, blockPerPage_eq]
  grind

namespace BlockInv

variable {s s' : PageState PageSharedArena AcquirePc} {t : Tid} {i : Nat}

theorem quiet (h : BlockInv s) {p : PageThread AcquirePc} {handles : List Nat} {links : PageLinks}
    {pending : Ptr} {deallocs : Nat} (hl : Ledger handles (handOf (s.threads.set t p)))
    (ho : ∀ j, Owned handles (handOf (s.threads.set t p)) j ↔ s.Live j)
    (hp : ∀ j, p = .acquire (.fetchAnd j) → j < blockPerPage) :
    BlockInv { page := ops.setLinks s.page links, pending, handles, threads := s.threads.set t p,
               arena := s.arena, deallocs } where
  ledger := hl
  arena := h.arena
  arenaBit := h.arenaBit
  held j := (h.held j).trans (ho j).symm
  index_lt := index_lt_set h.index_lt hp

theorem load (h : BlockInv s) {control : Control AcquirePc (Option Nat)}
    (h0 : handOf s.threads t = none)
    (hc : acquireFreeBlock s.page .load = (s.page, control)) :
    BlockInv { s with threads := s.threads.set t (PageOps.afterAcquire control) } := by
  obtain rfl := (Prod.mk.inj hc).2
  have hsame : ∀ u, handOf (s.threads.set t (PageOps.afterAcquire
      (if s.page.bitfield.ctz.toNat = blockPerPage then .ret none
        else .goto (.fetchAnd s.page.bitfield.ctz.toNat)))) u = handOf s.threads u :=
    handOf_set_same _ (by rw [h0]; split <;> rfl)
  refine h.quiet (h.ledger.congr hsame) (fun _ => owned_congr hsame) fun j e => ?_
  split at e
  · cases e
  · rename_i hne
    have hle := ctz_le_of_arena h.arenaBit
    simp only [PageOps.afterAcquire, PageThread.acquire.injEq, AcquirePc.fetchAnd.injEq] at e
    rw [blockPerPage_eq] at hne ⊢
    omega

theorem fetchAnd (h : BlockInv s) {page : PageSharedArena} {control : Control AcquirePc (Option Nat)}
    (h0 : handOf s.threads t = none) (hi : i < blockPerPage)
    (hc : acquireFreeBlock s.page (.fetchAnd i) = (page, control)) :
    BlockInv { s with page, threads := s.threads.set t (PageOps.afterAcquire control) } := by
  have hi' : i < 63 := hi
  by_cases hb : s.page.bitfield.getLsbD i = true
  · -- the bit was set: nobody owned the block
    have hne : s.page.bitfield &&& bit i ≠ 0 := by rw [Ne, and_bit_eq_zero hi', hb]; simp
    simp only [acquireFreeBlock, hne, ite_true, ne_eq, not_false_eq_true, hi] at hc
    obtain ⟨rfl, rfl⟩ := Prod.mk.inj hc
    have hfree : ¬ Owned s.handles (handOf s.threads) i := by
      intro ho
      have := ((h.held i).mpr ho).2
      rw [hb] at this; cases this
    refine ⟨h.ledger.make hfree (handOf_set_self _) (handOf_set_ne _), h.arena,
      arenaBit_and_not_bit hi' h.arenaBit, fun j => ?_, index_lt_set h.index_lt fun j e => by cases e⟩
    rw [held_fetchAnd hi', h.held]
    exact (owned_make h0 (handOf_set_self _) (handOf_set_ne _)).symm
  · -- another thread took the block: a clear bit is cleared again
    have hb : s.page.bitfield.getLsbD i = false := by simpa using hb
    have hz : s.page.bitfield &&& bit i = 0 := (and_bit_eq_zero hi').mpr hb
    simp only [acquireFreeBlock, hz, ite_false, ne_eq, not_true_eq_false] at hc
    obtain ⟨rfl, rfl⟩ := Prod.mk.inj hc
    have hsame : ∀ u, handOf (s.threads.set t (PageOps.afterAcquire (.goto AcquirePc.load))) u =
        handOf s.threads u := handOf_set_same _ h0.symm
    refine ⟨h.ledger.congr hsame, h.arena, arenaBit_and_not_bit hi' h.arenaBit, fun j => ?_,
      index_lt_set h.index_lt fun j e => by cases e⟩
    rw [held_fetchAnd hi', h.held]
    refine Iff.trans ?_ (owned_congr hsame).symm
    constructor
    · intro hj
      rcases hj with hj | rfl
      · exact hj
      · exact (h.held j).mp ⟨hi, hb⟩
    · exact Or.inl

theorem giveBlock (h : BlockInv s) {page : PageSharedArena} {last : Bool}
    (h0 : handOf s.threads t = some i) (hg : ops.giveBlock i s.page = (page, last)) :
    BlockInv { s with
      page
      threads := s.threads.set t (.drop i (if last then .deallocate else .push .loadInFree)) } := by
  have hheld := (h.held i).mpr (Or.inr ⟨t, h0⟩)
  obtain ⟨-, hheld', howned, -⟩ := refs_lawful.giveBlock trivial hheld hg
  have h1 : handOf
      (s.threads.set t (.drop i (if last then .deallocate else .push .loadInFree))) t = none :=
    (handOf_set_self _).trans (hand_given i last)
  refine ⟨h.ledger.give h1 (handOf_set_ne _), h.arena, howned.mpr h.arenaBit, fun j => ?_,
    index_lt_set h.index_lt fun j e => by cases e⟩
  rw [hheld', h.held]
  exact (owned_give h.ledger h0 h1 (handOf_set_ne _)).symm

theorem step {self : Addr} {a : PageAct} (h : BlockInv s) (ha : a.isDropPage = false)
    (hs : ops.stepPage self s a = some s') : BlockInv s' := by
  cases ops.moves_of_stepPage hs with
  | @startAcquire t ht =>
    have h0 : handOf s.threads t = none := handOf_get ht
    have hsame : ∀ u, handOf (s.threads.set t (.acquire ops.acquireStart)) u = handOf s.threads u :=
      handOf_set_same _ h0.symm
    exact h.quiet (h.ledger.congr hsame) (fun _ => owned_congr hsame) fun _ e => by cases e
  | @startDrop t i ht hi =>
    have h0 : handOf s.threads t = none := handOf_get ht
    exact h.quiet (h.ledger.take hi (handOf_set_self _) (handOf_set_ne _))
      (fun _ => owned_take h.ledger hi h0 (handOf_set_self _) (handOf_set_ne _))
      fun _ e => by cases e
  | startDropPage => cases ha
  | @acquire t _ pc page control ht hc =>
    cases pc with
    | load =>
      obtain rfl := (Prod.mk.inj hc).1
      exact h.load (handOf_get ht) hc
    | fetchAnd i => exact h.fetchAnd (handOf_get ht) (h.index_lt t i ht) hc
  | @keep t _ i ht =>
    have h0 : handOf s.threads t = some i := handOf_get ht
    exact h.quiet (h.ledger.settle h0 (handOf_set_self _) (handOf_set_ne _))
      (fun _ => owned_settle h0 (handOf_set_self _) (handOf_set_ne _)) fun _ e => by cases e
  | giveBlock ht hg => exact h.giveBlock (handOf_get ht) hg
  | @freeBlock t _ i ht =>
    have h0 : handOf s.threads t = none := handOf_get ht
    have hsame : ∀ u, handOf (s.threads.set t .idle) u = handOf s.threads u :=
      handOf_set_same _ h0.symm
    exact h.quiet (h.ledger.congr hsame) (fun _ => owned_congr hsame) fun _ e => by cases e
  | @push t _ i pc links pending control ht hp =>
    have h0 : handOf s.threads t = none := handOf_get ht
    have hsame := handOf_set_same s.threads ((hand_pushed i control).trans h0.symm)
    refine h.quiet (h.ledger.congr hsame) (fun _ => owned_congr hsame) fun _ e => ?_
    cases control <;> cases e
  | givePage harena => rw [h.arena] at harena; cases harena
  | freePage harena => rw [h.arena] at harena; cases harena
  | other => exact ⟨h.ledger, h.arena, h.arenaBit, h.held, h.index_lt⟩

end BlockInv

theorem BlockInv.of_reach {self : Addr} {s : PageState PageSharedArena AcquirePc}
    (h : (machine self).Reach (fun _ a => a.isDropPage = false) s) : BlockInv s :=
  h.invariant (fun _ => BlockInv.start) fun _ _ _ _ hi hc hs => hi.step hc hs

/-- While the arena owns the page: no block has two owners; a block is taken in the
bitfield exactly while it has one; a `fetch_add` sets its own bit and no other; and
`acquire_free_block` gives up only where every block has an owner. -/
theorem block_exclusive {self : Addr} {s : PageState PageSharedArena AcquirePc}
    (h : (machine self).Reach (fun _ a => a.isDropPage = false) s) :
    Ledger s.handles (handOf s.threads) ∧
    (∀ i < 63, s.page.bitfield.getLsbD i = false ↔ s.Live i) ∧
    (∀ t i, s.threads.get t = .drop i .fetchAdd → i < 63 ∧ s.page.bitfield.getLsbD i = false ∧
      ∀ j, (s.page.bitfield + bit i).getLsbD j = (s.page.bitfield.getLsbD j || decide (i = j))) ∧
    (∀ t pc, s.threads.get t = .acquire pc → (acquireFreeBlock s.page pc).2 = .ret none →
      pc = .load ∧ ∀ i < 63, s.Live i) := by
  have hinv := BlockInv.of_reach h
  have hlive : ∀ i < 63, s.page.bitfield.getLsbD i = false ↔ s.Live i := by
    intro i hi
    rw [← hinv.held]
    exact ⟨fun hb => ⟨hi, hb⟩, fun hb => hb.2⟩
  refine ⟨hinv.ledger, hlive, fun t i ht => ?_, fun t pc ht hret => ?_⟩
  · have ho : s.Live i := Or.inr ⟨t, handOf_get ht⟩
    obtain ⟨hi, hb⟩ := (hinv.held i).mpr ho
    exact ⟨hi, hb, getLsbD_add_bit hi hb⟩
  · cases pc with
    | load =>
      refine ⟨rfl, fun i hi => ?_⟩
      simp only [acquireFreeBlock] at hret
      split at hret
      · rename_i hz
        exact (hlive i hi).mp ((ctz_eq_iff_full hinv.arenaBit).mp hz i hi)
      · cases hret
    | fetchAnd i =>
      have hi := hinv.index_lt t i ht
      simp only [acquireFreeBlock, hi, ite_true] at hret
      split at hret <;> cases hret

def race : List PageAct :=
  [.acquire 0, .acquire 1, .step 0 true, .step 1 true, .step 1 true, .step 0 true]

theorem block_exclusive_race : ∃ s : PageState PageSharedArena AcquirePc,
    s.threads.get 0 = .acquire .load ∧ s.threads.get 1 = .won 0 ∧ Ledger s.handles
    (handOf s.threads) := by
  have hstart : (machine 0).init (withLive []) := start_withLive (by decide) (by decide)
  obtain ⟨s, hs, hp⟩ :=
    Machine.Reach.exists_of_runIf hstart (fun _ a => decide (a.isDropPage = false)) race
    (fun s => s.threads.get 0 = .acquire .load ∧ s.threads.get 1 = .won 0)
      (fun _ _ h => of_decide_eq_true h)
    (by decide +kernel)
  obtain ⟨h0, h1⟩ := of_decide_eq_true hp
  exact ⟨s, h0, h1, (block_exclusive hs).1⟩

end PageSharedArena

end MemoryPools
