import MemoryPools.Page.Release

/-!
# Pages of an `Arena`: references and the split bitfield

The free blocks of an owned page are split over `bitfield`, `bitfield_atomic` and
the word that the owner holds between its `swap` and its write. The three are
disjoint, and a block is free exactly if one of them has its bit
(`split_bitfield`).
-/

namespace MemoryPools

open Interleave

namespace PageArena

structure WellFormed (page : PageArena) : Prop where
  arenaBit : page.bitfield.getLsbD 63 = true
  -- the arena's bit goes to `bitfield_atomic` together with the free blocks of `bitfield`
  merged : page.bitfieldAtomic.getLsbD 63 = true →
    ∀ j, page.bitfield.getLsbD j = true → page.bitfieldAtomic.getLsbD j = true
  apart : page.bitfieldAtomic.getLsbD 63 = false →
    ∀ j, page.bitfield.getLsbD j = true → page.bitfieldAtomic.getLsbD j = false

def refs : Refs PageArena where
  Wf := WellFormed
  held page i := i < blockPerPage ∧ page.bitfield.getLsbD i = false ∧
    page.bitfieldAtomic.getLsbD i = false
  owned page := page.bitfieldAtomic.getLsbD 63 = false

theorem refs_lawful : refs.Lawful ops where
  lt h := h.1
  giveBlock := by
    intro page page' i last hwf hi hg
    obtain ⟨hlt, hw, hi⟩ := hi
    rw [blockPerPage_eq] at hlt
    obtain ⟨rfl, rfl⟩ := Prod.mk.inj hg
    have hb := getLsbD_add_bit hlt hi
    refine ⟨⟨hwf.arenaBit, ?_, ?_⟩, ?_, ?_, ?_⟩
    · intro h j hj
      simp only [hb] at h ⊢
      have := hwf.merged (by grind) j hj
      simp [this]
    · intro h j hj
      simp only [hb] at h ⊢
      have := hwf.apart (by grind) j hj
      grind
    · intro j
      simp only [refs, hb]
      grind
    · simp only [refs, hb]
      grind
    · simp only [refs, decide_eq_true_eq, ← add_bit_eq_or hlt hi, eq_ones_iff, blockPerPage_eq]
      constructor
      · intro h; grind
      · intro h
        have h63 : page.bitfieldAtomic.getLsbD 63 = true := by grind
        refine ⟨by grind, fun j hj => ?_⟩
        have := h.1 j
        have := hwf.merged h63 j
        grind
  givePage := by
    intro page page' last hwf ho hg
    obtain ⟨rfl, rfl⟩ := Prod.mk.inj hg
    have h63 := hwf.arenaBit
    refine ⟨⟨h63, ?_, ?_⟩, ?_, ?_, ?_⟩
    · intro _ j hj
      simp [hj]
    · intro h
      rw [BitVec.getLsbD_or, h63] at h
      simp at h
    · intro j
      simp only [refs, BitVec.getLsbD_or]
      grind
    · simp only [refs, BitVec.getLsbD_or, h63]
      simp
    · simp only [refs, decide_eq_true_eq, BitVec.getLsbD_or, blockPerPage_eq, eq_ones_iff]
      grind
  setLinks _ h := ⟨⟨h.arenaBit, h.merged, h.apart⟩, fun _ => Iff.rfl, Iff.rfl⟩

def machine : Addr → Machine (PageState PageArena AcquirePc) PageAct := ops.machine refs

/-- The word that a thread holds between its `swap` and its write of `bitfield`. -/
def swappedBy : PageThread AcquirePc → Bitfield
  | .acquire (.merge swapped) => swapped
  | _ => 0

/-- The owner `o` alone allocates, and keeps the page. -/
def ownerAllocates (o : Tid) : PageAct → Bool
  | .acquire t => t = o
  | .dropPage => false
  | _ => true

/-! ## The split bitfield -/

structure Apart (x y z : Bitfield) : Prop where
  xy : ∀ j, x.getLsbD j = true → y.getLsbD j = false
  xz : ∀ j, x.getLsbD j = true → z.getLsbD j = false
  yz : ∀ j, y.getLsbD j = true → z.getLsbD j = false

structure SplitInv (o : Tid) (s : PageState PageArena AcquirePc) : Prop where
  ledger : Ledger s.handles (handOf s.threads)
  arena : s.arena = .owns
  sole : ∀ t pc, s.threads.get t = .acquire pc → t = o
  arenaBit : s.page.bitfield.getLsbD 63 = true ∧ s.page.bitfieldAtomic.getLsbD 63 = false
  apart : Apart s.page.bitfield s.page.bitfieldAtomic (swappedBy (s.threads.get o))
  live : ∀ i, (i < 63 ∧ s.page.bitfield.getLsbD i = false ∧
    s.page.bitfieldAtomic.getLsbD i = false ∧
    (swappedBy (s.threads.get o)).getLsbD i = false) ↔ s.Live i
  -- the owner looks at `bitfield_atomic` only when its own word is empty
  empty : ∀ t, s.threads.get t = .acquire .loadAtomic → ∀ i < 63, s.page.bitfield.getLsbD i = false

theorem SplitInv.start {o : Tid} {s : PageState PageArena AcquirePc} (h : PageState.Start refs s) :
    SplitInv o s := by
  have hidle : ∀ t, s.threads.get t = .idle := by
    intro t; rw [h.threads, Store.get_empty]; rfl
  have hhand : ∀ t, handOf s.threads t = none :=
    fun t => handOf_get (hidle t)
  refine ⟨ledger_empty h.nodup hhand, h.arena, fun t pc ht => ?_,
    ⟨h.wf.arenaBit, h.owned⟩, ?_, fun i => ?_,
    fun t ht => ?_⟩
  · rw [hidle t] at ht; cases ht
  · rw [hidle o]
    exact ⟨h.wf.apart h.owned, fun j _ => by simp [swappedBy], fun j _ => by simp [swappedBy]⟩
  · rw [hidle o]
    refine Iff.trans ?_ ((h.held i).trans (owned_empty hhand).symm)
    simp [swappedBy, refs]
  · rw [hidle t] at ht; cases ht

section
variable {o t : Tid} {m : Store (PageThread AcquirePc)} {p : PageThread AcquirePc}

theorem sole_set (h : ∀ t pc, m.get t = .acquire pc → t = o) (hp : ∀ pc, p = .acquire pc → t = o)
    (u : Tid) (pc : AcquirePc) (hu : (m.set t p).get u = .acquire pc) : u = o := by
  rw [Store.get_set] at hu
  split at hu
  · rename_i e; rw [e]; exact hp pc hu
  · exact h u pc hu

theorem swappedBy_set (h : swappedBy p = swappedBy (m.get t)) :
    swappedBy ((m.set t p).get o) = swappedBy (m.get o) := Store.apply_get_set swappedBy m h o

end

theorem SplitInv.quiet {o : Tid} {s : PageState PageArena AcquirePc} (h : SplitInv o s) {t : Tid}
    {p : PageThread AcquirePc} {handles : List Nat} {links : PageLinks} {pending : Ptr}
    {deallocs : Nat} (hl : Ledger handles (handOf (s.threads.set t p)))
    (ho : ∀ i, Owned handles (handOf (s.threads.set t p)) i ↔ s.Live i)
    (hp : ∀ pc, p = .acquire pc → t = o) (hsw : swappedBy p = swappedBy (s.threads.get t))
    (hempty : p = .acquire .loadAtomic → ∀ i < 63, s.page.bitfield.getLsbD i = false) :
    SplitInv o { page := ops.setLinks s.page links, pending, handles, threads := s.threads.set t p,
                 arena := s.arena, deallocs } := by
  refine ⟨hl, h.arena, sole_set h.sole hp, h.arenaBit, ?_, fun i => ?_, fun u hu => ?_⟩
  · simp only [swappedBy_set hsw]; exact h.apart
  · simp only [swappedBy_set hsw]
    exact (h.live i).trans (ho i).symm
  · rw [Store.get_set] at hu
    split at hu
    · exact hempty hu
    · exact h.empty u hu

theorem SplitInv.words {o : Tid} {s : PageState PageArena AcquirePc} (h : SplitInv o s)
    {p : PageThread AcquirePc} {page : PageArena}
    (hl : Ledger s.handles (handOf (s.threads.set o p)))
    (hbit : page.bitfield.getLsbD 63 = true ∧ page.bitfieldAtomic.getLsbD 63 = false)
    (hapart : Apart page.bitfield page.bitfieldAtomic (swappedBy p))
    (hlive : ∀ i, (i < 63 ∧ page.bitfield.getLsbD i = false ∧
      page.bitfieldAtomic.getLsbD i = false ∧ (swappedBy p).getLsbD i = false) ↔ Owned s.handles
      (handOf (s.threads.set o p)) i)
    (hp : p ≠ .acquire .loadAtomic) : SplitInv o { s with page, threads := s.threads.set o p } := by
  refine ⟨hl, h.arena, sole_set h.sole fun _ _ => rfl, hbit, ?_, ?_, fun u hu => ?_⟩
  · simp only [Store.get_set_self]; exact hapart
  · simp only [Store.get_set_self]; exact hlive
  · rw [Store.get_set] at hu
    split at hu
    · exact absurd hu hp
    · rename_i e; exact absurd (h.sole u _ hu) e

theorem acquire_scan {page : PageArena} (h : page.bitfield.getLsbD 63 = true)
    (hz : page.bitfield.ctz.toNat ≠ 63) :
    ∃ i < 63, page.bitfield.getLsbD i = true ∧ acquireFreeBlock page .scan =
      ({ page with bitfield := page.bitfield &&& ~~~bit i }, .ret (some i)) := by
  obtain ⟨hlt, hone⟩ := ctz_free h hz
  refine ⟨_, hlt, hone, ?_⟩
  simp only [acquireFreeBlock, blockPerPage_eq, hz, hlt, ite_false, ite_true]

namespace SplitInv

variable {o t : Tid} {s s' : PageState PageArena AcquirePc} {page : PageArena}
  {control : Control AcquirePc (Option Nat)}

theorem passes (h : SplitInv o s) {p : PageThread AcquirePc} (hp : p.hand = none)
    (h0 : handOf s.threads o = none) (hw : swappedBy (s.threads.get o) = 0) (hw' : swappedBy p = 0)
    (hempty : p = .acquire .loadAtomic → ∀ i < 63, s.page.bitfield.getLsbD i = false) :
    SplitInv o { s with threads := s.threads.set o p } := by
  have hsame := handOf_set_same s.threads (hp.trans h0.symm)
  exact h.quiet (h.ledger.congr hsame) (fun _ => owned_congr hsame) (fun _ _ => rfl)
    (hw'.trans hw.symm) hempty

theorem scan (h : SplitInv o s) (h0 : handOf s.threads o = none)
    (hw : swappedBy (s.threads.get o) = 0)
    (hc : acquireFreeBlock s.page .scan = (page, control)) :
    SplitInv o { s with page, threads := s.threads.set o (PageOps.afterAcquire control) } := by
  by_cases hz : s.page.bitfield.ctz.toNat = 63
  · -- the owner's word is empty
    simp only [acquireFreeBlock, blockPerPage_eq, hz, ite_true] at hc
    obtain ⟨rfl, rfl⟩ := Prod.mk.inj hc
    exact h.passes rfl h0 hw rfl fun _ => (ctz_eq_iff_full h.arenaBit.1).mp hz
  · obtain ⟨i, hi, hbit, hacq⟩ := acquire_scan h.arenaBit.1 hz
    obtain ⟨rfl, rfl⟩ := Prod.mk.inj (hacq.symm.trans hc)
    have hapart := h.apart
    have hlive := h.live
    have hfree : ¬ Owned s.handles (handOf s.threads) i := by
      intro ho
      have := ((hlive i).mpr ho).2.1
      rw [hbit] at this; cases this
    have hb := fun j => getLsbD_and_not_bit (x := s.page.bitfield) hi j
    rw [hw] at hapart hlive
    refine h.words (h.ledger.make hfree (handOf_set_self _) (handOf_set_ne _))
      ⟨arenaBit_and_not_bit hi h.arenaBit.1, h.arenaBit.2⟩ ?_ (fun j => ?_) (fun e => by cases e)
    · refine ⟨fun j hj => hapart.xy j ?_, fun j _ => by simp [PageOps.afterAcquire, swappedBy],
        fun j _ => by simp [PageOps.afterAcquire, swappedBy]⟩
      rw [hb] at hj; grind
    · refine Iff.trans ?_ (owned_make h0 (handOf_set_self _) (handOf_set_ne _)).symm
      have h1 := hlive j
      have h2 := hapart.xy i hbit
      have h3 := hb j
      simp only [PageOps.afterAcquire, swappedBy]
      unfold PageState.Live at h1
      grind

theorem loadAtomic (h : SplitInv o s) (h0 : handOf s.threads o = none)
    (hw : swappedBy (s.threads.get o) = 0)
    (hc : acquireFreeBlock s.page .loadAtomic = (page, control)) :
    SplitInv o { s with page, threads := s.threads.set o (PageOps.afterAcquire control) } := by
  obtain ⟨rfl, rfl⟩ := Prod.mk.inj hc
  by_cases hz : s.page.bitfieldAtomic ≠ 0
  · rw [if_pos hz]
    exact h.passes rfl h0 hw rfl fun e => by cases e
  · rw [if_neg hz]
    exact h.passes rfl h0 hw rfl fun e => by cases e

theorem swapAtomic (h : SplitInv o s) (h0 : handOf s.threads o = none)
    (hw : swappedBy (s.threads.get o) = 0)
    (hc : acquireFreeBlock s.page .swapAtomic = (page, control)) :
    SplitInv o { s with page, threads := s.threads.set o (PageOps.afterAcquire control) } := by
  obtain ⟨rfl, rfl⟩ := Prod.mk.inj hc
  have hapart := h.apart
  have hlive := h.live
  rw [hw] at hapart hlive
  have hsame : ∀ u, handOf (s.threads.set o (.acquire (.merge s.page.bitfieldAtomic))) u =
      handOf s.threads u := handOf_set_same _ h0.symm
  refine h.words (h.ledger.congr hsame) ⟨h.arenaBit.1, by simp⟩ ?_ (fun j => ?_)
    (fun e => by cases e)
  · exact ⟨fun j _ => by simp, fun j hj => hapart.xy j hj, fun j hj => by simp at hj⟩
  · refine Iff.trans ?_ ((hlive j).trans (owned_congr hsame).symm)
    simp [PageOps.afterAcquire, swappedBy]

theorem merge (h : SplitInv o s) {v : Bitfield} (h0 : handOf s.threads o = none)
    (hw : swappedBy (s.threads.get o) = v)
    (hc : acquireFreeBlock s.page (.merge v) = (page, control)) :
    SplitInv o { s with page, threads := s.threads.set o (PageOps.afterAcquire control) } := by
  obtain ⟨rfl, rfl⟩ := Prod.mk.inj hc
  have hapart := h.apart
  have hlive := h.live
  rw [hw] at hapart hlive
  have hsame : ∀ u, handOf (s.threads.set o (.acquire .scan)) u = handOf s.threads u :=
    handOf_set_same _ h0.symm
  refine h.words (h.ledger.congr hsame) ⟨by simp [h.arenaBit.1], h.arenaBit.2⟩ ?_ (fun j => ?_)
    (fun e => by cases e)
  · refine ⟨fun j hj => ?_, fun j _ => by simp [PageOps.afterAcquire, swappedBy],
      fun j _ => by simp [PageOps.afterAcquire, swappedBy]⟩
    rw [BitVec.getLsbD_or] at hj
    have h1 := hapart.xy j
    have h2 := hapart.yz j
    grind
  · refine Iff.trans ?_ ((hlive j).trans (owned_congr hsame).symm)
    simp only [PageOps.afterAcquire, swappedBy, BitVec.getLsbD_or]
    grind

theorem giveBlock (h : SplitInv o s) {i : Nat} {last : Bool}
    (ht : s.threads.get t = .drop i .fetchAdd) (hg : ops.giveBlock i s.page = (page, last)) :
    SplitInv o { s with
      page
      threads := s.threads.set t (.drop i (if last then .deallocate else .push .loadInFree)) } := by
  obtain ⟨rfl, -⟩ := Prod.mk.inj hg
  have h0 : handOf s.threads t = some i := handOf_get ht
  have h1 : handOf
      (s.threads.set t (.drop i (if last then .deallocate else .push .loadInFree))) t = none :=
    (handOf_set_self _).trans (hand_given i last)
  obtain ⟨hlt, hi, ha, hv⟩ := (h.live i).mpr (Or.inr ⟨t, h0⟩)
  have hb := getLsbD_add_bit hlt ha
  have hsw := swappedBy_set (o := o) (m := s.threads) (t := t)
    (p := .drop i (if last then .deallocate else .push .loadInFree)) (by rw [ht]; rfl)
  have hapart := h.apart
  refine ⟨h.ledger.give h1 (handOf_set_ne _), h.arena, sole_set h.sole (fun pc e => by cases e),
    ⟨h.arenaBit.1, ?_⟩, ?_, fun j => ?_, fun u hu => ?_⟩
  · rw [hb, h.arenaBit.2]; simp; omega
  · rw [hsw]
    refine ⟨fun j hj => ?_, hapart.xz, fun j hj => ?_⟩
    · have := hapart.xy j hj
      rw [hb]; grind
    · have := hapart.yz j
      rw [hb] at hj; grind
  · rw [hsw]
    refine Iff.trans ?_ (owned_give h.ledger h0 h1 (handOf_set_ne _)).symm
    have := h.live j
    unfold PageState.Live at this
    rw [hb]; grind
  · rw [Store.get_set] at hu
    split at hu
    · cases hu
    · exact h.empty u hu

theorem step {self : Addr} {a : PageAct} (h : SplitInv o s) (ha : ownerAllocates o a)
    (hs : ops.stepPage self s a = some s') : SplitInv o s' := by
  cases ops.moves_of_stepPage hs with
  | @startAcquire t ht =>
    obtain rfl : t = o := of_decide_eq_true ha
    exact h.passes rfl (handOf_get ht) (by rw [ht]; rfl) rfl fun e => by cases e
  | @startDrop t i ht hi =>
    have h0 : handOf s.threads t = none := handOf_get ht
    exact h.quiet (h.ledger.take hi (handOf_set_self _) (handOf_set_ne _))
      (fun _ => owned_take h.ledger hi h0 (handOf_set_self _) (handOf_set_ne _))
      (fun pc e => by cases e) (by rw [ht]; rfl) (fun e => by cases e)
  | startDropPage => cases ha
  | @acquire t _ pc page control ht hc =>
    obtain rfl := h.sole t pc ht
    have h0 : handOf s.threads t = none := handOf_get ht
    cases pc with
    | scan => exact h.scan h0 (by rw [ht]; rfl) hc
    | loadAtomic => exact h.loadAtomic h0 (by rw [ht]; rfl) hc
    | swapAtomic => exact h.swapAtomic h0 (by rw [ht]; rfl) hc
    | merge v => exact h.merge h0 (by rw [ht]; rfl) hc
  | @keep t _ i ht =>
    have h0 : handOf s.threads t = some i := handOf_get ht
    exact h.quiet (h.ledger.settle h0 (handOf_set_self _) (handOf_set_ne _))
      (fun _ => owned_settle h0 (handOf_set_self _) (handOf_set_ne _)) (fun pc e => by cases e)
      (by rw [ht]; rfl) (fun e => by cases e)
  | giveBlock ht hg => exact h.giveBlock ht hg
  | @freeBlock t _ i ht =>
    have h0 : handOf s.threads t = none := handOf_get ht
    have hsame : ∀ u, handOf (s.threads.set t .idle) u = handOf s.threads u :=
      handOf_set_same _ h0.symm
    exact h.quiet (h.ledger.congr hsame) (fun _ => owned_congr hsame) (fun pc e => by cases e)
      (by rw [ht]; rfl) (fun e => by cases e)
  | @push t _ i pc links pending control ht hp =>
    have h0 : handOf s.threads t = none := handOf_get ht
    have hsame := handOf_set_same s.threads ((hand_pushed i control).trans h0.symm)
    refine h.quiet (h.ledger.congr hsame) (fun _ => owned_congr hsame) (fun pc e => ?_) ?_
      (fun e => ?_)
    · cases control <;> cases e
    · rw [ht]; cases control <;> rfl
    · cases control <;> cases e
  | givePage harena => rw [h.arena] at harena; cases harena
  | freePage harena => rw [h.arena] at harena; cases harena
  | other => exact ⟨h.ledger, h.arena, h.sole, h.arenaBit, h.apart, h.live, h.empty⟩

end SplitInv

theorem SplitInv.of_reach {o : Tid} {self : Addr} {s : PageState PageArena AcquirePc}
    (h : (machine self).Reach (fun _ a => ownerAllocates o a) s) : SplitInv o s :=
  h.invariant (fun _ => SplitInv.start) fun _ _ _ _ hi hc hs => hi.step hc hs

theorem and_eq_zero_of_apart {x y : Bitfield} (h : ∀ j, x.getLsbD j = true → y.getLsbD j = false) :
    x &&& y = 0 := by
  apply BitVec.eq_of_getLsbD_eq
  intro j _
  have := h j
  rw [BitVec.getLsbD_and]
  cases hx : x.getLsbD j <;> simp_all

/-- While the arena owns the page and `o` allocates: the three words are disjoint, the
arena's bit is in the owner's word, a block is free exactly if one of them has it, a
`fetch_add` sets its own bit and no other, and `acquire_free_block` gives up only
where no block is free. -/
theorem split_bitfield {o : Tid} {self : Addr} {s : PageState PageArena AcquirePc}
    (h : (machine self).Reach (fun _ a => ownerAllocates o a) s) :
    let swapped := swappedBy (s.threads.get o)
    (s.page.bitfield &&& s.page.bitfieldAtomic = 0 ∧ s.page.bitfield &&& swapped = 0 ∧
      s.page.bitfieldAtomic &&& swapped = 0) ∧
    (s.page.bitfield.getLsbD 63 = true ∧ s.page.bitfieldAtomic.getLsbD 63 = false) ∧
    Ledger s.handles (handOf s.threads) ∧
    (∀ i < 63, s.Live i ↔ s.page.bitfield.getLsbD i = false ∧
      s.page.bitfieldAtomic.getLsbD i = false ∧
      swapped.getLsbD i = false) ∧
    (∀ t i, s.threads.get t = .drop i .fetchAdd → i < 63 ∧ s.page.bitfieldAtomic.getLsbD i = false ∧
      ∀ j, (s.page.bitfieldAtomic + bit i).getLsbD j =
        (s.page.bitfieldAtomic.getLsbD j || decide (i = j))) ∧
    (∀ t pc, s.threads.get t = .acquire pc → (acquireFreeBlock s.page pc).2 = .ret none →
      pc = .loadAtomic ∧ ∀ i < 63, s.Live i) := by
  intro swapped
  have hinv := SplitInv.of_reach h
  have hlive : ∀ i < 63, s.Live i ↔ s.page.bitfield.getLsbD i = false ∧
      s.page.bitfieldAtomic.getLsbD i = false ∧ swapped.getLsbD i = false := by
    intro i hi
    rw [← hinv.live]
    exact ⟨fun h => h.2, fun h => ⟨hi, h⟩⟩
  refine ⟨⟨and_eq_zero_of_apart hinv.apart.xy, and_eq_zero_of_apart hinv.apart.xz,
    and_eq_zero_of_apart hinv.apart.yz⟩, hinv.arenaBit, hinv.ledger, hlive, fun t i ht => ?_,
      fun t pc ht hret => ?_⟩
  · have ho : s.Live i := Or.inr ⟨t, handOf_get ht⟩
    obtain ⟨hi, -, hb, -⟩ := (hinv.live i).mpr ho
    exact ⟨hi, hb, getLsbD_add_bit hi hb⟩
  · obtain rfl := hinv.sole t pc ht
    cases pc with
    | scan =>
      by_cases hz : s.page.bitfield.ctz.toNat = 63
      · simp only [acquireFreeBlock, blockPerPage_eq, hz, ite_true] at hret
        cases hret
      · obtain ⟨i, -, -, hacq⟩ := acquire_scan hinv.arenaBit.1 hz
        rw [hacq] at hret
        cases hret
    | loadAtomic =>
      refine ⟨rfl, fun i hi => ?_⟩
      have hz : s.page.bitfieldAtomic = 0 := by
        by_contra hne
        simp only [acquireFreeBlock, ne_eq, hne, not_false_eq_true, ite_true] at hret
        cases hret
      have hw : swapped = 0 := by simp only [swapped, ht]; rfl
      refine (hlive i hi).mpr ⟨hinv.empty t ht i hi, ?_, ?_⟩
      · rw [hz]; simp
      · rw [hw]; simp
    | swapAtomic => cases hret
    | merge v => cases hret

def withLive (live : List Nat) : PageState PageArena AcquirePc where
  page := { new none with bitfield := freeBits live }
  pending := none
  handles := live
  threads := Store.empty
  arena := .owns
  deallocs := 0

theorem start_withLive {live : List Nat} (hn : live.Nodup) (h : ∀ i ∈ live, i < 63) :
    PageState.Start refs (withLive live) := by
  have h63 : (freeBits live).getLsbD 63 = true := by
    rw [getLsbD_freeBits (by omega) h]
    simp only [Bool.not_eq_eq_eq_not, Bool.not_true, decide_eq_false_iff_not]
    intro h63
    have := h 63 h63
    omega
  refine ⟨⟨h63, fun e => ?_, fun _ j _ => ?_⟩, hn, fun i => ?_, ?_, rfl, rfl, rfl⟩
  · simp [withLive, new] at e
  · simp [withLive, new]
  · simp only [refs, withLive, blockPerPage_eq, new]
    constructor
    · intro ⟨hi, hb, _⟩
      rw [getLsbD_freeBits (by omega) h] at hb
      simpa using hb
    · intro hi
      refine ⟨h i hi, ?_, by simp⟩
      rw [getLsbD_freeBits (by have := h i hi; omega) h]
      simpa using hi
  · simp [refs, withLive, new]

/-- The owner finds its word empty and takes the block that was dropped from
`bitfield_atomic`; meanwhile another drop adds its bit. -/
def merge : List PageAct :=
  [.drop 1 5, .step 1 true, .acquire 0, .step 0 true, .step 0 true, .step 0 true, .drop 2 7,
    .step 2 true]

theorem split_bitfield_merge :
    ∃ s : PageState PageArena AcquirePc, s.threads.get 0 = .acquire (.merge (bit 5)) ∧
    s.page.bitfieldAtomic = bit 7 ∧ s.page.bitfieldAtomic &&& bit 5 = 0 := by
  have hstart : (machine 0).init (withLive (List.range 63)) :=
    start_withLive List.nodup_range (by simp)
  obtain ⟨s, hs, hp⟩ := Machine.Reach.exists_of_runIf hstart (fun _ a => ownerAllocates 0 a) merge
    (fun s => s.threads.get 0 = .acquire (.merge (bit 5)) ∧ s.page.bitfieldAtomic = bit 7)
    (fun _ _ h => h) (by decide +kernel)
  obtain ⟨h0, h1⟩ := of_decide_eq_true hp
  have hw : swappedBy (s.threads.get 0) = bit 5 := by rw [h0]; rfl
  exact ⟨s, h0, h1, hw ▸ (split_bitfield hs).1.2.2⟩

end PageArena

end MemoryPools
