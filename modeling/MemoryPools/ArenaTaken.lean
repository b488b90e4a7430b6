import MemoryPools.ArenaCount

/-!
# The blocks of an arena that are in use

The other half of the law of the blocks: a block whose bit is clear everywhere has an
owner. So the words of a page say which of its blocks are in use, whatever the threads
are doing.
-/

namespace MemoryPools

open Interleave

namespace Arena

variable {a a' : Arena}

inductive WordMoves (a a' : Arena) : FindPc → Control FindPc (Addr × Nat) → Prop
  | take {p : Addr} {i : Nat} (hi : i < 63) (hbit : (a.words p).1.getLsbD i = true)
    (hw : ∀ q, a'.words q = if q = p then ((a.words p).1 &&& ~~~bit i, (a.words p).2)
      else a.words q) :
    WordMoves a a' (.acquire p .scan) (.ret (p, i))
  | swap {p : Addr} (hw : ∀ q, a'.words q = if q = p then ((a.words p).1, 0) else a.words q) :
    WordMoves a a' (.acquire p .swapAtomic) (.goto (.acquire p (.merge (a.words p).2)))
  | merge {p : Addr} {v : Bitfield}
    (hw : ∀ q, a'.words q = if q = p then ((a.words p).1 ||| v, (a.words p).2) else a.words q) :
    WordMoves a a' (.acquire p (.merge v)) (.goto (.acquire p .scan))
  | grow {pc : FindPc} (hw : ∀ q, (q < a'.heap.size → q < a.heap.size) ∧ a'.words q = a.words q ∨
      a.heap.size ≤ q ∧ a'.words q = (BitVec.allOnes 64, 0))
    (hc : ∀ q, (ArenaCall.alloc pc).swapped q = 0) : WordMoves a a' .loadFull (.goto pc)
  | keep {pc : FindPc} {control : Control FindPc (Addr × Nat)} (hw : ∀ q, a'.words q = a.words q)
    (hsize : a'.heap.size = a.heap.size)
    (hpc : ∀ q, (ArenaCall.alloc pc).swapped q = 0)
    (hc : control = .panic ∨ ∃ pc', control = .goto pc' ∧ ∀ q, (ArenaCall.alloc pc').swapped q = 0) :
    WordMoves a a' pc control

theorem words_made {n q : Nat} :
    (q < a.heap.size + n → q < a.heap.size) ∧
      ({ a with heap := (a.heap.makeList PageArena.new n).1 } : Arena).words q = a.words q ∨
    a.heap.size ≤ q ∧
      ({ a with heap := (a.heap.makeList PageArena.new n).1 } : Arena).words q =
        (BitVec.allOnes 64, 0) := by
  unfold words page
  by_cases hq : a.heap.size ≤ q ∧ q < a.heap.size + n
  · obtain ⟨k, rfl⟩ := Nat.exists_eq_add_of_le hq.1
    have hnew : (a.heap.makeList PageArena.new n).1.get (a.heap.size + k) =
        PageArena.new (behind a.heap.size k) := Heap.get_makeList_new (by omega)
    refine Or.inr ⟨hq.1, ?_⟩
    rw [hnew]
    rfl
  · have hold : (a.heap.makeList PageArena.new n).1.get q = a.heap.get q :=
      Heap.get_makeList_old (by omega)
    refine Or.inl ⟨fun hlt => by omega, ?_⟩
    rw [hold]

theorem swapped_goto {pc : FindPc} (h : ∀ p v, pc ≠ .acquire p (.merge v)) (q : Addr) :
    (ArenaCall.alloc pc).swapped q = 0 := by
  unfold ArenaCall.swapped
  split
  · rename_i p v e
    exact absurd (ArenaCall.alloc.inj e) (h p v)
  · rfl

theorem acquire_words {p : Addr} {pc : PageArena.AcquirePc}
    {control : Control FindPc (Addr × Nat)} (h63 : (a.words p).1.getLsbD 63 = true)
    (hs : a.findPlace (.acquire p pc) = (a', control)) :
    WordMoves a a' (.acquire p pc) control := by
  cases pc with
  | scan =>
    by_cases hz : (a.page p).bitfield.ctz.toNat = 63
    · simp only [findPlace, PageArena.acquireFreeBlock, blockPerPage_eq, hz, ite_true] at hs
      obtain ⟨rfl, rfl⟩ := Prod.mk.inj hs
      exact .keep (fun q => words_setPage_same rfl) rfl (swapped_goto (by simp))
        (Or.inr ⟨_, rfl, swapped_goto (by simp)⟩)
    · obtain ⟨i, hi, hbit, hacq⟩ := PageArena.acquire_scan h63 hz
      simp only [findPlace, hacq] at hs
      obtain ⟨rfl, rfl⟩ := Prod.mk.inj hs
      exact .take hi hbit fun q => words_setPage
  | loadAtomic =>
    simp only [findPlace, PageArena.acquireFreeBlock] at hs
    obtain ⟨rfl, rfl⟩ := Prod.mk.inj hs
    refine .keep (fun q => words_setPage_same rfl) rfl (swapped_goto (by simp)) (Or.inr ?_)
    split
    · rename_i pc hc
      refine ⟨_, rfl, swapped_goto ?_⟩
      intro q v e
      obtain ⟨-, rfl⟩ := FindPc.acquire.inj e
      split at hc <;> cases hc
    · rename_i hc
      split at hc <;> cases hc
    · exact ⟨_, rfl, swapped_goto (by simp)⟩
    · rename_i hc
      split at hc <;> cases hc
  | swapAtomic =>
    obtain ⟨rfl, rfl⟩ := Prod.mk.inj hs
    exact .swap fun q => words_setPage
  | merge v =>
    obtain ⟨rfl, rfl⟩ := Prod.mk.inj hs
    exact .merge fun q => words_setPage

theorem findPlace_words {pc : FindPc} {control : Control FindPc (Addr × Nat)}
    (h63 : ∀ p, (a.words p).1.getLsbD 63 = true) (hs : a.findPlace pc = (a', control)) :
    WordMoves a a' pc control := by
  cases pc with
  | acquire p pc => exact acquire_words (h63 p) hs
  | loadFull =>
    obtain ⟨rfl, rfl⟩ := Prod.mk.inj hs
    exact .grow (fun q => words_made) (swapped_goto (by simp))
  | unlink p =>
    obtain ⟨rfl, rfl⟩ := Prod.mk.inj hs
    exact .keep (fun q => rfl) rfl (swapped_goto (by simp))
      (Or.inr ⟨_, rfl, swapped_goto (by simp)⟩)
  | swapPending | swapFull =>
    obtain ⟨rfl, rfl⟩ := Prod.mk.inj hs
    exact .keep (fun q => rfl) rfl (swapped_goto (by simp))
      (Or.inr ⟨_, rfl, swapped_goto (by simp)⟩)
  | clearInFree | linkLast =>
    obtain ⟨rfl, rfl⟩ := Prod.mk.inj hs
    exact .keep (fun q => words_setPage_same rfl) rfl (swapped_goto (by simp))
      (Or.inr ⟨_, rfl, swapped_goto (by simp)⟩)
  | loadPending =>
    obtain ⟨rfl, rfl⟩ := Prod.mk.inj hs
    refine .keep (fun q => rfl) rfl (swapped_goto (by simp)) (Or.inr ⟨_, rfl, swapped_goto ?_⟩)
    split <;> simp
  | getFree =>
    simp only [findPlace] at hs
    split at hs <;> obtain ⟨rfl, rfl⟩ := Prod.mk.inj hs
    · exact .keep (fun q => rfl) rfl (swapped_goto (by simp))
        (Or.inr ⟨_, rfl, swapped_goto (by simp)⟩)
    · exact .keep (fun q => rfl) rfl (swapped_goto (by simp))
        (Or.inr ⟨_, rfl, swapped_goto (by simp)⟩)
  | setFree =>
    simp only [findPlace] at hs
    split at hs <;> obtain ⟨rfl, rfl⟩ := Prod.mk.inj hs
    · exact .keep (fun q => rfl) rfl (swapped_goto (by simp))
        (Or.inr ⟨_, rfl, swapped_goto (by simp)⟩)
    · exact .keep (fun q => rfl) rfl (swapped_goto (by simp)) (Or.inl rfl)

theorem size_dropPage {p : Addr} {pc : DropPagePc} {control : Control DropPagePc Unit}
    (h : a.dropPage p pc = (a', control)) : a'.heap.size = a.heap.size := by
  obtain ⟨rfl, -⟩ := Prod.mk.inj h
  simp only
  split <;> rfl

theorem size_shrinkToFit {pc : ShrinkPc} {control : Control ShrinkPc Bool}
    (h : a.shrinkToFit pc = (a', control)) : a'.heap.size = a.heap.size := by
  cases pc with
  | dropPage start toDrop p rest pc =>
    cases hd : a.dropPage p pc with
    | mk a₁ c =>
      simp only [shrinkToFit, hd] at h
      obtain ⟨rfl, -⟩ := Prod.mk.inj h
      exact size_dropPage hd
  | walkCas | fullCas =>
    simp only [shrinkToFit] at h
    split at h
    · split at h <;> obtain ⟨rfl, -⟩ := Prod.mk.inj h <;> rfl
    · obtain ⟨rfl, -⟩ := Prod.mk.inj h
      rfl
  | takeFree | walkNext =>
    obtain ⟨rfl, -⟩ := Prod.mk.inj h
    rfl
  | walk | walkBits | full | fullNext | restore =>
    simp only [shrinkToFit] at h
    split at h <;> obtain ⟨rfl, -⟩ := Prod.mk.inj h <;> rfl
  | recheck start toDrop rest =>
    cases rest with
    | nil =>
      obtain ⟨rfl, -⟩ := Prod.mk.inj h
      rfl
    | cons p rest =>
      simp only [shrinkToFit] at h
      split at h <;> obtain ⟨rfl, -⟩ := Prod.mk.inj h <;> rfl

end Arena

theorem BlocksInv.not_live {s : ArenaState} (hb : BlocksInv s) {pc : Arena.FindPc} {arena : Arena}
    {p : Addr} {i : Nat} (hs : s.arena.findPlace pc = (arena, .ret (p, i))) : ¬ s.Live p i := by
  intro hl
  cases Arena.findPlace_words (fun p => (hb.split p).arenaBit) hs with
  | take _ hbit _ =>
    have hclear := (hb.clear p i hl).1
    rw [hbit] at hclear
    cases hclear
  | keep _ _ _ hc =>
    rcases hc with e | ⟨pc', e, -⟩
    · cases e
    · cases e

/-! ## The invariant -/

/-- A block whose bit is clear everywhere is in use. -/
def TakenInv (s : ArenaState) : Prop :=
  ∀ p < s.arena.heap.size, ∀ i < 63, s.Clear p i → s.Live p i

namespace TakenInv

variable {s s' : ArenaState} {arena : Arena} {owner : ArenaCall}

/-- A step that ends the use of no block, and clears no bit. -/
theorem mono (h : TakenInv s) (hlive : ∀ p i, s.Live p i → s'.Live p i)
    (hclear : ∀ p < s'.arena.heap.size, ∀ i < 63, s'.Clear p i →
      p < s.arena.heap.size ∧ s.Clear p i) : TakenInv s' := by
  intro p hp i hi hc
  obtain ⟨hp', hc'⟩ := hclear p hp i hi hc
  exact hlive p i (h p hp' i hi hc')

theorem owner_keep (h : TakenInv s) (hsize : arena.heap.size = s.arena.heap.size)
    (hw : ∀ q, arena.words q = s.arena.words q) (hsw : ∀ q, s.owner.swapped q = 0) :
    TakenInv { s with arena, owner } := by
  refine h.mono (fun _ _ hl => hl) ?_
  intro p hp i _ hc
  have hp : p < arena.heap.size := hp
  obtain ⟨h1, h2, -⟩ := hc
  refine ⟨hsize ▸ hp, ?_, ?_, ?_⟩
  · rw [← hw]
    exact h1
  · rw [← hw]
    exact h2
  · rw [hsw]
    simp

theorem alloc (h : TakenInv s) (hb : BlocksInv s) {pc : Arena.FindPc} (ho : s.owner = .alloc pc)
    {control : Control Arena.FindPc (Addr × Nat)} (hs : s.arena.findPlace pc = (arena, control)) :
    TakenInv (s.afterAlloc arena control) := by
  have hsw : ∀ q, s.owner.swapped q = (ArenaCall.alloc pc).swapped q := fun q => by rw [ho]
  cases Arena.findPlace_words (fun p => (hb.split p).arenaBit) hs with
  | @take p i hi hbit hw =>
    have hsize : arena.heap.size = s.arena.heap.size := by
      have e := (Prod.mk.inj hs).1
      rw [← e]
      rfl
    intro q hq j hj hc
    have hq : q < arena.heap.size := hq
    apply owned_insert.mpr
    by_cases e : (q, j) = (p, i)
    · exact Or.inr e
    · -- the other blocks keep their bits
      refine Or.inl (h q (hsize ▸ hq) j hj ?_)
      obtain ⟨h1, h2, -⟩ := hc
      have h1 : (arena.words q).1.getLsbD j = false := h1
      have h2 : (arena.words q).2.getLsbD j = false := h2
      rw [hw] at h1 h2
      refine ⟨?_, ?_, by rw [hsw]; simp [ArenaCall.swapped]⟩
      · split at h1
        · rename_i eq
          subst eq
          rw [getLsbD_and_not_bit hi] at h1
          have hne : i ≠ j := by
            intro e'
            exact e (by rw [e'])
          simpa [hne] using h1
        · exact h1
      · split at h2
        · rename_i eq
          rw [eq]
          exact h2
        · exact h2
  | @swap p hw =>
    obtain ⟨rfl, -⟩ := Prod.mk.inj hs
    refine h.mono (fun _ _ hl => hl) ?_
    intro q hq j _ hc
    refine ⟨hq, ?_⟩
    obtain ⟨h1, h2, h3⟩ := hc
    simp only [ArenaState.afterAlloc, hw, ArenaCall.swapped] at h1 h2 h3
    by_cases e : q = p
    · subst e
      simp only [ite_true] at h1 h3
      exact ⟨h1, h3, by rw [hsw]; simp [ArenaCall.swapped]⟩
    · simp only [e, ite_false] at h1 h2
      exact ⟨h1, h2, by rw [hsw]; simp [ArenaCall.swapped]⟩
  | @merge p v hw =>
    obtain ⟨rfl, -⟩ := Prod.mk.inj hs
    refine h.mono (fun _ _ hl => hl) ?_
    intro q hq j _ hc
    refine ⟨hq, ?_⟩
    obtain ⟨h1, h2, -⟩ := hc
    simp only [ArenaState.afterAlloc, hw] at h1 h2
    by_cases e : q = p
    · subst e
      simp only [ite_true, BitVec.getLsbD_or, Bool.or_eq_false_iff] at h1 h2
      exact ⟨h1.1, h2, by rw [hsw]; simpa [ArenaCall.swapped] using h1.2⟩
    · simp only [e, ite_false] at h1 h2
      exact ⟨h1, h2, by rw [hsw]; simp [ArenaCall.swapped, Ne.symm e]⟩
  | grow hw hc' =>
    refine h.mono (fun _ _ hl => hl) ?_
    intro q hq j hj hc
    rcases hw q with ⟨hlt, e⟩ | ⟨-, e⟩
    · obtain ⟨h1, h2, -⟩ := hc
      simp only [ArenaState.afterAlloc, e] at h1 h2
      exact ⟨hlt hq, h1, h2, by rw [hsw]; simp [ArenaCall.swapped]⟩
    · have h1 := hc.1
      simp only [ArenaState.afterAlloc, e] at h1
      rw [BitVec.getLsbD_allOnes] at h1
      simp at h1
      omega
  | keep hw hsize hpc hcontrol =>
    have hkeep : ∀ owner : ArenaCall, TakenInv { s with arena, owner } :=
      fun owner => h.owner_keep hsize hw fun q => (hsw q).trans (hpc q)
    rcases hcontrol with rfl | ⟨pc', rfl, -⟩
    · exact hkeep _
    · exact hkeep _

theorem dropPage (h : TakenInv s) {p : Addr} {pc : DropPagePc} {control : Control DropPagePc Unit}
    (hd : s.arena.dropPage p pc = (arena, control)) (hsw : ∀ q, s.owner.swapped q = 0) :
    TakenInv { s with arena, owner } := by
  refine h.mono (fun _ _ hl => hl) ?_
  intro q hq j _ hc
  have hq : q < arena.heap.size := hq
  refine ⟨Arena.size_dropPage hd ▸ hq, ?_⟩
  obtain ⟨h1, h2, -⟩ := hc
  simp only [Arena.words_dropPage hd] at h1 h2
  unfold ArenaState.Clear
  rw [hsw]
  split at h1
  · rename_i e
    simp only [e, and_self, ite_true, BitVec.getLsbD_or, Bool.or_eq_false_iff] at h2
    rw [e.2]
    exact ⟨h1, h2.1, by simp⟩
  · rename_i e
    simp only [e, ite_false] at h2
    exact ⟨h1, h2, by simp⟩

theorem shrink (h : TakenInv s) {pc : Arena.ShrinkPc} (ho : s.owner = .shrink pc)
    {control : Control Arena.ShrinkPc Bool} (hs : s.arena.shrinkToFit pc = (arena, control)) :
    TakenInv { s with arena, owner } := by
  have hsw : ∀ q, s.owner.swapped q = 0 := fun q => by rw [ho]; rfl
  by_cases hpc : ∃ start toDrop p rest pc', pc = .dropPage start toDrop p rest pc'
  · obtain ⟨start, toDrop, p, rest, pc', rfl⟩ := hpc
    cases hd : s.arena.dropPage p pc' with
    | mk a c =>
      simp only [Arena.shrinkToFit, hd] at hs
      obtain ⟨rfl, -⟩ := Prod.mk.inj hs
      exact h.dropPage hd hsw
  · obtain ⟨-, hw, -⟩ := Arena.shrinkToFit_frame hs fun start toDrop p rest pc' e =>
      hpc ⟨start, toDrop, p, rest, pc', e⟩
    exact h.owner_keep (Arena.size_shrinkToFit hs) hw hsw

theorem release (h : TakenInv s) {pc : Arena.ReleasePc} (ho : s.owner = .release pc)
    {control : Control Arena.ReleasePc Unit} (hs : s.arena.release pc = (arena, control)) :
    TakenInv { s with arena, owner } := by
  have hsw : ∀ q, s.owner.swapped q = 0 := fun q => by rw [ho]; rfl
  cases pc with
  | loadFull | loadNext =>
    obtain ⟨rfl, -⟩ := Prod.mk.inj hs
    exact h.owner_keep rfl (fun q => rfl) hsw
  | dropPage p next pc =>
    cases hd : s.arena.dropPage p pc with
    | mk a c =>
      simp only [Arena.release, hd] at hs
      obtain ⟨rfl, -⟩ := Prod.mk.inj hs
      exact h.dropPage hd hsw

theorem step (h : TakenInv s) (hb : BlocksInv s) {a : ArenaAct} (hm : ArenaState.Moves s a s') :
    TakenInv s' := by
  cases hm with
  | startAlloc ho | startShrink ho | startRelease ho =>
    exact h.owner_keep rfl (fun q => rfl) fun q => by rw [ho]; rfl
  | alloc ho hs => exact h.alloc hb ho hs
  | @shrink pc arena control ho hs => cases control <;> exact h.shrink ho hs
  | @release pc arena control ho hs => cases control <;> exact h.release ho hs
  | @startDrop t p i ht hi =>
    have h0 : handOf s.threads t = none := handOf_get ht
    refine h.mono (fun q j hl => ?_) fun q hq j _ hc => ⟨hq, hc⟩
    exact (owned_take hb.ledger hi h0 (handOf_set_self _) (handOf_set_ne _)).mpr hl
  | @giveBlock t _ p i page last ht hg =>
    obtain ⟨rfl, rfl⟩ := Prod.mk.inj hg
    have h0 : handOf s.threads t = some (p, i) := handOf_get ht
    have hlive : s.Live p i := Or.inr ⟨t, h0⟩
    have hi := hb.index p i hlive
    have hadd := fun j => getLsbD_add_bit hi (hb.clear p i hlive).2.1 j
    intro q hq j hj hc
    obtain ⟨h1, h2, h3⟩ := hc
    simp only [Arena.words_setPage] at h1 h2
    have hclear : s.Clear q j ∧ (q, j) ≠ (p, i) := by
      by_cases e : q = p
      · subst e
        simp only [ite_true] at h1 h2
        have h2 : ((s.arena.words q).2 + bit i).getLsbD j = false := h2
        rw [hadd, Bool.or_eq_false_iff] at h2
        refine ⟨⟨h1, h2.1, h3⟩, fun e => ?_⟩
        have hne : i ≠ j := of_decide_eq_false h2.2
        exact hne (Prod.mk.inj e).2.symm
      · simp only [e, ite_false] at h1 h2
        exact ⟨⟨h1, h2, h3⟩, fun e' => e (Prod.mk.inj e').1⟩
    refine (owned_give hb.ledger h0 ?_ (handOf_set_ne _)).mpr ⟨h q hq j hj hclear.1, hclear.2⟩
    rw [handOf_set_self]
    split <;> rfl
  | @freeBlock t _ p i ht =>
    have h0 : handOf s.threads t = none := handOf_get ht
    have hw : ∀ q, (s.arena.setPage p (s.arena.page p)).words q = s.arena.words q :=
      fun q => Arena.words_setPage_same rfl
    refine h.mono (fun q j => (owned_congr (handOf_set_same _ h0.symm)).mpr) fun q hq j _ hc => ?_
    obtain ⟨h1, h2, h3⟩ := hc
    refine ⟨hq, ?_, ?_, h3⟩
    · rw [← hw q]
      exact h1
    · rw [← hw q]
      exact h2
  | @push t _ p i pc links pending control ht hp =>
    have h0 : handOf s.threads t = none := handOf_get ht
    have h1 : (ArenaState.afterDrop p i (control.map .push)).hand = none := by cases control <;> rfl
    have hw : ∀ q, (s.arena.setPage p { s.arena.page p with toPageLinks := links }).words q =
      s.arena.words q := fun q => Arena.words_setPage_same rfl
    refine h.mono (fun q j => (owned_congr (handOf_set_same _ (h1.trans h0.symm))).mpr)
      fun q hq j _ hc => ?_
    obtain ⟨h1, h2, h3⟩ := hc
    refine ⟨hq, ?_, ?_, h3⟩
    · rw [← hw q]
      exact h1
    · rw [← hw q]
      exact h2

theorem start (cap : Nat) : TakenInv (.start cap) := by
  intro p _ i hi hc
  have h1 := hc.1
  rw [BlocksInv.words_start, BitVec.getLsbD_allOnes] at h1
  simp at h1
  omega

theorem of_reach {C : ArenaState → ArenaAct → Prop} (h : Arena.machine.Reach C s) : TakenInv s := by
  apply h.invariant
  · intro s hs
    obtain ⟨cap, rfl⟩ := hs
    exact .start cap
  · intro s a s' hr hi _ hs
    exact hi.step (ArenaInv.of_reach hr).blocks (ArenaState.moves_of_step hs)

theorem live_iff (h : TakenInv s) (hb : BlocksInv s) {p : Addr} (hp : p < s.arena.heap.size)
    {i : Nat} (hi : i < 63) : s.Live p i ↔ s.Clear p i :=
  ⟨hb.clear p i, h p hp i hi⟩

end TakenInv

end MemoryPools
