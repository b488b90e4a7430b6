import MemoryPools.ArenaStats
import MemoryPools.ArenaLifetime
import MemoryPools.BookCount
import MemoryPools.Interleave.Moment

/-!
# What `stats` of an arena counts

The owner cannot allocate while it is in `stats`, but other threads drop their handles.
The result counts the blocks in use at one moment of the call (`stats_linearizable`).
-/

namespace MemoryPools

open Interleave

def DropThread.held (c : DropThread) : Nat := c.hand.toList.length

namespace ArenaState

/-- The blocks of the handles, and of the drops that did not give them back yet. -/
def blocks (s : ArenaState) : List (Addr × Nat) :=
  s.handles ++ s.threads.cells.flatMap fun c => c.hand.toList

def inUse (s : ArenaState) : Nat := s.handles.length + s.threads.total DropThread.held

variable {s : ArenaState}

theorem length_blocks : s.blocks.length = s.inUse := by
  rw [blocks, List.length_append, List.length_flatMap]
  rfl

theorem mem_blocks {p : Addr} {i : Nat} : (p, i) ∈ s.blocks ↔ s.Live p i := by
  rw [blocks, List.mem_append, List.mem_flatMap]
  apply or_congr_right
  have h := Store.exists_get_iff (m := s.threads) (P := fun c => c.hand = some (p, i))
    (by simp [DropThread.hand, default])
  apply Iff.trans _ h.symm
  simp

theorem nodup_blocks (h : Ledger s.handles (handOf s.threads)) : s.blocks.Nodup := by
  have hget : ∀ {i : Nat} (hi : i < s.threads.cells.length), s.threads.get i = s.threads.cells[i] := by
    intro i hi
    unfold Store.get
    rw [List.getD_eq_getElem?_getD, List.getElem?_eq_getElem hi]
    rfl
  apply List.nodup_append.mpr
  refine ⟨h.nodup, List.nodup_flatMap.mpr ⟨fun c _ => ?_, ?_⟩, ?_⟩
  · cases c.hand with
    | none => exact List.nodup_nil
    | some x => exact List.nodup_singleton x
  · rw [List.pairwise_iff_getElem]
    intro i j hi hj hij x hx hx'
    rw [Option.mem_toList, ← hget hi] at hx
    rw [Option.mem_toList, ← hget hj] at hx'
    exact Nat.ne_of_lt hij (h.inj i j x hx hx')
  · intro x hx y hy e
    subst e
    obtain ⟨c, hc, hy⟩ := List.mem_flatMap.mp hy
    obtain ⟨i, hi, rfl⟩ := List.getElem_of_mem hc
    rw [Option.mem_toList, ← hget hi] at hy
    exact h.apart i x hy hx

/-! ## The pages of the blocks -/

def accounts (s : ArenaState) (listed : List Addr) : Book :=
  { Book.start listed with live := s.blocks }

end ArenaState

def Arena.zeros (a : Arena) (p : Addr) : Nat :=
  countZeros ((a.page p).bitfield ||| (a.page p).bitfieldAtomic)

namespace ArenaState

/-- Between two calls of the owner, the zeros on the pages of `full_list` are the blocks in
use. -/
theorem sum_zeros (ha : ArenaInv s) (hc : CountInv s) (ht : TakenInv s) (hl : LifetimeInv s)
    (ho : s.owner = .idle) {listed : List Addr}
    (hlist : Linked s.arena.next s.arena.fullList listed) :
    (listed.map s.arena.zeros).sum = s.inUse := by
  obtain ⟨place, carried, l, hlists⟩ := ha.lists (by rw [ho]; rfl)
  obtain rfl := hlist.unique hlists.full
  have hcount := hlists.counts hc (by rw [ho]; rfl)
  rw [ho] at hcount
  have htidy : (s.accounts listed).Tidy := by
    refine ⟨hlist.nodup, ?_, List.nodup_nil, ?_, ?_, nodup_blocks ha.blocks.ledger, ?_, ?_, ?_⟩
    · simpa [accounts, Book.start] using hlist.nodup
    · simp [accounts, Book.start]
    · intro p hp
      cases hp
    · intro p i hp
      have hp := mem_blocks.mp hp
      refine ⟨hcount.2 p (ha.blocks.lt p i hp) ?_, ha.blocks.index p i hp⟩
      by_contra h63
      have he := hl.used p i (by simpa using h63) hp
      rw [ho] at he
      cases he
    · intro p hp _
      exact List.mem_append_left _ hp
    · intro p hp
      cases hp
  rw [← length_blocks]
  refine Eq.trans ?_ htidy.sum_used
  congr 1
  apply List.map_congr_left
  intro p hp
  apply Book.countZeros_eq_used
  · rw [BitVec.getLsbD_or]
    have h63 : (s.arena.page p).bitfield.getLsbD 63 = true := (ha.blocks.split p).arenaBit
    rw [h63, Bool.true_or]
  · intro i hi
    have hlt := hlists.lt_size (hlists.listed p hp).1
    refine Iff.trans ?_ mem_blocks.symm
    rw [ht.live_iff ha.blocks hlt hi, BitVec.getLsbD_or, Bool.or_eq_false_iff]
    unfold Clear Arena.words
    rw [ho]
    simp [ArenaCall.swapped]

end ArenaState

/-! ## What a drop does to the count -/

theorem countZeros_mono {w : Nat} {x y : BitVec w} (h : ∀ j, x.getLsbD j = true → y.getLsbD j = true) :
    countZeros y ≤ countZeros x := by
  unfold countZeros
  apply List.countP_mono_left
  intro j _ hj
  cases hx : x.getLsbD j with
  | true =>
    rw [h j hx] at hj
    cases hj
  | false => rfl

namespace ArenaState

variable {s s' : ArenaState} {a : ArenaAct}

theorem Moves.inUse (h : s.Moves a s') (ha : a.ofOwner = false) :
    s'.inUse ≤ s.inUse ∧ s.inUse ≤ s'.inUse + 1 := by
  have hset : ∀ {t : Tid} {c : DropThread} (c' : DropThread), s.threads.get t = c →
      (s.threads.set t c').total DropThread.held + c.held =
        s.threads.total DropThread.held + c'.held := by
    intro t c c' e
    rw [← e]
    exact Store.total_set rfl s.threads t c'
  cases h with
  | startAlloc | startShrink | startRelease | alloc | shrink | release => cases ha
  | @startDrop t p i ht hi =>
    have htotal := hset (.drop p i .fetchAdd) ht
    have hlen := List.length_erase_of_mem hi
    have hpos := List.length_pos_of_mem hi
    have h0 : DropThread.idle.held = 0 := rfl
    have h1 : (DropThread.drop p i .fetchAdd).held = 1 := rfl
    simp only [ArenaState.inUse]
    omega
  | @giveBlock t upgraded p i page last ht hg =>
    have htotal := hset (.drop p i (if last then .deallocate else .push .loadInFree)) ht
    have h0 : (DropThread.drop p i (if last then .deallocate else .push .loadInFree)).held = 0 := by
      cases last <;> rfl
    have h1 : (DropThread.drop p i .fetchAdd).held = 1 := rfl
    simp only [ArenaState.inUse]
    omega
  | @freeBlock t upgraded p i ht =>
    have htotal := hset .idle ht
    have h0 : DropThread.idle.held = 0 := rfl
    have h1 : (DropThread.drop p i .deallocate).held = 0 := rfl
    simp only [ArenaState.inUse]
    omega
  | @push t upgraded p i pc links pending control ht hp =>
    have htotal := hset (afterDrop p i (control.map .push)) ht
    have h0 : (afterDrop p i (control.map .push)).held = 0 := by cases control <;> rfl
    have h1 : (DropThread.drop p i (.push pc)).held = 0 := rfl
    simp only [ArenaState.inUse]
    omega

theorem Moves.zeros (h : s.Moves a s') (hb : BlocksInv s) (ha : a.ofOwner = false) (q : Addr) :
    s'.arena.zeros q ≤ s.arena.zeros q := by
  have hsame : s'.arena.words q = s.arena.words q → s'.arena.zeros q ≤ s.arena.zeros q := by
    intro e
    obtain ⟨h1, h2⟩ := Prod.mk.inj e
    unfold Arena.zeros
    rw [h1, h2]
  cases h with
  | startAlloc | startShrink | startRelease | alloc | shrink | release => cases ha
  | startDrop => exact Nat.le_refl _
  | @giveBlock t upgraded p i page last ht hg =>
    obtain ⟨rfl, rfl⟩ := Prod.mk.inj hg
    have hlive : s.Live p i := Or.inr ⟨t, handOf_get ht⟩
    have hclear : (s.arena.page p).bitfieldAtomic.getLsbD i = false := (hb.clear p i hlive).2.1
    have hadd := getLsbD_add_bit (hb.index p i hlive) hclear
    unfold Arena.zeros
    simp only [Arena.page_setPage]
    split
    · rename_i e
      subst e
      apply countZeros_mono
      intro j hj
      rw [BitVec.getLsbD_or, hadd]
      rw [BitVec.getLsbD_or] at hj
      rcases Bool.or_eq_true_iff.mp hj with hj | hj
      · simp [hj]
      · simp [hj]
    · exact Nat.le_refl _
  | freeBlock => exact hsame (Arena.words_setPage_same (a := s.arena) rfl)
  | push => exact hsame (Arena.words_setPage_same (a := s.arena) rfl)

end ArenaState

/-! ## The walk -/

namespace Arena

/-- `total` is what the walk has counted and the zeros ahead of it. The pages behind have no
more zeros now than were counted. -/
def StatsPc.Bound (a : Arena) (total : Nat) : StatsPc → Prop
  | .loadFull =>
    ∃ listed, Linked a.next a.fullList listed ∧ total = (listed.map a.zeros).sum
  | .loadNext page used _ =>
    ∃ pre rest, Linked a.next a.fullList (pre ++ page :: rest) ∧ (pre.map a.zeros).sum ≤ used ∧
      total = used + ((page :: rest).map a.zeros).sum
  | .loadAtomic page next used _ =>
    ∃ pre rest, Linked a.next a.fullList (pre ++ page :: rest) ∧ next = rest.head? ∧
      (pre.map a.zeros).sum ≤ used ∧ total = used + ((page :: rest).map a.zeros).sum

variable {a a' : Arena} {total : Nat} {pc : StatsPc}

theorem sum_zeros_mono (h : ∀ q, a'.zeros q ≤ a.zeros q) (l : List Addr) :
    (l.map a'.zeros).sum ≤ (l.map a.zeros).sum := by
  induction l with
  | nil => exact Nat.le_refl _
  | cons q l ih =>
    rw [List.map_cons, List.map_cons, List.sum_cons, List.sum_cons]
    exact Nat.add_le_add (h q) ih

/-- A drop lowers the total. -/
theorem StatsPc.Bound.mono (h : pc.Bound a total) (hnext : a'.next = a.next)
    (hfull : a'.fullList = a.fullList) (hzeros : ∀ q, a'.zeros q ≤ a.zeros q) :
    ∃ total' ≤ total, pc.Bound a' total' := by
  have hsum := sum_zeros_mono hzeros
  cases pc with
  | loadFull =>
    obtain ⟨listed, hl, rfl⟩ := h
    rw [← hnext, ← hfull] at hl
    exact ⟨_, hsum listed, listed, hl, rfl⟩
  | loadNext page used npages =>
    obtain ⟨pre, rest, hl, hused, rfl⟩ := h
    rw [← hnext, ← hfull] at hl
    exact ⟨_, Nat.add_le_add_left (hsum _) used, pre, rest, hl, Nat.le_trans (hsum pre) hused, rfl⟩
  | loadAtomic page next used npages =>
    obtain ⟨pre, rest, hl, hhead, hused, rfl⟩ := h
    rw [← hnext, ← hfull] at hl
    exact ⟨_, Nat.add_le_add_left (hsum _) used, pre, rest, hl, hhead,
      Nat.le_trans (hsum pre) hused, rfl⟩

theorem statsFrom_bound (pre : List Addr) {rest : List Addr} (used npages : Nat)
    (hl : Linked a.next a.fullList (pre ++ rest)) (hused : (pre.map a.zeros).sum ≤ used)
    (htotal : total = used + (rest.map a.zeros).sum) :
    (∀ pc, a.statsFrom used npages rest.head? = .goto pc → pc.Bound a total) ∧
      ∀ u f, a.statsFrom used npages rest.head? = .ret (u, f) →
        u = total ∧ u + f = 63 * a.npages := by
  cases rest with
  | nil =>
    have htotal : total = used := htotal
    have hdef : a.statsFrom used npages none =
        if npages = a.npages ∧ used ≤ npages * blockPerPage then
          .ret (used, npages * blockPerPage - used)
        else .panic := rfl
    rw [List.head?_nil, hdef]
    by_cases hall : npages = a.npages ∧ used ≤ npages * blockPerPage
    · rw [if_pos hall]
      refine ⟨nofun, fun u f e => ?_⟩
      obtain ⟨rfl, rfl⟩ := Prod.mk.inj (Control.ret.inj e)
      obtain ⟨hn, hle⟩ := hall
      rw [blockPerPage_eq] at hle ⊢
      rw [← hn]
      omega
    · rw [if_neg hall]
      exact ⟨nofun, nofun⟩
  | cons page rest =>
    refine ⟨fun pc e => ?_, fun u f e => by cases e⟩
    obtain rfl := Control.goto.inj e
    exact ⟨pre, rest, hl, hused, htotal⟩

theorem stats_bound (h : pc.Bound a total) :
    (∀ pc', a.stats pc = .goto pc' → pc'.Bound a total) ∧
      ∀ u f, a.stats pc = .ret (u, f) → u = total ∧ u + f = 63 * a.npages := by
  cases pc with
  | loadFull =>
    obtain ⟨listed, hl, rfl⟩ := h
    have hfrom := statsFrom_bound [] 0 0 hl (Nat.le_refl 0)
      (Nat.zero_add _).symm
    rwa [← hl.head_eq] at hfrom
  | loadNext page used npages =>
    obtain ⟨pre, rest, hl, hused, htotal⟩ := h
    refine ⟨fun pc' e => ?_, fun u f e => by cases e⟩
    obtain rfl := Control.goto.inj e
    exact ⟨pre, rest, hl, hl.behind.head_eq, hused, htotal⟩
  | loadAtomic page next used npages =>
    obtain ⟨pre, rest, hl, rfl, hused, htotal⟩ := h
    refine statsFrom_bound (pre ++ [page]) _ _ ?_ ?_ ?_
    · rw [List.append_assoc]
      exact hl
    · rw [List.map_append, List.sum_append]
      exact Nat.add_le_add hused (Nat.le_refl _)
    · rw [htotal, List.map_cons, List.sum_cons]
      exact (Nat.add_assoc _ _ _).symm

/-- The total is no less than the zeros of all pages. -/
theorem StatsPc.Bound.le (h : pc.Bound a total) :
    ∃ listed, Linked a.next a.fullList listed ∧ (listed.map a.zeros).sum ≤ total := by
  cases pc with
  | loadFull =>
    obtain ⟨listed, hl, rfl⟩ := h
    exact ⟨listed, hl, Nat.le_refl _⟩
  | loadNext | loadAtomic =>
    obtain ⟨pre, rest, hl, h⟩ := h
    refine ⟨_, hl, ?_⟩
    rw [List.map_append, List.sum_append]
    omega

end Arena

namespace StatsState

def calling (s : StatsState) : Bool := s.stats ≠ .idle

def Bound (s : StatsState) (total : Nat) : Prop :=
  ∀ pc, s.stats = .running pc → pc.Bound s.state.arena total

variable {s s' : StatsState} {a : StatsAct} {total : Nat}

theorem Bound.begin (hr : Arena.statsMachine.Reach Machine.always s)
    (hs : Arena.statsMachine.step s a = some s') (hidle : s.calling = false)
    (hcall : s'.calling = true) : ∃ b ≤ s'.state.inUse, s'.Bound b := by
  have hidle : s.stats = .idle := by simpa [calling] using hidle
  cases a with
  | stats =>
    simp only [Arena.statsMachine, step] at hs
    split at hs
    · rename_i hfree
      obtain rfl := Option.some.inj hs
      have hreach := reach_state hr
      have hcount := CountInv.of_reach hreach
      obtain ⟨listed, hl, -⟩ := hcount (by rw [hfree.2]; rfl)
      refine ⟨_, Nat.le_of_eq (ArenaState.sum_zeros (ArenaInv.of_reach hreach) hcount
        (TakenInv.of_reach hreach) (LifetimeInv.of_reach hreach) hfree.2 hl), fun pc e => ?_⟩
      obtain rfl := StatsCall.running.inj e
      exact ⟨listed, hl, rfl⟩
    · cases hs
  | stepStats =>
    simp only [Arena.statsMachine, step, hidle] at hs
    cases hs
  | act a =>
    simp only [Arena.statsMachine, step] at hs
    split at hs
    · cases hs
    · obtain ⟨state, -, rfl⟩ := Option.map_eq_some_iff.mp hs
      simp [calling, hidle] at hcall

theorem Bound.step (hr : Arena.statsMachine.Reach Machine.always s)
    (hs : Arena.statsMachine.step s a = some s') (hcall : s.calling = true) (hb : s.Bound total) :
    s.state.inUse ≤ s'.state.inUse + 1 ∧ ∃ b ≤ total, s'.Bound b := by
  have hbusy : s.stats ≠ .idle := by simpa [calling] using hcall
  cases a with
  | stats =>
    simp only [Arena.statsMachine, StatsState.step] at hs
    split at hs
    · rename_i hfree
      exact absurd hfree.1 hbusy
    · cases hs
  | stepStats =>
    simp only [Arena.statsMachine, StatsState.step] at hs
    split at hs
    · rename_i pc hpc
      obtain rfl := Option.some.inj hs
      refine ⟨Nat.le_succ _, total, Nat.le_refl _, fun pc' e => ?_⟩
      apply (Arena.stats_bound (hb pc hpc)).1
      cases hc : s.state.arena.stats pc with
      | goto =>
        simp only [hc] at e
        rw [StatsCall.running.inj e]
      | ret | panic =>
        simp only [hc] at e
        cases e
    · cases hs
    · cases hs
  | act a =>
    simp only [Arena.statsMachine, StatsState.step] at hs
    split at hs
    · cases hs
    · rename_i hfree
      obtain ⟨state, hstate, rfl⟩ := Option.map_eq_some_iff.mp hs
      have hthread : a.ofOwner = false := by
        by_contra e
        exact hfree ⟨by simpa using e, hbusy⟩
      have hm := ArenaState.moves_of_step hstate
      obtain ⟨-, hnext, hfull⟩ := hm.listed hthread
      have hblocks := (ArenaInv.of_reach (reach_state hr)).blocks
      refine ⟨(hm.inUse hthread).2, ?_⟩
      cases hpc : s.stats with
      | idle => exact absurd hpc hbusy
      | running pc =>
        obtain ⟨b, hle, hb'⟩ := (hb pc hpc).mono hnext hfull (hm.zeros hblocks hthread)
        refine ⟨b, hle, fun pc' e => ?_⟩
        simp only at e
        rw [← StatsCall.running.inj e]
        exact hb'
      | panicked =>
        refine ⟨total, Nat.le_refl _, fun pc' e => ?_⟩
        simp only at e
        cases e

end StatsState

namespace Arena

/-- However the drops of other threads fall between the operations of `stats`, it returns the
number of blocks that were in use at one moment between its beginning and its end, and the
rest of all blocks. -/
theorem stats_linearizable {s : StatsState} {past : List StatsState} {pc : StatsPc} {u f : Nat}
    (h : statsMachine.Visits s past) (hpc : s.stats = .running pc)
    (hr : s.state.arena.stats pc = .ret (u, f)) :
    (∃ s' ∈ Machine.during StatsState.calling past, s'.state.inUse = u) ∧
      u + f = 63 * s.state.arena.npages := by
  have hcall : s.calling = true := by simp [StatsState.calling, hpc]
  have hinit : ∀ s, statsMachine.init s → s.calling = false := by
    intro s hs
    obtain ⟨cap, rfl⟩ := hs
    rfl
  obtain ⟨total, hbound, hattained⟩ := h.attained (fun s => s.state.inUse) hinit
    StatsState.Bound.begin (fun hr hs hcall _ hb => StatsState.Bound.step hr hs hcall hb) hcall
  have hbound := hbound pc hpc
  obtain ⟨rfl, hf⟩ := (stats_bound hbound).2 u f hr
  refine ⟨hattained u ?_ (Nat.le_refl u), hf⟩
  -- the count of the blocks that are still in use
  have hreach := StatsState.reach_state h.reach
  have ho := (StatsState.Walks.of_reach h.reach).1 (by rw [hpc]; simp)
  obtain ⟨listed, hl, hle⟩ := hbound.le
  rwa [ArenaState.sum_zeros (ArenaInv.of_reach hreach) (CountInv.of_reach hreach)
    (TakenInv.of_reach hreach) (LifetimeInv.of_reach hreach) ho hl] at hle

/-- Of two blocks in use, one is given back between the first operation of `stats` and the
last. -/
def droppedMeanwhile : List StatsAct :=
  [.act .alloc, .act .stepOwner, .act .stepOwner, .act .alloc, .act .stepOwner, .act .stepOwner,
    .stats, .stepStats, .act (.drop 0 0 1), .act (.step 0 true), .stepStats]

theorem stats_linearizable_dropped : ∃ (s : StatsState) (past : List StatsState),
    s.state.arena.stats (.loadAtomic 0 none 0 0) = .ret (1, 62) ∧
    (∃ s' ∈ Machine.during StatsState.calling past, s'.state.inUse = 1) ∧
    63 = 63 * s.state.arena.npages := by
  have hstart : statsMachine.init (.start 63) := ⟨63, rfl⟩
  obtain ⟨s, past, hs, hp⟩ := Machine.Visits.exists_of_run droppedMeanwhile
    (p := fun s => s.stats = .running (.loadAtomic 0 none 0 0) &&
      s.state.arena.stats (.loadAtomic 0 none 0 0) = .ret (1, 62)) hstart (by decide +kernel)
  obtain ⟨hpc, hr⟩ := Bool.and_eq_true_iff.mp hp
  have hr := of_decide_eq_true hr
  exact ⟨s, past, hr, stats_linearizable hs (of_decide_eq_true hpc) hr⟩

end Arena

end MemoryPools
