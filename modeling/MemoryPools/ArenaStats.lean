import MemoryPools.ArenaCount

/-!
# The assertions of an arena

`stats` is one more call of the owner: it walks `full_list` while threads drop
handles, and compares the number of pages with `npages`. With it, no assertion of
the owner fails (`owner_assertions_hold`).
-/

namespace MemoryPools

open Interleave

namespace Arena

inductive StatsPc
  | loadFull
  | loadNext (page : Addr) (used npages : Nat)
  | loadAtomic (page : Addr) (next : Ptr) (used npages : Nat)
  deriving DecidableEq

def statsFrom (a : Arena) (used npages : Nat) : Ptr → Control StatsPc (Nat × Nat)
  | some page => .goto (.loadNext page used npages)
  | none =>
    -- `assert!(npages == self.npages.get())`, and the subtraction from all blocks
    if npages = a.npages ∧ used ≤ npages * blockPerPage then
      .ret (used, npages * blockPerPage - used)
    else .panic

def stats (a : Arena) : StatsPc → Control StatsPc (Nat × Nat)
  | .loadFull => a.statsFrom 0 0 a.fullList
  | .loadNext page used npages => .goto (.loadAtomic page (a.next page) used npages)
  | .loadAtomic page next used npages =>
    let zeros := countZeros ((a.page page).bitfield ||| (a.page page).bitfieldAtomic)
    a.statsFrom (used + zeros) (npages + 1) next

end Arena

/-! ## The machine -/

inductive StatsCall
  | idle
  | running (pc : Arena.StatsPc)
  | panicked
  deriving DecidableEq

structure StatsState where
  state : ArenaState
  stats : StatsCall

inductive StatsAct
  | stats
  | stepStats
  | act (a : ArenaAct)
  deriving DecidableEq

def ArenaAct.ofOwner : ArenaAct → Bool
  | .alloc | .shrink | .release | .stepOwner => true
  | .drop .. | .step .. => false

namespace StatsCall

def after : Control Arena.StatsPc (Nat × Nat) → StatsCall
  | .goto pc => .running pc
  | .ret _ => .idle
  | .panic => .panicked

end StatsCall

namespace StatsState

def step (s : StatsState) : StatsAct → Option StatsState
  | .stats =>
    if s.stats = .idle ∧ s.state.owner = .idle then some { s with stats := .running .loadFull }
    else none
  | .stepStats =>
    match s.stats with
    | .running pc => some { s with stats := .after (s.state.arena.stats pc) }
    | .idle | .panicked => none
  -- the owner makes one call at a time
  | .act a =>
    if a.ofOwner = true ∧ s.stats ≠ .idle then none
    else (s.state.step a).map fun state => { s with state }

def start (cap : Nat) : StatsState where
  state := .start cap
  stats := .idle

end StatsState

def Arena.statsMachine : Machine StatsState StatsAct where
  init s := ∃ cap, s = .start cap
  step := StatsState.step

/-! ## The assertions -/

namespace Arena

def FindPc.Asserted (a : Arena) : FindPc → Prop
  | .setFree _ _ => a.freeList = none
  | _ => True

def ShrinkPc.Asserted (a : Arena) : ShrinkPc → Prop
  | .fullCas _ _ current value _ => readLink a.next a.fullList current = some value
  | .recheck _ _ rest => ∀ page ∈ rest.head?, a.unused page = true
  | .restore _ toDrop => toDrop.length ≤ a.npages
  | _ => True

def StatsPc.Asserted (a : Arena) : StatsPc → Prop
  | .loadFull => a.fullList = none → a.npages = 0
  | .loadNext .. => True
  | .loadAtomic _ next _ npages => next = none → a.npages = npages + 1

end Arena

/-- The assertion that the owner runs into with its next operation holds. -/
def ArenaCall.Asserted (a : Arena) : ArenaCall → Prop
  | .alloc pc => pc.Asserted a
  | .shrink pc => pc.Asserted a
  | .idle | .release _ | .released | .panicked => True

def StatsCall.Asserted (a : Arena) : StatsCall → Prop
  | .running pc => pc.Asserted a
  | .idle | .panicked => True

theorem ListsInv.asserted {s : ArenaState} {place : Addr → Place (Option Tid) Aside}
    {carried listed : List Addr} (h : ListsInv s place carried listed) (hc : CountInv s)
    (he : s.owner.ends = false) : s.owner.Asserted s.arena := by
  have hcount := h.counts hc he
  have hshape := h.shape
  have hunused := h.unused
  cases ho : s.owner with
  | idle | release | released | panicked => trivial
  | alloc pc =>
    rw [ho] at hshape
    cases pc with
    | setFree => exact hshape.1
    | _ => trivial
  | shrink pc =>
    rw [ho] at hshape hcount hunused
    cases pc with
    | fullCas =>
      obtain ⟨-, -, -, pre, rest, rfl, hw, -⟩ := hshape
      exact hw.read
    | recheck start toDrop rest =>
      intro page hp
      apply hunused page
      exact List.mem_of_mem_head? hp
    | restore start toDrop =>
      have := hcount.1
      show toDrop.length ≤ s.arena.npages
      omega
    | _ => trivial

/-! ## The walk of `stats` -/

namespace Arena

def StatsPc.Counts (listed : List Addr) : StatsPc → Prop
  | .loadFull => True
  | .loadNext page used npages =>
    ∃ pre rest, listed = pre ++ page :: rest ∧ npages = pre.length ∧ used ≤ npages * blockPerPage
  | .loadAtomic page next used npages =>
    ∃ pre rest, listed = pre ++ page :: rest ∧ next = rest.head? ∧ npages = pre.length ∧
      used ≤ npages * blockPerPage

end Arena

def StatsCall.Counts (listed : List Addr) : StatsCall → Prop
  | .idle => True
  | .running pc => pc.Counts listed
  | .panicked => False

namespace Arena

variable {a : Arena} {listed : List Addr}

theorem statsFrom_counts {pre rest : List Addr} {used npages : Nat} (e : listed = pre ++ rest)
    (hlen : listed.length = a.npages) (hn : npages = pre.length)
    (hused : used ≤ npages * blockPerPage) :
    (StatsCall.after (a.statsFrom used npages rest.head?)).Counts listed := by
  cases rest with
  | nil =>
    rw [List.append_nil] at e
    subst e
    have hall : npages = a.npages ∧ used ≤ npages * blockPerPage := ⟨hn.trans hlen, hused⟩
    show (StatsCall.after (if _ then _ else _)).Counts listed
    rw [if_pos hall]
    trivial
  | cons page rest => exact ⟨pre, rest, e, hn, hused⟩

theorem stats_counts {pc : StatsPc} (h : pc.Counts listed) (hl : Linked a.next a.fullList listed)
    (hlen : listed.length = a.npages) (h63 : ∀ p, (a.page p).bitfield.getLsbD 63 = true) :
    (StatsCall.after (a.stats pc)).Counts listed := by
  cases pc with
  | loadFull =>
    show (StatsCall.after (a.statsFrom 0 0 a.fullList)).Counts listed
    rw [hl.head_eq]
    exact statsFrom_counts (List.nil_append _).symm hlen rfl (Nat.zero_le _)
  | loadNext page used npages =>
    obtain ⟨pre, rest, rfl, hn, hused⟩ := h
    exact ⟨pre, rest, rfl, hl.behind.head_eq, hn, hused⟩
  | loadAtomic page next used npages =>
    obtain ⟨pre, rest, rfl, rfl, hn, hused⟩ := h
    have hzeros : countZeros ((a.page page).bitfield ||| (a.page page).bitfieldAtomic) < 64 := by
      apply countZeros_lt (i := 63) (by omega)
      rw [BitVec.getLsbD_or, h63 page, Bool.true_or]
    refine statsFrom_counts (List.append_cons pre page rest) hlen (by simp [hn]) ?_
    rw [blockPerPage_eq] at hused ⊢
    omega

theorem StatsPc.Counts.asserted {pc : StatsPc} (h : pc.Counts listed)
    (hl : Linked a.next a.fullList listed) (hlen : listed.length = a.npages) :
    pc.Asserted a := by
  cases pc with
  | loadFull =>
    intro e
    rw [hl.head_eq, List.head?_eq_none_iff] at e
    rw [← hlen, e]
    rfl
  | loadNext => trivial
  | loadAtomic page next used npages =>
    obtain ⟨pre, rest, rfl, rfl, rfl, -⟩ := h
    intro e
    rw [List.head?_eq_none_iff] at e
    rw [← hlen, e]
    simp

end Arena

/-- No other thread changes `full_list` or `npages`. -/
theorem ArenaState.Moves.listed {s s' : ArenaState} {a : ArenaAct} (h : s.Moves a s')
    (ha : a.ofOwner = false) :
    s'.owner = s.owner ∧ s'.arena.next = s.arena.next ∧ s'.arena.fullList = s.arena.fullList := by
  cases h with
  | startAlloc | startShrink | startRelease | alloc | shrink | release => cases ha
  | startDrop => exact ⟨rfl, rfl, rfl⟩
  | giveBlock ht hg =>
    obtain ⟨rfl, rfl⟩ := Prod.mk.inj hg
    exact ⟨rfl, Arena.next_setPage rfl, rfl⟩
  | freeBlock ht => exact ⟨rfl, Arena.next_setPage (a := s.arena) rfl, rfl⟩
  | @push t upgraded p i pc links pending control ht hp =>
    have hnext : (s.arena.setPage p { s.arena.page p with toPageLinks := links }).next =
        s.arena.next := Arena.next_setPage (PageLinks.next_push hp)
    exact ⟨rfl, hnext, rfl⟩

/-! ## Runs -/

namespace StatsState

variable {s : StatsState}

theorem reach_state {C : StatsState → StatsAct → Prop} (h : Arena.statsMachine.Reach C s) :
    Arena.machine.Reach Machine.always s.state := by
  induction h with
  | init h0 =>
    obtain ⟨cap, rfl⟩ := h0
    exact .init ⟨cap, rfl⟩
  | @step s s' a hr hc hs ih =>
    cases a with
    | stats =>
      simp only [Arena.statsMachine, step] at hs
      split at hs
      · obtain rfl := Option.some.inj hs
        exact ih
      · cases hs
    | stepStats =>
      simp only [Arena.statsMachine, step] at hs
      split at hs
      · obtain rfl := Option.some.inj hs
        exact ih
      · cases hs
      · cases hs
    | act a =>
      simp only [Arena.statsMachine, step] at hs
      split at hs
      · cases hs
      · obtain ⟨state, hstate, rfl⟩ := Option.map_eq_some_iff.mp hs
        exact ih.step trivial hstate

def Walks (s : StatsState) : Prop :=
  (s.stats ≠ .idle → s.state.owner = .idle) ∧
    ∀ listed, Linked s.state.arena.next s.state.arena.fullList listed → s.stats.Counts listed

theorem counted {listed : List Addr} (hc : CountInv s.state) (ho : s.state.owner = .idle)
    (hl : Linked s.state.arena.next s.state.arena.fullList listed) :
    listed.length = s.state.arena.npages := by
  obtain ⟨l, hl', hcount⟩ := hc (by rw [ho]; rfl)
  rw [ho] at hcount
  rw [hl.unique hl']
  exact hcount.1

theorem Walks.step {s' : StatsState} (h : s.Walks) (ha : ArenaInv s.state)
    (hc : CountInv s.state) {a : StatsAct} (hs : s.step a = some s') : s'.Walks := by
  obtain ⟨hbusy, hcounts⟩ := h
  cases a with
  | stats =>
    simp only [StatsState.step] at hs
    split at hs
    · rename_i hidle
      obtain rfl := Option.some.inj hs
      exact ⟨fun _ => hidle.2, fun _ _ => trivial⟩
    · cases hs
  | stepStats =>
    simp only [StatsState.step] at hs
    split at hs
    · rename_i pc hpc
      obtain rfl := Option.some.inj hs
      have ho := hbusy (by rw [hpc]; simp)
      refine ⟨fun _ => ho, fun listed hl => ?_⟩
      have hcount := hcounts listed hl
      rw [hpc] at hcount
      exact Arena.stats_counts hcount hl (counted hc ho hl) fun p => (ha.blocks.split p).arenaBit
    · cases hs
    · cases hs
  | act a =>
    simp only [StatsState.step] at hs
    split at hs
    · cases hs
    · rename_i hfree
      obtain ⟨state, hstate, rfl⟩ := Option.map_eq_some_iff.mp hs
      by_cases hidle : s.stats = .idle
      · refine ⟨fun hne => absurd hidle hne, fun listed _ => ?_⟩
        show s.stats.Counts listed
        rw [hidle]
        trivial
      · have hthread : a.ofOwner = false := by
          by_contra e
          exact hfree ⟨by simpa using e, hidle⟩
        obtain ⟨ho, hnext, hfull⟩ := (ArenaState.moves_of_step hstate).listed hthread
        refine ⟨fun hne => ho.trans (hbusy hne), fun listed hl => hcounts listed ?_⟩
        rwa [hnext, hfull] at hl

theorem Walks.of_reach {C : StatsState → StatsAct → Prop} (h : Arena.statsMachine.Reach C s) :
    s.Walks := by
  apply h.invariant
  · intro s hs
    obtain ⟨cap, rfl⟩ := hs
    exact ⟨fun hne => absurd rfl hne, fun _ _ => trivial⟩
  · intro s a s' hr hi _ hs
    have hreach := reach_state hr
    exact hi.step (ArenaInv.of_reach hreach) (CountInv.of_reach hreach) hs

end StatsState

namespace Arena

/-- No assertion of the owner fails, in `alloc`, `shrink_to_fit` and `stats`. -/
theorem owner_assertions_hold {s : StatsState} (h : statsMachine.Reach Machine.always s) :
    (s.state.owner.Asserted s.state.arena ∧ s.state.owner ≠ .panicked) ∧
    s.stats.Asserted s.state.arena ∧ s.stats ≠ .panicked := by
  have hreach := StatsState.reach_state h
  have hcount := CountInv.of_reach hreach
  have harena := ArenaInv.of_reach hreach
  obtain ⟨hbusy, hwalks⟩ := StatsState.Walks.of_reach h
  refine ⟨⟨?_, hcount.owner_ne_panicked⟩, ?_⟩
  · by_cases he : s.state.owner.ends = true
    · cases ho : s.state.owner with
      | release | released => trivial
      | idle | alloc | shrink | panicked =>
        rw [ho] at he
        cases he
    · have he : s.state.owner.ends = false := by simpa using he
      obtain ⟨place, carried, listed, hl⟩ := harena.lists he
      exact hl.asserted hcount he
  · cases hstats : s.stats with
    | idle => exact ⟨trivial, by simp⟩
    | running pc =>
      have ho := hbusy (by rw [hstats]; simp)
      obtain ⟨listed, hl, -⟩ := hcount (by rw [ho]; rfl)
      have hc := hwalks listed hl
      rw [hstats] at hc
      exact ⟨StatsPc.Counts.asserted hc hl (StatsState.counted hcount ho hl), by simp⟩
    | panicked =>
      have ho := hbusy (by rw [hstats]; simp)
      obtain ⟨listed, hl, -⟩ := hcount (by rw [ho]; rfl)
      have hc := hwalks listed hl
      rw [hstats] at hc
      exact absurd hc id

/-- `stats` is at the last page when thread 0 drops a block that is counted already. -/
theorem owner_assertions_hold_stats : ∃ s : StatsState,
    s.stats = .running (.loadAtomic 0 none 1 1) ∧
    s.state.threads.get 0 = .drop 1 0 (.push .loadInFree) ∧ s.state.arena.npages = 2 := by
  have hstart : statsMachine.init (.start 126) := ⟨126, rfl⟩
  obtain ⟨s, hs, hp⟩ := Machine.Reach.exists_of_runIf hstart (fun _ _ => true)
    [.act .alloc, .act .stepOwner, .act .stepOwner, .stats, .stepStats, .stepStats, .stepStats,
      .act (.drop 0 1 0), .act (.step 0 true), .stepStats]
    (fun s => s.stats = .running (.loadAtomic 0 none 1 1) ∧
      s.state.threads.get 0 = .drop 1 0 (.push .loadInFree)) (fun _ _ _ => trivial)
    (by decide +kernel)
  obtain ⟨hstats, hthread⟩ := of_decide_eq_true hp
  have hasserted := (owner_assertions_hold hs).2.1
  rw [hstats] at hasserted
  exact ⟨s, hstats, hthread, hasserted rfl⟩

end Arena

end MemoryPools
