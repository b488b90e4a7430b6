import MemoryPools.ValueStore

/-!
# The accounts of a program

`stats` counts the live allocations of the program, and what is free on the pages. A pool
makes pages only if nothing is free, so the pages are bounded by the largest number of
live allocations, and the three kinds make the same number of pages in the same places of
a program.
-/

namespace MemoryPools

open Interleave

variable {V : Type}

/-! ## The two accounts of a shared arena -/

namespace SharedArena

/-- `stats` and `fmt` give the live allocations, and what is left of the pages. -/
theorem accounts_agree {cap : Nat} {s : Session SharedArena V}
    (h : (sessionMachine kind cap V).Reach Machine.always s) (ha : s.alive = true) :
    ∃ used free pages, used = s.live.length ∧ used + free = 63 * s.arena.npages ∧
      Completes kind.stats s.arena s.arena (used, free) ∧
      Completes (bounded (fun a pc => (a, a.fmt pc)) .loadPages) s.arena s.arena
        { blocksFree := free, blocksUsed := used, npages := s.arena.npages, pages } := by
  obtain ⟨b, hs⟩ := Kind.Sound.of_reach kind_lawful h
  have hk := hs.alive ha
  have hnpages : s.arena.npages = b.listed.length := hk.shows.npages
  have hle := hk.tidy.length_live_le
  rw [hnpages, hs.length_live]
  refine ⟨_, _, _, rfl, ?_, counts hk, shown hk⟩
  omega

/-- One of two blocks is dropped after a page was parked. -/
theorem accounts_agree_parked : ∃ s : Session SharedArena Nat, s.arena.toFree = some [0] ∧
    Completes kind.stats s.arena s.arena (1, 62) := by
  have hrun : ((sessionMachine kind 64 Nat).run (.start kind 64)
      [(9, .alloc .alloc 5), (99, .shrink), (9, .alloc .allocRc 6), (9, .drop 1)]).any (fun s =>
        s.alive = true ∧ s.arena.toFree = some [0] ∧ s.live.length = 1 ∧ s.arena.npages = 1) =
      true := by decide +kernel
  have hinit : (sessionMachine kind 64 Nat).init (.start kind 64) := ⟨rfl, by decide +kernel⟩
  obtain ⟨s, h, hend⟩ := Machine.Trace.exists_of_run (f := Prod.snd) hinit hrun
  obtain ⟨ha, hparked, hlive, hnpages⟩ := of_decide_eq_true hend
  obtain ⟨used, free, pages, hused, hsum, hstats, -⟩ := accounts_agree h.reach ha
  have hone : used = 1 := by rw [hused, hlive]
  have hfree : free = 62 := by omega
  rw [hone, hfree] at hstats
  exact ⟨s, hparked, hstats⟩

end SharedArena

/-! ## Growth -/

namespace PageKind

def npages : (t : PageKind) → t.Arena → Nat
  | .sharedArena => SharedArena.npages
  | .arena => Arena.npages
  | .pool => Pool.npages

def made : (t : PageKind) → t.Arena → Nat
  | .sharedArena => fun a => a.heap.size
  | .arena => fun a => a.heap.size
  | .pool => fun a => a.heap.size

def toFree : (t : PageKind) → t.Arena → Option (List Addr)
  | .sharedArena => SharedArena.toFree
  | .arena => fun _ => none
  | .pool => fun _ => none

variable {t : PageKind} {a : t.Arena} {b : Book}

theorem npages_eq (h : t.calls.Alive a b) : t.npages a = b.listed.length := by
  cases t <;> exact h.shows.npages

theorem made_eq : t.made a = (t.calls.view a).size := by
  cases t <;> rfl

theorem toFree_eq_none (h : t.calls.Alive a b) (hnil : b.parked = []) : t.toFree a = none := by
  cases t with
  | sharedArena =>
    show SharedArena.toFree a = none
    rw [SharedArena.toFree_eq h, if_pos hnil]
  | arena | pool => rfl

end PageKind

section
variable {σ : Type} {K : Kind σ} {s s' : Session σ V} {b b' : Book} {act : SessionAct V}

/-- Pages are made where every block is in use. -/
theorem Kind.Moves.grows (h : K.Sound s b) (hm : K.Moves s b act s' b')
    (hsize : (K.view s'.arena).size ≠ (K.view s.arena).size) :
    s.alive = true ∧ s.live.length = 63 * b.listed.length ∧ b.parked = [] := by
  cases hm with
  | @alloc kind handle value n b₁ p i rest arena ha hh hf hfree hi hnew hk hsize' =>
    have hn : n ≠ 0 := by
      rintro rfl
      exact hsize hsize'
    obtain ⟨hfull, hnil, -⟩ := hf.grows (h.alive ha).tidy hn
    rw [h.length_live]
    exact ⟨ha, hfull, hnil⟩
  | clone | write | dropHandle => exact absurd rfl hsize
  | dropBlock _ _ _ _ hsize' | dropLast _ _ _ _ _ hsize' | shrink _ _ hsize' | release _ _ hsize' =>
    exact absurd hsize' hsize

/-- The largest number of live allocations in the states of a run. -/
def peak (past : List (Session σ V)) : Nat := (past.map fun s => s.live.length).foldr max 0

theorem peak_cons (past : List (Session σ V)) :
    peak (s :: past) = max s.live.length (peak past) := rfl

theorem Kind.Moves.listed_le (h : K.Sound s b) (hm : K.Moves s b act s' b') (ha : s'.alive = true) :
    s.alive = true ∧ (b'.listed.length ≤ b.listed.length ∨
      b'.live.length = 63 * b.listed.length + 1 ∧
        b'.listed.length ≤ b.listed.length + max b.listed.length 1) := by
  cases hm with
  | @alloc kind handle value n b₁ p i rest arena ha' hh hf hfree hi hnew hk hsize =>
    refine ⟨ha', ?_⟩
    rcases hf.listed_le (h.alive ha').tidy with hsame | ⟨hfull, hle⟩
    · exact Or.inl (Nat.le_of_eq hsame)
    · right
      refine ⟨?_, hle⟩
      rw [Book.live_take, List.length_cons, hf.live, hfull]
  | clone | write | dropHandle => exact ⟨ha, Or.inl (Nat.le_refl _)⟩
  | dropBlock hh hlast ha' =>
    refine ⟨ha', Or.inl ?_⟩
    rw [Book.listed_give]
  | dropLast hh hlast ha' =>
    have ha : s.alive = true := ha
    rw [ha] at ha'
    cases ha'
  | shrink ha' => exact ⟨ha', Or.inl (List.length_filter_le _ _)⟩
  | release => cases ha

theorem Kind.Sound.moves_of_exec (hK : K.Lawful) (h : K.Sound s b) {fuel : Nat}
    (he : s.exec K fuel act = some s') : ∃ b', K.Moves s b act s' b' := by
  obtain ⟨s₁, b', hm, hy⟩ := h.moves hK (Session.offered_of_exec he)
  obtain rfl := hy.eq_of_some he
  exact ⟨b', hm⟩

/-- The pages are at most those of the start, or twice what was needed. -/
theorem Kind.Sound.of_visits (hK : K.Lawful) {cap : Nat} {past : List (Session σ V)}
    (h : (sessionMachine K cap V).Visits s past) : ∃ b, K.Sound s b ∧
      (s.alive = true → 63 * b.listed.length ≤ max (63 * pagesFor cap) (2 * peak past)) := by
  induction h with
  | init h0 =>
    obtain ⟨rfl, hf⟩ := h0
    obtain ⟨pages, hs, hlen⟩ := Kind.Sound.start hK hf
    refine ⟨_, hs, fun _ => ?_⟩
    show 63 * pages.length ≤ _
    rw [hlen]
    exact Nat.le_max_left _ _
  | step _ he ih =>
    obtain ⟨b, hs, hbound⟩ := ih
    obtain ⟨b', hm, hs'⟩ := hs.step hK he
    refine ⟨b', hs', fun ha' => ?_⟩
    obtain ⟨ha, hle⟩ := hm.listed_le hs ha'
    have hbound := hbound ha
    rw [peak_cons, hs'.length_live]
    have hpos := pagesFor_pos cap
    omega

theorem Kind.Sound.of_reach_noShrink (hK : K.Lawful) {cap : Nat}
    (h : (sessionMachine K cap V).Reach (fun _ label => label.2 ≠ .shrink) s) : ∃ b, K.Sound s b ∧
      (s.alive = true → pagesFor cap ≤ b.listed.length) := by
  apply h.invariant
  · rintro s ⟨rfl, hf⟩
    obtain ⟨pages, hs, hlen⟩ := Kind.Sound.start hK hf
    exact ⟨_, hs, fun _ => Nat.le_of_eq hlen.symm⟩
  · rintro s label s' - ⟨b, hs, hpages⟩ hno he
    obtain ⟨b', hm, hs'⟩ := hs.step hK he
    refine ⟨b', hs', fun ha' => ?_⟩
    have hle : s.alive = true ∧ b.listed.length ≤ b'.listed.length := by
      generalize label.2 = act at hno hm
      cases hm with
      | alloc ha hh hf => exact ⟨ha, hf.listed_length.2⟩
      | clone | write | dropHandle => exact ⟨ha', Nat.le_refl _⟩
      | dropBlock hh hlast ha =>
        refine ⟨ha, ?_⟩
        rw [Book.listed_give]
      | dropLast hh hlast ha =>
        have ha' : s.alive = true := ha'
        rw [ha'] at ha
        cases ha
      | shrink => exact absurd rfl hno
      | release => cases ha'
    exact Nat.le_trans (hpages hle.1) hle.2

end

/-- Pages are made only in a state where all blocks are in use and no page is parked. So
there are never more than at the start, or than twice what the live allocations needed;
and a pool that was not shrunk makes none while fewer than `cap` values are live. -/
theorem growth_law (t : PageKind) (cap : Nat) (V : Type) :
    (∀ (s s' : Session t.Arena V) fuel act,
      (sessionMachine t.calls cap V).Reach Machine.always s →
      s.exec t.calls fuel act = some s' → t.made s'.arena ≠ t.made s.arena →
      s.live.length = 63 * t.npages s.arena ∧ t.toFree s.arena = none) ∧
    (∀ (s : Session t.Arena V) past, (sessionMachine t.calls cap V).Visits s past →
      s.alive = true →
      63 * t.npages s.arena ≤ max (63 * ((max cap 1 + 62) / 63)) (2 * peak past)) ∧
    (∀ (s s' : Session t.Arena V) fuel act,
      (sessionMachine t.calls cap V).Reach (fun _ label => label.2 ≠ .shrink) s →
      s.exec t.calls fuel act = some s' → t.made s'.arena ≠ t.made s.arena →
      cap ≤ s.live.length) := by
  have hgrows : ∀ (s s' : Session t.Arena V) (b : Book) fuel act, t.calls.Sound s b →
      s.exec t.calls fuel act = some s' → t.made s'.arena ≠ t.made s.arena →
      s.alive = true ∧ s.live.length = 63 * b.listed.length ∧ b.parked = [] := by
    intro s s' b fuel act hs he hmade
    obtain ⟨b', hm⟩ := hs.moves_of_exec t.lawful he
    rw [PageKind.made_eq, PageKind.made_eq] at hmade
    exact hm.grows hs hmade
  have hceil : (max cap 1 + 62) / 63 = pagesFor cap := by
    unfold pagesFor
    rw [blockPerPage_eq]
    omega
  refine ⟨fun s s' fuel act h he hmade => ?_, fun s past h ha => ?_,
    fun s s' fuel act h he hmade => ?_⟩
  · obtain ⟨b, hs⟩ := Kind.Sound.of_reach t.lawful h
    obtain ⟨ha, hfull, hnil⟩ := hgrows s s' b fuel act hs he hmade
    rw [PageKind.npages_eq (hs.alive ha)]
    exact ⟨hfull, PageKind.toFree_eq_none (hs.alive ha) hnil⟩
  · obtain ⟨b, hs, hbound⟩ := Kind.Sound.of_visits t.lawful h
    rw [PageKind.npages_eq (hs.alive ha), hceil]
    exact hbound ha
  · obtain ⟨b, hs, hpages⟩ := Kind.Sound.of_reach_noShrink t.lawful h
    obtain ⟨ha, hfull, -⟩ := hgrows s s' b fuel act hs he hmade
    have hle := hpages ha
    rw [hfull]
    unfold pagesFor at hle
    rw [blockPerPage_eq] at hle
    omega

/-- The 64th value needs a second page. -/
theorem growth_law_second : ∃ s s' : Session Pool Nat,
    s.exec Pool.kind 9 (.alloc .alloc 5) = some s' ∧ s.arena.npages = 1 ∧ s'.arena.npages = 2 ∧
      s.live.length = 63 := by
  have hrun : ((sessionMachine Pool.kind 1 Nat).run (.start Pool.kind 1)
      (List.replicate 63 (9, .alloc .alloc 5))).any (fun s => s.arena.npages = 1 ∧
        (s.exec Pool.kind 9 (.alloc .alloc 5)).any fun s' => s'.arena.npages = 2 ∧
          s'.arena.heap.size ≠ s.arena.heap.size) = true := by decide +kernel
  have hinit : (sessionMachine Pool.kind 1 Nat).init (.start Pool.kind 1) :=
    ⟨rfl, by decide +kernel⟩
  obtain ⟨s, h, hend⟩ := Machine.Trace.exists_of_run (f := Prod.snd) hinit hrun
  obtain ⟨hone, hexec⟩ := of_decide_eq_true hend
  obtain ⟨s', hs', htwo⟩ := (Option.any_eq_true _ _).mp hexec
  obtain ⟨htwo, hmade⟩ := of_decide_eq_true htwo
  obtain ⟨hlive, -⟩ := (growth_law .pool 1 Nat).1 s s' 9 _ h.reach hs' hmade
  have hnpages : PageKind.npages .pool s.arena = 1 := hone
  rw [hnpages] at hlive
  exact ⟨s, s', hs', hone, htwo, hlive⟩

/-! ## The account of a script -/

/-- The operations that all kinds of pools have, without those that end pages. -/
def SessionAct.scripted : SessionAct V → Bool
  | .alloc .alloc _ | .alloc .allocRc _ | .clone _ | .drop _ => true
  | .alloc .allocArc _ | .write _ _ | .shrink | .release => false

structure Account (V : Type) where
  store : ValueStore V
  npages : Nat

namespace Account

def used (acc : Account V) : Nat := acc.store.ids.dedup.length

def Fits (acc : Account V) : Prop :=
  pageBytes * acc.npages + handleBytes * acc.store.handles.length ≤ 2 ^ 64

instance (acc : Account V) : Decidable acc.Fits := Nat.decLe _ _

def grown (acc : Account V) : SessionAct V → Nat
  | .alloc _ _ =>
    if acc.used = 63 * acc.npages then acc.npages + growth acc.npages else acc.npages
  | _ => acc.npages

def step (acc : Account V) (act : SessionAct V) : Option (Account V) :=
  match acc.store.step act with
  | some store =>
    if act.scripted ∧ Fits { store, npages := acc.grown act } then
      some { store, npages := acc.grown act }
    else none
  | none => none

def machine (cap : Nat) (V : Type) : Machine (Account V) (SessionAct V) where
  init acc := acc = { store := .start, npages := pagesFor cap } ∧ acc.Fits
  step := step

structure Shown (t : PageKind) (s : Session t.Arena V) (acc : Account V) : Prop where
  sound : acc.store.Sound
  refines : ∃ place, Refines t s acc.store place
  book : ∃ b, t.calls.Sound s b ∧ b.listed.length = acc.npages ∧ b.parked = []
  alive : s.alive = true

variable {t : PageKind} {s s' : Session t.Arena V} {acc acc' : Account V} {b b' : Book}
  {act : SessionAct V}

theorem used_eq {place : Nat → Block} (h : Refines t s acc.store place) (hs : t.calls.Sound s b) :
    acc.used = b.live.length := by
  have hlive : (acc.store.ids.dedup.map place).Nodup := by
    apply List.Nodup.map_on _ (List.nodup_dedup _)
    intro i hi j hj e
    exact h.apart i (List.mem_dedup.mp hi) j (List.mem_dedup.mp hj) e
  have hperm : (acc.store.ids.dedup.map place).Perm b.live := by
    apply (List.perm_ext_iff_of_nodup hlive hs.nodup).mpr
    intro x
    rw [hs.live x, h.blocks_eq, List.mem_map, List.mem_map]
    simp only [List.mem_dedup]
  rw [← hperm.length_eq, List.length_map]
  rfl

theorem fits_iff (acc : Account V) {place : Nat → Block} (h : Refines t s acc.store place)
    (hk : t.calls.Alive s.arena b) (hlisted : b.listed.length = acc.npages) (hnil : b.parked = []) :
    s.Fits t.calls ↔ acc.Fits := by
  have hlen := congrArg List.length h.handles
  rw [List.length_map, List.length_map] at hlen
  unfold Session.Fits Fits
  rw [Session.pages_eq hk, hlisted, hnil, hlen]
  rfl

theorem moves_grown (hs : t.calls.Sound s b) (hm : t.calls.Moves s b act s' b')
    (hused : acc.used = b.live.length) (hlisted : b.listed.length = acc.npages)
    (hnil : b.parked = []) (hact : act.scripted = true) :
    b'.listed.length = acc.grown act ∧ b'.parked = [] ∧ (s.alive = true → s'.alive = true) := by
  cases hm with
  | @alloc kind handle value n b₁ p i rest arena ha hh hf hfree hi hnew hk hsize =>
    obtain ⟨hnil', hlen, hn⟩ := hf.parked_nil (hs.alive ha).tidy hnil
    refine ⟨?_, hnil', fun h => h⟩
    show b₁.listed.length = _
    unfold grown
    rw [hlen, hn, hlisted, hused]
    split <;> rfl
  | clone | dropHandle => exact ⟨hlisted, hnil, fun h => h⟩
  | dropBlock =>
    refine ⟨?_, ?_, fun h => h⟩
    · rw [Book.listed_give]
      exact hlisted
    · rw [Book.parked_give]
      exact hnil
  | dropLast => exact ⟨hlisted, hnil, fun h => h⟩
  | write | shrink | release => cases hact

namespace Shown

theorem moves (h : Shown t s acc) (hs : t.calls.Sound s b) (hlisted : b.listed.length = acc.npages)
    (hnil : b.parked = []) (hm : t.calls.Moves s b act s' b') (hact : act.scripted = true) :
    ∃ store place, acc.store.step act = some store ∧ store.Sound ∧ Refines t s' store place ∧
      b'.listed.length = acc.grown act ∧ b'.parked = [] ∧ s'.alive = true ∧
      (s'.Fits t.calls ↔ Fits { store, npages := acc.grown act }) := by
  obtain ⟨place, hrel⟩ := h.refines
  obtain ⟨store, place', hstep, hrel'⟩ := hrel.moves h.sound hs hm
  obtain ⟨hlisted', hnil', halive⟩ := moves_grown hs hm (used_eq hrel hs) hlisted hnil hact
  have ha := halive h.alive
  refine ⟨store, place', hstep, h.sound.step hstep, hrel', hlisted', hnil', ha, ?_⟩
  exact fits_iff { store, npages := acc.grown act } hrel' (hs.alive_of_moves hm ha)
    hlisted' hnil'

theorem step {label : Nat × SessionAct V} (h : Shown t s acc)
    (he : s.step t.calls label = some s') (hact : label.2.scripted = true) :
    ∃ acc', acc.step label.2 = some acc' ∧ Shown t s' acc' := by
  obtain ⟨b, hs, hlisted, hnil⟩ := h.book
  obtain ⟨b', hm, hs'⟩ := hs.step t.lawful he
  obtain ⟨store, place, hstep, hst, hrel, hlisted', hnil', ha, hfits⟩ :=
    h.moves hs hlisted hnil hm hact
  refine ⟨{ store, npages := acc.grown label.2 }, ?_, hst, ⟨place, hrel⟩,
    ⟨b', hs', hlisted', hnil'⟩, ha⟩
  have hf := hfits.mp hs'.fits
  simp only [Account.step, hstep, hact, hf, and_self, ite_true]

theorem step_of_account (h : Shown t s acc) (he : acc.step act = some acc') :
    ∃ label s', label.2 = act ∧ s.step t.calls label = some s' ∧ Shown t s' acc' := by
  have hparts : ∃ store, acc.store.step act = some store ∧ act.scripted = true ∧
      Fits { store, npages := acc.grown act } ∧ { store, npages := acc.grown act } = acc' := by
    unfold Account.step at he
    cases hst : acc.store.step act with
    | none =>
      rw [hst] at he
      cases he
    | some store =>
      simp only [hst, Option.ite_none_right_eq_some, Option.some.injEq] at he
      exact ⟨store, rfl, he.1.1, he.1.2, he.2⟩
  obtain ⟨store, hstore, hact, hfits, rfl⟩ := hparts
  obtain ⟨b, hs, hlisted, hnil⟩ := h.book
  obtain ⟨place, hrel⟩ := h.refines
  have hoffered : s.Offered t.calls act := by
    apply hrel.offered (by rw [hstore]; rfl)
    rintro kind value rfl
    cases kind with
    | alloc | allocRc => cases t <;> rfl
    | allocArc => cases hact
  obtain ⟨s', b', hm, hy⟩ := hs.moves t.lawful hoffered
  obtain ⟨store', place', hstep', hst, hrel', hlisted', hnil', ha, hfits'⟩ :=
    h.moves hs hlisted hnil hm hact
  obtain rfl := Option.some.inj (hstore.symm.trans hstep')
  have hf := hfits'.mpr hfits
  obtain ⟨n, hn⟩ := hy.enough
  refine ⟨(n, act), s', rfl, ?_, hst, ⟨place', hrel'⟩, ⟨b', hs.of_moves hm hf, hlisted', hnil'⟩, ha⟩
  unfold Session.step
  rw [hs.panicked, if_neg (by simp), hn n (Nat.le_refl n)]
  simp only [hf, ite_true]

theorem start {cap : Nat} (hf : (Session.start t.calls cap : Session t.Arena V).Fits t.calls) :
    Shown t (Session.start t.calls cap : Session t.Arena V)
      { store := .start, npages := pagesFor cap } := by
  obtain ⟨pages, hs, hlen⟩ := Kind.Sound.start t.lawful hf
  exact ⟨.start, ⟨_, Refines.start t cap fun _ => (0, 0)⟩, ⟨_, hs, hlen, rfl⟩, rfl⟩

theorem stats (h : Shown t s acc) : Completes t.calls.stats s.arena s.arena
    (acc.used, 63 * acc.npages - acc.used) := by
  obtain ⟨b, hs, hlisted, hnil⟩ := h.book
  obtain ⟨place, hrel⟩ := h.refines
  rw [used_eq hrel hs, ← hlisted]
  exact t.lawful.stats (hs.alive h.alive)

end Shown

theorem start_fits_iff {cap : Nat} : (Session.start t.calls cap : Session t.Arena V).Fits t.calls ↔
    Fits { store := (.start : ValueStore V), npages := pagesFor cap } := by
  obtain ⟨pages, hk, hlen⟩ := t.lawful.start cap
  exact fits_iff { store := .start, npages := pagesFor cap }
    (Refines.start t cap fun _ => (0, 0)) hk hlen rfl

theorem of_trace {cap : Nat} {script : List (SessionAct V)}
    (h : (sessionMachine t.calls cap V).Trace Prod.snd s script)
    (hscript : ∀ act ∈ script, act.scripted = true) :
    ∃ acc, (machine cap V).Trace id acc script ∧ Shown t s acc := by
  induction h with
  | init h0 =>
    obtain ⟨rfl, hf⟩ := h0
    exact ⟨_, .init ⟨rfl, start_fits_iff.mp hf⟩, .start hf⟩
  | @step s s' l label hs he ih =>
    obtain ⟨acc, htrace, hshown⟩ := ih fun act ha => hscript act (List.mem_append_left _ ha)
    obtain ⟨acc', hstep, hshown'⟩ := hshown.step he (hscript label.2 (by simp))
    exact ⟨acc', .step htrace hstep, hshown'⟩

/-- Every kind of pool has the runs of an account. -/
theorem trace_session (t : PageKind) {cap : Nat} {script : List (SessionAct V)}
    (h : (machine cap V).Trace id acc script) :
    ∃ s, (sessionMachine t.calls cap V).Trace Prod.snd s script ∧ Shown t s acc := by
  refine h.simulates (R := fun acc s => Shown t s acc) ?_ ?_
  · rintro acc ⟨rfl, hf⟩
    exact ⟨_, ⟨rfl, start_fits_iff.mpr hf⟩, .start (start_fits_iff.mpr hf)⟩
  · intro acc acc' act s _ hshown he
    exact hshown.step_of_account he

theorem trace_unique {cap : Nat} {script : List (SessionAct V)}
    (h : (machine cap V).Trace id acc script) (h' : (machine cap V).Trace id acc' script) :
    acc = acc' := by
  refine Machine.Trace.unique ?_ h h'
  rintro _ _ ⟨rfl, -⟩ ⟨rfl, -⟩
  rfl

end Account

/-- A script that one kind of pool can run can be run by the others, and `stats` gives the
same after it, whatever the pages and blocks that they chose. -/
theorem stats_agree (t t' : PageKind) {cap : Nat} {s : Session t.Arena V}
    {script : List (SessionAct V)} (hscript : ∀ act ∈ script, act.scripted = true)
    (h : (sessionMachine t.calls cap V).Trace Prod.snd s script) :
    ∃ r, Completes t.calls.stats s.arena s.arena r ∧
      (∃ s' : Session t'.Arena V, (sessionMachine t'.calls cap V).Trace Prod.snd s' script) ∧
      ∀ s' : Session t'.Arena V, (sessionMachine t'.calls cap V).Trace Prod.snd s' script →
        Completes t'.calls.stats s'.arena s'.arena r := by
  obtain ⟨acc, htrace, hshown⟩ := Account.of_trace h hscript
  refine ⟨_, hshown.stats, ?_, fun s' h' => ?_⟩
  · obtain ⟨s', hs', -⟩ := Account.trace_session t' htrace
    exact ⟨s', hs'⟩
  · obtain ⟨acc', htrace', hshown'⟩ := Account.of_trace h' hscript
    obtain rfl := Account.trace_unique htrace htrace'
    exact hshown'.stats

/-- A script that fills a page and frees a block of it. -/
theorem stats_agree_second : ∃ (s : Session Pool Nat) (s' : Session SharedArena Nat) (r : Nat × Nat),
    s.arena.npages = 2 ∧ Completes Pool.kind.stats s.arena s.arena r ∧
      Completes SharedArena.kind.stats s'.arena s'.arena r := by
  have hrun : ((sessionMachine Pool.kind 1 Nat).run (.start Pool.kind 1)
      (List.replicate 64 (9, .alloc .allocRc 5) ++ [(9, .clone 3), (9, .drop 1)])).any
      (fun s => s.arena.npages = 2) = true := by decide +kernel
  have hinit : (sessionMachine Pool.kind 1 Nat).init (.start Pool.kind 1) :=
    ⟨rfl, by decide +kernel⟩
  obtain ⟨s, h, hend⟩ := Machine.Trace.exists_of_run (f := Prod.snd) hinit hrun
  obtain ⟨r, hstats, ⟨s', h'⟩, hagree⟩ :=
    stats_agree .pool .sharedArena (by decide) h
  exact ⟨s, s', r, of_decide_eq_true hend, hstats, hagree s' h'⟩

end MemoryPools
