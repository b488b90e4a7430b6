import MemoryPools.ValuesSound

/-!
# Every value is dropped once

A value that was written is in the hand of its block or was dropped. The handles of a block
are those to the value in its hand.
-/

namespace MemoryPools

open Interleave

/-- `hand` is the value of each block that was not dropped yet. -/
structure ObjectsInv {σ α β : Type} (L : Lender σ α β) (s : ValueState σ β)
    (hand : β → Option Nat) : Prop where
  cells : ∀ x o, hand x = some o → s.cell x = some o
  ledger : Ledger s.dropped hand
  owned : ∀ o, Owned s.dropped hand o ↔ o < s.written
  holds : ∀ h, s.Has h → hand h.block = some h.object
  dropping : ∀ t x, s.calls.get t = .dropBlock x → ∃ o, hand x = some o
  gone : ∀ t x, s.calls.get t = .giveBack x → hand x = none
  unlent : ∀ x, x ∉ L.lent s.arena → hand x = none

theorem ValueCall.ne_of_on {β : Type} [DecidableEq β] {c : ValueCall β} {x y : β}
    (hc : c = .dropBlock x ∨ c = .giveBack x) (hidle : c.on y = .idle) : x ≠ y := by
  intro e
  rcases hc with rfl | rfl
  · simp [ValueCall.on, e] at hidle
  · simp [ValueCall.on, e] at hidle

def ValueCall.bare {β : Type} : ValueCall β → Bool
  | .idle | .alloc _ | .panicked _ => true
  | .new .. | .drop .. | .dropBlock _ | .giveBack _ => false

namespace ObjectsInv

variable {σ α β : Type} {L : Lender σ α β} {s s' : ValueState σ β} {hand : β → Option Nat} {t : Tid}
  {h : Handle β} {y : β} {c : ValueCall β}

/-- A step that neither writes a value nor drops one. -/
theorem thread (hi : ObjectsInv L s hand) (hcalls : s'.calls = s.calls.set t c)
    (hcell : s'.cell = s.cell) (hd : s'.dropped = s.dropped) (hw : s'.written = s.written)
    (hl : ∀ x, x ∉ L.lent s'.arena → hand x = none)
    (hh : ∀ g ∈ s'.handles, hand g.block = some g.object)
    (hc : ∀ g, c.handle = some g → hand g.block = some g.object)
    (hdrop : ∀ x, c = .dropBlock x → ∃ o, hand x = some o) (hgone : ∀ x, c ≠ .giveBack x) :
    ObjectsInv L s' hand where
  cells := hcell ▸ hi.cells
  ledger := hd ▸ hi.ledger
  owned := by rw [hd, hw]; exact hi.owned
  holds g hg := by
    rcases ValueState.Has.of_set hcalls hg with hm | hm | hm
    · exact hh g hm
    · exact hc g hm
    · exact hi.holds g hm
  dropping u x hu := by
    rw [hcalls, Store.get_set] at hu
    by_cases e : u = t
    · rw [if_pos e] at hu
      exact hdrop x hu
    · rw [if_neg e] at hu
      exact hi.dropping u x hu
  gone u x hu := by
    rw [hcalls, Store.get_set] at hu
    by_cases e : u = t
    · rw [if_pos e] at hu
      exact absurd hu (hgone x)
    · rw [if_neg e] at hu
      exact hi.gone u x hu
  unlent := hl

theorem same (hi : ObjectsInv L s hand) (hcalls : s'.calls = s.calls)
    (hcell : s'.cell = s.cell) (hd : s'.dropped = s.dropped) (hw : s'.written = s.written)
    (hl : ∀ x, x ∉ L.lent s'.arena → hand x = none)
    (hh : ∀ g ∈ s'.handles, hand g.block = some g.object) : ObjectsInv L s' hand where
  cells := hcell ▸ hi.cells
  ledger := hd ▸ hi.ledger
  owned := by rw [hd, hw]; exact hi.owned
  holds g hg := by
    cases hg with
    | inl hm => exact hh g hm
    | inr hm => exact hi.holds g (.inr (hcalls ▸ hm))
  dropping := hcalls ▸ hi.dropping
  gone := hcalls ▸ hi.gone
  unlent := hl

theorem start {arena : σ} : ObjectsInv L (.start arena : ValueState σ β) fun _ => none where
  cells x o hx := by cases hx
  ledger := ledger_empty List.nodup_nil fun _ => rfl
  owned o := by
    rw [owned_empty fun _ => rfl]
    simp [ValueState.start]
  holds h hh := by
    rcases hh with hm | ⟨t, hm⟩
    · cases hm
    · simp [ValueState.start, ValueCall.handle, default] at hm
  dropping t x ht := by simp [ValueState.start, default] at ht
  gone t x _ := rfl
  unlent x _ := rfl

theorem bare (hi : ObjectsInv L s hand) (hcalls : s'.calls = s.calls.set t c)
    (hcell : s'.cell = s.cell) (hd : s'.dropped = s.dropped) (hw : s'.written = s.written)
    (hl : ∀ x, x ∉ L.lent s'.arena → hand x = none)
    (hh : ∀ g ∈ s'.handles, hand g.block = some g.object) (hc : c.bare = true) :
    ObjectsInv L s' hand := by
  refine hi.thread hcalls hcell hd hw hl hh ?_ ?_ ?_
  · intro g hg
    cases c <;> cases hg <;> cases hc
  · intro x e
    rw [e] at hc
    cases hc
  · intro x e
    rw [e] at hc
    cases hc

variable [DecidableEq β]

theorem afterNew {r : Nat × Control NewPc Unit} (hi : ObjectsInv L s hand) (hh : s.Has h) :
    ObjectsInv L (s.afterNew t h r) hand := by
  have hold := fun g hg => hi.holds g (.inl hg)
  obtain ⟨counter, control⟩ := r
  cases control with
  | goto pc =>
    refine hi.thread rfl rfl rfl rfl hi.unlent hold ?_
      (fun _ hg => by cases hg) (fun _ hg => by cases hg)
    intro g hg
    exact Option.some.inj hg ▸ hi.holds h hh
  | ret _ =>
    refine hi.bare rfl rfl rfl rfl hi.unlent ?_ rfl
    intro g hg
    rcases List.mem_cons.mp hg with rfl | hm
    · exact hi.holds g hh
    · exact hold g hm
  | panic => exact hi.bare rfl rfl rfl rfl hi.unlent hold rfl

theorem afterClone {u : Tid} {r : Nat × Bool} (hi : ObjectsInv L s hand) (hh : s.Has h) :
    ObjectsInv L (s.afterClone { h with owner := u } r) hand := by
  have hold := fun g hg => hi.holds g (.inl hg)
  obtain ⟨counter, held⟩ := r
  cases held with
  | true =>
    refine hi.same rfl rfl rfl rfl hi.unlent fun g hg => ?_
    rcases List.mem_cons.mp hg with rfl | hm
    · exact hi.holds h hh
    · exact hold g hm
  | false => exact hi.bare rfl rfl rfl rfl hi.unlent hold rfl

theorem afterDrop {r : Nat × Control HandleDropPc Bool} (hi : ObjectsInv L s hand) (hh : s.Has h) :
    ObjectsInv L (s.afterDrop t h r) hand := by
  have hold := fun g hg => hi.holds g (.inl hg)
  obtain ⟨counter, control⟩ := r
  cases control with
  | goto pc =>
    refine hi.thread rfl rfl rfl rfl hi.unlent hold ?_
      (fun _ hg => by cases hg) (fun _ hg => by cases hg)
    intro g hg
    exact Option.some.inj hg ▸ hi.holds h hh
  | ret last =>
    have hkeep : ∀ g ∈ s.handles.erase h, hand g.block = some g.object := fun g hg =>
      hold g (List.mem_of_mem_erase hg)
    cases last with
    | true =>
      refine hi.thread rfl rfl rfl rfl hi.unlent hkeep
        (fun _ hg => by cases hg) ?_ (fun _ hg => by cases hg)
      intro x hx
      cases hx
      exact ⟨h.object, hi.holds h hh⟩
    | false => exact hi.bare rfl rfl rfl rfl hi.unlent hkeep rfl
  | panic => exact hi.bare rfl rfl rfl rfl hi.unlent hold rfl

theorem send {u : Tid} (hi : ObjectsInv L s hand) (hh : h ∈ s.handles) :
    ObjectsInv L { s with handles := { h with owner := u } :: s.handles.erase h } hand := by
  refine hi.same rfl rfl rfl rfl hi.unlent fun g hg => ?_
  rcases List.mem_cons.mp hg with rfl | hm
  · exact hi.holds h (.inl hh)
  · exact hi.holds g (.inl (List.mem_of_mem_erase hm))

/-- The block was lent just now: the new value is the next one. -/
theorem write {arena : σ} {kind : HandleKind} (hi : ObjectsInv L s hand)
    (hlent : L.lent arena = y :: L.lent s.arena) (hnone : hand y = none)
    (hhas : ∀ g, s.Has g → g.block ≠ y) (hidle : ∀ u, (s.calls.get u).on y = .idle) :
    ObjectsInv L (({ s with arena } : ValueState σ β).write t kind y)
      (Function.update hand y (some s.written)) := by
  have hother : ∀ x, x ≠ y → Function.update hand y (some s.written) x = hand x := fun x hx =>
    Function.update_of_ne hx _ hand
  have hself : Function.update hand y (some s.written) y = some s.written :=
    Function.update_self y _ hand
  have hnew : ¬ Owned s.dropped hand s.written := by simp [hi.owned]
  constructor
  · intro x o hx
    by_cases e : x = y
    · subst e
      rw [hself] at hx
      simp [ValueState.write, ← hx]
    · rw [hother x e] at hx
      simp [ValueState.write, e, hi.cells x o hx]
  · exact hi.ledger.make hnew hself hother
  · intro o
    rw [show (({ s with arena } : ValueState σ β).write t kind y).dropped = s.dropped from rfl,
      owned_make hnone hself hother, hi.owned]
    show _ ↔ o < s.written + 1
    omega
  · intro g hg
    rcases ValueState.Has.of_set rfl hg with hm | hm | hm
    · rw [hother _ (hhas g (.inl hm))]
      exact hi.holds g (.inl hm)
    · exact Option.some.inj hm ▸ hself
    · have hm : s.Has g := hm
      rw [hother _ (hhas g hm)]
      exact hi.holds g hm
  · intro u x hu
    simp only [ValueState.write, Store.get_set] at hu
    by_cases e : u = t
    · simp [e] at hu
    · rw [if_neg e] at hu
      rw [hother x (ValueCall.ne_of_on (.inl hu) (hidle u))]
      exact hi.dropping u x hu
  · intro u x hu
    simp only [ValueState.write, Store.get_set] at hu
    by_cases e : u = t
    · simp [e] at hu
    · rw [if_neg e] at hu
      rw [hother x (ValueCall.ne_of_on (.inr hu) (hidle u))]
      exact hi.gone u x hu
  · intro x hx
    have hx : x ∉ y :: L.lent s.arena := hlent ▸ hx
    rw [hother x fun e => hx (e ▸ List.mem_cons_self)]
    exact hi.unlent x fun hm => hx (List.mem_cons_of_mem y hm)

/-- The value leaves the hand of its block: nothing else is at the block. -/
theorem dropValue (hi : ObjectsInv L s hand) (ht : s.calls.get t = .dropBlock y)
    (hhas : ∀ g, s.Has g → g.block ≠ y) (hidle : ∀ u, u ≠ t → (s.calls.get u).on y = .idle) :
    ObjectsInv L { s with
        dropped := (s.cell y).toList ++ s.dropped
        calls := s.calls.set t (.giveBack y) } (Function.update hand y none) := by
  obtain ⟨o, ho⟩ := hi.dropping t y ht
  have hother : ∀ x, x ≠ y → Function.update hand y none x = hand x := fun x hx =>
    Function.update_of_ne hx _ hand
  have hself : Function.update hand y none y = none := Function.update_self y _ hand
  have hcell := hi.cells y o ho
  rw [hcell]
  constructor
  · intro x o' hx
    by_cases e : x = y
    · rw [e, hself] at hx
      cases hx
    · rw [hother x e] at hx
      exact hi.cells x o' hx
  · exact hi.ledger.settle ho hself hother
  · intro o'
    exact (owned_settle ho hself hother).trans (hi.owned o')
  · intro g hg
    rcases ValueState.Has.of_set rfl hg with hm | hm | hm
    · rw [hother _ (hhas g (.inl hm))]
      exact hi.holds g (.inl hm)
    · cases hm
    · rw [hother _ (hhas g hm)]
      exact hi.holds g hm
  · intro u x hu
    simp only [Store.get_set] at hu
    by_cases e : u = t
    · simp [e] at hu
    · rw [if_neg e] at hu
      rw [hother x (ValueCall.ne_of_on (.inl hu) (hidle u e))]
      exact hi.dropping u x hu
  · intro u x hu
    simp only [Store.get_set] at hu
    by_cases hx : x = y
    · rw [hx, hself]
    · rw [hother x hx]
      by_cases e : u = t
      · simp only [e, ite_true, ValueCall.giveBack.injEq] at hu
        exact absurd hu.symm hx
      · rw [if_neg e] at hu
        exact hi.gone u x hu
  · intro x hx
    by_cases e : x = y
    · rw [e, hself]
    · rw [hother x e]
      exact hi.unlent x hx

theorem step {a : ValueAct α β} (hi : ObjectsInv L s hand) (hc : CountedInv L s) (hL : L.Lawful)
    (hm : ValueState.Moves L s a s') : ∃ hand, ObjectsInv L s' hand := by
  have hold : ∀ g ∈ s.handles, hand g.block = some g.object := fun g hg => hi.holds g (.inl hg)
  cases hm with
  | asks hs ha ht =>
    have hlent := ((hL.step hc.arena hs).asks ha).1
    exact ⟨hand, hi.bare rfl rfl rfl rfl (fun x hx => hi.unlent x (hlent ▸ hx)) hold rfl⟩
  | @keeps a arena hs ha =>
    have hlent : L.lent arena = L.lent s.arena := by
      rcases ha with ⟨t, ha⟩ | ⟨t, ha, hg⟩
      · exact ((hL.step hc.arena hs).begins ha).1
      · exact ((hL.step hc.arena hs).goesOn ha hg).1
    exact ⟨hand, hi.same rfl rfl rfl rfl (fun x hx => hi.unlent x (hlent ▸ hx)) hold⟩
  | @givesBack a t y arena hs ha ht =>
    have hlent := ((hL.step hc.arena hs).givesBack ha).1
    refine ⟨hand, hi.bare rfl rfl rfl rfl (fun x hx => ?_) hold rfl⟩
    by_cases e : x = y
    · rw [e]
      exact hi.gone t y ht
    · refine hi.unlent x fun hm => ?_
      rcases List.mem_cons.mp (hlent.mem_iff.mp hm) with rfl | hm
      · exact e rfl
      · exact hx hm
  | @grants a t y kind arena hs ha hg ht =>
    obtain ⟨hy, hlent, -, -⟩ := (hL.step hc.arena hs).grants ha hg
    obtain ⟨b, hr, hf⟩ := hc.blocks y
    obtain ⟨-, hnil, hidle⟩ := hf.unlent hr hy
    refine ⟨_, hi.write hlent (hi.unlent y hy) (fun g hg => ?_) hidle⟩
    rcases hg with hg | ⟨u, hu⟩
    · exact Handle.block_ne_of_owners hnil hg
    · exact fun e => ValueState.handle_on hu e (hidle u)
  | send ht hh _ => exact ⟨hand, hi.send hh⟩
  | clone _ hh _ _ => exact ⟨hand, hi.afterClone (.inl hh)⟩
  | drop ht hh => exact ⟨hand, hi.afterDrop (.inl hh)⟩
  | stepNew ht => exact ⟨hand, hi.afterNew (.inr ⟨_, by rw [ht]; rfl⟩)⟩
  | stepDrop ht => exact ⟨hand, hi.afterDrop (.inr ⟨_, by rw [ht]; rfl⟩)⟩
  | @dropValue t y ht =>
    obtain ⟨b, hr, hf⟩ := hc.blocks y
    obtain ⟨hnil, hidle⟩ := hf.dropping hr (t := t) (by simp [ht, ValueCall.on])
    refine ⟨_, hi.dropValue ht (fun g hg => ?_) hidle⟩
    rcases hg with hg | ⟨u, hu⟩
    · exact Handle.block_ne_of_owners hnil hg
    · intro e
      by_cases hut : u = t
      · rw [hut, ht] at hu
        cases hu
      · exact ValueState.handle_on hu e (hidle u hut)

end ObjectsInv

/-! ## What threads see of the values -/

namespace ValueState

section
variable {σ α β : Type} [DecidableEq β]

def quiet (s : ValueState σ β) : Prop := ∀ t, s.calls.get t = .idle

structure Sound (L : Lender σ α β) (s : ValueState σ β) : Prop where
  /-- A handle reads the value that was written for it, in a block that is lent. -/
  reads : ∀ h ∈ s.handles, s.cell h.block = some h.object ∧ h.block ∈ L.lent s.arena
  /-- Only the clones of a handle read its value. -/
  apart : ∀ h ∈ s.handles, ∀ g ∈ s.handles, h.object = g.object ↔ h.block = g.block
  counter : ∀ x, s.counter x = (Handle.owners x s.handles).length
  /-- The assertions on the counters hold. -/
  calm : ∀ t x, s.calls.get t ≠ .panicked x
  once : s.dropped.Nodup
  /-- No handle reads a value that was dropped. -/
  dropped : ∀ o ∈ s.dropped, o < s.written ∧ ∀ h ∈ s.handles, h.object ≠ o
  /-- Between the calls a value that was written is dropped if no handle to it is left. -/
  settled : s.quiet → ∀ o < s.written, (∀ h ∈ s.handles, h.object ≠ o) → o ∈ s.dropped
  /-- Between the calls a block is lent as long as there is a handle. -/
  lent : s.quiet → ∀ x, x ∈ L.lent s.arena ↔ ∃ h ∈ s.handles, h.block = x

variable {L : Lender σ α β} {s : ValueState σ β} {x : β} {b : BlockState}

theorem Follows.lent_of_handle (hf : Follows L s x b) (hr : blockMachine.Reach MemoryPools.fewHandles b)
    {h : Handle β} (hh : h ∈ s.handles) (hx : h.block = x) : x ∈ L.lent s.arena := by
  apply Classical.byContradiction
  intro hne
  exact Handle.block_ne_of_owners (hf.unlent hr hne).2.1 hh hx

/-- Where no call is at a block that is lent, it has a handle. -/
theorem Follows.handle_of_lent (hf : Follows L s x b)
    (hr : blockMachine.Reach MemoryPools.fewHandles b) (hx : x ∈ L.lent s.arena)
    (hidle : ∀ t, (s.calls.get t).on x = .idle) : ∃ h ∈ s.handles, h.block = x := by
  obtain ⟨phase, hi⟩ := CounterInv.of_reach hr
  have hfree : phase.isFree = false := by rw [← hi.free, hf.free]; simp [hx]
  have hcall : ∀ t, phase.call t = .idle := fun t => by rw [← hi.threads t, hf.calls t, hidle t]
  cases phase with
  | free => cases hfree
  | constructing t _ | dropping t =>
    have := hcall t
    simp [Phase.call] at this
  | closing t =>
    have := hcall t
    simp [Phase.call] at this
  | shared =>
    have hne : Handle.owners x s.handles ≠ [] := by
      intro hnil
      exact hi.handles (List.Perm.eq_nil (hnil ▸ hf.handles))
    obtain ⟨t, ht⟩ := List.exists_mem_of_ne_nil _ hne
    obtain ⟨h, hh, hx, -⟩ := Handle.mem_owners.mp ht
    exact ⟨h, hh, hx⟩

theorem sound (hc : CountedInv L s) {hand : β → Option Nat} (hi : ObjectsInv L s hand) :
    s.Sound L where
  reads h hh := by
    obtain ⟨b, hr, hf⟩ := hc.blocks h.block
    exact ⟨hi.cells _ _ (hi.holds h (.inl hh)), hf.lent_of_handle hr hh rfl⟩
  apart h hh g hg := by
    have hho := hi.holds h (.inl hh)
    have hgo := hi.holds g (.inl hg)
    constructor
    · intro e
      exact hi.ledger.inj _ _ _ hho (e ▸ hgo)
    · intro e
      rw [e, hgo] at hho
      exact (Option.some.inj hho).symm
  counter x := by
    obtain ⟨b, hr, hf⟩ := hc.blocks x
    obtain ⟨phase, hb⟩ := CounterInv.of_reach hr
    rw [← hf.counter, hb.counter, hf.handles.length_eq]
  calm t x ht := by
    obtain ⟨b, hr, hf⟩ := hc.blocks x
    have := hf.not_panicked (t := t) hr
    simp [ht, ValueCall.on] at this
  once := hi.ledger.nodup
  dropped o ho := by
    refine ⟨(hi.owned o).mp (.inl ho), fun h hh e => ?_⟩
    exact hi.ledger.apart _ _ (hi.holds h (.inl hh)) (e ▸ ho)
  settled hq o ho hno := by
    rcases (hi.owned o).mpr ho with hd | ⟨x, hx⟩
    · exact hd
    · obtain ⟨b, hr, hf⟩ := hc.blocks x
      have hlent : x ∈ L.lent s.arena := by
        apply Classical.byContradiction
        intro hne
        rw [hi.unlent x hne] at hx
        cases hx
      obtain ⟨h, hh, rfl⟩ := hf.handle_of_lent hr hlent fun t => by rw [hq t]; rfl
      have hobj := hi.holds h (.inl hh)
      rw [hx] at hobj
      exact absurd (Option.some.inj hobj).symm (hno h hh)
  lent hq x := by
    obtain ⟨b, hr, hf⟩ := hc.blocks x
    constructor
    · intro hx
      exact hf.handle_of_lent hr hx fun t => by rw [hq t]; rfl
    · rintro ⟨h, hh, hx⟩
      exact hf.lent_of_handle hr hh hx

theorem invs_of_reach {kinds : HandleKind → Bool} (hL : L.Lawful)
    (h : (valueMachine L kinds).Reach fewHandles s) :
    CountedInv L s ∧ ∃ hand, ObjectsInv L s hand := by
  refine h.invariant (I := fun s => CountedInv L s ∧ ∃ hand, ObjectsInv L s hand) ?_ ?_
  · rintro s ⟨arena, h0, rfl⟩
    exact ⟨.start hL h0, _, .start⟩
  · rintro s a s' - ⟨hc, hand, hi⟩ hfew hs
    have hm := moves_of_step hs
    exact ⟨hc.step hL hfew hm, hi.step hc hL hm⟩

end

end ValueState

end MemoryPools
