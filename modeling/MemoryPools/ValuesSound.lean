import MemoryPools.Values

/-!
# The counter of every block, whatever the threads do

Each block of an arena goes through the steps of the machine of one block, so what holds of
that machine holds of all counters at once. The values are then tokens: one is behind the
handles of its block or was dropped.
-/

namespace MemoryPools

open Interleave

/-! ## The lists of owners -/

namespace Handle

variable {β : Type} [DecidableEq β] {l : List (Handle β)} {h g : Handle β} {x : β}

theorem owners_cons (hx : h.block = x) : owners x (h :: l) = h.owner :: owners x l := by
  simp [owners, hx]

theorem owners_cons_with (u : Tid) :
    owners h.block ({ h with owner := u } :: l) = u :: owners h.block l := by
  simp [owners]

theorem owners_cons_ne (hx : h.block ≠ x) : owners x (h :: l) = owners x l := by
  simp [owners, hx]

theorem owners_cons_with_ne (u : Tid) (hx : h.block ≠ x) :
    owners x ({ h with owner := u } :: l) = owners x l := by
  simp [owners, hx]

theorem mem_owners {t : Tid} : t ∈ owners x l ↔ ∃ h ∈ l, h.block = x ∧ h.owner = t := by
  simp [owners, and_assoc]

theorem owners_erase_self (hh : h ∈ l) :
    (owners h.block l).Perm (h.owner :: owners h.block (l.erase h)) := by
  rw [← owners_cons rfl]
  exact ((List.perm_cons_erase hh).filter _).map _

theorem owners_erase_ne (hh : h ∈ l) (hx : h.block ≠ x) :
    (owners x l).Perm (owners x (l.erase h)) := by
  rw [← owners_cons_ne hx (l := l.erase h)]
  exact ((List.perm_cons_erase hh).filter _).map _

theorem block_ne_of_owners (hn : owners x l = []) (hh : h ∈ l) : h.block ≠ x := by
  intro e
  have hmem := mem_owners.mpr ⟨h, hh, e, rfl⟩
  rw [hn] at hmem
  cases hmem

end Handle

/-! ## One block of many -/

def ValueCall.on {β : Type} [DecidableEq β] (x : β) : ValueCall β → HandleCall
  | .new h pc => if h.block = x then .new pc else .idle
  | .drop h pc => if h.block = x then .drop pc else .idle
  | .dropBlock y | .giveBack y => if y = x then .dropBlock else .idle
  | .panicked y => if y = x then .panicked else .idle
  | .idle | .alloc _ => .idle

def ValueCall.handle {β : Type} : ValueCall β → Option (Handle β)
  | .new h _ | .drop h _ => some h
  | _ => none

namespace ValueState

def Has {σ β : Type} (s : ValueState σ β) (h : Handle β) : Prop :=
  h ∈ s.handles ∨ ∃ t, (s.calls.get t).handle = some h

theorem Has.of_set {σ β : Type} {s s' : ValueState σ β} {t : Tid} {c : ValueCall β} {h : Handle β}
    (hc : s'.calls = s.calls.set t c) (hh : s'.Has h) :
    h ∈ s'.handles ∨ c.handle = some h ∨ s.Has h := by
  cases hh with
  | inl hm => exact .inl hm
  | inr hm =>
    obtain ⟨u, hu⟩ := hm
    rw [hc, Store.get_set] at hu
    by_cases e : u = t
    · rw [if_pos e] at hu
      exact .inr (.inl hu)
    · rw [if_neg e] at hu
      exact .inr (.inr (.inr ⟨u, hu⟩))

variable {σ α β : Type} [DecidableEq β]

/-- Block `x` of `s` is in the state `b` of the machine of one block. -/
structure Follows (L : Lender σ α β) (s : ValueState σ β) (x : β) (b : BlockState) : Prop where
  counter : b.counter = s.counter x
  handles : b.handles.Perm (Handle.owners x s.handles)
  free : b.free = decide (x ∉ L.lent s.arena)
  kinds : ∀ h, s.Has h → h.block = x → h.kind = b.kind
  calls : ∀ t, b.threads.get t = (s.calls.get t).on x

/-! ### What no step of another block changes -/

namespace Follows

variable {L : Lender σ α β} {s s' : ValueState σ β} {x : β} {b : BlockState} {t : Tid}
  {c : ValueCall β}

theorem frame (hf : Follows L s x b) (hc : s'.counter x = s.counter x)
    (ho : (Handle.owners x s.handles).Perm (Handle.owners x s'.handles))
    (hl : x ∈ L.lent s'.arena ↔ x ∈ L.lent s.arena)
    (hk : ∀ h, s'.Has h → h.block = x → s.Has h)
    (hu : ∀ t, (s'.calls.get t).on x = (s.calls.get t).on x) : Follows L s' x b where
  counter := hf.counter.trans hc.symm
  handles := hf.handles.trans ho
  free := by rw [hf.free]; simp [hl]
  kinds h hh hx := hf.kinds h (hk h hh hx) hx
  calls t := (hf.calls t).trans (hu t).symm

theorem on_set (hc : c.on x = (s.calls.get t).on x) (u : Tid) :
    ((s.calls.set t c).get u).on x = (s.calls.get u).on x := by
  rw [Store.get_set]
  by_cases hu : u = t
  · rw [if_pos hu, hc, hu]
  · rw [if_neg hu]

end Follows

theorem handle_on {c : ValueCall β} {h : Handle β} {x : β} (hc : c.handle = some h)
    (hx : h.block = x) : c.on x ≠ .idle := by
  cases c with
  | idle | alloc _ | dropBlock _ | giveBack _ | panicked _ => cases hc
  | new g pc =>
    obtain rfl := Option.some.inj hc
    simp [ValueCall.on, hx]
  | drop g pc =>
    obtain rfl := Option.some.inj hc
    simp [ValueCall.on, hx]

section
variable {L : Lender σ α β} {s : ValueState σ β} {x : β} {b : BlockState} {t : Tid} {h : Handle β}

/-- A block that is not lent has no handle, and no call is at it. -/
theorem Follows.unlent (hf : Follows L s x b) (hr : blockMachine.Reach MemoryPools.fewHandles b)
    (hx : x ∉ L.lent s.arena) :
    b.free = true ∧ Handle.owners x s.handles = [] ∧ ∀ t, (s.calls.get t).on x = .idle := by
  obtain ⟨phase, hi⟩ := CounterInv.of_reach hr
  have hfree : b.free = true := by rw [hf.free]; simp [hx]
  have hphase : phase.isFree = true := hi.free ▸ hfree
  cases phase with
  | constructing _ _ | shared | closing _ | dropping _ => cases hphase
  | free =>
    have hnil : b.handles = [] := hi.handles
    refine ⟨hfree, (hnil ▸ hf.handles).nil_eq.symm, fun t => ?_⟩
    rw [← hf.calls t, hi.threads t]
    rfl

theorem Follows.dropping (hf : Follows L s x b) (hr : blockMachine.Reach MemoryPools.fewHandles b)
    (ht : (s.calls.get t).on x = .dropBlock) :
    Handle.owners x s.handles = [] ∧ ∀ u, u ≠ t → (s.calls.get u).on x = .idle := by
  obtain ⟨phase, hi⟩ := CounterInv.of_reach hr
  have hcall : phase.call t = .dropBlock := by rw [← hi.threads t, hf.calls t, ht]
  cases phase with
  | free | shared => cases hcall
  | constructing v pc =>
    simp only [Phase.call] at hcall
    split at hcall <;> cases hcall
  | closing v =>
    simp only [Phase.call] at hcall
    split at hcall <;> cases hcall
  | dropping v =>
    have hnil : b.handles = [] := hi.handles
    have hv : t = v := by
      apply Classical.byContradiction
      intro hne
      simp [Phase.call, hne] at hcall
    refine ⟨(hnil ▸ hf.handles).nil_eq.symm, fun u hu => ?_⟩
    rw [← hf.calls u, hi.threads u]
    simp [Phase.call, ← hv, hu]

theorem Follows.not_panicked (hf : Follows L s x b)
    (hr : blockMachine.Reach MemoryPools.fewHandles b) : (s.calls.get t).on x ≠ .panicked := by
  obtain ⟨phase, hi⟩ := CounterInv.of_reach hr
  rw [← hf.calls t, hi.threads t]
  cases phase with
  | free | shared => simp [Phase.call]
  | constructing _ _ | closing _ | dropping _ =>
    simp only [Phase.call]
    split <;> simp

end

/-! ### The steps at the block -/

theorem calls_set {s : ValueState σ β} {x : β} {threads : Store HandleCall} {t : Tid}
    {c : ValueCall β} {d : HandleCall} (h : ∀ u, threads.get u = (s.calls.get u).on x)
    (hc : c.on x = d) (u : Tid) : (threads.set t d).get u = ((s.calls.set t c).get u).on x := by
  rw [Store.get_set, Store.get_set]
  by_cases hu : u = t
  · rw [if_pos hu, if_pos hu, hc]
  · rw [if_neg hu, if_neg hu, h]

namespace Follows

variable {L : Lender σ α β} {s : ValueState σ β} {b : BlockState} {t : Tid} {h : Handle β}

theorem kinds_set {s' : ValueState σ β} {x : β} {c : ValueCall β} (hf : Follows L s x b)
    (hc : s'.calls = s.calls.set t c) (hl : ∀ g ∈ s'.handles, g.block = x → g.kind = b.kind)
    (hk : ∀ g, c.handle = some g → g.block = x → g.kind = b.kind) :
    ∀ g, s'.Has g → g.block = x → g.kind = b.kind := by
  intro g hg hx
  rcases Has.of_set hc hg with hm | hm | hm
  · exact hl g hm hx
  · exact hk g hm hx
  · exact hf.kinds g hm hx

theorem afterNew {r : Nat × Control NewPc Unit} (hf : Follows L s h.block b) (hh : s.Has h)
    (ho : h.owner = t) : Follows L (s.afterNew t h r) h.block (b.afterNew t r) := by
  have hkind := hf.kinds h hh rfl
  have hold := fun g hg => hf.kinds g (.inl hg)
  obtain ⟨counter, control⟩ := r
  cases control with
  | goto pc =>
    refine ⟨by simp [ValueState.afterNew, BlockState.afterNew], hf.handles, hf.free,
      hf.kinds_set rfl hold ?_, calls_set hf.calls (by simp [ValueCall.on])⟩
    intro g hg _
    exact Option.some.inj hg ▸ hkind
  | ret _ =>
    refine ⟨by simp [ValueState.afterNew, BlockState.afterNew], ?_, hf.free,
      hf.kinds_set rfl ?_ (fun _ hg => by cases hg), calls_set hf.calls rfl⟩
    · simp only [ValueState.afterNew, BlockState.afterNew, Handle.owners_cons, ho]
      exact hf.handles.cons t
    · intro g hg hx
      rcases List.mem_cons.mp hg with rfl | hm
      · exact hkind
      · exact hold g hm hx
  | panic =>
    exact ⟨by simp [ValueState.afterNew, BlockState.afterNew], hf.handles, hf.free,
      hf.kinds_set rfl hold (fun _ hg => by cases hg), calls_set hf.calls (by simp [ValueCall.on])⟩

theorem afterClone {u : Tid} {r : Nat × Bool} (hf : Follows L s h.block b) (hh : s.Has h) :
    Follows L (s.afterClone { h with owner := u } r) h.block (b.afterClone u r) := by
  have hkind := hf.kinds h hh rfl
  have hold := fun g hg => hf.kinds g (.inl hg)
  obtain ⟨counter, held⟩ := r
  cases held with
  | true =>
    refine ⟨by simp [ValueState.afterClone, BlockState.afterClone], ?_, hf.free, ?_, hf.calls⟩
    · exact (hf.handles.cons u).trans (.of_eq (Handle.owners_cons_with u).symm)
    · intro g hg hx
      cases hg with
      | inl hm =>
        rcases List.mem_cons.mp hm with rfl | hm
        · exact hkind
        · exact hold g hm hx
      | inr hm => exact hf.kinds g (.inr hm) hx
  | false =>
    exact ⟨by simp [ValueState.afterClone, BlockState.afterClone], hf.handles, hf.free,
      hf.kinds_set rfl hold (fun _ hg => by cases hg), calls_set hf.calls (by simp [ValueCall.on])⟩

theorem afterDrop {r : Nat × Control HandleDropPc Bool} (hf : Follows L s h.block b)
    (hh : h ∈ s.handles) (ho : h.owner = t) :
    Follows L (s.afterDrop t h r) h.block (b.afterDrop t r) := by
  have hkind := hf.kinds h (.inl hh) rfl
  have hold := fun g hg => hf.kinds g (.inl hg)
  obtain ⟨counter, control⟩ := r
  cases control with
  | goto pc =>
    refine ⟨by simp [ValueState.afterDrop, BlockState.afterDrop], hf.handles, hf.free,
      hf.kinds_set rfl hold ?_, calls_set hf.calls (by simp [ValueCall.on])⟩
    intro g hg _
    exact Option.some.inj hg ▸ hkind
  | ret last =>
    refine ⟨by simp [ValueState.afterDrop, BlockState.afterDrop], ?_, hf.free,
      hf.kinds_set rfl (fun g hg => hold g (List.mem_of_mem_erase hg)) ?_,
      calls_set hf.calls (by cases last <;> simp [ValueCall.on])⟩
    · have hperm := (hf.handles.trans (Handle.owners_erase_self hh)).erase h.owner
      rw [List.erase_cons_head, ho] at hperm
      exact hperm
    · intro g hg
      cases last <;> cases hg
  | panic =>
    exact ⟨by simp [ValueState.afterDrop, BlockState.afterDrop], hf.handles, hf.free,
      hf.kinds_set rfl hold (fun _ hg => by cases hg), calls_set hf.calls (by simp [ValueCall.on])⟩

theorem send {u : Tid} (hf : Follows L s h.block b) (hh : h ∈ s.handles) :
    Follows L { s with handles := { h with owner := u } :: s.handles.erase h } h.block
      { b with handles := u :: b.handles.erase h.owner } := by
  refine ⟨hf.counter, ?_, hf.free, ?_, hf.calls⟩
  · have hperm := (hf.handles.trans (Handle.owners_erase_self hh)).erase h.owner
    rw [List.erase_cons_head] at hperm
    exact (hperm.cons u).trans (.of_eq (Handle.owners_cons_with u).symm)
  · intro g hg hx
    cases hg with
    | inl hm =>
      rcases List.mem_cons.mp hm with rfl | hm
      · exact hf.kinds h (.inl hh) rfl
      · exact hf.kinds g (.inl (List.mem_of_mem_erase hm)) hx
    | inr hm => exact hf.kinds g (.inr hm) hx

/-! ### The steps at another block -/

section
variable {s' : ValueState σ β} {x : β} {c : ValueCall β}

theorem frame_set (hf : Follows L s x b) (hcalls : s'.calls = s.calls.set t c)
    (hon : c.on x = (s.calls.get t).on x) (hh : ∀ g, c.handle = some g → g.block ≠ x)
    (hc : s'.counter x = s.counter x)
    (ho : (Handle.owners x s.handles).Perm (Handle.owners x s'.handles))
    (hl : x ∈ L.lent s'.arena ↔ x ∈ L.lent s.arena)
    (hk : ∀ g ∈ s'.handles, g.block = x → g ∈ s.handles) : Follows L s' x b := by
  refine hf.frame hc ho hl (fun g hg hx => ?_) (hcalls ▸ on_set hon)
  rcases Has.of_set hcalls hg with hm | hm | hm
  · exact .inl (hk g hm hx)
  · exact absurd hx (hh g hm)
  · exact hm

theorem afterNew_ne {r : Nat × Control NewPc Unit} (hf : Follows L s x b) (hx : h.block ≠ x)
    (ht : (s.calls.get t).on x = .idle) : Follows L (s.afterNew t h r) x b := by
  have hc : ∀ n, Function.update s.counter h.block n x = s.counter x := fun n =>
    Function.update_of_ne hx.symm n s.counter
  obtain ⟨counter, control⟩ := r
  cases control with
  | goto pc =>
    refine hf.frame_set rfl (by rw [ht]; simp [ValueCall.on, hx]) ?_ (hc counter) (.refl _) .rfl
      fun g hg _ => hg
    intro g hg
    exact Option.some.inj hg ▸ hx
  | ret _ =>
    refine hf.frame_set rfl ht.symm (fun _ hg => by cases hg) (hc counter) ?_ .rfl ?_
    · exact .of_eq (Handle.owners_cons_ne hx).symm
    · intro g hg hgx
      rcases List.mem_cons.mp hg with rfl | hm
      · exact absurd hgx hx
      · exact hm
  | panic =>
    exact hf.frame_set rfl (by rw [ht]; simp [ValueCall.on, hx])
      (fun _ hg => by cases hg) (hc counter) (.refl _) .rfl
      fun g hg _ => hg

theorem afterClone_ne {u : Tid} {r : Nat × Bool} (hf : Follows L s x b) (hx : h.block ≠ x)
    (hu : (s.calls.get u).on x = .idle) :
    Follows L (s.afterClone { h with owner := u } r) x b := by
  have hc : ∀ n, Function.update s.counter h.block n x = s.counter x := fun n =>
    Function.update_of_ne hx.symm n s.counter
  obtain ⟨counter, held⟩ := r
  cases held with
  | true =>
    refine hf.frame (hc counter) (.of_eq (Handle.owners_cons_with_ne u hx).symm) .rfl ?_ fun _ => rfl
    intro g hg hgx
    cases hg with
    | inl hm =>
      rcases List.mem_cons.mp hm with rfl | hm
      · exact absurd hgx hx
      · exact .inl hm
    | inr hm => exact .inr hm
  | false =>
    exact hf.frame_set rfl (by rw [hu]; simp [ValueCall.on, hx])
      (fun _ hg => by cases hg) (hc counter) (.refl _) .rfl
      fun g hg _ => hg

theorem afterDrop_ne {r : Nat × Control HandleDropPc Bool} (hf : Follows L s x b)
    (hx : h.block ≠ x) (hh : h ∈ s.handles) (ht : (s.calls.get t).on x = .idle) :
    Follows L (s.afterDrop t h r) x b := by
  have hc : ∀ n, Function.update s.counter h.block n x = s.counter x := fun n =>
    Function.update_of_ne hx.symm n s.counter
  obtain ⟨counter, control⟩ := r
  cases control with
  | goto pc =>
    refine hf.frame_set rfl (by rw [ht]; simp [ValueCall.on, hx]) ?_ (hc counter) (.refl _) .rfl
      fun g hg _ => hg
    intro g hg
    exact Option.some.inj hg ▸ hx
  | ret last =>
    refine hf.frame_set rfl (by rw [ht]; cases last <;> simp [ValueCall.on, hx]) ?_ (hc counter)
      (Handle.owners_erase_ne hh hx) .rfl fun g hg _ => List.mem_of_mem_erase hg
    intro g hg
    cases last <;> cases hg
  | panic =>
    exact hf.frame_set rfl (by rw [ht]; simp [ValueCall.on, hx])
      (fun _ hg => by cases hg) (hc counter) (.refl _) .rfl
      fun g hg _ => hg

theorem send_ne {u : Tid} (hf : Follows L s x b) (hx : h.block ≠ x) (hh : h ∈ s.handles) :
    Follows L { s with handles := { h with owner := u } :: s.handles.erase h } x b := by
  refine hf.frame rfl ?_ .rfl ?_ fun _ => rfl
  · exact (Handle.owners_erase_ne hh hx).trans (.of_eq (Handle.owners_cons_with_ne u hx).symm)
  · intro g hg hgx
    cases hg with
    | inl hm =>
      rcases List.mem_cons.mp hm with rfl | hm
      · exact absurd hgx hx
      · exact .inl (List.mem_of_mem_erase hm)
    | inr hm => exact .inr hm

end

end Follows

end ValueState

/-! ## All blocks -/

structure CountedInv {σ α β : Type} [DecidableEq β] (L : Lender σ α β) (s : ValueState σ β) :
    Prop where
  arena : L.machine.Reach Machine.always s.arena
  asks : ∀ t, L.asking s.arena t = true → ∃ kind, s.calls.get t = .alloc kind
  owner : ∀ t h, (s.calls.get t).handle = some h → h.owner = t
  closing : ∀ t h pc, s.calls.get t = .drop h pc → h ∈ s.handles
  blocks : ∀ x, ∃ b, blockMachine.Reach fewHandles b ∧ ValueState.Follows L s x b

namespace CountedInv

open ValueState (Follows)

variable {σ α β : Type} [DecidableEq β] {L : Lender σ α β} {s s' : ValueState σ β} {t : Tid}
  {h : Handle β} {y : β} {c : ValueCall β}

/-- The calls of the other threads go on as they were, and their handles stay. -/
theorem thread (hi : CountedInv L s) (ha : L.machine.Reach Machine.always s'.arena)
    (hcalls : s'.calls = s.calls.set t c)
    (hasks : ∀ u, L.asking s'.arena u = true →
      L.asking s.arena u = true ∧ u ≠ t ∨ u = t ∧ ∃ kind, c = .alloc kind)
    (howner : ∀ g, c.handle = some g → g.owner = t)
    (hclosing : ∀ g pc, c = .drop g pc → g ∈ s'.handles)
    (hkeep : ∀ g ∈ s.handles, g.owner ≠ t → g ∈ s'.handles)
    (hb : ∀ x, ∃ b, blockMachine.Reach fewHandles b ∧ Follows L s' x b) : CountedInv L s' where
  arena := ha
  asks u hu := by
    rw [hcalls, Store.get_set]
    rcases hasks u hu with ⟨hold, hne⟩ | ⟨rfl, kind, rfl⟩
    · rw [if_neg hne]
      exact hi.asks u hold
    · exact ⟨kind, if_pos rfl⟩
  owner u g hg := by
    rw [hcalls, Store.get_set] at hg
    by_cases hu : u = t
    · rw [if_pos hu] at hg
      exact (howner g hg).trans hu.symm
    · rw [if_neg hu] at hg
      exact hi.owner u g hg
  closing u g pc hg := by
    rw [hcalls, Store.get_set] at hg
    by_cases hu : u = t
    · rw [if_pos hu] at hg
      exact hclosing g pc hg
    · rw [if_neg hu] at hg
      have ho : g.owner = u := hi.owner u g (by rw [hg]; rfl)
      exact hkeep g (hi.closing u g pc hg) (ho ▸ hu)
  blocks := hb

theorem bare (hi : CountedInv L s) (ha : L.machine.Reach Machine.always s'.arena)
    (hcalls : s'.calls = s.calls.set t c)
    (hasks : ∀ u, L.asking s'.arena u = true →
      L.asking s.arena u = true ∧ u ≠ t ∨ u = t ∧ ∃ kind, c = .alloc kind)
    (hc : c.handle = none) (hkeep : ∀ g ∈ s.handles, g.owner ≠ t → g ∈ s'.handles)
    (hb : ∀ x, ∃ b, blockMachine.Reach fewHandles b ∧ Follows L s' x b) : CountedInv L s' := by
  refine hi.thread ha hcalls hasks (fun g hg => ?_) (fun g pc hg => ?_) hkeep hb
  · rw [hc] at hg
    cases hg
  · rw [hg] at hc
    cases hc

theorem asking_ne (hi : CountedInv L s) (ht : ∀ kind, s.calls.get t ≠ .alloc kind) {u : Tid}
    (hu : L.asking s.arena u = true) : u ≠ t := by
  intro e
  obtain ⟨kind, hk⟩ := hi.asks u hu
  exact ht kind (e ▸ hk)

theorem blocks_at (hi : CountedInv L s) (y : β)
    (hat : ∀ b, blockMachine.Reach fewHandles b → Follows L s y b →
      ∃ b', blockMachine.Reach fewHandles b' ∧ Follows L s' y b')
    (hne : ∀ x b, y ≠ x → Follows L s x b → Follows L s' x b) (x : β) :
    ∃ b, blockMachine.Reach fewHandles b ∧ Follows L s' x b := by
  obtain ⟨b, hr, hf⟩ := hi.blocks x
  by_cases hx : y = x
  · subst hx
    exact hat b hr hf
  · exact ⟨b, hr, hne x b hx hf⟩

theorem blocks_frame (hi : CountedInv L s) (hne : ∀ x b, Follows L s x b → Follows L s' x b)
    (x : β) : ∃ b, blockMachine.Reach fewHandles b ∧ Follows L s' x b := by
  obtain ⟨b, hr, hf⟩ := hi.blocks x
  exact ⟨b, hr, hne x b hf⟩

theorem same (hi : CountedInv L s) (ha : L.machine.Reach Machine.always s'.arena)
    (hcalls : s'.calls = s.calls)
    (hasks : ∀ u, L.asking s'.arena u = true → L.asking s.arena u = true)
    (hkeep : ∀ u g pc, s.calls.get u = .drop g pc → g ∈ s'.handles)
    (hb : ∀ x, ∃ b, blockMachine.Reach fewHandles b ∧ Follows L s' x b) : CountedInv L s' where
  arena := ha
  asks u hu := hcalls ▸ hi.asks u (hasks u hu)
  owner u g hg := hi.owner u g (hcalls ▸ hg)
  closing u g pc hg := hkeep u g pc (hcalls ▸ hg)
  blocks := hb

/-! ### The steps of the arena -/

section
variable {a : α} {arena : σ} {kind : HandleKind}

theorem asks_step (hi : CountedInv L s) (hL : L.Lawful)
    (hs : L.machine.step s.arena a = some arena) (ha : L.part a = .asks t)
    (ht : s.calls.get t = .idle) :
    CountedInv L { s with arena, calls := s.calls.set t (.alloc kind) } := by
  obtain ⟨hlent, hasks⟩ := (hL.step hi.arena hs).asks ha
  refine hi.bare (hi.arena.step trivial hs) rfl ?_ rfl (fun g hg _ => hg) ?_
  · intro u hu
    by_cases e : u = t
    · exact .inr ⟨e, kind, rfl⟩
    · exact .inl ⟨(hasks u hu).resolve_left e, e⟩
  · refine hi.blocks_frame fun x b hf => ?_
    exact hf.frame_set rfl (by rw [ht]; rfl)
      (fun _ hg => by cases hg) rfl (.refl _) (by simp only [hlent])
      fun g hg _ => hg

theorem keeps_step (hi : CountedInv L s) (hL : L.Lawful)
    (hs : L.machine.step s.arena a = some arena)
    (ha : (∃ t, L.part a = .begins t) ∨ ∃ t, L.part a = .goesOn t ∧ L.grant s.arena a = none) :
    CountedInv L { s with arena } := by
  have heffect : L.lent arena = L.lent s.arena ∧
      ∀ u, L.asking arena u = true → L.asking s.arena u = true := by
    rcases ha with ⟨t, ha⟩ | ⟨t, ha, hg⟩
    · exact (hL.step hi.arena hs).begins ha
    · exact (hL.step hi.arena hs).goesOn ha hg
  refine hi.same (hi.arena.step trivial hs) rfl heffect.2 hi.closing ?_
  refine hi.blocks_frame fun x b hf => ?_
  exact hf.frame rfl (.refl _) (by simp only [heffect.1]) (fun g hg _ => hg) fun _ => rfl

theorem givesBack_step (hi : CountedInv L s) (hL : L.Lawful)
    (hs : L.machine.step s.arena a = some arena) (ha : L.part a = .givesBack t y)
    (ht : s.calls.get t = .giveBack y) :
    CountedInv L { s with arena, calls := s.calls.set t .idle } := by
  obtain ⟨hlent, hasks⟩ := (hL.step hi.arena hs).givesBack ha
  have hy : y ∉ L.lent arena := (List.nodup_cons.mp (hlent.nodup (hL.nodup hi.arena))).1
  refine hi.bare (hi.arena.step trivial hs) rfl ?_ rfl (fun g hg _ => hg) ?_
  · intro u hu
    exact .inl ⟨hasks u hu, hi.asking_ne (by simp [ht]) (hasks u hu)⟩
  · refine hi.blocks_at y (fun b hr hf => ?_) fun x b hx hf => ?_
    · have hb : b.threads.get t = .dropBlock := by rw [hf.calls t, ht]; simp [ValueCall.on]
      have hstep : b.step (.step t) = some { b with
          free := true, calls := b.calls + 1, threads := b.threads.set t .idle } := by
        simp only [BlockState.step, BlockState.stepThread, hb]
      have hfew : fewHandles b (.step t) := trivial
      refine ⟨_, hr.step hfew hstep, hf.counter, hf.handles, ?_,
        hf.kinds_set rfl (fun g hg => hf.kinds g (.inl hg)) (fun _ hg => by cases hg),
        ValueState.calls_set hf.calls rfl⟩
      simp [hy]
    · refine hf.frame_set rfl (by rw [ht]; simp [ValueCall.on, hx]) (fun _ hg => by cases hg) rfl
        (.refl _) ?_ fun g hg _ => hg
      rw [hlent.mem_iff, List.mem_cons]
      exact (or_iff_right (Ne.symm hx)).symm

theorem grants_step (hi : CountedInv L s) (hL : L.Lawful)
    (hs : L.machine.step s.arena a = some arena) (ha : L.part a = .goesOn t)
    (hg : L.grant s.arena a = some y) (ht : s.calls.get t = .alloc kind) :
    CountedInv L (({ s with arena } : ValueState σ β).write t kind y) := by
  obtain ⟨hy, hlent, -, hasks⟩ := (hL.step hi.arena hs).grants ha hg
  refine hi.thread (hi.arena.step trivial hs) rfl (fun u hu => .inl (hasks u hu)) ?_
    (fun _ _ hg => by cases hg) (fun g hg _ => hg) ?_
  · intro g hg
    exact Option.some.inj hg ▸ rfl
  · refine hi.blocks_at y (fun b hr hf => ?_) fun x b hx hf => ?_
    · obtain ⟨hfree, hnil, hidle⟩ := hf.unlent hr hy
      have hb : b.threads.get t = .idle := by rw [hf.calls t, hidle t]
      have hstep : b.step (.alloc t kind) = some { b with
          kind, free := false, lives := b.lives + 1, threads := b.threads.set t (.new .load) } :=
        if_pos ⟨hb, hfree⟩
      have hfew : fewHandles b (.alloc t kind) := trivial
      refine ⟨_, hr.step hfew hstep, hf.counter, hf.handles, ?_, ?_,
        ValueState.calls_set hf.calls (by simp [ValueCall.on])⟩
      · simp [ValueState.write, hlent]
      · intro g hg hgy
        rcases ValueState.Has.of_set rfl hg with hm | hm | hm | ⟨u, hm⟩
        · exact absurd hgy (Handle.block_ne_of_owners hnil hm)
        · exact Option.some.inj hm ▸ rfl
        · exact absurd hgy (Handle.block_ne_of_owners hnil hm)
        · exact absurd (hidle u) (ValueState.handle_on hm hgy)
    · refine hf.frame_set rfl (by rw [ht]; simp [ValueCall.on, hx]) ?_ rfl (.refl _) ?_
        fun g hg _ => hg
      · intro g hg
        exact Option.some.inj hg ▸ hx
      · simp [ValueState.write, hlent, Ne.symm hx]

end

/-! ### The steps of the handles -/

theorem asks_other (hi : CountedInv L s) (ht : ∀ kind, s.calls.get t ≠ .alloc kind) (u : Tid)
    (hu : L.asking s.arena u = true) :
    L.asking s.arena u = true ∧ u ≠ t ∨ u = t ∧ ∃ kind, c = .alloc kind :=
  .inl ⟨hu, hi.asking_ne ht hu⟩

theorem new_step {pc : NewPc} (hi : CountedInv L s) (ht : s.calls.get t = .new h pc) :
    CountedInv L (s.afterNew t h (h.kind.new (s.counter h.block) pc)) := by
  have hhas : s.Has h := .inr ⟨t, by rw [ht]; rfl⟩
  have ho : h.owner = t := hi.owner t h (by rw [ht]; rfl)
  have hasks := fun c => hi.asks_other (c := c) (t := t) (by simp [ht])
  have hb : ∀ x, ∃ b, blockMachine.Reach fewHandles b ∧
      Follows L (s.afterNew t h (h.kind.new (s.counter h.block) pc)) x b := by
    refine hi.blocks_at h.block (fun b hr hf => ?_) fun x b hx hf => ?_
    · have hb : b.threads.get t = .new pc := by rw [hf.calls t, ht]; simp [ValueCall.on]
      have hstep : b.step (.step t) = some (b.afterNew t (b.kind.new b.counter pc)) := by
        simp only [BlockState.step, BlockState.stepThread, hb]
      have hfew : fewHandles b (.step t) := trivial
      refine ⟨_, hr.step hfew hstep, ?_⟩
      rw [hf.counter, ← hf.kinds h hhas rfl]
      exact hf.afterNew hhas ho
    · exact hf.afterNew_ne hx (by rw [ht]; simp [ValueCall.on, hx])
  generalize h.kind.new (s.counter h.block) pc = r at hb ⊢
  obtain ⟨counter, control⟩ := r
  cases control with
  | goto pc' =>
    refine hi.thread hi.arena rfl (hasks _) ?_ (fun _ _ hg => by cases hg) (fun g hg _ => hg) hb
    intro g hg
    exact Option.some.inj hg ▸ ho
  | ret _ =>
    exact hi.bare hi.arena rfl (hasks _) rfl (fun g hg _ => List.mem_cons_of_mem h hg) hb
  | panic => exact hi.bare hi.arena rfl (hasks _) rfl (fun g hg _ => hg) hb

theorem clone_step {u : Tid} (hi : CountedInv L s) (hu : s.calls.get u = .idle) (hh : h ∈ s.handles)
    (hc : h.kind.cloneable = true) (ht : h.owner = u ∨ h.kind.crosses = true)
    (hfew : (Handle.owners h.block s.handles).length + 1 < isizeMax) :
    CountedInv L (s.afterClone { h with owner := u } (h.kind.clone (s.counter h.block))) := by
  have hb : ∀ x, ∃ b, blockMachine.Reach fewHandles b ∧
      Follows L (s.afterClone { h with owner := u } (h.kind.clone (s.counter h.block))) x b := by
    refine hi.blocks_at h.block (fun b hr hf => ?_) fun x b hx hf => ?_
    · have hkind := hf.kinds h (.inl hh) rfl
      have hb : b.threads.get u = .idle := by rw [hf.calls u, hu]; rfl
      have hmem : h.owner ∈ b.handles :=
        hf.handles.mem_iff.mpr (Handle.mem_owners.mpr ⟨h, hh, rfl, rfl⟩)
      have hstep : b.step (.clone h.owner u) = some (b.afterClone u (b.kind.clone b.counter)) :=
        if_pos ⟨hb, hmem, hkind ▸ hc, hkind ▸ ht⟩
      have hfew : fewHandles b (.clone h.owner u) := by
        unfold fewHandles
        rw [hf.handles.length_eq]
        exact hfew
      refine ⟨_, hr.step hfew hstep, ?_⟩
      rw [hf.counter, ← hkind]
      exact hf.afterClone (.inl hh)
    · exact hf.afterClone_ne hx (by rw [hu]; rfl)
  generalize h.kind.clone (s.counter h.block) = r at hb ⊢
  obtain ⟨counter, held⟩ := r
  cases held with
  | true =>
    exact hi.same hi.arena rfl (fun u hu => hu)
      (fun v g pc hv => List.mem_cons_of_mem _ (hi.closing v g pc hv)) hb
  | false =>
    exact hi.bare hi.arena rfl (hi.asks_other (by simp [hu])) rfl (fun g hg _ => hg) hb

theorem drop_step {r : Nat × Control HandleDropPc Bool} (hi : CountedInv L s)
    (ht : ∀ kind, s.calls.get t ≠ .alloc kind) (ho : h.owner = t) (hh : h ∈ s.handles)
    (hat : ∀ b, blockMachine.Reach fewHandles b → Follows L s h.block b →
      ∃ b', blockMachine.Reach fewHandles b' ∧ Follows L (s.afterDrop t h r) h.block b')
    (hon : ∀ x, h.block ≠ x → (s.calls.get t).on x = .idle) : CountedInv L (s.afterDrop t h r) := by
  have hasks := fun c => hi.asks_other (c := c) ht
  have hb := hi.blocks_at h.block hat fun x b hx hf => hf.afterDrop_ne hx hh (hon x hx)
  obtain ⟨counter, control⟩ := r
  cases control with
  | goto pc =>
    refine hi.thread hi.arena rfl (hasks _) ?_ ?_ (fun g hg _ => hg) hb
    · intro g hg
      exact Option.some.inj hg ▸ ho
    · intro g pc' hg
      cases hg
      exact hh
  | ret last =>
    have hkeep : ∀ g ∈ s.handles, g.owner ≠ t → g ∈ s.handles.erase h := fun g hg hne =>
      (List.mem_erase_of_ne fun e => hne (by rw [e]; exact ho)).mpr hg
    cases last with
    | true => exact hi.bare hi.arena rfl (hasks _) rfl hkeep hb
    | false => exact hi.bare hi.arena rfl (hasks _) rfl hkeep hb
  | panic => exact hi.bare hi.arena rfl (hasks _) rfl (fun g hg _ => hg) hb

theorem startDrop_step (hi : CountedInv L s) (ht : s.calls.get h.owner = .idle)
    (hh : h ∈ s.handles) :
    CountedInv L (s.afterDrop h.owner h (h.kind.drop (s.counter h.block) .load)) := by
  refine hi.drop_step (by simp [ht]) rfl hh (fun b hr hf => ?_) fun x _ => by rw [ht]; rfl
  have hkind := hf.kinds h (.inl hh) rfl
  have hb : b.threads.get h.owner = .idle := by rw [hf.calls, ht]; rfl
  have hmem : h.owner ∈ b.handles :=
    hf.handles.mem_iff.mpr (Handle.mem_owners.mpr ⟨h, hh, rfl, rfl⟩)
  have hstep : b.step (.drop h.owner) = some (b.afterDrop h.owner (b.kind.drop b.counter .load)) :=
    if_pos ⟨hb, hmem⟩
  have hfew : fewHandles b (.drop h.owner) := trivial
  refine ⟨_, hr.step hfew hstep, ?_⟩
  rw [hf.counter, ← hkind]
  exact hf.afterDrop hh rfl

theorem goDrop_step {pc : HandleDropPc} (hi : CountedInv L s) (ht : s.calls.get t = .drop h pc) :
    CountedInv L (s.afterDrop t h (h.kind.drop (s.counter h.block) pc)) := by
  have hh := hi.closing t h pc ht
  have ho : h.owner = t := hi.owner t h (by rw [ht]; rfl)
  refine hi.drop_step (by simp [ht]) ho hh (fun b hr hf => ?_) fun x hx => by
    rw [ht]; simp [ValueCall.on, hx]
  have hb : b.threads.get t = .drop pc := by rw [hf.calls t, ht]; simp [ValueCall.on]
  have hstep : b.step (.step t) = some (b.afterDrop t (b.kind.drop b.counter pc)) := by
    simp only [BlockState.step, BlockState.stepThread, hb]
  have hfew : fewHandles b (.step t) := trivial
  refine ⟨_, hr.step hfew hstep, ?_⟩
  rw [hf.counter, ← hf.kinds h (.inl hh) rfl]
  exact hf.afterDrop hh ho

theorem send_step {u : Tid} (hi : CountedInv L s) (ht : s.calls.get h.owner = .idle)
    (hh : h ∈ s.handles) (hc : h.kind.crosses = true) :
    CountedInv L { s with handles := { h with owner := u } :: s.handles.erase h } := by
  refine hi.same hi.arena rfl (fun u hu => hu) ?_ ?_
  · intro v g pc hv
    have hgo : g.owner = v := hi.owner v g (by rw [hv]; rfl)
    have hne : g ≠ h := by
      intro e
      rw [← hgo, e, ht] at hv
      cases hv
    exact List.mem_cons_of_mem _ ((List.mem_erase_of_ne hne).mpr (hi.closing v g pc hv))
  · refine hi.blocks_at h.block (fun b hr hf => ?_) fun x b hx hf => hf.send_ne hx hh
    have hb : b.threads.get h.owner = .idle := by rw [hf.calls, ht]; rfl
    have hmem : h.owner ∈ b.handles :=
      hf.handles.mem_iff.mpr (Handle.mem_owners.mpr ⟨h, hh, rfl, rfl⟩)
    have hstep : b.step (.send h.owner u) =
        some { b with handles := u :: b.handles.erase h.owner } :=
      if_pos ⟨hb, hmem, hf.kinds h (.inl hh) rfl ▸ hc⟩
    have hfew : fewHandles b (.send h.owner u) := trivial
    exact ⟨_, hr.step hfew hstep, hf.send hh⟩

theorem dropValue_step {dropped : List Nat} (hi : CountedInv L s)
    (ht : s.calls.get t = .dropBlock y) :
    CountedInv L { s with dropped, calls := s.calls.set t (.giveBack y) } := by
  refine hi.bare hi.arena rfl (hi.asks_other (by simp [ht])) rfl (fun g hg _ => hg) ?_
  refine hi.blocks_frame fun x b hf => ?_
  exact hf.frame_set rfl (by rw [ht]; rfl)
    (fun _ hg => by cases hg) rfl (.refl _) .rfl fun g hg _ => hg

theorem step {a : ValueAct α β} (hi : CountedInv L s) (hL : L.Lawful) (hfew : s.fewHandles a)
    (hm : ValueState.Moves L s a s') : CountedInv L s' := by
  cases hm with
  | asks hs ha ht => exact hi.asks_step hL hs ha ht
  | keeps hs ha => exact hi.keeps_step hL hs ha
  | givesBack hs ha ht => exact hi.givesBack_step hL hs ha ht
  | grants hs ha hg ht => exact hi.grants_step hL hs ha hg ht
  | send ht hh hc => exact hi.send_step ht hh hc
  | clone hu hh hc ht => exact hi.clone_step hu hh hc ht hfew
  | drop ht hh => exact hi.startDrop_step ht hh
  | stepNew ht => exact hi.new_step ht
  | stepDrop ht => exact hi.goDrop_step ht
  | dropValue ht => exact hi.dropValue_step ht

theorem start {arena : σ} (hL : L.Lawful) (h0 : L.machine.init arena) :
    CountedInv L (.start arena : ValueState σ β) where
  arena := .init h0
  asks t ht := by
    rw [show L.asking (ValueState.start arena : ValueState σ β).arena t = false from
      (hL.init arena h0).2 t] at ht
    cases ht
  owner t h ht := by simp [ValueState.start, ValueCall.handle, default] at ht
  closing t h pc ht := by simp [ValueState.start, default] at ht
  blocks x := by
    refine ⟨.start, .init rfl, rfl, .refl _, ?_, ?_, ?_⟩
    · simp [ValueState.start, BlockState.start, (hL.init arena h0).1]
    · intro h hh
      rcases hh with hm | ⟨t, hm⟩
      · cases hm
      · simp [ValueState.start, ValueCall.handle, default] at hm
    · intro t
      simp [ValueState.start, BlockState.start, ValueCall.on, default]

end CountedInv

end MemoryPools
