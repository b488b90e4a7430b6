import MemoryPools.Handles
import MemoryPools.Interleave.Lending
import Mathlib.Logic.Function.Basic

/-!
# Values that threads share

`alloc*` and the handles of `arena_box.rs`, `arena_rc.rs` and `arena_arc.rs`, in any number of
threads. Of the arena below only the lending of its blocks is used. `find_place` has returned
before the value is written, the value is written before the handle is made, and a drop goes
from the counter to `drop_in_place` and from there to the bits of the page. A value is known
by its number, the count of the values that were written before it.
-/

namespace MemoryPools

open Interleave

structure Handle (β : Type) where
  -- the thread that has it
  owner : Tid
  kind : HandleKind
  block : β
  -- the value that its maker wrote
  object : Nat
  deriving DecidableEq

def Handle.owners {β : Type} [DecidableEq β] (x : β) (l : List (Handle β)) : List Tid :=
  (l.filter (·.block = x)).map (·.owner)

inductive ValueCall (β : Type)
  | idle
  -- in `find_place`
  | alloc (kind : HandleKind)
  | new (h : Handle β) (pc : NewPc)
  | drop (h : Handle β) (pc : HandleDropPc)
  -- `Block::drop_block`, before `drop_in_place` and after it
  | dropBlock (x : β)
  | giveBack (x : β)
  -- in an assertion on the counter of the block
  | panicked (x : β)
  deriving DecidableEq

instance {β : Type} : Inhabited (ValueCall β) := ⟨.idle⟩

structure ValueState (σ β : Type) where
  arena : σ
  counter : β → Nat
  -- `drop_in_place` leaves the bytes of the value
  cell : β → Option Nat
  handles : List (Handle β)
  calls : Store (ValueCall β)
  written : Nat
  dropped : List Nat

/-- `arena a`: the arena below takes a step that does not begin an `alloc`. -/
inductive ValueAct (α β : Type)
  | alloc (kind : HandleKind) (a : α)
  | arena (a : α)
  | send (h : Handle β) (u : Tid)
  | clone (h : Handle β) (u : Tid)
  | drop (h : Handle β)
  | step (t : Tid)

namespace ValueState

variable {σ α β : Type} [DecidableEq β] (s : ValueState σ β)

def start (arena : σ) : ValueState σ β where
  arena
  counter _ := 0
  cell _ := none
  handles := []
  calls := Store.empty
  written := 0
  dropped := []

def write (t : Tid) (kind : HandleKind) (x : β) : ValueState σ β :=
  { s with
    cell := Function.update s.cell x (some s.written)
    calls := s.calls.set t (.new { owner := t, kind, block := x, object := s.written } .load)
    written := s.written + 1 }

def afterNew (t : Tid) (h : Handle β) : Nat × Control NewPc Unit → ValueState σ β
  | (counter, .goto pc) =>
    { s with
      counter := Function.update s.counter h.block counter
      calls := s.calls.set t (.new h pc) }
  | (counter, .ret ()) =>
    { s with
      counter := Function.update s.counter h.block counter
      handles := h :: s.handles
      calls := s.calls.set t .idle }
  | (counter, .panic) =>
    { s with
      counter := Function.update s.counter h.block counter
      calls := s.calls.set t (.panicked h.block) }

def afterClone (h : Handle β) : Nat × Bool → ValueState σ β
  | (counter, true) =>
    { s with
      counter := Function.update s.counter h.block counter
      handles := h :: s.handles }
  | (counter, false) =>
    { s with
      counter := Function.update s.counter h.block counter
      calls := s.calls.set h.owner (.panicked h.block) }

def afterDrop (t : Tid) (h : Handle β) : Nat × Control HandleDropPc Bool → ValueState σ β
  | (counter, .goto pc) =>
    { s with
      counter := Function.update s.counter h.block counter
      calls := s.calls.set t (.drop h pc) }
  | (counter, .ret last) =>
    { s with
      counter := Function.update s.counter h.block counter
      handles := s.handles.erase h
      calls := s.calls.set t (if last then .dropBlock h.block else .idle) }
  | (counter, .panic) =>
    { s with
      counter := Function.update s.counter h.block counter
      calls := s.calls.set t (.panicked h.block) }

def stepThread (t : Tid) : Option (ValueState σ β) :=
  match s.calls.get t with
  | .new h pc => some (s.afterNew t h (h.kind.new (s.counter h.block) pc))
  | .drop h pc => some (s.afterDrop t h (h.kind.drop (s.counter h.block) pc))
  | .dropBlock x =>
    some { s with
      dropped := (s.cell x).toList ++ s.dropped
      calls := s.calls.set t (.giveBack x) }
  | .idle | .alloc _ | .giveBack _ | .panicked _ => none

variable (L : Lender σ α β)

def rests (t : Tid) : Prop := s.calls.get t = .idle ∧ L.rests s.arena t = true

instance (t : Tid) : Decidable (s.rests L t) := inferInstanceAs (Decidable (_ ∧ _))

def afterArena (a : α) (arena : σ) : Option (ValueState σ β) :=
  match L.part a with
  | .asks _ => none
  | .begins t => if s.rests L t then some { s with arena } else none
  | .givesBack t x =>
    if s.calls.get t = .giveBack x then some { s with arena, calls := s.calls.set t .idle } else none
  | .goesOn t =>
    match L.grant s.arena a, s.calls.get t with
    | none, _ => some { s with arena }
    | some x, .alloc kind => some (({ s with arena } : ValueState σ β).write t kind x)
    | some _, _ => none

def step (kinds : HandleKind → Bool) : ValueAct α β → Option (ValueState σ β)
  | .alloc kind a =>
    match L.part a, L.machine.step s.arena a with
    | .asks t, some arena =>
      if s.rests L t ∧ kinds kind = true then
        some { s with arena, calls := s.calls.set t (.alloc kind) }
      else none
    | _, _ => none
  | .arena a =>
    match L.machine.step s.arena a with
    | some arena => s.afterArena L a arena
    | none => none
  | .send h u =>
    if s.rests L h.owner ∧ h ∈ s.handles ∧ h.kind.crosses = true then
      some { s with handles := { h with owner := u } :: s.handles.erase h }
    else none
  | .clone h u =>
    if s.rests L u ∧ h ∈ s.handles ∧ h.kind.cloneable = true ∧
        (h.owner = u ∨ h.kind.crosses = true) then
      some (s.afterClone { h with owner := u } (h.kind.clone (s.counter h.block)))
    else none
  | .drop h =>
    if s.rests L h.owner ∧ h ∈ s.handles then
      some (s.afterDrop h.owner h (h.kind.drop (s.counter h.block) .load))
    else none
  | .step t => s.stepThread t

/-- Every block has fewer than `isize::MAX` handles. -/
def fewHandles : ValueAct α β → Prop
  | .clone h _ => (Handle.owners h.block s.handles).length + 1 < isizeMax
  | _ => True

instance (a : ValueAct α β) : Decidable (s.fewHandles a) := by
  unfold fewHandles
  split <;> infer_instance

end ValueState

def arenaKinds : HandleKind → Bool
  | .arenaBox | .arenaRc | .arenaArc => true
  | .poolBox => false

def valueMachine {σ α β : Type} [DecidableEq β] (L : Lender σ α β) (kinds : HandleKind → Bool) :
    Machine (ValueState σ β) (ValueAct α β) where
  init s := ∃ arena, L.machine.init arena ∧ s = .start arena
  step s := s.step L kinds

/-! ## What a step can do -/

namespace ValueState

section
variable {σ α β : Type} [DecidableEq β] (L : Lender σ α β)

inductive Moves (s : ValueState σ β) : ValueAct α β → ValueState σ β → Prop
  | asks {kind : HandleKind} {a : α} {t : Tid} {arena : σ}
    (hs : L.machine.step s.arena a = some arena) (ha : L.part a = .asks t)
    (ht : s.calls.get t = .idle) :
    Moves s (.alloc kind a) { s with arena, calls := s.calls.set t (.alloc kind) }
  | keeps {a : α} {arena : σ} (hs : L.machine.step s.arena a = some arena)
    (ha : (∃ t, L.part a = .begins t) ∨ ∃ t, L.part a = .goesOn t ∧ L.grant s.arena a = none) :
    Moves s (.arena a) { s with arena }
  | givesBack {a : α} {t : Tid} {x : β} {arena : σ} (hs : L.machine.step s.arena a = some arena)
    (ha : L.part a = .givesBack t x) (ht : s.calls.get t = .giveBack x) :
    Moves s (.arena a) { s with arena, calls := s.calls.set t .idle }
  | grants {a : α} {t : Tid} {x : β} {kind : HandleKind} {arena : σ}
    (hs : L.machine.step s.arena a = some arena) (ha : L.part a = .goesOn t)
    (hg : L.grant s.arena a = some x) (ht : s.calls.get t = .alloc kind) :
    Moves s (.arena a) (({ s with arena } : ValueState σ β).write t kind x)
  | send {h : Handle β} {u : Tid} (ht : s.calls.get h.owner = .idle) (hh : h ∈ s.handles)
    (hc : h.kind.crosses = true) :
    Moves s (.send h u) { s with handles := { h with owner := u } :: s.handles.erase h }
  | clone {h : Handle β} {u : Tid} (hu : s.calls.get u = .idle) (hh : h ∈ s.handles)
    (hc : h.kind.cloneable = true) (ht : h.owner = u ∨ h.kind.crosses = true) :
    Moves s (.clone h u)
      (s.afterClone { h with owner := u } (h.kind.clone (s.counter h.block)))
  | drop {h : Handle β} (ht : s.calls.get h.owner = .idle) (hh : h ∈ s.handles) :
    Moves s (.drop h) (s.afterDrop h.owner h (h.kind.drop (s.counter h.block) .load))
  | stepNew {t : Tid} {h : Handle β} {pc : NewPc} (ht : s.calls.get t = .new h pc) :
    Moves s (.step t) (s.afterNew t h (h.kind.new (s.counter h.block) pc))
  | stepDrop {t : Tid} {h : Handle β} {pc : HandleDropPc} (ht : s.calls.get t = .drop h pc) :
    Moves s (.step t) (s.afterDrop t h (h.kind.drop (s.counter h.block) pc))
  | dropValue {t : Tid} {x : β} (ht : s.calls.get t = .dropBlock x) :
    Moves s (.step t)
      { s with
        dropped := (s.cell x).toList ++ s.dropped
        calls := s.calls.set t (.giveBack x) }

variable {L} {s s' : ValueState σ β}

theorem moves_of_arena {a : α} {arena : σ} (hs : L.machine.step s.arena a = some arena)
    (h : s.afterArena L a arena = some s') : Moves L s (.arena a) s' := by
  unfold afterArena at h
  cases ha : L.part a with
  | asks t => simp [ha] at h
  | begins t =>
    simp only [ha, Option.ite_none_right_eq_some, Option.some.injEq] at h
    obtain ⟨-, rfl⟩ := h
    exact .keeps hs (.inl ⟨t, ha⟩)
  | givesBack t x =>
    simp only [ha, Option.ite_none_right_eq_some, Option.some.injEq] at h
    obtain ⟨ht, rfl⟩ := h
    exact .givesBack hs ha ht
  | goesOn t =>
    rw [ha] at h
    cases hg : L.grant s.arena a with
    | none =>
      simp only [hg, Option.some.injEq] at h
      obtain rfl := h
      exact .keeps hs (.inr ⟨t, ha, hg⟩)
    | some x =>
      simp only [hg] at h
      split at h
      · rename_i e; cases e
      · rename_i kind e ht
        obtain rfl := Option.some.inj e
        obtain rfl := Option.some.inj h
        exact .grants hs ha hg ht
      · cases h

theorem moves_of_step {kinds : HandleKind → Bool} {a : ValueAct α β}
    (h : s.step L kinds a = some s') : Moves L s a s' := by
  cases a with
  | alloc kind a =>
    simp only [step] at h
    split at h
    · rename_i t arena ha hs
      simp only [Option.ite_none_right_eq_some, Option.some.injEq] at h
      obtain ⟨⟨ht, -⟩, rfl⟩ := h
      exact .asks hs ha ht.1
    · cases h
  | arena a =>
    simp only [step] at h
    cases hs : L.machine.step s.arena a with
    | none => simp [hs] at h
    | some arena =>
      rw [hs] at h
      exact moves_of_arena hs h
  | send g u =>
    simp only [step, Option.ite_none_right_eq_some, Option.some.injEq] at h
    obtain ⟨⟨ht, hg, hc⟩, rfl⟩ := h
    exact .send ht.1 hg hc
  | clone g u =>
    simp only [step, Option.ite_none_right_eq_some, Option.some.injEq] at h
    obtain ⟨⟨hu, hg, hc, ht⟩, rfl⟩ := h
    exact .clone hu.1 hg hc ht
  | drop g =>
    simp only [step, Option.ite_none_right_eq_some, Option.some.injEq] at h
    obtain ⟨⟨ht, hg⟩, rfl⟩ := h
    exact .drop ht.1 hg
  | step t =>
    simp only [step] at h
    unfold stepThread at h
    cases ht : s.calls.get t with
    | idle | alloc _ | giveBack _ | panicked _ => simp [ht] at h
    | new g pc =>
      simp only [ht, Option.some.injEq] at h
      exact h ▸ .stepNew ht
    | drop g pc =>
      simp only [ht, Option.some.injEq] at h
      exact h ▸ .stepDrop ht
    | dropBlock x =>
      simp only [ht, Option.some.injEq] at h
      exact h ▸ .dropValue ht

end

end ValueState

end MemoryPools
