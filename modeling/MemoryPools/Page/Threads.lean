import MemoryPools.Page.SharedArena
import MemoryPools.Page.Arena
import MemoryPools.Interleave.Ledger

/-!
# Threads on one page

The machine of one page: any number of threads take blocks with
`acquire_free_block` and give them back with `drop_block`, and the arena gives
the page up with `drop_page`, one atomic operation at a time. A handle that no
thread is dropping is in `handles`. The step `other` is the rest of the program:
list code and the drops on other pages write the links of the page and the head
of the pending list whenever they like.
-/

namespace MemoryPools

open Interleave

inductive PageThread (κ : Type)
  | idle
  | acquire (pc : κ)
  | won (index : Nat)
  | drop (index : Nat) (pc : DropPc)
  | panicked
  deriving DecidableEq

instance {κ : Type} : Inhabited (PageThread κ) := ⟨.idle⟩

inductive ArenaStage
  | owns
  | giving (pc : DropPagePc)
  | gone
  deriving DecidableEq

structure PageState (π κ : Type) where
  page : π
  pending : Ptr
  handles : List Nat
  threads : Store (PageThread κ)
  arena : ArenaStage
  -- how often `deallocate_page` was executed
  deallocs : Nat

inductive PageAct
  | acquire (t : Tid)
  | drop (t : Tid) (index : Nat)
  | dropPage
  | step (t : Tid) (upgraded : Bool)
  | stepArena
  | other (links : PageLinks) (pending : Ptr)
  deriving DecidableEq

namespace PageOps

variable {π κ : Type} (ops : PageOps π κ)

def afterAcquire : Control κ (Option Nat) → PageThread κ
  | .goto pc => .acquire pc
  | .ret (some index) => .won index
  | .ret none => .idle
  | .panic => .panicked

def afterDrop (index : Nat) : Control DropPc Unit → PageThread κ
  | .goto pc => .drop index pc
  | .ret () => .idle
  | .panic => .panicked

def afterDropPage : Control DropPagePc Unit → ArenaStage
  | .goto pc => .giving pc
  | _ => .gone

def stepThread (self : Addr) (s : PageState π κ) (t : Tid) (upgraded : Bool) :
    Option (PageState π κ) :=
  match s.threads.get t with
  | .acquire pc =>
    let (page, control) := ops.acquireFreeBlock s.page pc
    some { s with page, threads := s.threads.set t (afterAcquire control) }
  | .won index => some { s with handles := index :: s.handles, threads := s.threads.set t .idle }
  | .drop index pc =>
    let r := ops.dropBlock self index upgraded s.page s.pending pc
    some { s with
      page := r.page
      pending := r.pending
      deallocs := s.deallocs + r.deallocated.toNat
      threads := s.threads.set t (afterDrop index r.control) }
  | .idle | .panicked => none

def stepPage (self : Addr) (s : PageState π κ) : PageAct → Option (PageState π κ)
  | .acquire t =>
    match s.threads.get t with
    | .idle => some { s with threads := s.threads.set t (.acquire ops.acquireStart) }
    | _ => none
  | .drop t index =>
    match s.threads.get t with
    | .idle =>
      if index ∈ s.handles then
        some { s with handles := s.handles.erase index, threads := s.threads.set t (.drop index .fetchAdd) }
      else none
    | _ => none
  | .dropPage => if s.arena = .owns then some { s with arena := .giving .fetch } else none
  | .step t upgraded => ops.stepThread self s t upgraded
  | .stepArena =>
    match s.arena with
    | .giving pc =>
      let r := ops.dropPage s.page s.pending pc
      some { s with
        page := r.page
        pending := r.pending
        deallocs := s.deallocs + r.deallocated.toNat
        arena := afterDropPage r.control }
    | .owns | .gone => none
  | .other links pending => some { s with page := ops.setLinks s.page links, pending }

/-! ## What a step can do -/

inductive Moves (self : Addr) (s : PageState π κ) : PageAct → PageState π κ → Prop
  | startAcquire {t : Tid} (h : s.threads.get t = .idle) :
    Moves self s (.acquire t) { s with threads := s.threads.set t (.acquire ops.acquireStart) }
  | startDrop {t : Tid} {index : Nat} (h : s.threads.get t = .idle) (hi : index ∈ s.handles) :
    Moves self s (.drop t index)
      { s with handles := s.handles.erase index, threads := s.threads.set t (.drop index .fetchAdd) }
  | startDropPage (h : s.arena = .owns) : Moves self s .dropPage { s with arena := .giving .fetch }
  | acquire {t : Tid} {upgraded : Bool} {pc : κ} {page : π} {control : Control κ (Option Nat)}
    (h : s.threads.get t = .acquire pc) (hc : ops.acquireFreeBlock s.page pc = (page, control)) :
    Moves self s (.step t upgraded)
      { s with page, threads := s.threads.set t (afterAcquire control) }
  | keep {t : Tid} {upgraded : Bool} {index : Nat} (h : s.threads.get t = .won index) :
    Moves self s (.step t upgraded)
      { s with handles := index :: s.handles, threads := s.threads.set t .idle }
  | giveBlock {t : Tid} {upgraded : Bool} {index : Nat} {page : π} {last : Bool}
    (h : s.threads.get t = .drop index .fetchAdd) (hg : ops.giveBlock index s.page = (page, last)) :
    Moves self s (.step t upgraded)
      { s with
        page
        threads := s.threads.set t (.drop index (if last then .deallocate else .push .loadInFree)) }
  | freeBlock {t : Tid} {upgraded : Bool} {index : Nat}
      (h : s.threads.get t = .drop index .deallocate) :
    Moves self s (.step t upgraded)
      { s with deallocs := s.deallocs + 1, threads := s.threads.set t .idle }
  | push {t : Tid} {upgraded : Bool} {index : Nat} {pc : PushPc} {links : PageLinks} {pending : Ptr}
    {control : Control PushPc Unit} (h : s.threads.get t = .drop index (.push pc))
    (hp : (ops.links s.page).push self upgraded s.pending pc = (links, pending, control)) :
    Moves self s (.step t upgraded)
      { s with page := ops.setLinks s.page links, pending
               threads := s.threads.set t (afterDrop index (control.map .push)) }
  | givePage {page : π} {last : Bool}
      (h : s.arena = .giving .fetch) (hg : ops.givePage s.page = (page, last)) :
    Moves self s .stepArena { s with page, arena := if last then .giving .deallocate else .gone }
  | freePage (h : s.arena = .giving .deallocate) :
    Moves self s .stepArena { s with deallocs := s.deallocs + 1, arena := .gone }
  | other {links : PageLinks} {pending : Ptr} :
    Moves self s (.other links pending) { s with page := ops.setLinks s.page links, pending }

theorem moves_of_stepThread {self : Addr} {s s' : PageState π κ} {t : Tid} {upgraded : Bool}
    (h : ops.stepThread self s t upgraded = some s') : ops.Moves self s (.step t upgraded) s' := by
  unfold stepThread at h
  cases hp : s.threads.get t with
  | idle => rw [hp] at h; cases h
  | panicked => rw [hp] at h; cases h
  | acquire pc =>
    rw [hp] at h
    obtain rfl := Option.some.inj h
    exact .acquire hp rfl
  | won index =>
    rw [hp] at h
    obtain rfl := Option.some.inj h
    exact .keep hp
  | drop index pc =>
    rw [hp] at h
    obtain rfl := Option.some.inj h
    cases pc with
    | fetchAdd => exact .giveBlock hp rfl
    | deallocate => exact .freeBlock hp
    | push pc => exact .push hp rfl

theorem moves_of_stepPage {self : Addr} {s s' : PageState π κ} {a : PageAct}
    (h : ops.stepPage self s a = some s') : ops.Moves self s a s' := by
  cases a with
  | acquire t =>
    simp only [stepPage] at h
    split at h
    · rename_i hp; obtain rfl := Option.some.inj h; exact .startAcquire hp
    · cases h
  | drop t index =>
    simp only [stepPage] at h
    split at h
    · rename_i hp
      split at h
      · rename_i hi; obtain rfl := Option.some.inj h; exact .startDrop hp hi
      · cases h
    · cases h
  | dropPage =>
    simp only [stepPage] at h
    split at h
    · rename_i ha; obtain rfl := Option.some.inj h; exact .startDropPage ha
    · cases h
  | step t upgraded => exact ops.moves_of_stepThread h
  | stepArena =>
    simp only [stepPage] at h
    split at h
    · rename_i pc ha
      obtain rfl := Option.some.inj h
      cases pc with
      | fetch =>
        cases hg : (ops.givePage s.page) with
        | mk page last =>
          have : ops.Moves self s .stepArena _ := .givePage ha hg
          simp only [dropPage, hg]
          cases last <;> exact this
      | deallocate => exact .freePage ha
    · cases h
    · cases h
  | other links pending =>
    obtain rfl := Option.some.inj h
    exact .other

end PageOps

end MemoryPools
