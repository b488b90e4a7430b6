import MemoryPools.Kind
import MemoryPools.PoolBook
import MemoryPools.ArenaBook
import MemoryPools.SharedArenaBook

/-!
# A program and its pool

One thread makes handles, clones them, writes through them and drops them, and shrinks
and drops the pool when it likes. A label is an operation and the number of steps that
each of its calls may take; an operation whose calls did not return within it is not
taken. A state has to fit in memory.
-/

namespace MemoryPools

open Interleave

inductive PageKind
  | sharedArena
  | arena
  | pool
  deriving DecidableEq

def PageKind.Arena : PageKind → Type
  | .sharedArena => SharedArena
  | .arena => MemoryPools.Arena
  | .pool => Pool

def PageKind.calls : (k : PageKind) → Kind k.Arena
  | .sharedArena => SharedArena.kind
  | .arena => MemoryPools.Arena.kind
  | .pool => Pool.kind

theorem PageKind.lawful (k : PageKind) : k.calls.Lawful := by
  cases k with
  | sharedArena => exact SharedArena.kind_lawful
  | arena => exact Arena.kind_lawful
  | pool => exact Pool.kind_lawful

/-- A block has a counter and a value; `none` is memory that was never written. -/
structure Session (σ V : Type) where
  arena : σ
  -- the pool was not dropped
  alive : Bool
  counter : Block → Nat
  value : Block → Option V
  handles : List (HandleKind × Block)
  -- the values that `drop_in_place` was called on
  dropped : List (Option V)
  panicked : Bool

/-- `k` is the place of a handle in the list of all handles. -/
inductive SessionAct (V : Type)
  | alloc (kind : AllocKind) (value : V)
  | clone (k : Nat)
  | write (k : Nat) (value : V)
  | drop (k : Nat)
  | shrink
  | release
  deriving DecidableEq

namespace Session

variable {σ V : Type}

def start (K : Kind σ) (cap : Nat) : Session σ V where
  arena := K.withCapacity cap
  alive := true
  counter _ := 0
  value _ := none
  handles := []
  dropped := []
  panicked := false

def blocks (s : Session σ V) : List Block := s.handles.map Prod.snd

/-- The live allocations: handles of one block are one allocation. -/
def live (s : Session σ V) : List Block := s.blocks.dedup

def deref (s : Session σ V) (k : Nat) : Option V := s.blocks[k]?.bind s.value

def pages (K : Kind σ) (s : Session σ V) : Nat :=
  (K.view s.arena).size - (K.view s.arena).freed.length

def Fits (K : Kind σ) (s : Session σ V) : Prop :=
  pageBytes * s.pages K + handleBytes * s.handles.length ≤ 2 ^ 64

instance (K : Kind σ) (s : Session σ V) : Decidable (s.Fits K) := Nat.decLe _ _

/-! ## Operations -/

/-- `alloc`, `alloc_rc` and `alloc_arc`: the value is written before the handle is made. -/
def alloc (K : Kind σ) (fuel : Nat) (s : Session σ V) (handle : HandleKind) (value : V) :
    Option (Session σ V) :=
  match K.findPlace fuel s.arena with
  | (arena, .ret block) =>
    let s := { s with arena, value := Function.update s.value block (some value) }
    match bounded handle.new .load fuel (s.counter block) with
    | (counter, .ret ()) =>
      some { s with
        counter := Function.update s.counter block counter
        handles := (handle, block) :: s.handles }
    | (_, .panic) => some { s with panicked := true }
    | (_, .goto ()) => none
  | (arena, .panic) => some { s with arena, panicked := true }
  | (_, .goto ()) => none

def clone (s : Session σ V) (handle : HandleKind) (block : Block) : Session σ V :=
  match handle.clone (s.counter block) with
  | (counter, true) =>
    { s with
      counter := Function.update s.counter block counter
      handles := (handle, block) :: s.handles }
  | (counter, false) =>
    { s with counter := Function.update s.counter block counter, panicked := true }

def write (s : Session σ V) (block : Block) (value : V) : Session σ V :=
  { s with value := Function.update s.value block (some value) }

def dropBlock (K : Kind σ) (fuel : Nat) (s : Session σ V) (block : Block) : Option (Session σ V) :=
  let s := { s with dropped := s.dropped ++ [s.value block] }
  match K.dropBlock s.alive block fuel s.arena with
  | (arena, .ret ()) => some { s with arena }
  | (arena, .panic) => some { s with arena, panicked := true }
  | (_, .goto ()) => none

def drop (K : Kind σ) (fuel : Nat) (s : Session σ V) (k : Nat) (handle : HandleKind)
    (block : Block) : Option (Session σ V) :=
  match bounded handle.drop .load fuel (s.counter block) with
  | (counter, .ret last) =>
    let s :=
      { s with
        counter := Function.update s.counter block counter
        handles := s.handles.eraseIdx k }
    if last then s.dropBlock K fuel block else some s
  | (_, .panic) => some { s with panicked := true }
  | (_, .goto ()) => none

def shrink (K : Kind σ) (fuel : Nat) (s : Session σ V) : Option (Session σ V) :=
  match K.shrinkToFit fuel s.arena with
  | (arena, .ret _) => some { s with arena }
  | (arena, .panic) => some { s with arena, panicked := true }
  | (_, .goto ()) => none

def release (K : Kind σ) (fuel : Nat) (s : Session σ V) : Option (Session σ V) :=
  match K.release fuel s.arena with
  | (arena, .ret ()) => some { s with arena, alive := false }
  | (arena, .panic) => some { s with arena, panicked := true }
  | (_, .goto ()) => none

/-- The kinds of handles without `Clone` are those with `DerefMut`. -/
def exec (K : Kind σ) (fuel : Nat) (s : Session σ V) : SessionAct V → Option (Session σ V)
  | .alloc kind value =>
    match K.handle kind with
    | some handle => if s.alive then s.alloc K fuel handle value else none
    | none => none
  | .clone k =>
    match s.handles[k]? with
    | some (handle, block) => if handle.cloneable then some (s.clone handle block) else none
    | none => none
  | .write k value =>
    match s.handles[k]? with
    | some (handle, block) => if handle.cloneable then none else some (s.write block value)
    | none => none
  | .drop k =>
    match s.handles[k]? with
    | some (handle, block) => s.drop K fuel k handle block
    | none => none
  | .shrink => if s.alive then s.shrink K fuel else none
  | .release => if s.alive then s.release K fuel else none

def step (K : Kind σ) (s : Session σ V) (label : Nat × SessionAct V) : Option (Session σ V) :=
  if s.panicked then none
  else
    match s.exec K label.1 label.2 with
    | some s' => if s'.Fits K then some s' else none
    | none => none

def Offered (K : Kind σ) (s : Session σ V) : SessionAct V → Prop
  | .alloc kind _ => s.alive = true ∧ ∃ handle, K.handle kind = some handle
  | .clone k => ∃ handle block, s.handles[k]? = some (handle, block) ∧ handle.cloneable = true
  | .write k _ => ∃ handle block, s.handles[k]? = some (handle, block) ∧ handle.cloneable = false
  | .drop k => ∃ handle block, s.handles[k]? = some (handle, block)
  | .shrink => s.alive = true
  | .release => s.alive = true

end Session

def sessionMachine {σ : Type} (K : Kind σ) (cap : Nat) (V : Type) :
    Machine (Session σ V) (Nat × SessionAct V) where
  init s := s = Session.start K cap ∧ s.Fits K
  step := Session.step K

end MemoryPools
