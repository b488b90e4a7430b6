import MemoryPools.Heap
import MemoryPools.Page.Arena
import MemoryPools.Interleave.Machine

/-!
# The arena of one owner

`arena.rs`. The owner allocates, shrinks and finally drops the arena; any number of
threads drop handles meanwhile. A program counter stands before an atomic
operation; what follows it up to the next one is done in the same step. `free_list`
and `npages` are cells of the owner and no atomic operations.
-/

namespace MemoryPools

open Interleave

structure Arena where
  heap : Heap PageArena
  freeList : Ptr
  pendingFreeList : Ptr
  fullList : Ptr
  npages : Nat

namespace Arena

open PageArena (ops AcquirePc)

def withCapacity (cap : Nat) : Arena :=
  let npages := pagesFor cap
  let (heap, first, _) := Heap.empty.makeList PageArena.new npages
  { heap, freeList := some first, pendingFreeList := none, fullList := some first, npages }

def page (a : Arena) (p : Addr) : PageArena := a.heap.get p

def setPage (a : Arena) (p : Addr) (page : PageArena) : Arena :=
  { a with heap := a.heap.set p page }

def nextFree (a : Arena) : Addr → Ptr := ops.nextFree a.heap

def next (a : Arena) : Addr → Ptr := ops.next a.heap

def inFreeList (a : Arena) : Addr → Bool := ops.inFreeList a.heap

/-- Every block of the page is free, and the arena owns it. -/
def unused (a : Arena) (p : Addr) : Bool :=
  (a.page p).bitfield ||| (a.page p).bitfieldAtomic = BitVec.allOnes 64

/-! ## Allocation -/

inductive FindPc
  | getFree
  | acquire (page : Addr) (pc : AcquirePc)
  | unlink (page : Addr)
  | clearInFree (page : Addr)
  | loadPending
  | swapPending
  -- `alloc_new_page`
  | loadFull
  | linkLast (npages : Nat) (first last : Addr) (current : Ptr)
  | swapFull (npages : Nat) (first : Addr)
  | setFree (npages : Nat) (first : Addr)
  deriving DecidableEq

/-- One operation of `find_place`. The result is a page and the index of a block. -/
def findPlace (a : Arena) : FindPc → Arena × Control FindPc (Addr × Nat)
  | .getFree =>
    match a.freeList with
    | some page => (a, .goto (.acquire page .scan))
    | none => (a, .goto .loadPending)
  | .acquire page pc =>
    let (page', control) := PageArena.acquireFreeBlock (a.page page) pc
    (a.setPage page page',
      match control with
      | .goto pc => .goto (.acquire page pc)
      | .ret (some index) => .ret (page, index)
      | .ret none => .goto (.unlink page)
      | .panic => .panic)
  | .unlink page => ({ a with freeList := a.nextFree page }, .goto (.clearInFree page))
  | .clearInFree page => (a.setPage page { a.page page with inFreeList := false }, .goto .getFree)
  | .loadPending => (a, .goto (if a.pendingFreeList = none then .loadFull else .swapPending))
  | .swapPending =>
      ({ a with freeList := a.pendingFreeList, pendingFreeList := none }, .goto .getFree)
  | .loadFull =>
    let toAllocate := growth a.npages
    let (heap, first, last) := a.heap.makeList PageArena.new toAllocate
    ({ a with heap }, .goto (.linkLast toAllocate first last a.fullList))
  | .linkLast npages first last current =>
    (a.setPage last { a.page last with next := current }, .goto (.swapFull npages first))
  | .swapFull npages first => ({ a with fullList := some first }, .goto (.setFree npages first))
  | .setFree npages first =>
    -- `assert!(current.is_null())`
    if a.freeList = none then
      ({ a with freeList := some first, npages := a.npages + npages }, .goto .getFree)
    else (a, .panic)

/-! ## Shrinking -/

/-- `start` is the local head of the walk over the free pages, `current` the link
that the walk came through. -/
inductive ShrinkPc
  | takeFree
  | walk (start current : Ptr) (toDrop : List Addr)
  | walkNext (start current : Ptr) (value : Addr) (toDrop : List Addr)
  | walkBits (start current : Ptr) (value : Addr) (nextValue : Ptr) (toDrop : List Addr)
  | walkCas (start current : Ptr) (value : Addr) (nextValue : Ptr) (toDrop : List Addr)
  | full (start : Ptr) (toDrop : List Addr) (current : Ptr)
  | fullNext (start : Ptr) (toDrop : List Addr) (current : Ptr) (value : Addr)
  | fullCas (start : Ptr) (toDrop : List Addr) (current : Ptr) (value : Addr) (nextValue : Ptr)
  | recheck (start : Ptr) (toDrop rest : List Addr)
  | dropPage (start : Ptr) (toDrop : List Addr) (page : Addr) (rest : List Addr) (pc : DropPagePc)
  | restore (start : Ptr) (toDrop : List Addr)
  deriving DecidableEq

def dropPage (a : Arena) (p : Addr) (pc : DropPagePc) : Arena × Control DropPagePc Unit :=
  let r := PageArena.dropPage (a.page p) a.pendingFreeList pc
  let heap := a.heap.set p r.page
  ({ a with
      heap := if r.deallocated then heap.free (.dropPage p) else heap
      pendingFreeList := r.pending }, r.control)

def shrinkToFit (a : Arena) : ShrinkPc → Arena × Control ShrinkPc Bool
  | .takeFree => ({ a with freeList := none }, .goto (.walk a.freeList none []))
  | .walk start current toDrop =>
    match readLink a.nextFree start current with
    | some value => (a, .goto (.walkNext start current value toDrop))
    | none => (a, .goto (.full start toDrop none))
  | .walkNext start current value toDrop =>
    (a, .goto (.walkBits start current value (a.nextFree value) toDrop))
  | .walkBits start current value nextValue toDrop =>
    if a.unused value then (a, .goto (.walkCas start current value nextValue toDrop))
    else (a, .goto (.walk start (some value) toDrop))
  | .walkCas start current value nextValue toDrop =>
    if readLink a.nextFree start current = some value then
      match current with
      | none => (a, .goto (.walk nextValue none (toDrop ++ [value])))
      | some c =>
        (a.setPage c { a.page c with nextFree := nextValue },
          .goto (.walk start (some c) (toDrop ++ [value])))
    else (a, .goto (.walk start current toDrop))
  | .full start toDrop current =>
    match readLink a.next a.fullList current with
    | some value => (a, .goto (.fullNext start toDrop current value))
    | none => (a, .goto (.recheck start toDrop toDrop))
  | .fullNext start toDrop current value =>
    if value ∈ toDrop then (a, .goto (.fullCas start toDrop current value (a.next value)))
    else (a, .goto (.full start toDrop (some value)))
  | .fullCas start toDrop current value nextValue =>
    if readLink a.next a.fullList current = some value then
      match current with
      | none => ({ a with fullList := nextValue }, .goto (.full start toDrop none))
      | some c =>
          (a.setPage c { a.page c with next := nextValue }, .goto (.full start toDrop (some c)))
    else (a, .panic)
  | .recheck start toDrop rest =>
    match rest with
    | page :: rest =>
      if a.unused page then (a, .goto (.dropPage start toDrop page rest .fetch)) else (a, .panic)
    | [] => (a, .goto (.restore start toDrop))
  | .dropPage start toDrop page rest pc =>
    let (a, control) := a.dropPage page pc
    (a, match control with
      | .goto pc => .goto (.dropPage start toDrop page rest pc)
      | .ret () => .goto (.recheck start toDrop rest)
      | .panic => .panic)
  | .restore start toDrop =>
    if toDrop.length ≤ a.npages then
      ({ a with freeList := start, npages := a.npages - toDrop.length }, .ret true)
    else ({ a with freeList := start }, .panic)

/-! ## The end of the arena -/

inductive ReleasePc
  | loadFull
  | loadNext (page : Addr)
  | dropPage (page : Addr) (next : Ptr) (pc : DropPagePc)
  deriving DecidableEq

def releaseFrom : Ptr → Control ReleasePc Unit
  | some page => .goto (.loadNext page)
  | none => .ret ()

def release (a : Arena) : ReleasePc → Arena × Control ReleasePc Unit
  | .loadFull => (a, releaseFrom a.fullList)
  | .loadNext page => (a, .goto (.dropPage page (a.next page) .fetch))
  | .dropPage page next pc =>
    let (a, control) := a.dropPage page pc
    (a, match control with
      | .goto pc => .goto (.dropPage page next pc)
      | .ret () => releaseFrom next
      | .panic => .panic)

def dropBlock (a : Arena) (p : Addr) (index : Nat) (upgraded : Bool) (pc : DropPc) :
    Arena × Control DropPc Unit :=
  let r := PageArena.dropBlock p index upgraded (a.page p) a.pendingFreeList pc
  let heap := a.heap.set p r.page
  ({ a with
      heap := if r.deallocated then heap.free (.dropBlock p) else heap
      pendingFreeList := r.pending }, r.control)

end Arena

/-! ## The machine -/

inductive ArenaCall
  | idle
  | alloc (pc : Arena.FindPc)
  | shrink (pc : Arena.ShrinkPc)
  | release (pc : Arena.ReleasePc)
  -- the arena does not exist any more
  | released
  | panicked
  deriving DecidableEq

inductive DropThread
  | idle
  | drop (page : Addr) (index : Nat) (pc : DropPc)
  deriving DecidableEq

instance : Inhabited DropThread := ⟨.idle⟩

structure ArenaState where
  arena : Arena
  handles : List (Addr × Nat)
  owner : ArenaCall
  threads : Store DropThread

inductive ArenaAct
  | alloc
  | shrink
  | release
  | stepOwner
  | drop (t : Tid) (page : Addr) (index : Nat)
  | step (t : Tid) (upgraded : Bool)
  deriving DecidableEq

namespace ArenaState

def afterAlloc (s : ArenaState) (arena : Arena) : Control Arena.FindPc (Addr × Nat) → ArenaState
  | .goto pc => { s with arena, owner := .alloc pc }
  | .ret block => { s with arena, owner := .idle, handles := block :: s.handles }
  | .panic => { s with arena, owner := .panicked }

def afterShrink (s : ArenaState) (arena : Arena) : Control Arena.ShrinkPc Bool → ArenaState
  | .goto pc => { s with arena, owner := .shrink pc }
  | .ret _ => { s with arena, owner := .idle }
  | .panic => { s with arena, owner := .panicked }

def afterRelease (s : ArenaState) (arena : Arena) : Control Arena.ReleasePc Unit → ArenaState
  | .goto pc => { s with arena, owner := .release pc }
  | .ret () => { s with arena, owner := .released }
  | .panic => { s with arena, owner := .panicked }

def stepOwner (s : ArenaState) : Option ArenaState :=
  match s.owner with
  | .alloc pc =>
    let (arena, control) := s.arena.findPlace pc
    some (s.afterAlloc arena control)
  | .shrink pc =>
    let (arena, control) := s.arena.shrinkToFit pc
    some (s.afterShrink arena control)
  | .release pc =>
    let (arena, control) := s.arena.release pc
    some (s.afterRelease arena control)
  | .idle | .released | .panicked => none

def afterDrop (page : Addr) (index : Nat) : Control DropPc Unit → DropThread
  | .goto pc => .drop page index pc
  | _ => .idle

/-- The next operation of thread `t`. The list of an arena that still exists can be upgraded to. -/
def stepThread (s : ArenaState) (t : Tid) (upgraded : Bool) : Option ArenaState :=
  match s.threads.get t with
  | .drop page index pc =>
    let (arena, control) := s.arena.dropBlock page index (s.owner ≠ .released || upgraded) pc
    some { s with arena, threads := s.threads.set t (afterDrop page index control) }
  | .idle => none

def step (s : ArenaState) : ArenaAct → Option ArenaState
  | .alloc => if s.owner = .idle then some { s with owner := .alloc .getFree } else none
  | .shrink => if s.owner = .idle then some { s with owner := .shrink .takeFree } else none
  | .release => if s.owner = .idle then some { s with owner := .release .loadFull } else none
  | .stepOwner => s.stepOwner
  | .drop t page index =>
    if s.threads.get t = .idle ∧ (page, index) ∈ s.handles then
      some { s with
        handles := s.handles.erase (page, index)
        threads := s.threads.set t (.drop page index .fetchAdd) }
    else none
  | .step t upgraded => s.stepThread t upgraded

def start (cap : Nat) : ArenaState where
  arena := .withCapacity cap
  handles := []
  owner := .idle
  threads := Store.empty

def quiescent (s : ArenaState) : Bool := s.owner = .idle && s.threads.all fun c => c = .idle

/-! ## What a step can do -/

inductive Moves (s : ArenaState) : ArenaAct → ArenaState → Prop
  | startAlloc (h : s.owner = .idle) : Moves s .alloc { s with owner := .alloc .getFree }
  | startShrink (h : s.owner = .idle) : Moves s .shrink { s with owner := .shrink .takeFree }
  | startRelease (h : s.owner = .idle) : Moves s .release { s with owner := .release .loadFull }
  | alloc {pc : Arena.FindPc} {arena : Arena} {control : Control Arena.FindPc (Addr × Nat)}
      (h : s.owner = .alloc pc)
    (hs : s.arena.findPlace pc = (arena, control)) : Moves s .stepOwner (s.afterAlloc arena control)
  | shrink {pc : Arena.ShrinkPc} {arena : Arena} {control : Control Arena.ShrinkPc Bool}
      (h : s.owner = .shrink pc)
    (hs : s.arena.shrinkToFit pc = (arena, control)) : Moves s
      .stepOwner (s.afterShrink arena control)
  | release {pc : Arena.ReleasePc} {arena : Arena} {control : Control Arena.ReleasePc Unit}
      (h : s.owner = .release pc)
    (hs : s.arena.release pc = (arena, control)) : Moves s .stepOwner (s.afterRelease arena control)
  | startDrop {t : Tid} {p : Addr} {i : Nat}
      (h : s.threads.get t = .idle) (hi : (p, i) ∈ s.handles) :
    Moves s (.drop t p i)
      { s with handles := s.handles.erase (p, i), threads := s.threads.set t (.drop p i .fetchAdd) }
  | giveBlock {t : Tid} {upgraded : Bool} {p : Addr} {i : Nat} {page : PageArena} {last : Bool}
    (h : s.threads.get t = .drop p i .fetchAdd) (hg : PageArena.giveBlock i
      (s.arena.page p) = (page, last)) :
    Moves s (.step t upgraded)
      { s with arena := s.arena.setPage p page
               threads :=
                 s.threads.set t (.drop p i (if last then .deallocate else .push .loadInFree)) }
  | freeBlock {t : Tid} {upgraded : Bool} {p : Addr} {i : Nat}
      (h : s.threads.get t = .drop p i .deallocate) :
    Moves s (.step t upgraded)
      { s with arena := { s.arena with heap := (s.arena.heap.set p (s.arena.page p)).free (.dropBlock p) }
               threads := s.threads.set t .idle }
  | push {t : Tid} {upgraded : Bool} {p : Addr} {i : Nat} {pc : PushPc} {links : PageLinks}
      {pending : Ptr}
    {control : Control PushPc Unit} (h : s.threads.get t = .drop p i (.push pc))
    (hp : (s.arena.page p).toPageLinks.push p (s.owner ≠ .released || upgraded)
      s.arena.pendingFreeList pc =
      (links, pending, control)) :
    Moves s (.step t upgraded)
      { s with arena := { s.arena.setPage p { s.arena.page p with toPageLinks := links } with
                 pendingFreeList := pending }
               threads := s.threads.set t (afterDrop p i (control.map .push)) }

theorem moves_of_stepThread {s s' : ArenaState} {t : Tid} {upgraded : Bool}
    (h : s.stepThread t upgraded = some s') :
    Moves s (.step t upgraded) s' := by
  unfold stepThread at h
  cases hp : s.threads.get t with
  | idle => rw [hp] at h; cases h
  | drop p i pc =>
    rw [hp] at h
    obtain rfl := Option.some.inj h
    cases pc with
    | fetchAdd => exact .giveBlock hp rfl
    | deallocate => exact .freeBlock hp
    | push pc => exact .push hp rfl

theorem moves_of_step {s s' : ArenaState} {a : ArenaAct} (h : s.step a = some s') :
    Moves s a s' := by
  cases a with
  | alloc =>
    simp only [step] at h
    split at h
    · rename_i hi; obtain rfl := Option.some.inj h; exact .startAlloc hi
    · cases h
  | shrink =>
    simp only [step] at h
    split at h
    · rename_i hi; obtain rfl := Option.some.inj h; exact .startShrink hi
    · cases h
  | release =>
    simp only [step] at h
    split at h
    · rename_i hi; obtain rfl := Option.some.inj h; exact .startRelease hi
    · cases h
  | stepOwner =>
    simp only [step, stepOwner] at h
    split at h
    · rename_i pc ho; obtain rfl := Option.some.inj h; exact .alloc ho rfl
    · rename_i pc ho; obtain rfl := Option.some.inj h; exact .shrink ho rfl
    · rename_i pc ho; obtain rfl := Option.some.inj h; exact .release ho rfl
    · cases h
    · cases h
    · cases h
  | drop t p i =>
    simp only [step] at h
    split at h
    · rename_i hi; obtain rfl := Option.some.inj h; exact .startDrop hi.1 hi.2
    · cases h
  | step t upgraded => exact moves_of_stepThread h

end ArenaState

def Arena.machine : Machine ArenaState ArenaAct where
  init s := ∃ cap, s = .start cap
  step := ArenaState.step

end MemoryPools
