import MemoryPools.Heap
import MemoryPools.Page.SharedArena
import MemoryPools.Interleave.Machine

/-!
# The arena of many threads

`shared_arena.rs`. Any number of threads allocate, shrink and drop handles. A
program counter stands before an atomic operation; what follows it up to the next
one is done in the same step. A failed assertion stops its thread. The arena lives
as long as the machine runs, so the list of pending pages can be upgraded to.
-/

namespace MemoryPools

open Interleave

structure SharedArena where
  heap : Heap PageSharedArena
  freeList : Ptr
  pendingFreeList : Ptr
  fullList : Ptr
  npages : Nat
  writer : Bool
  shrinking : Bool
  toFree : Option (List Addr)
  toFreeDelay : Nat

def delayDropShrink : Nat := 10

namespace SharedArena

open PageSharedArena (ops AcquirePc)

def withCapacity (cap : Nat) : SharedArena :=
  let npages := pagesFor cap
  let (heap, first, _) := Heap.empty.makeList PageSharedArena.new npages
  { heap
    freeList := some first
    pendingFreeList := none
    fullList := some first
    npages
    writer := false
    shrinking := false
    toFree := none
    toFreeDelay := delayDropShrink }

def page (a : SharedArena) (p : Addr) : PageSharedArena := a.heap.get p

def setPage (a : SharedArena) (p : Addr) (page : PageSharedArena) : SharedArena :=
  { a with heap := a.heap.set p page }

def nextFree (a : SharedArena) : Addr → Ptr := ops.nextFree a.heap

def next (a : SharedArena) : Addr → Ptr := ops.next a.heap

def inFreeList (a : SharedArena) : Addr → Bool := ops.inFreeList a.heap

def unused (a : SharedArena) (p : Addr) : Bool := (a.page p).bitfield = BitVec.allOnes 64

/-! ## The end of a page -/

def dropPage (a : SharedArena) (p : Addr) (pc : DropPagePc) :
    SharedArena × Control DropPagePc Unit :=
  let r := PageSharedArena.dropPage (a.page p) a.pendingFreeList pc
  let heap := a.heap.set p r.page
  ({ a with
      heap := if r.deallocated then heap.free (.dropPage p) else heap
      pendingFreeList := r.pending }, r.control)

def dropBlock (a : SharedArena) (p : Addr) (index : Nat) (pc : DropPc) :
    SharedArena × Control DropPc Unit :=
  let r := PageSharedArena.dropBlock p index true (a.page p) a.pendingFreeList pc
  let heap := a.heap.set p r.page
  ({ a with
      heap := if r.deallocated then heap.free (.dropBlock p) else heap
      pendingFreeList := r.pending }, r.control)

inductive MaybePc
  | loadDelay
  | fetchAdd
  | swapToFree
  | dropPage (page : Addr) (rest : List Addr) (pc : DropPagePc)
  deriving DecidableEq

def dropPages : List Addr → Control MaybePc Unit
  | page :: rest => .goto (.dropPage page rest .fetch)
  | [] => .ret ()

def maybeFreePages (a : SharedArena) : MaybePc → SharedArena × Control MaybePc Unit
  | .loadDelay => (a, if a.toFreeDelay < delayDropShrink then .goto .fetchAdd else .ret ())
  | .fetchAdd =>
    ({ a with toFreeDelay := (a.toFreeDelay + 1) % 2 ^ 16 },
      if a.toFreeDelay = delayDropShrink - 1 then .goto .swapToFree else .ret ())
  | .swapToFree => ({ a with toFree := none }, dropPages (a.toFree.getD []))
  | .dropPage page rest pc =>
    let (a, control) := a.dropPage page pc
    (a, match control with
      | .goto pc => .goto (.dropPage page rest pc)
      | .ret () => dropPages rest
      | .panic => .panic)

/-! ## New pages -/

inductive PutPc
  | loadFull
  | storeNext (current : Ptr)
  | swapFull (current : Ptr)
  | loadFree
  | swapFree
  | addPages
  deriving DecidableEq

def putPages (npages : Nat) (first last : Addr) (a : SharedArena) :
    PutPc → SharedArena × Control PutPc Unit
  | .loadFull => (a, .goto (.storeNext a.fullList))
  | .storeNext current =>
      (a.setPage last { a.page last with next := current }, .goto (.swapFull current))
  | .swapFull current =>
    ({ a with fullList := some first }, if current = a.fullList then .goto .loadFree else .panic)
  | .loadFree => (a, if a.freeList = none then .goto .swapFree else .panic)
  | .swapFree =>
      ({ a with freeList := some first }, if a.freeList = none then .goto .addPages else .panic)
  | .addPages => ({ a with npages := (a.npages + npages) % 2 ^ 64 }, .ret ())

/-- `reinsert` is linked page by page, `rest` is the part that is not linked yet. -/
inductive TakePc
  | swapToFree
  | loadPages (toFree : List Addr)
  | linkFree (kept reinsert rest : List Addr)
  | link (kept reinsert rest : List Addr)
  | setInFree (kept reinsert rest : List Addr)
  | put (kept reinsert : List Addr) (first last : Addr) (pc : PutPc)
  | storeToFree (kept : List Addr)
  | storeDelay (delay : Nat)
  deriving DecidableEq

/-- `make_list_from_slice` goes on to the next page, or has the first and the last one. -/
def linkFrom (kept reinsert rest : List Addr) : Control TakePc Unit :=
  match rest, reinsert.head?, reinsert.getLast? with
  | _ :: _, _, _ => .goto (.linkFree kept reinsert rest)
  | [], some first, some last => .goto (.put kept reinsert first last .loadFull)
  | [], _, _ => .panic

def takePages (a : SharedArena) : TakePc → SharedArena × Control TakePc Unit
  | .swapToFree =>
    ({ a with toFree := none }, match a.toFree with
      | some toFree => .goto (.loadPages toFree)
      | none => .ret ())
  | .loadPages toFree =>
    let truncateAt := toFree.length - max a.npages 1
    (a, linkFrom (toFree.take truncateAt) (toFree.drop truncateAt) (toFree.drop truncateAt))
  | .linkFree kept reinsert rest =>
    match rest with
    | page :: behind =>
      (a.setPage page { a.page page with nextFree := behind.head? },
        .goto (.link kept reinsert rest))
    | [] => (a, .panic)
  | .link kept reinsert rest =>
    match rest with
    | page :: behind =>
      (a.setPage page { a.page page with next := behind.head? },
        .goto (.setInFree kept reinsert rest))
    | [] => (a, .panic)
  | .setInFree kept reinsert rest =>
    match rest with
    | page :: behind =>
        (a.setPage page { a.page page with inFreeList := true }, linkFrom kept reinsert behind)
    | [] => (a, .panic)
  | .put kept reinsert first last pc =>
    let (a, control) := a.putPages reinsert.length first last pc
    (a, match control with
      | .goto pc => .goto (.put kept reinsert first last pc)
      | .ret () => .goto (if kept ≠ [] then .storeToFree kept else .storeDelay delayDropShrink)
      | .panic => .panic)
  | .storeToFree kept =>
    ({ a with toFree := some kept }, if a.toFree = none then .goto (.storeDelay 0) else .panic)
  | .storeDelay delay => ({ a with toFreeDelay := delay }, .ret ())

/-! ## Allocation -/

inductive FindPc
  | loadFree
  | acquire (page : Addr) (pc : AcquirePc)
  | loadNext (page : Addr)
  | casFree (page : Addr) (next : Ptr)
  | clearInFree (page : Addr)
  -- `WriterGuard::new`
  | loadWriter
  | swapWriter
  -- another thread is the writer
  | loadContended
  | maybeFree (guarded : Bool) (pc : MaybePc)
  -- from here on the thread is the writer
  | recheckFree
  | loadPending
  | swapPending
  | swapFree (pending : Ptr)
  | loadToFree
  | take (pc : TakePc)
  -- `alloc_new_page`
  | loadPages
  | put (npages : Nat) (first last : Addr) (pc : PutPc)
  | unlock
  deriving DecidableEq

/-- One operation of `find_place`. The result is a page and the index of a block. -/
def findPlace (a : SharedArena) : FindPc → SharedArena × Control FindPc (Addr × Nat)
  | .loadFree =>
    match a.freeList with
    | some page => (a, .goto (.acquire page .load))
    | none => (a, .goto .loadWriter)
  | .acquire page pc =>
    let (page', control) := PageSharedArena.acquireFreeBlock (a.page page) pc
    (a.setPage page page',
      match control with
      | .goto pc => .goto (.acquire page pc)
      | .ret (some index) => .ret (page, index)
      | .ret none => .goto (.loadNext page)
      | .panic => .panic)
  | .loadNext page => (a, .goto (.casFree page (a.nextFree page)))
  | .casFree page next =>
    if a.freeList = some page then ({ a with freeList := next }, .goto (.clearInFree page))
    else (a, .goto .loadFree)
  | .clearInFree page => (a.setPage page { a.page page with inFreeList := false }, .goto .loadFree)
  | .loadWriter => (a, .goto (if a.writer then .loadContended else .swapWriter))
  | .swapWriter =>
      ({ a with writer := true }, .goto (if a.writer then .loadContended else .recheckFree))
  | .loadContended =>
      (a, .goto (if a.freeList = none then .loadFree else .maybeFree false .loadDelay))
  | .maybeFree guarded pc =>
    let (a, control) := a.maybeFreePages pc
    (a, match control with
      | .goto pc => .goto (.maybeFree guarded pc)
      | .ret () => .goto (if guarded then .unlock else .loadFree)
      | .panic => .panic)
  | .recheckFree => (a, .goto (if a.freeList = none then .loadPending else .unlock))
  | .loadPending => (a, .goto (if a.pendingFreeList = none then .loadToFree else .swapPending))
  | .swapPending => ({ a with pendingFreeList := none }, .goto (.swapFree a.pendingFreeList))
  | .swapFree pending =>
    ({ a with freeList := pending }, if a.freeList = none
      then .goto (.maybeFree true .loadDelay) else .panic)
  | .loadToFree => (a, .goto (if a.toFree = none then .loadPages else .take .swapToFree))
  | .take pc =>
    let (a, control) := a.takePages pc
    (a, match control with
      | .goto pc => .goto (.take pc)
      | .ret () => .goto .unlock
      | .panic => .panic)
  | .loadPages =>
    let toAllocate := growth a.npages
    let (heap, first, last) := a.heap.makeList PageSharedArena.new toAllocate
    ({ a with heap }, .goto (.put toAllocate first last .loadFull))
  | .put npages first last pc =>
    let (a, control) := a.putPages npages first last pc
    (a, match control with
      | .goto pc => .goto (.put npages first last pc)
      | .ret () => .goto .unlock
      | .panic => .panic)
  | .unlock => ({ a with writer := false }, .goto .loadFree)

/-! ## Shrinking -/

/-- `start` is the local head of the walk over the free pages, `current` the link
that the walk came through. -/
inductive ShrinkPc
  | swapShrinking
  | swapWriter
  | swapFree
  | loadPages (start : Ptr)
  | walk (start current : Ptr) (toDrop : List Addr)
  | walkNext (start current : Ptr) (value : Addr) (toDrop : List Addr)
  | walkBits (start current : Ptr) (value : Addr) (nextValue : Ptr) (toDrop : List Addr)
  | walkCas (start current : Ptr) (value : Addr) (nextValue : Ptr) (toDrop : List Addr)
  | retain (start : Ptr) (kept : List Addr) (page : Addr) (rest : List Addr)
  | full (start : Ptr) (toDrop : List Addr) (current : Ptr)
  | fullNext (start : Ptr) (toDrop : List Addr) (current : Ptr) (value : Addr)
  | fullCas (start : Ptr) (toDrop : List Addr) (current : Ptr) (value : Addr) (nextValue : Ptr)
  | storeDelay (start : Ptr) (toDrop : List Addr)
  | swapToFree (start : Ptr) (toDrop : List Addr)
  | storeToFree (start : Ptr) (nfreed : Nat) (toFree : List Addr)
  | restore (start : Ptr) (nfreed : Nat)
  | subPages (nfreed : Nat)
  | clearShrinking
  | unlock
  deriving DecidableEq

/-- `to_drop.retain` goes on to the next page, or the walk over `full_list` starts. -/
def retainFrom (start : Ptr) (kept : List Addr) : List Addr → ShrinkPc
  | page :: rest => .retain start kept page rest
  | [] => .full start kept none

def shrinkToFit (a : SharedArena) : ShrinkPc → SharedArena × Control ShrinkPc Bool
  | .swapShrinking =>
      ({ a with shrinking := true }, if a.shrinking then .ret false else .goto .swapWriter)
  | .swapWriter => ({ a with writer := true }, .goto (if a.writer then .swapWriter else .swapFree))
  | .swapFree => ({ a with freeList := none }, .goto (.loadPages a.freeList))
  | .loadPages start => (a, .goto (.walk start none []))
  | .walk start current toDrop =>
    match readLink a.nextFree start current with
    | some value => (a, .goto (.walkNext start current value toDrop))
    | none => (a, .goto (retainFrom start [] toDrop))
  | .walkNext start current value toDrop =>
    (a, .goto (.walkBits start current value (a.nextFree value) toDrop))
  | .walkBits start current value nextValue toDrop =>
    if a.unused value then (a, .goto (.walkCas start current value nextValue toDrop))
    else (a, .goto (.walk start (some value) toDrop))
  | .walkCas start current value nextValue toDrop =>
    if readLink a.nextFree start current = some value then
      match current with
      | none => (a, .goto (.walk nextValue none (toDrop ++ [value])))
      | some c =>
        (a.setPage c { a.page c with nextFree := nextValue },
          .goto (.walk start (some c) (toDrop ++ [value])))
    else (a, .goto (.walk start current toDrop))
  | .retain start kept page rest =>
    (a, .goto (retainFrom start (if a.unused page then kept ++ [page] else kept) rest))
  | .full start toDrop current =>
    match readLink a.next a.fullList current with
    | some value => (a, .goto (.fullNext start toDrop current value))
    | none => (a, .goto (if toDrop ≠ [] then .storeDelay start toDrop else .restore start 0))
  | .fullNext start toDrop current value =>
    if value ∈ toDrop then (a, .goto (.fullCas start toDrop current value (a.next value)))
    else (a, .goto (.full start toDrop (some value)))
  | .fullCas start toDrop current value nextValue =>
    if readLink a.next a.fullList current = some value then
      match current with
      | none => ({ a with fullList := nextValue }, .goto (.full start toDrop none))
      | some c =>
          (a.setPage c { a.page c with next := nextValue }, .goto (.full start toDrop (some c)))
    else (a, .panic)
  | .storeDelay start toDrop => ({ a with toFreeDelay := 0 }, .goto (.swapToFree start toDrop))
  | .swapToFree start toDrop =>
    ({ a with toFree := none },
      .goto (.storeToFree start toDrop.length (a.toFree.getD [] ++ toDrop)))
  | .storeToFree start nfreed toFree =>
    ({ a with toFree := some toFree }, if a.toFree = none
      then .goto (.restore start nfreed) else .panic)
  | .restore start nfreed =>
    ({ a with freeList := start }, if a.freeList = none then .goto (.subPages nfreed) else .panic)
  | .subPages nfreed =>
      ({ a with npages := (a.npages + (2 ^ 64 - nfreed % 2 ^ 64)) % 2 ^ 64 }, .goto .clearShrinking)
  | .clearShrinking => ({ a with shrinking := false }, .goto .unlock)
  | .unlock => ({ a with writer := false }, .ret true)

end SharedArena

/-! ## The machine -/

inductive SharedCall
  | idle
  | alloc (pc : SharedArena.FindPc)
  | shrink (pc : SharedArena.ShrinkPc)
  | drop (page : Addr) (index : Nat) (pc : DropPc)
  | panicked
  deriving DecidableEq

instance : Inhabited SharedCall := ⟨.idle⟩

structure SharedState where
  arena : SharedArena
  handles : List (Addr × Nat)
  threads : Store SharedCall

inductive SharedAct
  | alloc (t : Tid)
  | shrink (t : Tid)
  | drop (t : Tid) (page : Addr) (index : Nat)
  | step (t : Tid)
  deriving DecidableEq

def SharedAct.noShrink : SharedAct → Bool
  | .shrink _ => false
  | _ => true

namespace SharedCall

def afterAlloc : Control SharedArena.FindPc (Addr × Nat) → SharedCall
  | .goto pc => .alloc pc
  | .ret _ => .idle
  | .panic => .panicked

def afterShrink : Control SharedArena.ShrinkPc Bool → SharedCall
  | .goto pc => .shrink pc
  | .ret _ => .idle
  | .panic => .panicked

def afterDrop (page : Addr) (index : Nat) : Control DropPc Unit → SharedCall
  | .goto pc => .drop page index pc
  | .ret () => .idle
  | .panic => .panicked

end SharedCall

namespace SharedState

def made : Control SharedArena.FindPc (Addr × Nat) → List (Addr × Nat)
  | .ret block => [block]
  | _ => []

def stepThread (s : SharedState) (t : Tid) : Option SharedState :=
  match s.threads.get t with
  | .alloc pc =>
    let (arena, control) := s.arena.findPlace pc
    some { arena, handles := made control ++ s.handles, threads := s.threads.set t (.afterAlloc control) }
  | .shrink pc =>
    let (arena, control) := s.arena.shrinkToFit pc
    some { s with arena, threads := s.threads.set t (.afterShrink control) }
  | .drop page index pc =>
    let (arena, control) := s.arena.dropBlock page index pc
    some { s with arena, threads := s.threads.set t (.afterDrop page index control) }
  | .idle | .panicked => none

def step (s : SharedState) : SharedAct → Option SharedState
  | .alloc t =>
    if s.threads.get t = .idle then some { s with threads := s.threads.set t (.alloc .loadFree) }
      else none
  | .shrink t =>
    if s.threads.get t = .idle
      then some { s with threads := s.threads.set t (.shrink .swapShrinking) } else none
  | .drop t page index =>
    if s.threads.get t = .idle ∧ (page, index) ∈ s.handles then
      some { s with
        handles := s.handles.erase (page, index)
        threads := s.threads.set t (.drop page index .fetchAdd) }
    else none
  | .step t => s.stepThread t

def start (cap : Nat) : SharedState where
  arena := .withCapacity cap
  handles := []
  threads := Store.empty

def quiescent (s : SharedState) : Bool := s.threads.all fun c => c = .idle

/-! ## What a step can do -/

inductive Moves (s : SharedState) : SharedAct → SharedState → Prop
  | startAlloc {t : Tid} (h : s.threads.get t = .idle) :
    Moves s (.alloc t) { s with threads := s.threads.set t (.alloc .loadFree) }
  | startShrink {t : Tid} (h : s.threads.get t = .idle) :
    Moves s (.shrink t) { s with threads := s.threads.set t (.shrink .swapShrinking) }
  | startDrop {t : Tid} {p : Addr} {i : Nat}
      (h : s.threads.get t = .idle) (hi : (p, i) ∈ s.handles) :
    Moves s (.drop t p i)
      { s with handles := s.handles.erase (p, i), threads := s.threads.set t (.drop p i .fetchAdd) }
  | alloc {t : Tid} {pc : SharedArena.FindPc} {arena : SharedArena}
      {control : Control SharedArena.FindPc (Addr × Nat)}
    (h : s.threads.get t = .alloc pc) (hs : s.arena.findPlace pc = (arena, control)) :
    Moves s (.step t)
      { arena, handles := made control ++ s.handles, threads := s.threads.set t (.afterAlloc control) }
  | shrink {t : Tid} {pc : SharedArena.ShrinkPc} {arena : SharedArena}
      {control : Control SharedArena.ShrinkPc Bool}
    (h : s.threads.get t = .shrink pc) (hs : s.arena.shrinkToFit pc = (arena, control)) :
    Moves s (.step t) { s with arena, threads := s.threads.set t (.afterShrink control) }
  | giveBlock {t : Tid} {p : Addr} {i : Nat} {page : PageSharedArena} {last : Bool}
    (h : s.threads.get t = .drop p i .fetchAdd) (hg : PageSharedArena.giveBlock i
      (s.arena.page p) = (page, last)) :
    Moves s (.step t)
      { s with arena := s.arena.setPage p page
               threads :=
                 s.threads.set t (.drop p i (if last then .deallocate else .push .loadInFree)) }
  | freeBlock {t : Tid} {p : Addr} {i : Nat} (h : s.threads.get t = .drop p i .deallocate) :
    Moves s (.step t)
      { s with arena := { s.arena with heap := (s.arena.heap.set p (s.arena.page p)).free (.dropBlock p) }
               threads := s.threads.set t .idle }
  | push {t : Tid} {p : Addr} {i : Nat} {pc : PushPc} {links : PageLinks} {pending : Ptr}
      {control : Control PushPc Unit}
    (h : s.threads.get t = .drop p i (.push pc))
    (hp : (s.arena.page p).toPageLinks.push p true s.arena.pendingFreeList
      pc = (links, pending, control)) :
    Moves s (.step t)
      { s with arena := { s.arena.setPage p { s.arena.page p with toPageLinks := links } with
                 pendingFreeList := pending }
               threads := s.threads.set t (.afterDrop p i (control.map .push)) }

theorem moves_of_stepThread {s s' : SharedState} {t : Tid} (h : s.stepThread t = some s') :
    Moves s (.step t) s' := by
  unfold stepThread at h
  cases hp : s.threads.get t with
  | idle => rw [hp] at h; cases h
  | panicked => rw [hp] at h; cases h
  | alloc pc =>
    rw [hp] at h
    obtain rfl := Option.some.inj h
    exact .alloc hp rfl
  | shrink pc =>
    rw [hp] at h
    obtain rfl := Option.some.inj h
    exact .shrink hp rfl
  | drop p i pc =>
    rw [hp] at h
    obtain rfl := Option.some.inj h
    cases pc with
    | fetchAdd => exact .giveBlock hp rfl
    | deallocate => exact .freeBlock hp
    | push pc => exact .push hp rfl

theorem moves_of_step {s s' : SharedState} {a : SharedAct} (h : s.step a = some s') :
    Moves s a s' := by
  cases a with
  | alloc t =>
    simp only [step] at h
    split at h
    · rename_i hi; obtain rfl := Option.some.inj h; exact .startAlloc hi
    · cases h
  | shrink t =>
    simp only [step] at h
    split at h
    · rename_i hi; obtain rfl := Option.some.inj h; exact .startShrink hi
    · cases h
  | drop t p i =>
    simp only [step] at h
    split at h
    · rename_i hi; obtain rfl := Option.some.inj h; exact .startDrop hi.1 hi.2
    · cases h
  | step t => exact moves_of_stepThread h

end SharedState

def SharedArena.machine : Machine SharedState SharedAct where
  init s := ∃ cap, s = .start cap
  step := SharedState.step

end MemoryPools
