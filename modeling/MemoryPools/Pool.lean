import MemoryPools.Heap
import MemoryPools.Page.Pool
import MemoryPools.Interleave.Machine

/-!
# The pool of one thread

`pool.rs`. The pool and its handles stay in one thread, so no other call sees what is
between two operations, and an iteration of a loop is one step. The free list is also
the place where `drop_block` puts a page, and there is no pending one.
-/

namespace MemoryPools

open Interleave

structure Pool where
  heap : Heap PagePool
  free : Ptr
  pageList : Ptr
  npages : Nat

namespace Pool

def withCapacity (cap : Nat) : Pool :=
  let npages := pagesFor cap
  let (heap, first, _) := Heap.empty.makeList PagePool.new npages
  { heap, free := some first, pageList := some first, npages }

def page (a : Pool) (p : Addr) : PagePool := a.heap.get p

def setPage (a : Pool) (p : Addr) (page : PagePool) : Pool := { a with heap := a.heap.set p page }

def nextFree (a : Pool) (p : Addr) : Ptr := (a.page p).nextFree

def next (a : Pool) (p : Addr) : Ptr := (a.page p).next

/-! ## Allocation -/

def allocNewPage (a : Pool) : Pool :=
  let toAllocate := growth a.npages
  let (heap, first, last) := a.heap.makeList PagePool.new toAllocate
  { heap := heap.set last { heap.get last with nextFree := a.free, next := a.pageList }
    free := some first
    pageList := some first
    npages := a.npages + toAllocate }

inductive FindPc
  | getFree
  | allocNewPage
  deriving DecidableEq

/-- One iteration of `find_place`. The result is a page and the index of a block. -/
def findPlace (a : Pool) : FindPc → Pool × Control FindPc (Addr × Nat)
  | .getFree =>
    match a.free with
    | some p =>
      match (a.page p).acquireFreeBlock with
      | some (page, some index) => (a.setPage p page, .ret (p, index))
      | some (page, none) =>
        ({ a.setPage p { page with inFreeList := false } with free := page.nextFree },
          .goto .getFree)
      -- `blocks[index_free]` is out of bounds
      | none => (a, .panic)
    | none => (a, .goto .allocNewPage)
  | .allocNewPage => (a.allocNewPage, .goto .getFree)

/-! ## The end of a block and of a page -/

def dropBlock (a : Pool) (p : Addr) (index : Nat) (upgraded : Bool) : Pool :=
  let (page, free, deallocated) := PagePool.dropBlock p index upgraded (a.page p) a.free
  let heap := a.heap.set p page
  { a with
    heap := if deallocated then heap.free (.dropBlock p) else heap
    free }

def dropPage (a : Pool) (p : Addr) : Pool :=
  let (page, deallocated) := (a.page p).dropPage
  let heap := a.heap.set p page
  { a with heap := if deallocated then heap.free (.dropPage p) else heap }

/-! ## Shrinking -/

/-- `current` is the link that a walk came through. -/
inductive ShrinkPc
  | walk (current : Ptr) (toDrop : List Addr)
  | full (current : Ptr) (toDrop : List Addr)
  | setPages (toDrop : List Addr)
  | dropPage (rest : List Addr)
  deriving DecidableEq

def shrinkToFit (a : Pool) : ShrinkPc → Pool × Control ShrinkPc Unit
  | .walk current toDrop =>
    match readLink a.nextFree a.free current with
    | some value =>
      let nextValue := a.nextFree value
      if (a.page value).bitfield = BitVec.allOnes 64 then
        match current with
        | none => ({ a with free := nextValue }, .goto (.walk none (toDrop ++ [value])))
        | some c =>
          (a.setPage c { a.page c with nextFree := nextValue },
            .goto (.walk (some c) (toDrop ++ [value])))
      else (a, .goto (.walk (some value) toDrop))
    | none => (a, .goto (.full none toDrop))
  | .full current toDrop =>
    match readLink a.next a.pageList current with
    | some value =>
      let nextValue := a.next value
      if value ∈ toDrop then
        match current with
        | none => ({ a with pageList := nextValue }, .goto (.full none toDrop))
        | some c => (a.setPage c { a.page c with next := nextValue }, .goto (.full (some c) toDrop))
      else (a, .goto (.full (some value) toDrop))
    | none => (a, .goto (.setPages toDrop))
  | .setPages toDrop =>
    if toDrop.length ≤ a.npages then
      ({ a with npages := a.npages - toDrop.length }, .goto (.dropPage toDrop.reverse))
    else (a, .panic)
  | .dropPage (page :: rest) => (a.dropPage page, .goto (.dropPage rest))
  | .dropPage [] => (a, .ret ())

/-! ## The end of the pool -/

inductive ReleasePc
  | walk (next : Ptr)
  deriving DecidableEq

def release (a : Pool) : ReleasePc → Pool × Control ReleasePc Unit
  | .walk (some page) => (a.dropPage page, .goto (.walk (a.next page)))
  | .walk none => (a, .ret ())

/-! ## The account -/

inductive PoolStatsPc
  | walk (next : Ptr) (used npages : Nat)
  deriving DecidableEq

def stats (a : Pool) : PoolStatsPc → Pool × Control PoolStatsPc (Nat × Nat)
  | .walk (some page) used npages =>
    (a, .goto (.walk (a.next page) (used + countZeros (a.page page).bitfield) (npages + 1)))
  | .walk none used npages =>
    -- `assert!(npages == self.npages.get())`
    if npages ≠ a.npages then (a, .panic)
    else if npages * blockPerPage < used then (a, .panic)
    else (a, .ret (used, npages * blockPerPage - used))

end Pool

end MemoryPools
