import MemoryPools.SharedArena

/-!
# The end of a shared arena, and its accounts

The last owner of a `SharedArena` drops it, and handles may outlive it. `stats` counts
the free blocks of the pages on the two free lists, `fmt` the blocks of all pages.
-/

namespace MemoryPools

open Interleave

namespace SharedArena

/-! ## The end of the arena -/

/-- `upgraded`: the arena exists. -/
def dropBlockOf (a : SharedArena) (p : Addr) (index : Nat) (upgraded : Bool) (pc : DropPc) :
    SharedArena × Control DropPc Unit :=
  let r := PageSharedArena.dropBlock p index upgraded (a.page p) a.pendingFreeList pc
  let heap := a.heap.set p r.page
  ({ a with
      heap := if r.deallocated then heap.free (.dropBlock p) else heap
      pendingFreeList := r.pending }, r.control)

inductive ReleasePc
  | loadToFree
  | dropParked (page : Addr) (rest : List Addr) (pc : DropPagePc)
  | loadFull
  | loadNext (page : Addr)
  | dropPage (page : Addr) (next : Ptr) (pc : DropPagePc)
  deriving DecidableEq

def releaseParked : List Addr → ReleasePc
  | page :: rest => .dropParked page rest .fetch
  | [] => .loadFull

def releaseFrom : Ptr → Control ReleasePc Unit
  | some page => .goto (.loadNext page)
  | none => .ret ()

def release (a : SharedArena) : ReleasePc → SharedArena × Control ReleasePc Unit
  | .loadToFree => (a, .goto (releaseParked (a.toFree.getD [])))
  | .dropParked page rest pc =>
    let (a, control) := a.dropPage page pc
    (a, match control with
      | .goto pc => .goto (.dropParked page rest pc)
      | .ret () => .goto (releaseParked rest)
      | .panic => .panic)
  | .loadFull => (a, releaseFrom a.fullList)
  | .loadNext page => (a, .goto (.dropPage page (a.next page) .fetch))
  | .dropPage page next pc =>
    let (a, control) := a.dropPage page pc
    (a, match control with
      | .goto pc => .goto (.dropPage page next pc)
      | .ret () => releaseFrom next
      | .panic => .panic)

/-! ## The account of the free lists -/

/-- `free` is the count over the pages behind; `pending` says which list is walked. -/
inductive StatsPc
  | loadFree
  | loadNext (pending : Bool) (page : Addr) (free : Nat)
  | loadBits (pending : Bool) (page : Addr) (next : Ptr) (free : Nat)
  | loadPending (free : Nat)
  | loadPages (free : Nat)
  deriving DecidableEq

def statsFrom (pending : Bool) (free : Nat) : Ptr → Control StatsPc (Nat × Nat)
  | some page => .goto (.loadNext pending page free)
  | none => .goto (if pending then .loadPages free else .loadPending free)

def stats (a : SharedArena) : StatsPc → Control StatsPc (Nat × Nat)
  | .loadFree => statsFrom false 0 a.freeList
  | .loadNext pending page free => .goto (.loadBits pending page (a.nextFree page) free)
  | .loadBits pending page next free =>
    let ones := countOnes (a.page page).bitfield
    if ones = 0 then .panic else statsFrom pending (free + (ones - 1)) next
  | .loadPending free => statsFrom true free a.pendingFreeList
  | .loadPages free =>
    if a.npages * blockPerPage < free then .panic else .ret (a.npages * blockPerPage - free, free)

/-! ## The account of all pages -/

structure PageDebug where
  free : Nat
  used : Nat
  deriving DecidableEq

structure Debug where
  blocksFree : Nat
  blocksUsed : Nat
  npages : Nat
  pages : List PageDebug
  deriving DecidableEq

inductive FmtPc
  | loadPages
  | loadFull (npages : Nat)
  | loadBits (npages : Nat) (page : Addr) (vec : List PageDebug)
  | loadNext (npages : Nat) (page : Addr) (vec : List PageDebug)
  deriving DecidableEq

def fmtFrom (npages : Nat) (vec : List PageDebug) : Ptr → Control FmtPc Debug
  | some page => .goto (.loadBits npages page vec)
  | none => .ret
    { blocksFree := (vec.map PageDebug.free).sum
      blocksUsed := (vec.map PageDebug.used).sum
      npages
      pages := vec }

def fmt (a : SharedArena) : FmtPc → Control FmtPc Debug
  | .loadPages => .goto (.loadFull a.npages)
  | .loadFull npages => fmtFrom npages [] a.fullList
  | .loadBits npages page vec =>
    let used := countZeros (a.page page).bitfield
    if blockPerPage < used then .panic
    else .goto (.loadNext npages page (vec ++ [{ free := blockPerPage - used, used }]))
  | .loadNext npages page vec => fmtFrom npages vec (a.next page)

end SharedArena

end MemoryPools
