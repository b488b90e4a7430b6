import MemoryPools.Common

/-!
# Pages of a `Pool`

`page/pool.rs`. The pool and its handles live in one thread, so every function
is one step. `free` is the head of the pool's free list.
-/

namespace MemoryPools

structure PagePool where
  bitfield : Bitfield
  nextFree : Ptr
  next : Ptr
  inFreeList : Bool
  deriving DecidableEq

namespace PagePool

def new (next : Ptr) : PagePool where
  bitfield := BitVec.allOnes 64
  nextFree := next
  next := next
  inFreeList := true

instance : Inhabited PagePool := ⟨new none⟩

/-- `none` where `blocks[index_free]` is out of bounds. -/
def acquireFreeBlock (page : PagePool) : Option (PagePool × Option Nat) :=
  let indexFree := page.bitfield.ctz.toNat
  if indexFree = blockPerPage then some (page, none)
  else if indexFree < blockPerPage then
    some ({ page with bitfield := page.bitfield &&& ~~~bit indexFree }, some indexFree)
  else none

/-- The page, the head of the free list, and whether `deallocate_page` was called. -/
def dropBlock (self : Addr) (index : Nat) (upgraded : Bool) (page : PagePool) (free : Ptr) :
    PagePool × Ptr × Bool :=
  let page := { page with bitfield := page.bitfield ||| bit index }
  if ~~~page.bitfield = maskArenaBit then (page, free, true)
  else if page.inFreeList then (page, free, false)
  else
    let page := { page with inFreeList := true }
    if upgraded then ({ page with nextFree := free }, some self, false) else (page, free, false)

def dropPage (page : PagePool) : PagePool × Bool :=
  let page := { page with bitfield := page.bitfield &&& ~~~maskArenaBit }
  (page, ~~~page.bitfield = maskArenaBit)

end PagePool

end MemoryPools
