import MemoryPools.Page.Ops

/-!
# Pages of a `SharedArena`

`page/shared_arena.rs`. A one bit marks a free block; the most significant bit
is set while the arena owns the page.
-/

namespace MemoryPools

open Interleave

structure PageSharedArena extends PageLinks where
  bitfield : Bitfield
  deriving DecidableEq

namespace PageSharedArena

def new (next : Ptr) : PageSharedArena where
  bitfield := BitVec.allOnes 64
  nextFree := next
  next := next
  inFreeList := true

instance : Inhabited PageSharedArena := ⟨new none⟩

inductive AcquirePc
  | load
  | fetchAnd (indexFree : Nat)
  deriving DecidableEq

def acquireFreeBlock (page : PageSharedArena) :
    AcquirePc → PageSharedArena × Control AcquirePc (Option Nat)
  | .load =>
    let indexFree := page.bitfield.ctz.toNat
    (page, if indexFree = blockPerPage then .ret none else .goto (.fetchAnd indexFree))
  | .fetchAnd indexFree =>
    let previousBitfield := page.bitfield
    let page := { page with bitfield := previousBitfield &&& ~~~bit indexFree }
    -- the bit was still set: `blocks.get(index_free)`; else another thread took the block
    if previousBitfield &&& bit indexFree ≠ 0 then
      (page, .ret (if indexFree < blockPerPage then some indexFree else none))
    else (page, .goto .load)

def giveBlock (index : Nat) (page : PageSharedArena) : PageSharedArena × Bool :=
  let oldBitfield := page.bitfield
  let newBitfield := oldBitfield ||| bit index
  ({ page with bitfield := oldBitfield + bit index }, ~~~newBitfield = maskArenaBit)

def givePage (page : PageSharedArena) : PageSharedArena × Bool :=
  let oldBitfield := page.bitfield
  ({ page with bitfield := oldBitfield - maskArenaBit }, ~~~oldBitfield = 0)

def ops : PageOps PageSharedArena AcquirePc where
  links := toPageLinks
  setLinks page links := { page with toPageLinks := links }
  acquireStart := .load
  acquireFreeBlock
  giveBlock
  givePage

def dropBlock := ops.dropBlock

def dropPage := ops.dropPage

end PageSharedArena

end MemoryPools
