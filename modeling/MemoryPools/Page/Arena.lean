import MemoryPools.Page.Ops

/-!
# Pages of an `Arena`

`page/arena.rs`. The owner alone reads and writes `bitfield`; dropping threads
add their bits to `bitfield_atomic`, and the owner merges them when its own word
runs empty. The most significant bit moves to `bitfield_atomic` when the arena
gives the page up.
-/

namespace MemoryPools

open Interleave

structure PageArena extends PageLinks where
  bitfield : Bitfield
  bitfieldAtomic : Bitfield
  deriving DecidableEq

namespace PageArena

def new (next : Ptr) : PageArena where
  bitfield := BitVec.allOnes 64
  bitfieldAtomic := 0
  nextFree := next
  next := next
  inFreeList := true

instance : Inhabited PageArena := ⟨new none⟩

inductive AcquirePc
  | scan
  | loadAtomic
  | swapAtomic
  | merge (swapped : Bitfield)
  deriving DecidableEq

def acquireFreeBlock (page : PageArena) : AcquirePc → PageArena × Control AcquirePc (Option Nat)
  | .scan =>
    let indexFree := page.bitfield.ctz.toNat
    if indexFree = blockPerPage then (page, .goto .loadAtomic)
    else
      ({ page with bitfield := page.bitfield &&& ~~~bit indexFree },
        -- `self.blocks[index_free]`
        if indexFree < blockPerPage then .ret (some indexFree) else .panic)
  | .loadAtomic => (page, if page.bitfieldAtomic ≠ 0 then .goto .swapAtomic else .ret none)
  | .swapAtomic => ({ page with bitfieldAtomic := 0 }, .goto (.merge page.bitfieldAtomic))
  | .merge swapped => ({ page with bitfield := page.bitfield ||| swapped }, .goto .scan)

def giveBlock (index : Nat) (page : PageArena) : PageArena × Bool :=
  let oldBitfield := page.bitfieldAtomic
  let newBitfield := oldBitfield ||| bit index
  ({ page with bitfieldAtomic := oldBitfield + bit index }, newBitfield = BitVec.allOnes 64)

def givePage (page : PageArena) : PageArena × Bool :=
  let bitfield := page.bitfield
  let oldBitfield := page.bitfieldAtomic
  ({ page with bitfieldAtomic := oldBitfield ||| bitfield },
    oldBitfield ||| bitfield = BitVec.allOnes 64)

def ops : PageOps PageArena AcquirePc where
  links := toPageLinks
  setLinks page links := { page with toPageLinks := links }
  acquireStart := .scan
  acquireFreeBlock
  giveBlock
  givePage

def dropBlock := ops.dropBlock

def dropPage := ops.dropPage

end PageArena

end MemoryPools
