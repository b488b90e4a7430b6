import MemoryPools.Common

/-!
# What the two kinds of shared pages have in common

`page/shared_arena.rs` and `page/arena.rs` differ in their words of bits. The
rest of `drop_block` and `drop_page` is the same text in both: after the block
is given back, a page that is on no list is put on the arena's
`pending_free_list`. It is modelled once, one atomic operation at a time, over
the operations `PageOps` that the files do not share.
-/

namespace MemoryPools

open Interleave

structure PageLinks where
  nextFree : Ptr
  next : Ptr
  inFreeList : Bool
  deriving DecidableEq

/-! ## The push on the pending list -/

inductive PushPc
  | loadInFree
  | swapInFree
  | upgrade
  | loadPending
  | storeNextFree (current : Ptr)
  | casPending (current : Ptr)
  deriving DecidableEq

/-- One atomic operation of the push of the page `self`. `upgraded` says whether
`arena_pending_list.upgrade()` gives an `Arc`. -/
def PageLinks.push (self : Addr) (upgraded : Bool) (links : PageLinks) (pending : Ptr) :
    PushPc → PageLinks × Ptr × Control PushPc Unit
  | .loadInFree => (links, pending, if links.inFreeList then .ret () else .goto .swapInFree)
  | .swapInFree =>
    ({ links with inFreeList := true }, pending, if links.inFreeList then .ret ()
      else .goto .upgrade)
  | .upgrade => (links, pending, if upgraded then .goto .loadPending else .ret ())
  | .loadPending => (links, pending, .goto (.storeNextFree pending))
  | .storeNextFree current =>
      ({ links with nextFree := current }, pending, .goto (.casPending current))
  | .casPending current =>
    if pending = current then (links, some self, .ret ()) else (links, pending, .goto .loadPending)

def PushPc.touchesPage : PushPc → Bool
  | .loadInFree | .swapInFree | .upgrade | .storeNextFree _ => true
  | .loadPending | .casPending _ => false

def PushPc.inTransit : PushPc → Bool
  | .upgrade | .loadPending | .storeNextFree _ | .casPending _ => true
  | .loadInFree | .swapInFree => false

/-! ## Giving references back -/

inductive DropPc
  | fetchAdd
  | deallocate
  | push (pc : PushPc)
  deriving DecidableEq

inductive DropPagePc
  | fetch
  | deallocate
  deriving DecidableEq

structure Released (π κ : Type) where
  page : π
  pending : Ptr
  deallocated : Bool
  control : Control κ Unit

structure PageOps (π κ : Type) where
  links : π → PageLinks
  setLinks : π → PageLinks → π
  acquireStart : κ
  acquireFreeBlock : π → κ → π × Control κ (Option Nat)
  -- the `fetch_add` of `drop_block`, and whether it was the last reference
  giveBlock : Nat → π → π × Bool
  -- the read-modify-write of `drop_page`, and whether it was the last reference
  givePage : π → π × Bool

namespace PageOps

variable {π κ : Type} (ops : PageOps π κ)

def dropBlock (self : Addr) (index : Nat) (upgraded : Bool) (page : π) (pending : Ptr) :
    DropPc → Released π DropPc
  | .fetchAdd =>
    let (page, last) := ops.giveBlock index page
    { page, pending, deallocated := false,
      control := .goto (if last then .deallocate else .push .loadInFree) }
  | .deallocate => { page, pending, deallocated := true, control := .ret () }
  | .push pc =>
    let (links, pending, control) := (ops.links page).push self upgraded pending pc
    { page := ops.setLinks page links, pending, deallocated := false, control := control.map .push }

def dropPage (page : π) (pending : Ptr) : DropPagePc → Released π DropPagePc
  | .fetch =>
    let (page, last) := ops.givePage page
    { page, pending, deallocated := false, control := if last then .goto .deallocate else .ret () }
  | .deallocate => { page, pending, deallocated := true, control := .ret () }

end PageOps

end MemoryPools
