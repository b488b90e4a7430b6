import MemoryPools.Page.ReleaseSound
import MemoryPools.Session

/-!
# Blocks and their tagged page pointers

`block.rs`. A block knows its page, its index there and the kind of the page. On
64-bit targets the three share one word, `drop_block` takes them apart again; on
other targets the pointer has a word of its own. The widths are those of
`target_pointer_width`, `none` is a panic.
-/

namespace MemoryPools

open Interleave

inductive TargetWidth
  | w16
  | w32
  | w64

abbrev TargetWidth.bits : TargetWidth → Nat
  | .w16 => 16
  | .w32 => 32
  | .w64 => 64

def PageKind.into : PageKind → Nat
  | .sharedArena => 0
  | .arena => 1
  | .pool => 2

def PageKind.read : Nat → Option PageKind
  | 0 => some .sharedArena
  | 1 => some .arena
  | 2 => some .pool
  | _ => none

section
variable {w : Nat}

def nonNull (ptr : BitVec w) : Option (BitVec w) := if ptr = 0#w then none else some ptr

/-- `1 << index`. -/
def shl (w index : Nat) : BitVec w := BitVec.twoPow w (index % w)

def makeTag (index : BitVec w) (kind : PageKind) : BitVec w :=
  (BitVec.ofNat w kind.into <<< 6) ||| index

end

/-! ## The two layouts -/

structure TagLayout (w : Nat) where
  Tag : Type
  new : BitVec w → BitVec w → PageKind → Tag
  pagePtr : Tag → Option (BitVec w)
  pageKind : Tag → Option PageKind
  indexBlock : Tag → BitVec w

/-- On 64-bit targets. -/
structure PageTaggedPtr where
  data : BitVec 64

namespace PageTaggedPtr

def new (pagePtr index : BitVec 64) (kind : PageKind) : PageTaggedPtr where
  data := (pagePtr &&& ~~~(0b11111111#64 <<< 56)) ||| (makeTag index kind <<< 56)

-- the shift to the right is one of an `isize`
def pagePtr (self : PageTaggedPtr) : Option (BitVec 64) :=
  nonNull ((self.data <<< 8).sshiftRight 8)

def pageKind (self : PageTaggedPtr) : Option PageKind := PageKind.read (self.data >>> 62).toNat

def indexBlock (self : PageTaggedPtr) : BitVec 64 := (self.data >>> 56) &&& 0b111111#64

def layout : TagLayout 64 := { Tag := PageTaggedPtr, new, pagePtr, pageKind, indexBlock }

end PageTaggedPtr

/-- On the other targets. -/
structure PageTaggedPair (w : Nat) where
  ptr : BitVec w
  data : BitVec w

namespace PageTaggedPair

variable {w : Nat}

def new (pagePtr index : BitVec w) (kind : PageKind) : PageTaggedPair w where
  ptr := pagePtr
  data := makeTag index kind

def pagePtr (self : PageTaggedPair w) : Option (BitVec w) := nonNull self.ptr

def pageKind (self : PageTaggedPair w) : Option PageKind := PageKind.read (self.data >>> 6).toNat

def indexBlock (self : PageTaggedPair w) : BitVec w := self.data &&& 0b111111#w

def layout (w : Nat) : TagLayout w :=
  { Tag := PageTaggedPair w, new, pagePtr, pageKind, indexBlock }

end PageTaggedPair

def TargetWidth.layout : (t : TargetWidth) → TagLayout t.bits
  | .w16 => PageTaggedPair.layout 16
  | .w32 => PageTaggedPair.layout 32
  | .w64 => PageTaggedPtr.layout

/-- The addresses that the tag leaves room for: on 64-bit targets the upper byte
repeats bit 55. -/
def TargetWidth.Leaves : (t : TargetWidth) → BitVec t.bits → Prop
  | .w64, p => ∀ j, 56 ≤ j → j ≤ 63 → p.getLsbD j = p.getLsbD 55
  | .w16, _ | .w32, _ => True

/-! ## Decoding a tag -/

theorem PageKind.read_into (k : PageKind) : PageKind.read k.into = some k := by cases k <;> rfl

theorem PageKind.into_lt (k : PageKind) : k.into < 2 ^ 2 := by cases k <;> decide

theorem PageKind.testBit_into (k : PageKind) {j : Nat} (hj : 2 ≤ j) : k.into.testBit j = false :=
  Nat.testBit_lt_two_pow (Nat.lt_of_lt_of_le k.into_lt (Nat.pow_le_pow_right (by decide) hj))

section
variable {w : Nat} {i : BitVec w}

theorem getLsbD_makeTag (k : PageKind) (hi : i.toNat < 2 ^ 6) {j : Nat} (hj : j < w) :
    (makeTag i k).getLsbD j = if j < 6 then i.getLsbD j else k.into.testBit (j - 6) := by
  unfold makeTag
  rw [BitVec.getLsbD_or, BitVec.getLsbD_shiftLeft, BitVec.getLsbD_ofNat]
  by_cases h : j < 6
  · simp [h]
  · have hlt : j - 6 < w := by omega
    rw [getLsbD_of_toNat_lt hi (Nat.le_of_not_lt h)]
    simp [h, hj, hlt]

/-- Above the 56 bits of the address stands the tag. -/
theorem PageTaggedPtr.getLsbD_new (p i : BitVec 64) (k : PageKind) {j : Nat} (hj : j < 64) :
    (PageTaggedPtr.new p i k).data.getLsbD j =
      if j < 56 then p.getLsbD j else (makeTag i k).getLsbD (j - 56) := by
  have hmask : (0b11111111#64).getLsbD (j - 56) = decide (j - 56 < 8) :=
    getLsbD_ones (n := 8) (by omega)
  simp only [PageTaggedPtr.new, BitVec.getLsbD_or, BitVec.getLsbD_and, BitVec.getLsbD_not,
    BitVec.getLsbD_shiftLeft, hmask]
  by_cases h : j < 56
  · simp [h, hj]
  · have h8 : j - 56 < 8 := by omega
    simp [h, hj, h8]

theorem PageTaggedPtr.getLsbD_page (p i : BitVec 64) (k : PageKind) {j : Nat} (hj : j < 64) :
    (((PageTaggedPtr.new p i k).data <<< 8).sshiftRight 8).getLsbD j =
      p.getLsbD (if j < 56 then j else 55) := by
  rw [BitVec.getLsbD_sshiftRight, BitVec.msb_eq_getLsbD_last]
  by_cases h : j < 56
  · rw [if_pos h, if_pos (by omega), BitVec.getLsbD_shiftLeft, Nat.add_sub_cancel_left,
      PageTaggedPtr.getLsbD_new _ _ _ hj, if_pos h]
    have hlt : 8 + j < 64 := by omega
    simp [hlt, show ¬64 ≤ j by omega]
  · rw [if_neg h, if_neg (by omega), BitVec.getLsbD_shiftLeft, PageTaggedPtr.getLsbD_new _ _ _
      (show 64 - 1 - 8 < 64 by omega)]
    simp [hj]

theorem nonNull_eq_some {p q : BitVec w} (hq : q ≠ 0#w) : nonNull p = some q ↔ p = q := by
  unfold nonNull
  by_cases h : p = 0#w
  · simp [h, Ne.symm hq]
  · simp [h]

end

/-- A tag gives back what it was made of, the address if it `fits`. -/
structure TagLayout.Lawful {w : Nat} (L : TagLayout w) (fits : BitVec w → Prop) : Prop where
  index : ∀ p i k, i.toNat < 63 → L.indexBlock (L.new p i k) = i
  kind : ∀ p i k, i.toNat < 63 → L.pageKind (L.new p i k) = some k
  page : ∀ p i k, p ≠ 0#w → (L.pagePtr (L.new p i k) = some p ↔ fits p)

theorem PageTaggedPtr.lawful :
    PageTaggedPtr.layout.Lawful (TargetWidth.Leaves .w64) where
  index p i k hi := by
    apply BitVec.eq_of_getLsbD_eq
    intro j hj
    have hmask : (0b111111#64).getLsbD j = decide (j < 6) := getLsbD_ones (n := 6) (by omega)
    simp only [PageTaggedPtr.layout, PageTaggedPtr.indexBlock, BitVec.getLsbD_and,
      BitVec.getLsbD_ushiftRight, hmask]
    by_cases h : j < 6
    · rw [PageTaggedPtr.getLsbD_new _ _ _ (by omega), if_neg (by omega), getLsbD_makeTag k
        (by omega) (by omega)]
      simp [h]
    · rw [getLsbD_of_toNat_lt (n := 6) (by omega) (Nat.le_of_not_lt h)]
      simp [h]
  kind p i k hi := by
    have hkind : (PageTaggedPtr.new p i k).data >>> 62 = BitVec.ofNat 64 k.into := by
      apply BitVec.eq_of_getLsbD_eq
      intro j hj
      rw [BitVec.getLsbD_ushiftRight, BitVec.getLsbD_ofNat]
      by_cases h : j < 2
      · rw [PageTaggedPtr.getLsbD_new _ _ _ (by omega), if_neg (by omega), getLsbD_makeTag k
          (by omega) (by omega), if_neg (by omega)]
        have e : 62 + j - 56 - 6 = j := by omega
        simp [e, hj]
      · have hge := BitVec.getLsbD_of_ge (PageTaggedPtr.new p i k).data (62 + j) (by omega)
        rw [hge, k.testBit_into (Nat.le_of_not_lt h)]
        simp
    have hlt := k.into_lt
    simp only [PageTaggedPtr.layout, PageTaggedPtr.pageKind, hkind, BitVec.toNat_ofNat]
    rw [Nat.mod_eq_of_lt (by omega), PageKind.read_into]
  page p i k hp := by
    simp only [PageTaggedPtr.layout, PageTaggedPtr.pagePtr, nonNull_eq_some hp]
    have hbit := fun {j} => PageTaggedPtr.getLsbD_page (j := j) p i k
    constructor
    · intro h j h56 h63
      have := hbit (j := j) (by omega)
      rw [h, if_neg (by omega)] at this
      exact this
    · intro h
      apply BitVec.eq_of_getLsbD_eq
      intro j hj
      rw [hbit hj]
      by_cases h56 : j < 56
      · rw [if_pos h56]
      · rw [if_neg h56, h j (by omega) (by omega)]

theorem PageTaggedPair.lawful {w : Nat} (hw : 8 ≤ w) :
    (PageTaggedPair.layout w).Lawful fun _ => True where
  index p i k hi := by
    apply BitVec.eq_of_getLsbD_eq
    intro j hj
    have hmask : (0b111111#w).getLsbD j = decide (j < 6) := getLsbD_ones (n := 6) (by omega)
    simp only [PageTaggedPair.layout, PageTaggedPair.indexBlock, PageTaggedPair.new,
      BitVec.getLsbD_and, hmask, getLsbD_makeTag k (show i.toNat < 2 ^ 6 by omega) hj]
    by_cases h : j < 6
    · simp [h]
    · rw [getLsbD_of_toNat_lt (n := 6) (by omega) (Nat.le_of_not_lt h)]
      simp [h]
  kind p i k hi := by
    have hkind : makeTag i k >>> 6 = BitVec.ofNat w k.into := by
      apply BitVec.eq_of_getLsbD_eq
      intro j hj
      rw [BitVec.getLsbD_ushiftRight, BitVec.getLsbD_ofNat]
      by_cases h : 6 + j < w
      · rw [getLsbD_makeTag k (by omega) h, if_neg (by omega)]
        simp [hj]
      · rw [BitVec.getLsbD_of_ge _ _ (by omega), k.testBit_into (by omega)]
        simp
    have hlt := k.into_lt
    have hpow : 2 ^ 8 ≤ 2 ^ w := Nat.pow_le_pow_right (by omega) hw
    simp only [PageTaggedPair.layout, PageTaggedPair.pageKind, PageTaggedPair.new, hkind,
      BitVec.toNat_ofNat]
    rw [Nat.mod_eq_of_lt (by omega), PageKind.read_into]
  page p i k hp := by
    simp [PageTaggedPair.layout, PageTaggedPair.pagePtr, PageTaggedPair.new, nonNull_eq_some hp]

theorem TargetWidth.lawful (t : TargetWidth) : t.layout.Lawful t.Leaves := by
  cases t with
  | w16 => exact PageTaggedPair.lawful (by decide)
  | w32 => exact PageTaggedPair.lawful (by decide)
  | w64 => exact PageTaggedPtr.lawful

/-! ## The words of a page -/

inductive PageBits (w : Nat)
  | sharedArena (bitfield : BitVec w)
  | arena (bitfield bitfieldAtomic : BitVec w)
  | pool (bitfield : BitVec w)
  deriving DecidableEq

namespace PageBits

variable {w : Nat}

def kind : PageBits w → PageKind
  | .sharedArena _ => .sharedArena
  | .arena _ _ => .arena
  | .pool _ => .pool

def bitfield : PageBits w → BitVec w
  | .sharedArena bitfield | .arena bitfield _ | .pool bitfield => bitfield

def bitfieldAtomic : PageBits w → BitVec w
  | .arena _ bitfieldAtomic => bitfieldAtomic
  | .sharedArena _ | .pool _ => 0

def free (page : PageBits w) (i : Nat) : Bool :=
  page.bitfield.getLsbD i || page.bitfieldAtomic.getLsbD i

/-- The operation of `acquire_free_block` that takes a block. The loop over a shared
page found the index in the word `loaded`, read before. -/
def acquireFreeBlock (loaded : BitVec w) : PageBits w → Option (PageBits w × Nat)
  | .sharedArena bitfield =>
    let indexFree := loaded.ctz.toNat
    if indexFree < w - 1 ∧ bitfield &&& shl w indexFree ≠ 0#w then
      some (.sharedArena (bitfield &&& ~~~shl w indexFree), indexFree)
    else none
  | .arena bitfield bitfieldAtomic =>
    let indexFree := bitfield.ctz.toNat
    if indexFree < w - 1 then
      some (.arena (bitfield &&& ~~~shl w indexFree) bitfieldAtomic, indexFree)
    else none
  | .pool bitfield =>
    let indexFree := bitfield.ctz.toNat
    if indexFree < w - 1 then some (.pool (bitfield &&& ~~~shl w indexFree), indexFree) else none

def dropBlock (index : Nat) : PageBits w → PageBits w
  | .sharedArena bitfield => .sharedArena (bitfield + shl w index)
  | .arena bitfield bitfieldAtomic => .arena bitfield (bitfieldAtomic + shl w index)
  | .pool bitfield => .pool (bitfield ||| shl w index)

variable {page page' : PageBits w} {i : Nat}

theorem shl_eq (hi : i < w) : shl w i = BitVec.twoPow w i := by rw [shl, Nat.mod_eq_of_lt hi]

theorem acquireFreeBlock_clears {loaded : BitVec w}
    (h : page.acquireFreeBlock loaded = some (page', i)) :
    i < w - 1 ∧ page'.kind = page.kind ∧ page.bitfield.getLsbD i = true ∧
    (∀ j, page'.bitfield.getLsbD j = (page.bitfield.getLsbD j && !decide (i = j))) ∧
    page'.bitfieldAtomic = page.bitfieldAtomic := by
  have hclear : ∀ {x : BitVec w} {n j}, n < w - 1 →
      (x &&& ~~~shl w n).getLsbD j = (x.getLsbD j && !decide (n = j)) := by
    intro x n j hn
    rw [shl_eq (by omega), getLsbD_and_not_twoPow (by omega)]
  -- a word whose trailing zeros end early is not zero
  have hset : ∀ {x : BitVec w}, x.ctz.toNat < w - 1 → x.getLsbD x.ctz.toNat = true := by
    intro x hlt
    apply getLsbD_ctz
    apply BitVec.ctz_lt_iff_ne_zero.mp
    simp only [BitVec.lt_def, BitVec.natCast_eq_ofNat, BitVec.toNat_ofNat,
      Nat.mod_eq_of_lt Nat.lt_two_pow_self]
    omega
  cases page with
  | sharedArena x =>
    simp only [acquireFreeBlock] at h
    split at h
    · rename_i hlt
      obtain ⟨rfl, rfl⟩ := Prod.mk.inj (Option.some.inj h)
      obtain ⟨hlt, hne⟩ := hlt
      refine ⟨hlt, rfl, ?_, fun j => hclear hlt, rfl⟩
      rw [shl_eq (by omega), Ne, and_twoPow_eq_zero (by omega)] at hne
      simpa [bitfield] using hne
    · cases h
  | arena x y =>
    simp only [acquireFreeBlock] at h
    split at h
    · rename_i hlt
      obtain ⟨rfl, rfl⟩ := Prod.mk.inj (Option.some.inj h)
      exact ⟨hlt, rfl, hset hlt, fun j => hclear hlt, rfl⟩
    · cases h
  | pool x =>
    simp only [acquireFreeBlock] at h
    split at h
    · rename_i hlt
      obtain ⟨rfl, rfl⟩ := Prod.mk.inj (Option.some.inj h)
      exact ⟨hlt, rfl, hset hlt, fun j => hclear hlt, rfl⟩
    · cases h

theorem kind_dropBlock : (page.dropBlock i).kind = page.kind := by cases page <;> rfl

theorem free_dropBlock (hi : i < w) (h : page.free i = false) (j : Nat) :
    (page.dropBlock i).free j = (page.free j || decide (i = j)) := by
  simp only [free, Bool.or_eq_false_iff] at h
  cases page with
  | sharedArena x =>
    simp only [dropBlock, free, bitfield, bitfieldAtomic, shl_eq hi] at h ⊢
    rw [getLsbD_add_twoPow hi h.1]
    simp
  | arena x y =>
    simp only [dropBlock, free, bitfield, bitfieldAtomic, shl_eq hi] at h ⊢
    rw [getLsbD_add_twoPow hi h.2, Bool.or_assoc]
  | pool x =>
    simp only [dropBlock, free, bitfield, bitfieldAtomic, shl_eq hi] at h ⊢
    rw [getLsbD_or_twoPow hi]
    simp

end PageBits

/-! ## The dispatch -/

/-- `drop_block` reads the tag of a block; `value` and `counter` are the handles'. -/
structure PageBlock (Tag : Type) where
  page : Tag

namespace TagLayout

variable {w : Nat} (L : TagLayout w)

def blocks (ptr : BitVec w) (kind : PageKind) : List (PageBlock L.Tag) :=
  (List.range (w - 1)).map fun index => { page := L.new ptr (BitVec.ofNat w index) kind }

abbrev Memory (w : Nat) : Type := BitVec w → Option (PageBits w)

/-- `Block::drop_block` to the write of the bit. `none` also where the page at the
address is not of the kind whose `drop_block` is called. -/
def dropBlock (block : PageBlock L.Tag) (memory : Memory w) : Option (Memory w) := do
  let kind ← L.pageKind block.page
  let ptr ← L.pagePtr block.page
  let page ← memory ptr
  if page.kind = kind then
    some (Function.update memory ptr (some (page.dropBlock (L.indexBlock block.page).toNat)))
  else none

variable {L}

theorem Lawful.dropBlock_reaches {fits : BitVec w → Prop} (hL : L.Lawful fits) (hw : w ≤ 64)
    {p : BitVec w} (hp : p ≠ 0#w) (hfits : fits p) (k : PageKind) {i : Nat} (hi : i < w - 1) :
    ∃ block, (L.blocks p k)[i]? = some block ∧ ∀ (memory : Memory w) (page : PageBits w),
      memory p = some page → page.kind = k →
      L.dropBlock block memory = some (Function.update memory p (some (page.dropBlock i))) := by
  have hnat : (BitVec.ofNat w i).toNat = i := by
    rw [BitVec.toNat_ofNat]
    exact Nat.mod_eq_of_lt (Nat.lt_trans (by omega) Nat.lt_two_pow_self)
  have hlt : (BitVec.ofNat w i).toNat < 63 := by omega
  refine ⟨{ page := L.new p (BitVec.ofNat w i) k }, ?_, fun memory page hpage hkind => ?_⟩
  · simp [blocks, hi]
  · simp only [dropBlock, hL.kind p _ k hlt, (hL.page p (BitVec.ofNat w i) k hp).mpr hfits,
      hL.index p _ k hlt, hnat]
    simp [hpage, hkind]

end TagLayout

theorem TargetWidth.bits_le (t : TargetWidth) : t.bits ≤ 64 := by cases t <;> decide

/-! ## The pages of a 64-bit target -/

def PageSharedArena.bits (page : PageSharedArena) : PageBits 64 := .sharedArena page.bitfield

def PageArena.bits (page : PageArena) : PageBits 64 := .arena page.bitfield page.bitfieldAtomic

def PagePool.bits (page : PagePool) : PageBits 64 := .pool page.bitfield

theorem PageSharedArena.acquireFreeBlock_bits {page page' : PageSharedArena} {loaded : Bitfield}
    {i : Nat} (h : page.acquireFreeBlock (.fetchAnd loaded.ctz.toNat) = (page', .ret (some i))) :
    page.bits.acquireFreeBlock loaded = some (page'.bits, i) := by
  simp only [acquireFreeBlock] at h
  split at h
  · rename_i hne
    obtain ⟨rfl, hret⟩ := Prod.mk.inj h
    by_cases hlt : loaded.ctz.toNat < blockPerPage
    · rw [if_pos hlt] at hret
      obtain rfl := Option.some.inj (Control.ret.inj hret)
      exact if_pos ⟨hlt, hne⟩
    · rw [if_neg hlt] at hret
      cases hret
  · cases h

theorem PageArena.acquireFreeBlock_bits {page page' : PageArena} {i : Nat} (loaded : Bitfield)
    (h : page.acquireFreeBlock .scan = (page', .ret (some i))) :
    page.bits.acquireFreeBlock loaded = some (page'.bits, i) := by
  simp only [acquireFreeBlock] at h
  split at h
  · cases h
  · obtain ⟨rfl, hret⟩ := Prod.mk.inj h
    by_cases hlt : page.bitfield.ctz.toNat < blockPerPage
    · rw [if_pos hlt] at hret
      obtain rfl := Option.some.inj (Control.ret.inj hret)
      exact if_pos hlt
    · rw [if_neg hlt] at hret
      cases hret

theorem PagePool.acquireFreeBlock_bits {page page' : PagePool} {i : Nat} (loaded : Bitfield)
    (h : page.acquireFreeBlock = some (page', some i)) :
    page.bits.acquireFreeBlock loaded = some (page'.bits, i) := by
  simp only [acquireFreeBlock] at h
  split at h
  · simp at h
  · split at h
    · rename_i hlt
      obtain ⟨rfl, hi⟩ := Prod.mk.inj (Option.some.inj h)
      obtain rfl := Option.some.inj hi
      exact if_pos hlt
    · cases h

theorem PageSharedArena.giveBlock_bits (page : PageSharedArena) (i : Nat) :
    (page.giveBlock i).1.bits = page.bits.dropBlock i := rfl

theorem PageArena.giveBlock_bits (page : PageArena) (i : Nat) :
    (page.giveBlock i).1.bits = page.bits.dropBlock i := rfl

theorem PagePool.dropBlock_bits (self : Addr) (i : Nat) (upgraded : Bool) (page : PagePool)
    (free : Ptr) : (page.dropBlock self i upgraded free).1.bits = page.bits.dropBlock i :=
  congrArg PageBits.pool (dropBlock_spec rfl).1

/-- Block `i` of the page at `p` leads `drop_block` there, and to the write of that page. -/
def Dispatches {π : Type} (p : BitVec 64) (k : PageKind) (i : Nat) (bits : π → PageBits 64)
    (write : π → π) : Prop :=
  ∃ block, (PageTaggedPtr.layout.blocks p k)[i]? = some block ∧
    ∀ (memory : TagLayout.Memory 64) (page : π), memory p = some (bits page) →
      PageTaggedPtr.layout.dropBlock block memory =
        some (Function.update memory p (some (bits (write page))))

section
variable {p : BitVec 64} {i : Nat}

theorem PageBits.dispatches {π : Type} {bits : π → PageBits 64} {write : π → π} {k : PageKind}
    {page page' : PageBits 64} {loaded : BitVec 64} (hp : p ≠ 0#64) (hfits : TargetWidth.w64.Leaves p)
    (h : page.acquireFreeBlock loaded = some (page', i)) (hkind : ∀ x, (bits x).kind = k)
    (hwrite : ∀ x, bits (write x) = (bits x).dropBlock i) : Dispatches p k i bits write := by
  obtain ⟨hlt, -⟩ := acquireFreeBlock_clears h
  obtain ⟨block, hblock, hreach⟩ := PageTaggedPtr.lawful.dropBlock_reaches (by omega) hp hfits k hlt
  refine ⟨block, hblock, fun memory x hx => ?_⟩
  rw [hwrite]
  exact hreach memory (bits x) hx (hkind x)

/-- A block that `acquire_free_block` of a page returned is given back to that page. -/
theorem acquired_dispatches (hp : p ≠ 0#64) (hfits : TargetWidth.w64.Leaves p) :
    (∀ {page page' : PageSharedArena} {loaded : Bitfield},
      page.acquireFreeBlock (.fetchAnd loaded.ctz.toNat) = (page', .ret (some i)) →
      Dispatches p .sharedArena i PageSharedArena.bits fun page => (page.giveBlock i).1) ∧
    (∀ {page page' : PageArena}, page.acquireFreeBlock .scan = (page', .ret (some i)) →
      Dispatches p .arena i PageArena.bits fun page => (page.giveBlock i).1) ∧
    ∀ {page page' : PagePool} (self : Addr) (upgraded : Bool) (free : Ptr),
      page.acquireFreeBlock = some (page', some i) →
      Dispatches p .pool i PagePool.bits fun page => (page.dropBlock self i upgraded free).1 := by
  refine ⟨fun h => ?_, fun h => ?_, fun self upgraded free h => ?_⟩
  · exact PageBits.dispatches hp hfits (PageSharedArena.acquireFreeBlock_bits h) (fun _ => rfl)
      fun page => page.giveBlock_bits i
  · exact PageBits.dispatches hp hfits (PageArena.acquireFreeBlock_bits 0 h) (fun _ => rfl)
      fun page => page.giveBlock_bits i
  · exact PageBits.dispatches hp hfits (PagePool.acquireFreeBlock_bits 0 h) (fun _ => rfl)
      fun page => PagePool.dropBlock_bits self i upgraded page free

end

/-- On some run of a page at `self`, `page` are its words while there is a handle of
block `i`. An arena that has given the page up takes no block of it. -/
def Handled (self : Addr) (i : Nat) : PageKind → PageBits 64 → Prop
  | .sharedArena, page => ∃ s : PageState PageSharedArena PageSharedArena.AcquirePc,
    ((PageSharedArena.machine self).Reach (fun _ a => a.isDropPage = false) s ∨
      (PageSharedArena.machine self).Reach (fun _ a => a.isAcquire = false) s) ∧
    i ∈ s.handles ∧ page = s.page.bits
  | .arena, page => ∃ s : PageState PageArena PageArena.AcquirePc,
    ((∃ o, (PageArena.machine self).Reach (fun _ a => PageArena.ownerAllocates o a) s) ∨
      (PageArena.machine self).Reach (fun _ a => a.isAcquire = false) s) ∧
    i ∈ s.handles ∧ page = s.page.bits
  | .pool, page => ∃ s : PagePoolState, (PagePool.machine self).Reach Machine.always s ∧
    i ∈ s.handles ∧ page = s.page.bits

theorem Handled.taken {self : Addr} {i : Nat} {k : PageKind} {page : PageBits 64}
    (h : Handled self i k page) : page.kind = k ∧ page.free i = false := by
  cases k with
  | sharedArena =>
    obtain ⟨s, hs, hi, rfl⟩ := h
    have hheld : PageSharedArena.refs.held s.page i := by
      rcases hs with hs | hs
      · exact ((PageSharedArena.BlockInv.of_reach hs).held i).mpr (Or.inl hi)
      · exact ((ReleaseInv.of_reach PageSharedArena.refs_lawful (fun _ _ h => h) hs).held i).mpr
          (Or.inl hi)
    refine ⟨rfl, ?_⟩
    simpa [PageBits.free, PageBits.bitfield, PageBits.bitfieldAtomic, PageSharedArena.bits]
      using hheld.2
  | arena =>
    obtain ⟨s, hs, hi, rfl⟩ := h
    have hheld : s.page.bitfield.getLsbD i = false ∧ s.page.bitfieldAtomic.getLsbD i = false := by
      rcases hs with ⟨o, hs⟩ | hs
      · obtain ⟨-, hown, hatomic, -⟩ :=
          ((PageArena.SplitInv.of_reach hs).live i).mpr (Or.inl hi)
        exact ⟨hown, hatomic⟩
      · exact (((ReleaseInv.of_reach PageArena.refs_lawful (fun _ _ h => h) hs).held i).mpr
          (Or.inl hi)).2
    refine ⟨rfl, ?_⟩
    simpa [PageBits.free, PageBits.bitfield, PageBits.bitfieldAtomic, PageArena.bits] using hheld
  | pool =>
    obtain ⟨s, hs, hi, rfl⟩ := h
    have hheld := ((PagePool.Inv.of_reach hs).held i).mpr hi
    refine ⟨rfl, ?_⟩
    simpa [PageBits.free, PageBits.bitfield, PageBits.bitfieldAtomic, PagePool.bits] using hheld.2

/-! ## Tags and pages -/

/-- A tag decodes to its index and kind, and to its page exactly at the addresses it
leaves room for. There, on any page and for any block that `acquire_free_block` takes
from it, `drop_block` reaches that page as one of its kind and frees the bit that was
cleared and no other, as long as the block is taken; a block with a handle is. -/
theorem block_tags :
    (∀ (t : TargetWidth) (p : BitVec t.bits) (k : PageKind), p ≠ 0#t.bits →
      (∀ i : BitVec t.bits, i.toNat < 63 →
        t.layout.indexBlock (t.layout.new p i k) = i ∧
        t.layout.pageKind (t.layout.new p i k) = some k ∧
        (t.layout.pagePtr (t.layout.new p i k) = some p ↔ t.Leaves p)) ∧
      (t.Leaves p → ∀ (loaded : BitVec t.bits) (page page' : PageBits t.bits) (i : Nat),
        page.kind = k → page.acquireFreeBlock loaded = some (page', i) →
        (page.bitfield.getLsbD i = true ∧ page'.bitfieldAtomic = page.bitfieldAtomic ∧
          ∀ j, page'.bitfield.getLsbD j = (page.bitfield.getLsbD j && !decide (i = j))) ∧
        ∃ block, (t.layout.blocks p k)[i]? = some block ∧
          ∀ (memory : TagLayout.Memory t.bits) (page : PageBits t.bits), memory p = some page →
            page.kind = k → page.free i = false →
            ∃ freed : PageBits t.bits,
              t.layout.dropBlock block memory = some (Function.update memory p (some freed)) ∧
              freed.kind = k ∧ ∀ j, freed.free j = (page.free j || decide (i = j)))) ∧
    (∀ (self : Addr) (i : Nat) (k : PageKind) (page : PageBits 64), Handled self i k page →
      page.kind = k ∧ page.free i = false) := by
  refine ⟨fun t p k hp => ⟨fun i hi => ?_, fun hfits loaded page page' i hkind hacq => ?_⟩,
    fun _ _ _ _ h => h.taken⟩
  · exact ⟨t.lawful.index p i k hi, t.lawful.kind p i k hi, t.lawful.page p i k hp⟩
  · obtain ⟨hlt, -, hset, hclear, hatomic⟩ := PageBits.acquireFreeBlock_clears hacq
    obtain ⟨block, hblock, hreach⟩ := t.lawful.dropBlock_reaches t.bits_le hp hfits k hlt
    refine ⟨⟨hset, hatomic, hclear⟩, block, hblock, fun memory page hpage hkind hfree => ?_⟩
    refine ⟨page.dropBlock i, hreach memory page hpage hkind, ?_,
      PageBits.free_dropBlock (by omega) hfree⟩
    rw [PageBits.kind_dropBlock, hkind]

/-- An address of the upper half comes back, one with a lone bit 56 does not. -/
theorem block_tags_upper :
    PageTaggedPtr.pagePtr (PageTaggedPtr.new 0xffffffff80001000#64 62#64 .pool) =
      some 0xffffffff80001000#64 ∧
    PageTaggedPtr.pagePtr (PageTaggedPtr.new 0x0100000000001000#64 62#64 .pool) ≠
      some 0x0100000000001000#64 := by
  have hupper := (block_tags.1 .w64 0xffffffff80001000#64 .pool (by decide)).1 62#64 (by decide)
  have hlone := (block_tags.1 .w64 0x0100000000001000#64 .pool (by decide)).1 62#64 (by decide)
  constructor
  · apply hupper.2.2.mpr
    intro j h56 h63
    have hall : ∀ j < 64, 56 ≤ j → (0xffffffff80001000#64).getLsbD j =
      (0xffffffff80001000#64).getLsbD 55 := by decide
    exact hall j (by omega) h56
  · intro h
    have := hlone.2.2.mp h 56 (by omega) (by omega)
    revert this
    decide

end MemoryPools
