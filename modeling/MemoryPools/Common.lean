import MemoryPools.Interleave.Machine
import MemoryPools.Interleave.Store
import MemoryPools.Interleave.Linked
import MemoryPools.Interleave.Word

/-!
# Constants, pointers and bitfields

`common.rs` on a 64-bit target. A page is named by its address, a pointer to a
page is null or an address. Addresses are handed out in order and never again.
-/

namespace MemoryPools

open Interleave

def bitfieldWidth : Nat := 64

def blockPerPage : Nat := bitfieldWidth - 1

abbrev Bitfield : Type := BitVec 64

def maskArenaBit : Bitfield := BitVec.twoPow 64 (bitfieldWidth - 1)

abbrev Addr : Type := Nat

abbrev Ptr : Type := Option Addr

abbrev Tid : Type := Nat

instance : LawfulBEq (Addr × Nat) := inferInstance

/-- `1 << index`. The shift of a word takes its distance modulo the width. -/
def bit (index : Nat) : Bitfield := BitVec.twoPow 64 (index % bitfieldWidth)

def pagesFor (cap : Nat) : Nat := (max cap 1 - 1) / blockPerPage + 1

def growth (npages : Nat) : Nat := min (max npages 1) 900000

theorem growth_pos (npages : Nat) : 0 < growth npages := by
  unfold growth; omega

theorem pagesFor_pos (cap : Nat) : 0 < pagesFor cap := Nat.succ_pos _

@[simp] theorem blockPerPage_eq : blockPerPage = 63 := rfl

theorem maskArenaBit_eq : maskArenaBit = BitVec.twoPow 64 63 := rfl

theorem bit_eq {i : Nat} (h : i < 63) : bit i = BitVec.twoPow 64 i := by
  have : i % 64 = i := Nat.mod_eq_of_lt (by omega)
  simp [bit, bitfieldWidth, this]

/-! ## The bits of a block and of the arena -/

section
variable {x : Bitfield} {i : Nat}

theorem getLsbD_add_bit (hi : i < 63) (h : x.getLsbD i = false) (j : Nat) :
    (x + bit i).getLsbD j = (x.getLsbD j || decide (i = j)) := by
  rw [bit_eq hi, getLsbD_add_twoPow (by omega) h]

theorem add_bit_eq_or (hi : i < 63) (h : x.getLsbD i = false) : x + bit i = x ||| bit i := by
  rw [bit_eq hi, add_twoPow (by omega) h]

theorem getLsbD_and_not_bit (hi : i < 63) (j : Nat) :
    (x &&& ~~~bit i).getLsbD j = (x.getLsbD j && !decide (i = j)) := by
  rw [bit_eq hi, getLsbD_and_not_twoPow (by omega)]

theorem arenaBit_and_not_bit (hi : i < 63) (h : x.getLsbD 63 = true) :
    (x &&& ~~~bit i).getLsbD 63 = true := by
  have hne : i ≠ 63 := by omega
  rw [getLsbD_and_not_bit hi, h]
  simp [hne]

theorem and_bit_eq_zero (hi : i < 63) : x &&& bit i = 0 ↔ x.getLsbD i = false := by
  rw [bit_eq hi]; exact and_twoPow_eq_zero (by omega)

theorem getLsbD_sub_mask (h : x.getLsbD 63 = true) (j : Nat) :
    (x - maskArenaBit).getLsbD j = (x.getLsbD j && !decide (63 = j)) := by
  rw [maskArenaBit_eq, getLsbD_sub_twoPow (by omega) h]

theorem getLsbD_sub_mask_lt {j : Nat} (hj : j < 63) :
    (x - maskArenaBit).getLsbD j = x.getLsbD j := by
  cases h : x.getLsbD 63 with
  | true =>
    rw [getLsbD_sub_mask h]
    simp; omega
  | false =>
    have hneg : -maskArenaBit = maskArenaBit := by decide
    rw [BitVec.sub_eq_add_neg, hneg, maskArenaBit_eq, getLsbD_add_twoPow (by omega) h]
    simp; omega

theorem and_not_mask_eq_zero_iff : x &&& ~~~maskArenaBit = 0 ↔ ∀ j < 63, x.getLsbD j = false := by
  have hbit := fun j => getLsbD_and_not_twoPow (j := j) (x := x) (show 63 < 64 by omega)
  rw [maskArenaBit_eq]
  constructor
  · intro h j hj
    have := hbit j
    rw [h] at this
    simpa [show 63 ≠ j by omega] using this.symm
  · intro h
    apply BitVec.eq_of_getLsbD_eq
    intro j hj
    rw [hbit]
    by_cases e : j = 63
    · simp [e]
    · simp [h j (by omega)]

theorem eq_ones_iff :
    x = BitVec.allOnes 64 ↔ x.getLsbD 63 = true ∧ ∀ j < 63, x.getLsbD j = true := by
  rw [eq_allOnes_iff]
  constructor
  · intro h
    exact ⟨h 63 (by omega), fun j hj => h j (by omega)⟩
  · intro ⟨h63, h⟩ j hj
    by_cases e : j = 63
    · rw [e, h63]
    · exact h j (by omega)

theorem not_eq_mask_iff :
    ~~~x = maskArenaBit ↔ x.getLsbD 63 = false ∧ ∀ j < 63, x.getLsbD j = true := by
  rw [maskArenaBit_eq, not_eq_twoPow_iff (by omega)]
  constructor
  · intro ⟨h63, h⟩
    exact ⟨h63, fun j hj => h j (by omega) (by omega)⟩
  · intro ⟨h63, h⟩
    exact ⟨h63, fun j hj hne => h j (by omega)⟩

theorem not_eq_zero_iff_ones : ~~~x = 0 ↔ x = BitVec.allOnes 64 := not_eq_zero_iff

theorem ctz_le_width : x.ctz.toNat ≤ 64 := by
  by_cases h : x = 0
  · rw [h]; decide +kernel
  · exact Nat.le_of_lt (ctz_lt h)

/-- The arena's bit stops the count of trailing zeros. -/
theorem ctz_le_of_arena (h : x.getLsbD 63 = true) : x.ctz.toNat ≤ 63 := ctz_le h

/-- The scan of an owned word stops at a free block, or at the arena's bit. -/
theorem ctz_free (h : x.getLsbD 63 = true) (hne : x.ctz.toNat ≠ 63) :
    x.ctz.toNat < 63 ∧ x.getLsbD x.ctz.toNat = true := by
  have hle := ctz_le_of_arena h
  exact ⟨by omega, getLsbD_ctz (ne_zero_of_getLsbD h)⟩

theorem ctz_eq_iff_full (h : x.getLsbD 63 = true) :
    x.ctz.toNat = 63 ↔ ∀ j < 63, x.getLsbD j = false :=
  ctz_eq_iff h

end

def freeBits (live : List Nat) : Bitfield :=
  live.foldr (fun i x => x &&& ~~~bit i) (BitVec.allOnes 64)

theorem getLsbD_freeBits {j : Nat} {live : List Nat} (hj : j < 64) (h : ∀ i ∈ live, i < 63) :
    (freeBits live).getLsbD j = !decide (j ∈ live) := by
  induction live with
  | nil =>
    show (BitVec.allOnes 64).getLsbD j = _
    rw [BitVec.getLsbD_allOnes]
    simp [hj]
  | cons i live ih =>
    have ih' := ih fun k hk => h k (List.mem_cons_of_mem _ hk)
    show (freeBits live &&& ~~~bit i).getLsbD j = _
    rw [getLsbD_and_not_bit (h i (by simp)), ih']
    by_cases e : i = j
    · simp [e]
    · simp [e, Ne.symm e, List.mem_cons]

theorem length_filter_not_mem {l d : List Addr} (hl : l.Nodup) (hd : d.Nodup)
    (hsub : ∀ p ∈ d, p ∈ l) : (l.filter (· ∉ d)).length + d.length = l.length := by
  have hperm : (l.filter (· ∈ d)).Perm d := by
    apply (List.perm_ext_iff_of_nodup (hl.filter _) hd).mpr
    intro p
    simp only [List.mem_filter, decide_eq_true_eq]
    exact ⟨And.right, fun hp => ⟨hsub p hp, hp⟩⟩
  have hsplit := List.length_eq_length_filter_add (l := l) (· ∈ d)
  rw [hperm.length_eq] at hsplit
  have hnot : (fun p => !decide (p ∈ d)) = fun p => decide (p ∉ d) := by
    funext p
    simp
  rw [hnot] at hsplit
  omega

end MemoryPools
