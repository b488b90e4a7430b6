import Mathlib.Data.BitVec

/-!
# Machine words as sets of bit indices

A bitfield holds the set of its one bits. Adding a power of two inserts a bit
that was clear, without a carry; subtracting one removes a bit that was set.
-/

namespace Interleave

variable {w : Nat} {x y : BitVec w} {i j : Nat}

theorem getLsbD_or_twoPow (hi : i < w) :
    (x ||| BitVec.twoPow w i).getLsbD j = (x.getLsbD j || decide (i = j)) := by
  simp [BitVec.getLsbD_or, BitVec.getLsbD_twoPow, hi]

theorem getLsbD_and_not_twoPow (hi : i < w) :
    (x &&& ~~~BitVec.twoPow w i).getLsbD j = (x.getLsbD j && !decide (i = j)) := by
  simp only [BitVec.getLsbD_and, BitVec.getLsbD_not, BitVec.getLsbD_twoPow, hi, decide_true,
    Bool.true_and]
  by_cases hj : j < w
  · simp [hj]
  · simp [BitVec.getLsbD_of_ge x j (by omega)]

theorem and_twoPow_eq_zero (hi : i < w) : x &&& BitVec.twoPow w i = 0#w ↔ x.getLsbD i = false := by
  constructor
  · intro h
    have := congrArg (fun v => v.getLsbD i) h
    simpa [BitVec.getLsbD_and, BitVec.getLsbD_twoPow, hi] using this
  · intro h
    apply BitVec.eq_of_getLsbD_eq; intro j hj
    simp only [BitVec.getLsbD_and, BitVec.getLsbD_twoPow, BitVec.getLsbD_zero, hi, decide_true,
      Bool.true_and]
    by_cases e : i = j
    · subst e; simp [h]
    · simp [e]

/-- Adding a bit that is clear sets it and nothing else: the sum does not carry. -/
theorem add_twoPow (hi : i < w) (h : x.getLsbD i = false) :
    x + BitVec.twoPow w i = x ||| BitVec.twoPow w i :=
  BitVec.add_eq_or_of_and_eq_zero x _ ((and_twoPow_eq_zero hi).mpr h)

/-- Subtracting a bit that is set clears it and nothing else. -/
theorem sub_twoPow (hi : i < w) (h : x.getLsbD i = true) :
    x - BitVec.twoPow w i = x &&& ~~~BitVec.twoPow w i := by
  have hc : (x &&& ~~~BitVec.twoPow w i).getLsbD i = false := by simp [getLsbD_and_not_twoPow hi]
  have hx : x = (x &&& ~~~BitVec.twoPow w i) + BitVec.twoPow w i := by
    rw [add_twoPow hi hc]
    apply BitVec.eq_of_getLsbD_eq; intro j _
    rw [getLsbD_or_twoPow hi, getLsbD_and_not_twoPow hi]
    by_cases e : i = j
    · subst e; simp [h]
    · simp [e]
  calc x - BitVec.twoPow w i
      = (x &&& ~~~BitVec.twoPow w i) + BitVec.twoPow w i - BitVec.twoPow w i := by rw [← hx]
    _ = x &&& ~~~BitVec.twoPow w i := by simp

theorem getLsbD_add_twoPow (hi : i < w) (h : x.getLsbD i = false) :
    (x + BitVec.twoPow w i).getLsbD j = (x.getLsbD j || decide (i = j)) := by
  rw [add_twoPow hi h, getLsbD_or_twoPow hi]

theorem getLsbD_sub_twoPow (hi : i < w) (h : x.getLsbD i = true) :
    (x - BitVec.twoPow w i).getLsbD j = (x.getLsbD j && !decide (i = j)) := by
  rw [sub_twoPow hi h, getLsbD_and_not_twoPow hi]

theorem eq_allOnes_iff : x = BitVec.allOnes w ↔ ∀ j < w, x.getLsbD j = true := by
  constructor
  · rintro rfl j hj; simp [hj]
  · intro h
    apply BitVec.eq_of_getLsbD_eq; intro j hj
    rw [h j hj]; simp [hj]

theorem not_eq_zero_iff : ~~~x = 0#w ↔ x = BitVec.allOnes w := by
  rw [eq_allOnes_iff]
  constructor
  · intro h j hj
    have := congrArg (fun v => v.getLsbD j) h
    simpa [hj] using this
  · intro h
    apply BitVec.eq_of_getLsbD_eq; intro j hj
    simp [hj, h j hj]

theorem not_eq_twoPow_iff (hi : i < w) :
    ~~~x = BitVec.twoPow w i ↔ x.getLsbD i = false ∧ ∀ j < w, j ≠ i → x.getLsbD j = true := by
  constructor
  · intro h
    have hb : ∀ j < w, (!x.getLsbD j) = decide (i = j) := by
      intro j hj
      have := congrArg (fun v => v.getLsbD j) h
      simpa only [BitVec.getLsbD_not, BitVec.getLsbD_twoPow, hj, hi, decide_true, Bool.true_and]
        using this
    refine ⟨by simpa using hb i hi, fun j hj hne => ?_⟩
    simpa [Ne.symm hne] using hb j hj
  · rintro ⟨h1, h2⟩
    apply BitVec.eq_of_getLsbD_eq; intro j hj
    simp only [BitVec.getLsbD_not, hj, decide_true, Bool.true_and, BitVec.getLsbD_twoPow, hi]
    by_cases e : i = j
    · subst e; simp [h1]
    · simp [e, h2 j hj (Ne.symm e)]

/-! ## Fields of a word -/

theorem getLsbD_of_toNat_lt {n : Nat} (h : x.toNat < 2 ^ n) (hj : n ≤ j) : x.getLsbD j = false :=
  Nat.testBit_lt_two_pow (Nat.lt_of_lt_of_le h (Nat.pow_le_pow_right (by omega) hj))

theorem getLsbD_ones {n : Nat} (hn : n ≤ w) :
    (BitVec.ofNat w (2 ^ n - 1)).getLsbD j = decide (j < n) := by
  rw [BitVec.getLsbD_ofNat, Nat.testBit_two_pow_sub_one]
  by_cases h : j < n
  · simp [h]; omega
  · simp [h]

/-! ## Trailing zeros -/

theorem getLsbD_ctz (hx : x ≠ 0#w) : x.getLsbD x.ctz.toNat = true :=
  BitVec.getLsbD_true_ctz_of_ne_zero hx

theorem ctz_lt (hx : x ≠ 0#w) : x.ctz.toNat < w := by
  have := BitVec.ctz_lt_iff_ne_zero.mpr hx
  rcases Nat.lt_or_ge x.ctz.toNat w with h | h
  · exact h
  · have := getLsbD_ctz hx
    rw [BitVec.getLsbD_of_ge x _ h] at this
    cases this

theorem ne_zero_of_getLsbD (h : x.getLsbD i = true) : x ≠ 0#w := by
  rintro rfl; simp at h

theorem ctz_le (h : x.getLsbD i = true) : x.ctz.toNat ≤ i := by
  rcases Nat.lt_or_ge i x.ctz.toNat with hi | hi
  · rw [BitVec.getLsbD_false_of_lt_ctz hi] at h; cases h
  · exact hi

theorem ctz_eq_iff (h : x.getLsbD i = true) : x.ctz.toNat = i ↔ ∀ j < i, x.getLsbD j = false := by
  constructor
  · intro e j hj
    exact BitVec.getLsbD_false_of_lt_ctz (by omega)
  · intro hz
    refine Nat.le_antisymm (ctz_le h) (Nat.le_of_not_lt fun hlt => ?_)
    have := getLsbD_ctz (ne_zero_of_getLsbD h)
    rw [hz _ hlt] at this
    cases this

/-! ## Counting bits -/

def countOnes (x : BitVec w) : Nat := (List.range w).countP fun i => x.getLsbD i

def countZeros (x : BitVec w) : Nat := (List.range w).countP fun i => !x.getLsbD i

theorem countOnes_add_countZeros (x : BitVec w) : countOnes x + countZeros x = w := by
  have h := List.length_eq_countP_add_countP (fun i => x.getLsbD i) (l := List.range w)
  rw [List.length_range] at h
  have hnot : (fun i => !x.getLsbD i) = fun i => decide ¬x.getLsbD i = true := by
    funext i
    simp
  unfold countOnes countZeros
  rw [hnot]
  exact h.symm

theorem countZeros_lt (hi : i < w) (h : x.getLsbD i = true) : countZeros x < w := by
  have hle : countZeros x ≤ (List.range w).length := List.countP_le_length
  rw [List.length_range] at hle
  apply Nat.lt_of_le_of_ne hle
  intro e
  have hall := List.countP_eq_length.mp (e.trans List.length_range.symm)
  have := hall i (List.mem_range.mpr hi)
  simp [h] at this

end Interleave
