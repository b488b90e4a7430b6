import MemoryPools.Book
import Mathlib.Algebra.BigOperators.Group.List.Basic

/-!
# The accounts of a book

Every block in use is on a listed page, and a page with a free block is on one of the two
free lists. So the free blocks can be counted there, and a book that has to grow has no
free block at all.
-/

namespace MemoryPools

open Interleave

namespace Book

variable {b b' : Book} {p : Addr} {n : Nat}

def used (b : Book) (p : Addr) : Nat := (List.range 63).countP fun i => (p, i) ∈ b.live

theorem used_le (b : Book) (p : Addr) : b.used p ≤ 63 := by
  have h := List.countP_le_length (p := fun i => decide ((p, i) ∈ b.live)) (l := List.range 63)
  rwa [List.length_range] at h

theorem used_eq_iff : b.used p = 63 ↔ b.full p = true := by
  have h := List.countP_eq_length (p := fun i => decide ((p, i) ∈ b.live)) (l := List.range 63)
  rw [List.length_range] at h
  rw [full_iff]
  apply h.trans
  simp

/-- The zeros of a bitfield whose last bit is one. -/
theorem countZeros_eq_used {x : Bitfield} (h63 : x.getLsbD 63 = true)
    (h : ∀ i < 63, x.getLsbD i = false ↔ (p, i) ∈ b.live) : countZeros x = b.used p := by
  rw [countZeros, List.range_succ, List.countP_append, used]
  have hlast : List.countP (fun i => !x.getLsbD i) [63] = 0 := by simp [h63]
  rw [hlast, Nat.add_zero]
  apply List.countP_congr
  intro i hi
  have hbit := h i (List.mem_range.mp hi)
  simp [← hbit]

/-! ## Sums over pages -/

section
variable {α : Type} {f : α → Nat} {c : Nat} {l : List α}

theorem sum_map_le (hf : ∀ p ∈ l, f p ≤ c) : (l.map f).sum ≤ c * l.length := by
  induction l with
  | nil => simp
  | cons p l ih =>
    have hp := hf p (by simp)
    have hl := ih fun q hq => hf q (by simp [hq])
    rw [List.map_cons, List.sum_cons, List.length_cons, Nat.mul_succ]
    omega

theorem sum_map_eq_iff (hf : ∀ p ∈ l, f p ≤ c) :
    (l.map f).sum = c * l.length ↔ ∀ p ∈ l, f p = c := by
  induction l with
  | nil => simp
  | cons p l ih =>
    have hp := hf p (by simp)
    have hf' : ∀ q ∈ l, f q ≤ c := fun q hq => hf q (by simp [hq])
    have hl := sum_map_le hf'
    rw [List.map_cons, List.sum_cons, List.length_cons, Nat.mul_succ, List.forall_mem_cons,
      ← ih hf']
    omega

theorem sum_map_sub (hf : ∀ p ∈ l, f p ≤ c) :
    (l.map fun p => c - f p).sum + (l.map f).sum = c * l.length := by
  induction l with
  | nil => simp
  | cons p l ih =>
    have hp := hf p (by simp)
    have hl := ih fun q hq => hf q (by simp [hq])
    rw [List.map_cons, List.map_cons, List.sum_cons, List.sum_cons, List.length_cons, Nat.mul_succ]
    omega

theorem sum_map_of_sub {l l' : List Addr} {f : Addr → Nat} (hl : l.Nodup) (hl' : l'.Nodup)
    (hsub : ∀ p ∈ l, p ∈ l') (hzero : ∀ p ∈ l', p ∉ l → f p = 0) :
    (l.map f).sum = (l'.map f).sum := by
  have hperm : l'.Perm (l ++ l'.filter fun p => p ∉ l) := by
    apply (List.perm_ext_iff_of_nodup hl' ?_).mpr
    · intro p
      rw [List.mem_append, List.mem_filter, decide_eq_true_eq]
      constructor
      · intro hp
        by_cases h : p ∈ l
        · exact Or.inl h
        · exact Or.inr ⟨hp, h⟩
      · rintro (hp | hp)
        · exact hsub p hp
        · exact hp.1
    · apply List.nodup_append.mpr
      refine ⟨hl, hl'.filter _, ?_⟩
      rintro p hp q hq rfl
      have hnot := (List.mem_filter.mp hq).2
      exact of_decide_eq_true hnot hp
  have hrest : ((l'.filter fun p => p ∉ l).map f).sum = 0 := by
    apply List.sum_eq_zero
    intro k hk
    obtain ⟨p, hp, rfl⟩ := List.mem_map.mp hk
    obtain ⟨hp, hnot⟩ := List.mem_filter.mp hp
    exact hzero p hp (of_decide_eq_true hnot)
  rw [(hperm.map f).sum_eq, List.map_append, List.sum_append, hrest, Nat.add_zero]

end

/-! ## The blocks in use -/

namespace Tidy

theorem sum_used (h : b.Tidy) : (b.listed.map b.used).sum = b.live.length := by
  let blocks : Addr → List Block := fun p =>
    ((List.range 63).filter fun i => (p, i) ∈ b.live).map fun i => (p, i)
  have hmem : ∀ p i, (p, i) ∈ b.listed.flatMap blocks ↔ (p, i) ∈ b.live := by
    intro p i
    simp only [blocks, List.mem_flatMap, List.mem_map, List.mem_filter, List.mem_range,
      decide_eq_true_eq, Prod.mk.injEq]
    constructor
    · rintro ⟨q, -, j, ⟨-, hj⟩, rfl, rfl⟩
      exact hj
    · intro hi
      exact ⟨p, (h.home p i hi).1, i, ⟨(h.home p i hi).2, hi⟩, rfl, rfl⟩
  have hnodup : (b.listed.flatMap blocks).Nodup := by
    apply List.nodup_flatMap.mpr
    constructor
    · intro p _
      apply (List.nodup_range.filter _).map
      intro i j e
      exact (Prod.mk.inj e).2
    · apply h.listed.imp
      intro p q hne x hp hq
      obtain ⟨i, -, rfl⟩ := List.mem_map.mp hp
      obtain ⟨j, -, e⟩ := List.mem_map.mp hq
      exact hne (Prod.mk.inj e).1.symm
  have hperm : (b.listed.flatMap blocks).Perm b.live := by
    apply (List.perm_ext_iff_of_nodup hnodup h.live).mpr
    rintro ⟨p, i⟩
    exact hmem p i
  rw [← hperm.length_eq, List.length_flatMap]
  congr 1
  apply List.map_congr_left
  intro p _
  rw [used, List.countP_eq_length_filter, List.length_map]

theorem length_live_le (h : b.Tidy) : b.live.length ≤ 63 * b.listed.length := by
  rw [← h.sum_used]
  exact sum_map_le fun p _ => b.used_le p

theorem length_live_eq_iff (h : b.Tidy) :
    b.live.length = 63 * b.listed.length ↔ ∀ p ∈ b.listed, b.full p = true := by
  rw [← h.sum_used, sum_map_eq_iff fun p _ => b.used_le p]
  simp only [used_eq_iff]

theorem sum_free (h : b.Tidy) :
    ((b.free ++ b.pending).map fun p => 63 - b.used p).sum + b.live.length =
      63 * b.listed.length := by
  have hzero : ∀ p ∈ b.listed, p ∉ b.free ++ b.pending → 63 - b.used p = 0 := by
    intro p hp hnot
    have hfull : b.full p = true := by
      by_contra hne
      exact hnot (h.room p hp (by simpa using hne))
    rw [used_eq_iff.mpr hfull]
  rw [sum_map_of_sub h.lists h.listed h.sub hzero, ← h.sum_used]
  exact sum_map_sub fun p _ => b.used_le p

theorem all_full (h : b.Tidy) (hall : b.free.dropWhile b.full = []) (hpending : b.pending = []) :
    b.live.length = 63 * b.listed.length := by
  rw [h.length_live_eq_iff]
  intro p hp
  by_contra hne
  have := h.pending_of_full hall hp (by simpa using hne)
  rw [hpending] at this
  cases this

end Tidy

/-- A book grows only if all its blocks are in use and nothing is parked. -/
theorem Fetch.grows (h : b.Tidy) (hf : Fetch b n b') (hn : n ≠ 0) :
    b.live.length = 63 * b.listed.length ∧ b.parked = [] ∧ b'.parked = [] ∧
      n = growth b.listed.length ∧ b'.listed.length = b.listed.length + n := by
  cases hf with
  | found | pending | unpark => exact absurd rfl hn
  | @grow fresh hall hpending hparked hnodup hnew hlen =>
    refine ⟨h.all_full hall hpending, hparked, hparked, hlen, ?_⟩
    show (fresh ++ b.listed).length = _
    rw [List.length_append]
    omega

/-- Pages that are put back are counted again, and only they. -/
theorem Fetch.listed_length (hf : Fetch b n b') :
    b'.listed.length + b'.parked.length ≤ b.listed.length + b.parked.length + n ∧
      b.listed.length ≤ b'.listed.length := by
  cases hf with
  | found => exact ⟨Nat.le_refl _, Nat.le_refl _⟩
  | pending hall hne hparked =>
    refine ⟨?_, Nat.le_refl _⟩
    rcases hparked with rfl | rfl
    · exact Nat.le_refl _
    · simp
  | @unpark kept again hall hpending heq hlen hne =>
    simp only [heq, List.length_append]
    omega
  | grow =>
    simp only [List.length_append]
    omega

/-- Pages are made or put back only if all blocks are in use, and at most as many as there are. -/
theorem Fetch.listed_le (h : b.Tidy) (hf : Fetch b n b') :
    b'.listed.length = b.listed.length ∨ b.live.length = 63 * b.listed.length ∧
      b'.listed.length ≤ b.listed.length + max b.listed.length 1 := by
  cases hf with
  | found | pending => exact Or.inl rfl
  | @unpark kept again hall hpending heq hlen hne =>
    right
    refine ⟨h.all_full hall hpending, ?_⟩
    show (again ++ b.listed).length ≤ _
    rw [List.length_append]
    omega
  | @grow fresh hall hpending hparked hnodup hnew hlen =>
    right
    refine ⟨h.all_full hall hpending, ?_⟩
    have hle : growth b.listed.length ≤ max b.listed.length 1 := Nat.min_le_left _ _
    show (fresh ++ b.listed).length ≤ _
    rw [List.length_append]
    omega

theorem Fetch.parked_nil (h : b.Tidy) (hf : Fetch b n b') (hp : b.parked = []) :
    b'.parked = [] ∧ b'.listed.length = b.listed.length + n ∧
      n = if b.live.length = 63 * b.listed.length then growth b.listed.length else 0 := by
  cases hf with
  | found hne =>
    refine ⟨hp, rfl, ?_⟩
    rw [if_neg]
    intro e
    obtain ⟨p, rest, hfree, hroom⟩ := h.fetched (.found hne)
    have hp : p ∈ b.free := by
      apply (List.dropWhile_sublist b.full).subset
      rw [show b.free.dropWhile b.full = p :: rest from hfree]
      simp
    have hfull : b.full p = true := h.length_live_eq_iff.mp e p (h.free_listed hp)
    have hroom : b.full p = false := hroom
    rw [hfull] at hroom
    cases hroom
  | pending hall hne hparked =>
    refine ⟨?_, rfl, ?_⟩
    · rcases hparked with rfl | rfl
      · exact hp
      · rfl
    · rw [if_neg]
      intro e
      obtain ⟨p, rest, hpending⟩ := List.exists_cons_of_ne_nil hne
      have hmem : p ∈ b.pending := by simp [hpending]
      have hfull := h.length_live_eq_iff.mp e p (h.sub p (List.mem_append_right _ hmem))
      rw [h.pendingRoom p hmem] at hfull
      cases hfull
  | @unpark kept again hall hpending heq hlen hne =>
    rw [hp] at heq
    exact absurd (List.append_eq_nil_iff.mp heq.symm).2 hne
  | grow hall hpending hparked hnodup hnew hlen =>
    refine ⟨hparked, ?_, ?_⟩
    · simp only [List.length_append]
      omega
    · rw [if_pos (h.all_full hall hpending), hlen]

end Book

end MemoryPools
