import Mathlib.Algebra.GroupWithZero.Nat

/-!
# Stores

A store maps every natural number to a value; all but finitely many cells hold
the default. It is the memory of a model that has to run: addresses and thread
names are numbers, and a cell that was never written reads as the default.
-/

namespace Interleave

structure Store (α : Type) where
  cells : List α
  deriving DecidableEq

namespace Store

variable {α : Type} [Inhabited α]

def put : List α → Nat → α → List α
  | [], 0, a => [a]
  | [], i + 1, a => default :: put [] i a
  | _ :: l, 0, a => a :: l
  | b :: l, i + 1, a => b :: put l i a

def get (m : Store α) (i : Nat) : α := m.cells.getD i default

def set (m : Store α) (i : Nat) (a : α) : Store α := ⟨put m.cells i a⟩

def empty : Store α := ⟨[]⟩

instance : Inhabited (Store α) := ⟨empty⟩

theorem getD_put (l : List α) (i : Nat) (a : α) (j : Nat) :
    (put l i a).getD j default = if j = i then a else l.getD j default := by
  induction l, i, a using put.induct generalizing j with
  | case1 a => cases j <;> simp [put]
  | case2 i a ih =>
    cases j with
    | zero => simp [put]
    | succ j =>
      have := ih j
      simp only [put, List.getD_cons_succ, this]
      simp
  | case3 b l a => cases j <;> simp [put]
  | case4 b l i a ih =>
    cases j with
    | zero => simp [put]
    | succ j =>
      have := ih j
      simp only [put, List.getD_cons_succ, this]
      simp

@[simp] theorem get_set_self (m : Store α) (i : Nat) (a : α) : (m.set i a).get i = a :=
  (getD_put m.cells i a i).trans (if_pos rfl)

theorem get_set (m : Store α) (i : Nat) (a : α) (j : Nat) :
    (m.set i a).get j = if j = i then a else m.get j := getD_put m.cells i a j

theorem get_set_ne (m : Store α) {i j : Nat} (a : α) (h : j ≠ i) : (m.set i a).get j = m.get j := by
  rw [get_set, if_neg h]

@[simp] theorem get_empty (i : Nat) : (empty : Store α).get i = default := by
  simp [get, empty]

theorem put_put (l : List α) (i : Nat) (a b : α) : put (put l i a) i b = put l i b := by
  induction l, i, a using put.induct with
  | case1 a => rfl
  | case2 i a ih => exact congrArg (default :: ·) ih
  | case3 c l a => rfl
  | case4 c l i a ih => exact congrArg (c :: ·) ih

@[simp] theorem set_set (m : Store α) (i : Nat) (a b : α) : (m.set i a).set i b = m.set i b := by
  unfold set
  rw [put_put]

theorem get_of_all {P : α → Prop} (m : Store α) (h0 : P default) (h : ∀ a ∈ m.cells, P a)
    (i : Nat) : P (m.get i) := by
  unfold get
  rw [List.getD_eq_getElem?_getD]
  cases hi : m.cells[i]? with
  | none => exact h0
  | some a => exact h a (List.mem_of_getElem? hi)

theorem exists_get_iff {P : α → Prop} {m : Store α} (h0 : ¬ P default) :
    (∃ i, P (m.get i)) ↔ ∃ a ∈ m.cells, P a := by
  constructor
  · intro ⟨i, hi⟩
    apply Classical.byContradiction
    intro hne
    exact m.get_of_all (P := fun a => ¬ P a) h0 (fun a ha hp => hne ⟨a, ha, hp⟩) i hi
  · intro ⟨a, ha, hp⟩
    obtain ⟨i, hi⟩ := List.getElem?_of_mem ha
    refine ⟨i, ?_⟩
    unfold get
    rw [List.getD_eq_getElem?_getD, hi]
    exact hp

def all (p : α → Bool) (m : Store α) : Bool := p default && m.cells.all p

theorem all_iff {p : α → Bool} {m : Store α} : m.all p = true ↔ ∀ i, p (m.get i) = true := by
  unfold all
  rw [Bool.and_eq_true, List.all_eq_true]
  constructor
  · intro ⟨h0, h⟩ i
    exact m.get_of_all (P := fun a => p a = true) h0 h i
  · intro h
    refine ⟨?_, fun a ha => ?_⟩
    · have := h m.cells.length
      simpa [get] using this
    · obtain ⟨i, hi⟩ := List.getElem?_of_mem ha
      have := h i
      unfold get at this
      rw [List.getD_eq_getElem?_getD, hi] at this
      exact this

def any (p : α → Bool) (m : Store α) : Bool := !m.all fun a => !p a

theorem any_iff {p : α → Bool} {m : Store α} : m.any p = true ↔ ∃ i, p (m.get i) = true := by
  unfold any
  constructor
  · intro h
    apply Classical.byContradiction
    intro hne
    have hall : (m.all fun a => !p a) = true := all_iff.mpr fun i => by
      simpa using fun hi => hne ⟨i, hi⟩
    rw [hall] at h
    cases h
  · intro ⟨i, hi⟩
    cases hall : m.all fun a => !p a with
    | true =>
      have := all_iff.mp hall i
      rw [hi] at this
      cases this
    | false => rfl

/-- A write leaves the cells where `p` holds, if the written one is still one of them. -/
theorem any_set {p : α → Bool} {m : Store α} {i : Nat} {a : α} (h : p (m.get i) = true → p a = true)
    (hm : m.any p = true) : (m.set i a).any p = true := by
  obtain ⟨j, hj⟩ := any_iff.mp hm
  refine any_iff.mpr ⟨j, ?_⟩
  rw [get_set]
  split
  · rename_i e; exact h (e ▸ hj)
  · exact hj

/-- The sum over all cells, where a cell that holds the default counts nothing. -/
def total (f : α → Nat) (m : Store α) : Nat := (m.cells.map f).sum

theorem total_set {f : α → Nat} (h0 : f default = 0) (m : Store α) (i : Nat) (a : α) :
    (m.set i a).total f + f (m.get i) = m.total f + f a := by
  suffices h : ∀ l : List α, ((put l i a).map f).sum + f (l.getD i default) = (l.map f).sum + f a by
    exact h m.cells
  intro l
  induction l, i, a using put.induct with
  | case1 a => simp [put, h0]
  | case2 i a ih => simpa [put, h0] using ih
  | case3 b l a =>
    simp only [put, List.map_cons, List.sum_cons, List.getD_cons_zero]
    omega
  | case4 b l i a ih =>
    simp only [put, List.map_cons, List.sum_cons, List.getD_cons_succ]
    omega

theorem le_total {f : α → Nat} (h0 : f default = 0) (m : Store α) (i : Nat) :
    f (m.get i) ≤ m.total f := by
  have h := total_set h0 m i default
  omega

theorem total_eq_zero {f : α → Nat} {m : Store α} (h : ∀ i, f (m.get i) = 0) : m.total f = 0 := by
  apply List.sum_eq_zero_iff_forall_eq_nat.mpr
  intro n hn
  obtain ⟨a, ha, rfl⟩ := List.mem_map.mp hn
  obtain ⟨i, hi⟩ := List.getElem?_of_mem ha
  have := h i
  unfold get at this
  rwa [List.getD_eq_getElem?_getD, hi] at this

theorem apply_get_set {β : Type} (f : α → β) (m : Store α) {i : Nat} {a : α}
    (h : f a = f (m.get i)) (j : Nat) :
    f ((m.set i a).get j) = f (m.get j) := by
  rw [get_set]; split
  · rename_i e; rw [h, e]
  · rfl

end Store

end Interleave
