import MemoryPools.Page.Ops
import Mathlib.Logic.Function.Basic

/-!
# The pages of an arena

Pages persist as cells: `deallocate_page` leaves an entry in `freed` and the page
where it was, so that a later access can be seen. Addresses are given out in order.
-/

namespace MemoryPools

open Interleave

/-- A call of `deallocate_page`, by the function that made it. -/
inductive Freed
  | dropPage (page : Addr)
  | dropBlock (page : Addr)
  deriving DecidableEq

def Freed.page : Freed → Addr
  | .dropPage p => p
  | .dropBlock p => p

structure Heap (π : Type) where
  pages : Store π
  size : Nat
  freed : List Freed

variable {π κ : Type}

variable [Inhabited π]

namespace Heap

def empty : Heap π := { pages := Store.empty, size := 0, freed := [] }

def get (h : Heap π) (p : Addr) : π := h.pages.get p

def set (h : Heap π) (p : Addr) (page : π) : Heap π := { h with pages := h.pages.set p page }

def free (h : Heap π) (freed : Freed) : Heap π := { h with freed := freed :: h.freed }

theorem get_set (h : Heap π) (p : Addr) (page : π) (q : Addr) :
    (h.set p page).get q = if q = p then page else h.get q := Store.get_set _ _ _ _

@[simp] theorem get_set_self (h : Heap π) (p : Addr) (page : π) : (h.set p page).get p = page :=
  Store.get_set_self _ _ _

@[simp] theorem set_set (h : Heap π) (p : Addr) (page page' : π) :
    (h.set p page).set p page' = h.set p page' := by
  unfold set
  rw [Store.set_set]

@[simp] theorem get_empty (p : Addr) : (empty : Heap π).get p = default := Store.get_empty p

@[simp] theorem size_set (h : Heap π) (p : Addr) (page : π) : (h.set p page).size = h.size := rfl

@[simp] theorem freed_set (h : Heap π) (p : Addr) (page : π) : (h.set p page).freed = h.freed := rfl

@[simp] theorem get_free (h : Heap π) (f : Freed) (p : Addr) : (h.free f).get p = h.get p := rfl

end Heap

/-! ## The links of the pages -/

namespace PageOps

variable (ops : PageOps π κ) (h : Heap π)

def nextFree (p : Addr) : Ptr := (ops.links (h.get p)).nextFree

def next (p : Addr) : Ptr := (ops.links (h.get p)).next

def inFreeList (p : Addr) : Bool := (ops.links (h.get p)).inFreeList

variable (p : Addr) (page : π)

theorem nextFree_set :
    ops.nextFree (h.set p page) = Function.update (ops.nextFree h) p (ops.links page).nextFree := by
  funext q
  unfold nextFree
  rw [Heap.get_set, Function.update_apply]
  split <;> rfl

theorem next_set :
    ops.next (h.set p page) = Function.update (ops.next h) p (ops.links page).next := by
  funext q
  unfold next
  rw [Heap.get_set, Function.update_apply]
  split <;> rfl

theorem inFreeList_set :
    ops.inFreeList (h.set p page) = Function.update (ops.inFreeList h) p
    (ops.links page).inFreeList := by
  funext q
  unfold inFreeList
  rw [Heap.get_set, Function.update_apply]
  split <;> rfl

variable {ops h p page}

theorem nextFree_set_same (e : (ops.links page).nextFree = ops.nextFree h p) :
    ops.nextFree (h.set p page) = ops.nextFree h := by
  rw [nextFree_set, e, Function.update_eq_self]

theorem next_set_same (e : (ops.links page).next = ops.next h p) :
    ops.next (h.set p page) = ops.next h := by
  rw [next_set, e, Function.update_eq_self]

theorem inFreeList_set_same (e : (ops.links page).inFreeList = ops.inFreeList h p) :
    ops.inFreeList (h.set p page) = ops.inFreeList h := by
  rw [inFreeList_set, e, Function.update_eq_self]

end PageOps

/-! ## New pages -/

/-- The page behind the `k`-th page of a list that starts at `base`. -/
def behind (base : Addr) : Nat → Ptr
  | 0 => none
  | k + 1 => some (base + k)

def newPages (new : Ptr → π) (base : Addr) : Nat → Store π → Store π
  | 0, pages => pages
  | k + 1, pages => (newPages new base k pages).set (base + k) (new (behind base k))

def downFrom (base : Addr) : Nat → List Addr
  | 0 => []
  | k + 1 => (base + k) :: downFrom base k

/-- `make_list`: the heap, the first page and the last one. -/
def Heap.makeList (new : Ptr → π) (npages : Nat) (h : Heap π) : Heap π × Addr × Addr :=
  ({ h with
      pages := newPages new h.size npages h.pages
      size := h.size + npages }, h.size + (npages - 1), h.size)

theorem behind_pos {base n : Nat} (hn : 0 < n) : behind base n = some (base + (n - 1)) := by
  obtain ⟨k, rfl⟩ := Nat.exists_eq_succ_of_ne_zero (by omega : n ≠ 0)
  rfl

theorem mem_downFrom {base n q : Nat} : q ∈ downFrom base n ↔ base ≤ q ∧ q < base + n := by
  induction n with
  | zero => simp [downFrom]
  | succ n ih =>
    rw [downFrom, List.mem_cons, ih]
    omega

theorem nodup_downFrom {base n : Nat} : (downFrom base n).Nodup := by
  induction n with
  | zero => exact List.nodup_nil
  | succ n ih =>
    apply List.nodup_cons.mpr
    exact ⟨fun h => absurd (mem_downFrom.mp h).2 (Nat.lt_irrefl _), ih⟩

@[simp] theorem length_downFrom {base n : Nat} : (downFrom base n).length = n := by
  induction n with
  | zero => rfl
  | succ n ih => rw [downFrom, List.length_cons, ih]

theorem getLast_downFrom {base n : Nat} : (downFrom base (n + 1)).getLast? = some base := by
  induction n with
  | zero => rfl
  | succ n ih =>
    rw [downFrom, downFrom, List.getLast?_cons_cons]
    exact ih

theorem linked_downFrom {next : Addr → Ptr} {base n : Nat}
    (h : ∀ k < n, next (base + k) = behind base k) :
    Linked next (behind base n) (downFrom base n) := by
  induction n with
  | zero => rfl
  | succ n ih =>
    refine ⟨rfl, ?_⟩
    rw [h n (by omega)]
    apply ih
    intro k hk
    exact h k (by omega)

theorem get_newPages_other {new : Ptr → π} {base n q : Nat} {pages : Store π}
    (h : q < base ∨ base + n ≤ q) : (newPages new base n pages).get q = pages.get q := by
  induction n generalizing pages with
  | zero => rfl
  | succ n ih =>
    rw [newPages, Store.get_set_ne _ _ (by omega)]
    exact ih (by omega)

theorem get_newPages {new : Ptr → π} {base n k : Nat} {pages : Store π} (h : k < n) :
    (newPages new base n pages).get (base + k) = new (behind base k) := by
  induction n generalizing pages with
  | zero => exact absurd h (by omega)
  | succ n ih =>
    rw [newPages, Store.get_set]
    by_cases e : k = n
    · rw [e, if_pos rfl]
    · rw [if_neg (by omega)]
      exact ih (by omega)

namespace Heap

variable {new : Ptr → π} {n : Nat} {h : Heap π}

theorem get_makeList_old {q : Nat} (hq : q < h.size ∨ h.size + n ≤ q) :
    (h.makeList new n).1.get q = h.get q :=
  get_newPages_other hq

theorem get_makeList_new {k : Nat} (hk : k < n) :
    (h.makeList new n).1.get (h.size + k) = new (behind h.size k) :=
  get_newPages hk

theorem get_makeList (new : Ptr → π) (n : Nat) (h : Heap π) (q : Nat) :
    (h.makeList new n).1.get q = h.get q ∨
    (h.size ≤ q ∧ ∃ next, (h.makeList new n).1.get q = new next) := by
  rcases Nat.lt_or_ge q h.size with hq | hq
  · exact Or.inl (get_makeList_old (Or.inl hq))
  · obtain ⟨k, rfl⟩ := Nat.exists_eq_add_of_le hq
    rcases Nat.lt_or_ge k n with hk | hk
    · exact Or.inr ⟨hq, _, get_makeList_new hk⟩
    · exact Or.inl (get_makeList_old (Or.inr (by omega)))

end Heap

namespace PageOps

variable {ops : PageOps π κ} {new : Ptr → π} {n : Nat} {h : Heap π}

theorem links_makeList_old (ops : PageOps π κ) (new : Ptr → π) (n : Nat) {q : Nat}
    (hq : q < h.size) :
    ops.nextFree (h.makeList new n).1 q = ops.nextFree h q ∧ ops.next (h.makeList new n).1 q =
    ops.next h q ∧
      ops.inFreeList (h.makeList new n).1 q = ops.inFreeList h q := by
  unfold nextFree next inFreeList
  rw [Heap.get_makeList_old (Or.inl hq)]
  exact ⟨rfl, rfl, rfl⟩

/-- The new pages are linked from the last address down. -/
theorem linked_makeList (ops : PageOps π κ) (n : Nat) (h : Heap π)
    (hnew : ∀ p, ops.links (new p) = ⟨p, p, true⟩) :
    Linked (ops.nextFree (h.makeList new n).1) (behind h.size n) (downFrom h.size n) ∧
      Linked (ops.next (h.makeList new n).1) (behind h.size n) (downFrom h.size n) := by
  constructor
  · apply linked_downFrom
    intro k hk
    unfold nextFree
    rw [Heap.get_makeList_new hk, hnew]
  · apply linked_downFrom
    intro k hk
    unfold next
    rw [Heap.get_makeList_new hk, hnew]

theorem inFreeList_makeList (hnew : ∀ p, ops.links (new p) = ⟨p, p, true⟩)
    (hfresh : ∀ q, h.size ≤ q → ops.inFreeList h q = true) :
    ops.inFreeList (h.makeList new n).1 = ops.inFreeList h := by
  funext q
  rcases Heap.get_makeList new n h q with e | ⟨hq, p, e⟩
  · unfold inFreeList; rw [e]
  · rw [hfresh q hq]
    unfold inFreeList; rw [e, hnew]

theorem inFreeList_makeList_empty (hnew : ∀ p, ops.links (new p) = ⟨p, p, true⟩)
    (hfresh : (ops.links default).inFreeList = true) (q : Addr) :
    ops.inFreeList (Heap.empty.makeList new n).1 q = true := by
  have hempty : ∀ q, ops.inFreeList Heap.empty q = true := by
    intro q
    unfold inFreeList
    rw [Heap.get_empty]
    exact hfresh
  rw [inFreeList_makeList hnew fun q _ => hempty q]
  exact hempty q

end PageOps

end MemoryPools
