import MemoryPools.Interleave.Store
import Mathlib.Data.List.Nodup

/-!
# Tokens with one owner

A token is in a common purse or in the hand of one thread. `Ledger` says that no
token is in two places; the moves of a token from place to place keep that, and
change the set of owned tokens only where one is made or given back.
-/

namespace Interleave

variable {τ ι : Type}

structure Ledger (purse : List τ) (hand : ι → Option τ) : Prop where
  nodup : purse.Nodup
  apart : ∀ t x, hand t = some x → x ∉ purse
  inj : ∀ t u x, hand t = some x → hand u = some x → t = u

def Owned (purse : List τ) (hand : ι → Option τ) (x : τ) : Prop :=
  x ∈ purse ∨ ∃ t, hand t = some x

variable {purse : List τ} {hand hand' : ι → Option τ} {t : ι} {x : τ}

theorem ledger_empty (h : purse.Nodup) (h' : ∀ t, hand t = none) : Ledger purse hand :=
  ⟨h, fun t x ht => absurd ht (by simp [h' t]), fun t u x ht => absurd ht (by simp [h' t])⟩

theorem owned_empty (h : ∀ t, hand t = none) : Owned purse hand x ↔ x ∈ purse := by
  refine ⟨?_, Or.inl⟩
  rintro (hx | ⟨t, ht⟩)
  · exact hx
  · rw [h t] at ht; cases ht

namespace Ledger

theorem congr (hl : Ledger purse hand) (h : ∀ u, hand' u = hand u) : Ledger purse hand' := by
  obtain rfl : hand' = hand := funext h
  exact hl

theorem take [BEq τ] [LawfulBEq τ] (hl : Ledger purse hand) (hx : x ∈ purse) (ht : hand' t = some x)
    (hu : ∀ u, u ≠ t → hand' u = hand u) : Ledger (purse.erase x) hand' := by
  refine ⟨hl.nodup.erase x, ?_, ?_⟩
  · intro u y hy hm
    rw [hl.nodup.mem_erase_iff] at hm
    by_cases e : u = t
    · subst e; rw [ht] at hy; exact hm.1 (Option.some.inj hy).symm
    · rw [hu u e] at hy; exact hl.apart u y hy hm.2
  · intro u v y hy hy'
    by_cases e : u = t <;> by_cases e' : v = t
    · rw [e, e']
    · subst e; rw [ht] at hy; rw [hu v e'] at hy'
      exact absurd (Option.some.inj hy ▸ hx) (hl.apart v y hy')
    · subst e'; rw [ht] at hy'; rw [hu u e] at hy
      exact absurd (Option.some.inj hy' ▸ hx) (hl.apart u y hy)
    · rw [hu u e] at hy; rw [hu v e'] at hy'; exact hl.inj u v y hy hy'

theorem make (hl : Ledger purse hand) (hx : ¬ Owned purse hand x) (ht : hand' t = some x)
    (hu : ∀ u, u ≠ t → hand' u = hand u) : Ledger purse hand' := by
  have hn : ∀ u, u ≠ t → hand' u ≠ some x := fun u e h => hx (Or.inr ⟨u, by rw [← hu u e]; exact h⟩)
  refine ⟨hl.nodup, ?_, ?_⟩
  · intro u y hy hm
    by_cases e : u = t
    · subst e; rw [ht] at hy; exact hx (Or.inl (Option.some.inj hy ▸ hm))
    · rw [hu u e] at hy; exact hl.apart u y hy hm
  · intro u v y hy hy'
    by_cases e : u = t <;> by_cases e' : v = t
    · rw [e, e']
    · subst e; rw [ht] at hy; exact absurd (Option.some.inj hy ▸ hy') (hn v e')
    · subst e'; rw [ht] at hy'; exact absurd (Option.some.inj hy' ▸ hy) (hn u e)
    · rw [hu u e] at hy; rw [hu v e'] at hy'; exact hl.inj u v y hy hy'

theorem give (hl : Ledger purse hand) (ht : hand' t = none) (hu : ∀ u, u ≠ t → hand' u = hand u) :
    Ledger purse hand' := by
  have hs : ∀ u y, hand' u = some y → hand u = some y := by
    intro u y hy
    by_cases e : u = t
    · subst e; rw [ht] at hy; cases hy
    · rwa [hu u e] at hy
  exact ⟨hl.nodup, fun u y hy => hl.apart u y (hs u y hy),
    fun u v y hy hy' => hl.inj u v y (hs u y hy) (hs v y hy')⟩

theorem insert (hl : Ledger purse hand) (hx : x ∉ purse) (hh : ∀ u, hand u ≠ some x) :
    Ledger (x :: purse) hand := by
  refine ⟨List.nodup_cons.mpr ⟨hx, hl.nodup⟩, ?_, hl.inj⟩
  intro u y hy hm
  rcases List.mem_cons.mp hm with rfl | hm
  · exact hh u hy
  · exact hl.apart u y hy hm

theorem settle (hl : Ledger purse hand) (ht : hand t = some x) (ht' : hand' t = none)
    (hu : ∀ u, u ≠ t → hand' u = hand u) : Ledger (x :: purse) hand' := by
  apply (hl.give ht' hu).insert (hl.apart t x ht)
  intro u hy
  by_cases e : u = t
  · subst e; rw [ht'] at hy; cases hy
  · rw [hu u e] at hy; exact e (hl.inj u t x hy ht)

end Ledger

/-! ## Hands of threads -/

class Holder (θ : Type) (τ : outParam Type) where
  hand : θ → Option τ

section
variable {θ : Type} [Inhabited θ] [Holder θ τ]

def handOf (threads : Store θ) (t : Nat) : Option τ := Holder.hand (threads.get t)

variable (m : Store θ) {t : Nat} {p : θ}

theorem handOf_get {m : Store θ} (h : m.get t = p) : handOf m t = Holder.hand p := by
  unfold handOf; rw [h]

theorem handOf_set_self : handOf (m.set t p) t = Holder.hand p := by
  unfold handOf; rw [Store.get_set_self]

theorem handOf_set_ne (u : Nat) (hu : u ≠ t) : handOf (m.set t p) u = handOf m u := by
  unfold handOf; rw [Store.get_set_ne _ _ hu]

theorem handOf_set_same (hp : Holder.hand p = handOf m t) (u : Nat) :
    handOf (m.set t p) u = handOf m u := by
  by_cases e : u = t
  · rw [e, handOf_set_self, hp]
  · exact handOf_set_ne m u e

end

/-! ## What is owned after a move -/

theorem owned_congr {y : τ} (h : ∀ u, hand' u = hand u) :
    Owned purse hand' y ↔ Owned purse hand y := by
  obtain rfl : hand' = hand := funext h
  exact Iff.rfl

theorem owned_take [BEq τ] [LawfulBEq τ] {y : τ} (hl : Ledger purse hand) (hx : x ∈ purse)
    (h0 : hand t = none) (ht : hand' t = some x) (hu : ∀ u, u ≠ t → hand' u = hand u) :
    Owned (purse.erase x) hand' y ↔ Owned purse hand y := by
  unfold Owned
  rw [hl.nodup.mem_erase_iff]
  constructor
  · rintro (h | ⟨u, h⟩)
    · exact Or.inl h.2
    · by_cases e : u = t
      · subst e; rw [ht] at h; exact Or.inl (Option.some.inj h ▸ hx)
      · exact Or.inr ⟨u, by rw [← hu u e]; exact h⟩
  · rintro (h | ⟨u, h⟩)
    · by_cases e : y = x
      · exact Or.inr ⟨t, by rw [ht, e]⟩
      · exact Or.inl ⟨e, h⟩
    · refine Or.inr ⟨u, ?_⟩
      rw [hu u]; exact h
      rintro rfl; rw [h0] at h; cases h

theorem owned_make {y : τ} (h0 : hand t = none) (ht : hand' t = some x)
    (hu : ∀ u, u ≠ t → hand' u = hand u) :
    Owned purse hand' y ↔ Owned purse hand y ∨ y = x := by
  unfold Owned
  constructor
  · rintro (h | ⟨u, h⟩)
    · exact Or.inl (Or.inl h)
    · by_cases e : u = t
      · subst e; rw [ht] at h; exact Or.inr (Option.some.inj h).symm
      · exact Or.inl (Or.inr ⟨u, by rw [← hu u e]; exact h⟩)
  · rintro ((h | ⟨u, h⟩) | rfl)
    · exact Or.inl h
    · refine Or.inr ⟨u, ?_⟩
      rw [hu u]; exact h
      rintro rfl; rw [h0] at h; cases h
    · exact Or.inr ⟨t, ht⟩

theorem owned_give {y : τ} (hl : Ledger purse hand) (h0 : hand t = some x) (ht : hand' t = none)
    (hu : ∀ u, u ≠ t → hand' u = hand u) : Owned purse hand' y ↔ Owned purse hand y ∧ y ≠ x := by
  unfold Owned
  constructor
  · rintro (h | ⟨u, h⟩)
    · exact ⟨Or.inl h, fun e => hl.apart t x h0 (e ▸ h)⟩
    · have e : u ≠ t := by rintro rfl; rw [ht] at h; cases h
      rw [hu u e] at h
      exact ⟨Or.inr ⟨u, h⟩, fun e' => e (hl.inj u t x (e' ▸ h) h0)⟩
  · rintro ⟨h | ⟨u, h⟩, hne⟩
    · exact Or.inl h
    · refine Or.inr ⟨u, ?_⟩
      rw [hu u]; exact h
      rintro rfl; rw [h0] at h; exact hne (Option.some.inj h).symm

theorem owned_settle {y : τ} (h0 : hand t = some x) (ht : hand' t = none)
    (hu : ∀ u, u ≠ t → hand' u = hand u) : Owned (x :: purse) hand' y ↔ Owned purse hand y := by
  unfold Owned
  rw [List.mem_cons]
  constructor
  · rintro ((rfl | h) | ⟨u, h⟩)
    · exact Or.inr ⟨t, h0⟩
    · exact Or.inl h
    · have e : u ≠ t := by rintro rfl; rw [ht] at h; cases h
      exact Or.inr ⟨u, by rw [← hu u e]; exact h⟩
  · rintro (h | ⟨u, h⟩)
    · exact Or.inl (Or.inr h)
    · by_cases e : u = t
      · subst e; rw [h0] at h; exact Or.inl (Or.inl (Option.some.inj h).symm)
      · exact Or.inr ⟨u, by rw [hu u e]; exact h⟩

theorem owned_insert {y : τ} : Owned (x :: purse) hand y ↔ Owned purse hand y ∨ y = x := by
  unfold Owned
  rw [List.mem_cons]
  constructor
  · rintro ((rfl | h) | h)
    · exact Or.inr rfl
    · exact Or.inl (Or.inl h)
    · exact Or.inl (Or.inr h)
  · rintro ((h | h) | rfl)
    · exact Or.inl (Or.inr h)
    · exact Or.inr h
    · exact Or.inl (Or.inl rfl)

/-! ## A lock -/

/-- A flag that is up while a thread holds the lock, and one thread at most holds it. -/
structure Locked (flag : Bool) (holds : ι → Bool) : Prop where
  up : ∀ t, holds t = true → flag = true
  one : ∀ t u, holds t = true → holds u = true → t = u

/-- A thread enters the lock only where the flag was down. -/
theorem Locked.move {flag flag' : Bool} {holds holds' : ι → Bool} (h : Locked flag holds)
    (hu : ∀ u, u ≠ t → holds' u = holds u)
    (henter : holds' t = true → flag' = true ∧ (holds t = true ∨ flag = false))
    (hkeep : holds t = false → holds' t = false → flag = true → flag' = true) :
    Locked flag' holds' := by
  have hother : ∀ u, u ≠ t → holds' u = true → holds u = true := fun u e hh => by
    rw [← hu u e]; exact hh
  refine ⟨fun u hh => ?_, fun u v hh hh' => ?_⟩
  · by_cases e : u = t
    · subst e; exact (henter hh).1
    · have hhu := hother u e hh
      cases ht' : holds' t with
      | true => exact (henter ht').1
      | false =>
        cases ht : holds t with
        | true => exact absurd (h.one u t hhu ht) e
        | false => exact hkeep ht ht' (h.up u hhu)
  · by_cases e : u = t <;> by_cases e' : v = t
    · rw [e, e']
    · subst e
      have hhv := hother v e' hh'
      rcases (henter hh).2 with ht | hf
      · exact absurd (h.one v u hhv ht) e'
      · rw [h.up v hhv] at hf; cases hf
    · subst e'
      have hhu := hother u e hh
      rcases (henter hh').2 with ht | hf
      · exact absurd (h.one u v hhu ht) e
      · rw [h.up u hhu] at hf; cases hf
    · exact h.one u v (hother u e hh) (hother v e' hh')

end Interleave
