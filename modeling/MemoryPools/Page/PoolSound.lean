import MemoryPools.Page.Pool
import MemoryPools.Interleave.Machine

/-!
# Releases of a page of a `Pool`

`drop_block` and `drop_page` run one after the other, in any order. `owned` says
that the pool did not release the page yet. The step `other` is the list code
of the pool and its drops on other pages.
-/

namespace MemoryPools

open Interleave

structure PagePoolState where
  page : PagePool
  free : Ptr
  handles : List Nat
  owned : Bool
  -- how often `deallocate_page` was called
  deallocs : Nat

inductive PagePoolAct
  | drop (index : Nat) (upgraded : Bool)
  | dropPage
  | other (nextFree next : Ptr) (inFreeList : Bool) (free : Ptr)
  deriving DecidableEq

namespace PagePool

def step (self : Addr) (s : PagePoolState) : PagePoolAct → Option PagePoolState
  | .drop index upgraded =>
    if index ∈ s.handles then
      let (page, free, deallocated) := dropBlock self index upgraded s.page s.free
      some { s with
        page
        free
        handles := s.handles.erase index
        deallocs := s.deallocs + deallocated.toNat }
    else none
  | .dropPage =>
    if s.owned then
      let (page, deallocated) := dropPage s.page
      some { s with page, owned := false, deallocs := s.deallocs + deallocated.toNat }
    else none
  | .other nextFree next inFreeList free =>
    some { s with page := { s.page with nextFree, next, inFreeList }, free }

structure Start (s : PagePoolState) : Prop where
  nodup : s.handles.Nodup
  held : ∀ i, (i < 63 ∧ s.page.bitfield.getLsbD i = false) ↔ i ∈ s.handles
  arenaBit : s.page.bitfield.getLsbD 63 = true
  owned : s.owned = true
  deallocs : s.deallocs = 0

def machine (self : Addr) : Machine PagePoolState PagePoolAct where
  init := Start
  step := step self

def Referenced (s : PagePoolState) : Prop := s.handles ≠ [] ∨ s.owned = true

/-! ## The bits after a release -/

theorem dropBlock_spec {self : Addr} {index : Nat} {upgraded : Bool} {page page' : PagePool}
    {free free' : Ptr} {deallocated : Bool}
    (h : dropBlock self index upgraded page free = (page', free', deallocated)) :
    page'.bitfield = page.bitfield ||| bit index ∧
    (deallocated = true ↔ ~~~page'.bitfield = maskArenaBit) := by
  unfold dropBlock at h
  by_cases hm : ~~~(page.bitfield ||| bit index) = maskArenaBit
  · simp only [hm, ite_true, Prod.mk.injEq] at h
    obtain ⟨rfl, -, rfl⟩ := h
    exact ⟨rfl, by simp [hm]⟩
  · simp only [hm, ite_false] at h
    split at h
    · obtain ⟨rfl, -, rfl⟩ := Prod.mk.injEq .. ▸ h
      exact ⟨rfl, by simp [hm]⟩
    · split at h
      · obtain ⟨rfl, -, rfl⟩ := Prod.mk.injEq .. ▸ h
        exact ⟨rfl, by simp [hm]⟩
      · obtain ⟨rfl, -, rfl⟩ := Prod.mk.injEq .. ▸ h
        exact ⟨rfl, by simp [hm]⟩

structure Inv (s : PagePoolState) : Prop where
  nodup : s.handles.Nodup
  held : ∀ i, (i < 63 ∧ s.page.bitfield.getLsbD i = false) ↔ i ∈ s.handles
  arenaBit : s.page.bitfield.getLsbD 63 = s.owned
  busy : Referenced s → s.deallocs = 0
  spent : ¬ Referenced s → s.deallocs = 1

theorem Inv.start {s : PagePoolState} (h : Start s) : Inv s := by
  refine ⟨h.nodup, h.held, h.arenaBit.trans h.owned.symm, fun _ => h.deallocs, fun hr => ?_⟩
  exact absurd (Or.inr h.owned) hr

theorem not_referenced_iff {s : PagePoolState}
    (hheld : ∀ i, (i < 63 ∧ s.page.bitfield.getLsbD i = false) ↔ i ∈ s.handles)
    (hbit : s.page.bitfield.getLsbD 63 = s.owned) :
    ¬ Referenced s ↔ ~~~s.page.bitfield = maskArenaBit := by
  rw [not_eq_mask_iff]
  unfold Referenced
  constructor
  · intro hr
    have hnil : s.handles = [] := by by_contra hne; exact hr (Or.inl hne)
    refine ⟨by rw [hbit]; by_contra ho; exact hr (Or.inr (by simpa using ho)), fun j hj => ?_⟩
    by_contra hb
    have := (hheld j).mp ⟨hj, by simpa using hb⟩
    rw [hnil] at this; cases this
  · intro ⟨h63, hall⟩ hr
    rcases hr with hne | ho
    · obtain ⟨i, hi⟩ := List.exists_mem_of_ne_nil _ hne
      obtain ⟨hlt, hb⟩ := (hheld i).mpr hi
      rw [hall i hlt] at hb; cases hb
    · rw [hbit, ho] at h63; cases h63

theorem Inv.release {s s' : PagePoolState} {deallocated : Bool} (h : Inv s) (hr : Referenced s)
    (hnodup : s'.handles.Nodup)
    (hheld : ∀ i, (i < 63 ∧ s'.page.bitfield.getLsbD i = false) ↔ i ∈ s'.handles)
    (hbit : s'.page.bitfield.getLsbD 63 = s'.owned)
    (hd : deallocated = true ↔ ~~~s'.page.bitfield = maskArenaBit)
    (hn : s'.deallocs = s.deallocs + deallocated.toNat) : Inv s' := by
  have h0 := h.busy hr
  have hlast := hd.trans (not_referenced_iff hheld hbit).symm
  refine ⟨hnodup, hheld, hbit, fun hr' => ?_, fun hr' => ?_⟩
  · cases deallocated with
    | true => exact absurd hr' (hlast.mp rfl)
    | false => rw [hn, h0]; rfl
  · rw [hn, h0, hlast.mpr hr']; rfl

theorem Inv.step {self : Addr} {s s' : PagePoolState} {a : PagePoolAct} (h : Inv s)
    (hs : PagePool.step self s a = some s') : Inv s' := by
  cases a with
  | drop index upgraded =>
    simp only [PagePool.step] at hs
    split at hs
    · rename_i hi
      obtain ⟨hlt, hb⟩ := (h.held index).mpr hi
      obtain ⟨⟨page', free', deallocated⟩, hg⟩ :
        ∃ r, dropBlock self index upgraded s.page s.free = r := ⟨_, rfl⟩
      obtain ⟨hw, hd⟩ := dropBlock_spec hg
      rw [hg] at hs
      have hbits := fun j => getLsbD_add_bit hlt hb j
      rw [add_bit_eq_or hlt hb, ← hw] at hbits
      obtain rfl := Option.some.inj hs
      refine h.release (Or.inl (List.ne_nil_of_mem hi)) (h.nodup.erase index)
        (fun j => ?_) ?_ hd rfl
      · rw [h.nodup.mem_erase_iff, ← h.held]
        simp only [hbits]
        grind
      · simp only [hbits, h.arenaBit]
        have : index ≠ 63 := by omega
        simp [this]
    · cases hs
  | dropPage =>
    simp only [PagePool.step] at hs
    split at hs
    · rename_i ho
      obtain rfl := Option.some.inj hs
      refine h.release (Or.inr ho) h.nodup (fun j => ?_) ?_ (by simp [PagePool.dropPage]) rfl
      · rw [← h.held]
        simp only [PagePool.dropPage, maskArenaBit_eq, getLsbD_and_not_twoPow
          (show 63 < 64 by omega)]
        grind
      · simp only [PagePool.dropPage, maskArenaBit_eq, getLsbD_and_not_twoPow
          (show 63 < 64 by omega)]
        simp
    · cases hs
  | other nextFree next inFreeList free =>
    obtain rfl := Option.some.inj hs
    exact ⟨h.nodup, h.held, h.arenaBit, h.busy, h.spent⟩

theorem Inv.of_reach {self : Addr} {s : PagePoolState} (h : (machine self).Reach Machine.always s) :
    Inv s :=
  h.invariant (fun _ => Inv.start) fun _ _ _ _ hi _ hs => hi.step hs

end PagePool

end MemoryPools
