import MemoryPools.SharedArenaBlocks

/-!
# The pages that a shared arena counts

`npages` is increased after new pages are on `free_list`, and decreased after unused ones
are in `to_free`. The pages that it does not count are those in `to_free`, those that a
thread makes, parks, puts back or drops, and those that were dropped.
-/

namespace MemoryPools

open Interleave SharedArena

namespace SharedCall

/-- Page `q`, in the hands of the call, is none of the pages that are counted. -/
def Hides (q : Addr) : SharedCall → Prop
  | .alloc (.take _) | .alloc (.put ..) | .alloc (.maybeFree ..) => True
  | .shrink (.storeToFree _ _ toFree) => q ∈ toFree
  | _ => False

def hides : SharedCall → Bool
  | .alloc (.take _) | .alloc (.put ..) | .alloc (.maybeFree ..) | .shrink (.storeToFree ..) => true
  | _ => false

def share (chain bag : List Addr) : SharedCall → List Addr
  | .alloc (.take _) | .alloc (.put ..) | .alloc (.maybeFree ..) => chain ++ bag
  | .shrink (.storeToFree ..) => bag
  | _ => []

/-- Pages that are on `free_list` and not added to `npages` yet. -/
def adding : SharedCall → List Addr
  | .alloc (.put n _ last .addPages) => downFrom last n
  | .alloc (.take (.put _ reinsert _ _ .addPages)) => reinsert
  | _ => []

def toAdd (c : SharedCall) : Nat := c.adding.length

/-- Pages that are set aside and not subtracted from `npages` yet. -/
def toSub : SharedCall → Nat
  | .shrink (.storeToFree _ nfreed _) | .shrink (.restore _ nfreed) | .shrink (.subPages nfreed) =>
    nfreed
  | _ => 0

end SharedCall

namespace SharedArena

def PutPc.Puts (nextFree : Addr → Ptr) (lot : List Addr) (first : Addr) : PutPc → Prop
  | .addPages => True
  | _ => Linked nextFree (some first) lot

end SharedArena

namespace SharedCall

def Puts (nextFree : Addr → Ptr) : SharedCall → Prop
  | .alloc (.put n first last pc) => pc.Puts nextFree (downFrom last n) first
  | .alloc (.take (.put _ reinsert first _ pc)) => pc.Puts nextFree reinsert first
  | _ => True

def mine (a : SharedArena) (chain bag : List Addr) (c : SharedCall) : List Addr :=
  a.toFree.getD [] ++ c.share chain bag

theorem hides_iff {c : SharedCall} {v : Lists} {place : Addr → Place Tid Shelf} {t : Tid}
    {listed chain bag : List Addr} (hh : Holds place t (chain ++ bag))
    (hs : c.Shape v place listed chain bag) (q : Addr) :
    place q = .held t ∧ c.Hides q ↔ q ∈ c.share chain bag := by
  rw [hh.carries q]
  cases c with
  | idle | drop | panicked => simp [Hides, share]
  | alloc pc =>
    cases pc with
    | take | put | maybeFree => simp [Hides, share]
    | loadFree | acquire | loadNext | casFree | clearInFree | loadWriter | swapWriter
    | loadContended | recheckFree | loadPending | swapPending | swapFree | loadToFree | loadPages
    | unlock => simp [Hides, share]
  | shrink pc =>
    cases pc with
    | storeToFree start nfreed toFree =>
      obtain ⟨rfl, -⟩ := hs
      simp [Hides, share]
      exact fun hq => Or.inr hq
    | swapShrinking | swapWriter | swapFree | loadPages | walk | walkNext | walkBits | walkCas
    | retain | full | fullNext | fullCas | storeDelay | swapToFree | restore | subPages
    | clearShrinking | unlock => simp [Hides, share]

end SharedCall

/-! ## The pages that are not counted -/

structure Uncounted (s : SharedState) (place : Addr → Place Tid Shelf) (un : List Addr) : Prop where
  nodup : un.Nodup
  aside : ∀ q ∈ un, place q = .aside .parked ∨ place q = .aside .gone ∨
    ∃ t, place q = .held t ∧ (s.threads.get t).Hides q
  parked : ∀ q, place q = .aside .parked → q ∈ un
  hidden : ∀ t q, place q = .held t → (s.threads.get t).Hides q → q ∈ un

namespace Uncounted

variable {s : SharedState} {place place' : Addr → Place Tid Shelf} {un un' : List Addr}
  {listed listed' mine mine' : List Addr} {arena : SharedArena} {handles : List (Addr × Nat)}
  {t : Tid} {c : SharedCall} {writes : Bool} {strict : Prop}

/-- `mine` and `mine'` are what is parked or hidden by thread `t` before and after its step. -/
theorem turn (h : Uncounted s place un)
    (hm : Moved strict t writes s.arena.lists arena.lists place place' listed listed')
    (hmine : ∀ q, q ∈ mine ↔
      place q = .aside .parked ∨ place q = .held t ∧ (s.threads.get t).Hides q)
    (hmine' : ∀ q, q ∈ mine' ↔ place' q = .aside .parked ∨ place' q = .held t ∧ c.Hides q)
    (hnodup : un'.Nodup) (hin : ∀ q ∈ mine', q ∈ un')
    (hout : ∀ q ∈ mine, q ∈ un' → q ∈ mine' ∨ place' q = .aside .gone)
    (hrest : ∀ q, q ∉ mine → q ∉ mine' → (q ∈ un' ↔ q ∈ un)) :
    Uncounted { arena, handles, threads := s.threads.set t c } place' un' := by
  have hself : (s.threads.set t c).get t = c := Store.get_set_self _ _ _
  have hother : ∀ u, u ≠ t → (s.threads.set t c).get u = s.threads.get u :=
    fun u hu => Store.get_set_ne _ _ hu
  refine ⟨hnodup, fun q hq => ?_, fun q hq => hin q ((hmine' q).mpr (Or.inl hq)), fun u q hq hc => ?_⟩
  · show _ ∨ _ ∨ ∃ u, place' q = .held u ∧ ((s.threads.set t c).get u).Hides q
    by_cases hq' : q ∈ mine'
    · rcases (hmine' q).mp hq' with hp | ⟨hp, hc⟩
      · exact Or.inl hp
      · exact Or.inr (Or.inr ⟨t, hp, by rw [hself]; exact hc⟩)
    · by_cases hqm : q ∈ mine
      · exact Or.inr (Or.inl ((hout q hqm hq).resolve_left hq'))
      · rcases h.aside q ((hrest q hqm hq').mp hq) with hp | hp | ⟨u, hp, hc⟩
        · exact absurd ((hmine q).mpr (Or.inl hp)) hqm
        · exact Or.inr (Or.inl (hm.gone q hp))
        · have e : u ≠ t := by
            intro e
            subst e
            exact hqm ((hmine q).mpr (Or.inr ⟨hp, hc⟩))
          exact Or.inr (Or.inr ⟨u, (hm.held u e q).mpr hp, by rw [hother u e]; exact hc⟩)
  · by_cases e : u = t
    · subst e
      exact hin q ((hmine' q).mpr (Or.inr ⟨hq, by rw [← hself]; exact hc⟩))
    · have hp := (hm.held u e q).mp hq
      have hc' : ((s.threads.set t c).get u).Hides q := hc
      rw [hother u e] at hc'
      refine (hrest q ?_ ?_).mpr (h.hidden u q hp hc')
      · intro hqm
        rcases (hmine q).mp hqm with hp' | ⟨hp', -⟩
        · rw [hp] at hp'
          cases hp'
        · rw [hp] at hp'
          exact e (Place.held.inj hp')
      · intro hqm
        rcases (hmine' q).mp hqm with hp' | ⟨hp', -⟩
        · rw [hq] at hp'
          cases hp'
        · rw [hq] at hp'
          exact e (Place.held.inj hp')

end Uncounted

/-! ## What a step does to the count -/

def SharedCall.Parks (q : Addr) : SharedCall → Prop
  | .shrink (.swapToFree _ toDrop) => q ∈ toDrop
  | _ => False

structure Books (a a' : SharedArena) (place' : Addr → Place Tid Shelf) (c c' : SharedCall)
    (mine mine' un un' : List Addr) : Prop where
  nodup : un'.Nodup
  within : ∀ q ∈ mine', q ∈ un'
  out : ∀ q ∈ mine, q ∈ un' → q ∈ mine' ∨ place' q = .aside .gone
  rest : ∀ q, q ∉ mine → q ∉ mine' → (q ∈ un' ↔ q ∈ un)
  grows : ∀ q ∈ un', q ∈ un ∨ a.heap.size ≤ q ∨ c.Parks q
  puts : c'.Puts a'.nextFree
  adds : c'.adding.Nodup ∧ ∀ q ∈ c'.adding, q ∉ un' ∧ q < a'.heap.size
  count : a'.heap.size + c'.toSub + (a.npages + c.toAdd + un.length) =
    a'.npages + c'.toAdd + un'.length + (a.heap.size + c.toSub)
  small : a'.npages < 2 ^ 64

namespace SharedCall

variable {c : SharedCall}

theorem adding_of_quiet (h : c.hides = false) : c.adding = [] := by
  unfold adding
  split
  · cases h
  · cases h
  · rfl

theorem puts_of_quiet {nextFree : Addr → Ptr} (h : c.hides = false) : c.Puts nextFree := by
  unfold Puts
  split
  · cases h
  · cases h
  · trivial

theorem share_of_quiet {chain bag : List Addr} (h : c.hides = false) : c.share chain bag = [] := by
  unfold share
  split
  · cases h
  · cases h
  · cases h
  · cases h
  · rfl

end SharedCall

namespace Books

variable {a a' : SharedArena} {place' : Addr → Place Tid Shelf} {c c' : SharedCall}
  {mine mine' un chain bag chain' bag' : List Addr}

theorem keep (hnodup : un.Nodup) (hun : ∀ q ∈ mine, q ∈ un) (hsmall : a.npages < 2 ^ 64)
    (hsub : ∀ q ∈ mine', q ∈ mine) (hout : ∀ q ∈ mine, q ∈ mine' ∨ place' q = .aside .gone)
    (hputs : c'.Puts a'.nextFree) (hsize : a'.heap.size = a.heap.size)
    (hnpages : a'.npages = a.npages) (hadd : c.adding = []) (hadd' : c'.adding = [])
    (hsubs : c'.toSub = c.toSub) :
    Books a a' place' c c' mine mine' un un := by
  refine ⟨hnodup, fun q hq => hun q (hsub q hq), fun q hq _ => hout q hq, fun _ _ _ => Iff.rfl,
    fun _ => Or.inl, hputs, ?_, ?_, hnpages ▸ hsmall⟩
  · rw [hadd']
    exact ⟨List.nodup_nil, nofun⟩
  · unfold SharedCall.toAdd
    rw [hsize, hnpages, hadd, hadd', hsubs]
    omega

theorem same (hnodup : un.Nodup) (hun : ∀ q ∈ mine, q ∈ un) (hsmall : a.npages < 2 ^ 64)
    (hmine : ∀ q, q ∈ mine' ↔ q ∈ mine) (hputs : c'.Puts a'.nextFree)
    (hsize : a'.heap.size = a.heap.size) (hnpages : a'.npages = a.npages)
    (hadd : c.adding = []) (hadd' : c'.adding = []) (hsubs : c'.toSub = c.toSub) :
    Books a a' place' c c' mine mine' un un :=
  .keep hnodup hun hsmall (fun q => (hmine q).mp) (fun q hq => Or.inl ((hmine q).mpr hq)) hputs
    hsize hnpages hadd hadd' hsubs

theorem plain (hnodup : un.Nodup) (hun : ∀ q ∈ c.mine a chain bag, q ∈ un)
    (hsmall : a.npages < 2 ^ 64) (hshare : c.share chain bag = []) (hshare' : c'.share chain' bag' = [])
    (hputs : c'.Puts a'.nextFree) (htf : a'.toFree = a.toFree) (hsize : a'.heap.size = a.heap.size)
    (hnpages : a'.npages = a.npages) (hadd : c.adding = []) (hadd' : c'.adding = [])
    (hsubs : c'.toSub = c.toSub) :
    Books a a' place' c c' (c.mine a chain bag) (c'.mine a' chain' bag') un un := by
  have hmine : c'.mine a' chain' bag' = c.mine a chain bag := by
    unfold SharedCall.mine
    rw [htf, hshare, hshare']
  exact .same hnodup hun hsmall (fun q => by rw [hmine]) hputs hsize hnpages hadd hadd' hsubs

theorem quiet (hnodup : un.Nodup) (hun : ∀ q ∈ c.mine a chain bag, q ∈ un)
    (hsmall : a.npages < 2 ^ 64) (hc : c.hides = false) (hc' : c'.hides = false)
    (htf : a'.toFree = a.toFree) (hsize : a'.heap.size = a.heap.size)
    (hnpages : a'.npages = a.npages) (hsubs : c'.toSub = c.toSub) :
    Books a a' place' c c' (c.mine a chain bag) (c'.mine a' chain' bag') un un := by
  exact .plain hnodup hun hsmall (SharedCall.share_of_quiet hc) (SharedCall.share_of_quiet hc')
    (SharedCall.puts_of_quiet hc') htf hsize hnpages (SharedCall.adding_of_quiet hc)
    (SharedCall.adding_of_quiet hc') hsubs

theorem release (hnodup : un.Nodup) (hun : ∀ q ∈ mine, q ∈ un) (hsmall : a'.npages < 2 ^ 64)
    (hchain : chain.Nodup) (hmine : ∀ q, q ∈ mine ↔ q ∈ chain ∨ q ∈ mine')
    (hapart : ∀ q ∈ chain, q ∉ mine') (hold : ∀ q ∈ chain, q < a.heap.size)
    (hputs : c'.Puts a'.nextFree)
    (hsize : a'.heap.size = a.heap.size) (hnpages : a'.npages = a.npages)
    (hadd : c.adding = []) (hadd' : c'.adding = chain) (hsubs : c'.toSub = c.toSub) :
    Books a a' place' c c' mine mine' un (un.filter fun q => q ∉ chain) := by
  have hmem : ∀ q, q ∈ un.filter (fun q => q ∉ chain) ↔ q ∈ un ∧ q ∉ chain := by
    intro q
    simp
  have hlen : (un.filter fun q => q ∉ chain).length + chain.length = un.length := by
    have hperm : (un.filter (fun q => q ∉ chain) ++ chain).Perm un := by
      refine (List.perm_ext_iff_of_nodup ?_ hnodup).mpr fun q => ?_
      · refine List.nodup_append.mpr ⟨hnodup.filter _, hchain, fun q hq r hr e => ?_⟩
        exact ((hmem q).mp hq).2 (e ▸ hr)
      · rw [List.mem_append, hmem]
        by_cases hq : q ∈ chain
        · simp [hq, hun q ((hmine q).mpr (Or.inl hq))]
        · simp [hq]
    rw [← hperm.length_eq, List.length_append]
  refine ⟨hnodup.filter _, fun q hq => ?_, fun q hq hq' => ?_, fun q hq _ => ?_,
    fun q hq => Or.inl ((hmem q).mp hq).1, hputs, ?_, ?_, hsmall⟩
  · exact (hmem q).mpr ⟨hun q ((hmine q).mpr (Or.inr hq)), fun hc => hapart q hc hq⟩
  · exact Or.inl (((hmine q).mp hq).resolve_left ((hmem q).mp hq').2)
  · rw [hmem]
    exact and_iff_left fun hc => hq ((hmine q).mpr (Or.inl hc))
  · rw [hadd', hsize]
    exact ⟨hchain, fun q hq => ⟨fun hq' => ((hmem q).mp hq').2 hq, hold q hq⟩⟩
  · unfold SharedCall.toAdd
    rw [hsize, hnpages, hadd, hadd', hsubs, List.length_nil]
    omega

theorem acquire {l : List Addr} (hnodup : un.Nodup) (hun : ∀ q ∈ mine, q ∈ un)
    (hsmall : a'.npages < 2 ^ 64) (hl : l.Nodup) (hapart : ∀ q ∈ l, q ∉ un)
    (hnew : ∀ q ∈ l, a.heap.size ≤ q ∨ c.Parks q)
    (hmine : ∀ q, q ∈ mine' ↔ q ∈ mine ∨ q ∈ l) (hputs : c'.Puts a'.nextFree)
    (hadd' : c'.adding = [])
    (hcount : a'.heap.size + c'.toSub + (a.npages + c.toAdd) =
      a'.npages + c'.toAdd + l.length + (a.heap.size + c.toSub)) :
    Books a a' place' c c' mine mine' un (l ++ un) := by
  refine ⟨List.nodup_append.mpr ⟨hl, hnodup, fun q hq r hr e => hapart q hq (e ▸ hr)⟩,
    fun q hq => ?_, fun q hq _ => Or.inl ((hmine q).mpr (Or.inl hq)), fun q _ hq' => ?_,
    fun q hq => ?_, hputs, ?_, ?_, hsmall⟩
  · rcases (hmine q).mp hq with hq | hq
    · exact List.mem_append_right _ (hun q hq)
    · exact List.mem_append_left _ hq
  · rw [List.mem_append]
    exact or_iff_right fun hq => hq' ((hmine q).mpr (Or.inr hq))
  · rcases List.mem_append.mp hq with hq | hq
    · exact Or.inr (hnew q hq)
    · exact Or.inl hq
  · rw [hadd']
    exact ⟨List.nodup_nil, nofun⟩
  · rw [List.length_append]
    omega

end Books

namespace SharedCall

def afterMaybe (guarded : Bool) : Control MaybePc Unit → SharedCall
  | .goto pc => .alloc (.maybeFree guarded pc)
  | .ret () => .alloc (if guarded then .unlock else .loadFree)
  | .panic => .panicked

def afterTake : Control TakePc Unit → SharedCall
  | .goto pc => .alloc (.take pc)
  | .ret () => .alloc .unlock
  | .panic => .panicked

def afterPut (n : Nat) (first last : Addr) : Control PutPc Unit → SharedCall
  | .goto pc => .alloc (.put n first last pc)
  | .ret () => .alloc .unlock
  | .panic => .panicked

end SharedCall

theorem Placed.held_lt {v : Lists} {place : Addr → Place Tid Shelf} {t : Tid} {listed : List Addr}
    {q : Addr} (h : Placed v place listed) (hq : place q = .held t) : q < v.size := by
  apply Nat.lt_of_not_le
  intro hle
  rw [(h.fresh q).mpr hle] at hq
  cases hq

theorem Placed.parked_apart {a : SharedArena} {place : Addr → Place Tid Shelf} {t : Tid}
    {listed l : List Addr} (h : Placed a.lists place listed) (hh : Holds place t l) :
    ∀ q ∈ l, q ∉ a.toFree.getD [] := by
  intro q hq hq'
  have hparked := (h.parked q).mpr hq'
  rw [hh.mem hq] at hparked
  cases hparked

namespace SharedArena

variable {a a' : SharedArena} {place place' : Addr → Place Tid Shelf} {v : Lists}
  {listed listed' chain bag chain' bag' un : List Addr}

/-! ## Pages that are dropped -/

section
variable {guarded : Bool} {control : Control MaybePc Unit}

theorem maybeFree_plain (guarded : Bool) (control : Control MaybePc Unit) (nextFree : Addr → Ptr) :
    (SharedCall.afterMaybe guarded control).Puts nextFree ∧
    (SharedCall.afterMaybe guarded control).adding = [] ∧
    (SharedCall.afterMaybe guarded control).toSub = 0 := by
  cases control with
  | goto | panic => exact ⟨trivial, rfl, rfl⟩
  | ret => cases guarded <;> exact ⟨trivial, rfl, rfl⟩

theorem dropPages_share {rest : List Addr}
    (h : (SharedCall.afterMaybe guarded (dropPages rest)).Shape v place listed chain bag) :
    (SharedCall.afterMaybe guarded (dropPages rest)).share chain bag = rest := by
  cases rest with
  | nil => cases guarded <;> rfl
  | cons p rest =>
    obtain ⟨rfl, rfl, -⟩ := h
    rfl

/-- What the call hides before and after a step, with the pages that it gives up. -/
theorem maybeFree_share {pc : MaybePc} (hs : pc.Shape place listed chain bag)
    (hm : a.maybeFreePages pc = (a', control))
    (hs' : (SharedCall.afterMaybe guarded control).Shape v place' listed' chain' bag') :
    a'.heap.size = a.heap.size ∧ a'.npages = a.npages ∧
    ∀ q, (q ∈ (SharedCall.afterMaybe guarded control).mine a' chain' bag' →
      q ∈ (SharedCall.alloc (.maybeFree guarded pc)).mine a chain bag) ∧
    (q ∈ (SharedCall.alloc (.maybeFree guarded pc)).mine a chain bag →
      q ∈ (SharedCall.afterMaybe guarded control).mine a' chain' bag' ∨
      (SharedCall.alloc (.maybeFree guarded pc)).Fetches q) := by
  unfold SharedCall.mine
  cases pc with
  | loadDelay =>
    obtain ⟨rfl, rfl⟩ := hs
    simp only [maybeFreePages] at hm
    split at hm <;> obtain ⟨rfl, rfl⟩ := Prod.mk.inj hm
    · obtain ⟨rfl, rfl⟩ := hs'
      exact ⟨rfl, rfl, fun q => ⟨id, Or.inl⟩⟩
    · cases guarded <;> exact ⟨rfl, rfl, fun q => ⟨id, Or.inl⟩⟩
  | fetchAdd =>
    obtain ⟨rfl, rfl⟩ := hs
    simp only [maybeFreePages] at hm
    split at hm <;> obtain ⟨rfl, rfl⟩ := Prod.mk.inj hm
    · obtain ⟨rfl, rfl⟩ := hs'
      exact ⟨rfl, rfl, fun q => ⟨id, Or.inl⟩⟩
    · cases guarded <;> exact ⟨rfl, rfl, fun q => ⟨id, Or.inl⟩⟩
  | swapToFree =>
    obtain ⟨rfl, rfl⟩ := hs
    obtain ⟨rfl, rfl⟩ := Prod.mk.inj hm
    rw [dropPages_share hs']
    refine ⟨rfl, rfl, fun q => ⟨fun hq => ?_, fun hq => Or.inl ?_⟩⟩
    · simpa [SharedCall.share] using hq
    · simpa [SharedCall.share] using hq
  | dropPage p rest pc =>
    cases pc with
    | fetch =>
      obtain ⟨rfl, rfl, -⟩ := hs
      have hrest : (SharedCall.afterMaybe guarded control).share chain' bag' = rest := by
        simp only [maybeFreePages] at hm
        obtain ⟨-, rfl⟩ := Prod.mk.inj hm
        rcases dropPage_control a p .fetch with e | ⟨-, e⟩
        · rw [e] at hs' ⊢
          exact dropPages_share hs'
        · rw [e] at hs' ⊢
          obtain ⟨rfl, rfl, -⟩ := hs'
          rfl
      obtain ⟨rfl, -⟩ := Prod.mk.inj hm
      rw [hrest]
      refine ⟨rfl, rfl, fun q => ⟨fun hq => ?_, fun hq => ?_⟩⟩
      · rcases List.mem_append.mp hq with hq | hq
        · exact List.mem_append_left _ hq
        · exact List.mem_append_right _ (by simp [SharedCall.share, hq])
      · rcases List.mem_append.mp hq with hq | hq
        · exact Or.inl (List.mem_append_left _ hq)
        · rcases List.mem_cons.mp hq with rfl | hq
          · exact Or.inr rfl
          · exact Or.inl (List.mem_append_right _ hq)
    | deallocate =>
      obtain ⟨rfl, rfl, -⟩ := hs
      obtain ⟨rfl, hcontrol⟩ := Prod.mk.inj hm
      obtain rfl : dropPages bag = control := hcontrol
      rw [dropPages_share hs']
      exact ⟨rfl, rfl, fun q => ⟨id, Or.inl⟩⟩

theorem maybeFree_books {pc : MaybePc} (hnodup : un.Nodup)
    (hun : ∀ q ∈ (SharedCall.alloc (.maybeFree guarded pc)).mine a chain bag, q ∈ un)
    (hsmall : a.npages < 2 ^ 64) (hs : pc.Shape place listed chain bag)
    (hm : a.maybeFreePages pc = (a', control))
    (hs' : (SharedCall.afterMaybe guarded control).Shape v place' listed' chain' bag')
    (hgone : ∀ q, (SharedCall.alloc (.maybeFree guarded pc)).Fetches q → place' q = .aside .gone) :
    Books a a' place' (.alloc (.maybeFree guarded pc)) (.afterMaybe guarded control)
      ((SharedCall.alloc (.maybeFree guarded pc)).mine a chain bag)
      ((SharedCall.afterMaybe guarded control).mine a' chain' bag') un un := by
  obtain ⟨hputs, hadd, hsub⟩ := maybeFree_plain guarded control a'.nextFree
  obtain ⟨hsize, hnpages, hmine⟩ := maybeFree_share hs hm hs'
  refine .keep hnodup hun hsmall (fun q => (hmine q).1) (fun q hq => ?_) hputs hsize hnpages rfl hadd
    hsub
  exact ((hmine q).2 hq).imp_right (hgone q)

end

/-! ## Pages that are put in the lists -/

/-- The pages of the chain stay in hand until they are on `free_list`. -/
theorem putPages_chain {n : Nat} {lot : List Addr} {first last : Addr} {pc pc' : PutPc}
    (hs : pc.Shape a.lists listed first last chain) (hputs : pc.Puts a.nextFree lot first)
    (hm : a.putPages n first last pc = (a', .goto pc'))
    (hs' : pc'.Shape a'.lists listed' first last chain') :
    a'.heap.size = a.heap.size ∧ a'.npages = a.npages ∧ a'.toFree = a.toFree ∧ pc ≠ .addPages ∧
    (pc' ≠ .addPages ∧ chain' = chain ∧ pc'.Puts a'.nextFree lot first ∨
      pc' = .addPages ∧ chain' = [] ∧ chain = lot) := by
  cases pc with
  | loadFull =>
    obtain ⟨rfl, hc⟩ := Prod.mk.inj hm
    obtain rfl := Control.goto.inj hc
    exact ⟨rfl, rfl, rfl, by simp, Or.inl ⟨by simp, hs'.1.unique hs.1, hputs⟩⟩
  | storeNext current =>
    obtain ⟨rfl, hc⟩ := Prod.mk.inj hm
    obtain rfl := Control.goto.inj hc
    have hnext : (a.setPage last { a.page last with next := current }).nextFree = a.nextFree :=
      PageOps.nextFree_set_same rfl
    obtain ⟨hfree, -⟩ := hs'
    have hfree : Linked a.nextFree (some first) chain' := hnext ▸ hfree
    refine ⟨rfl, rfl, rfl, by simp, Or.inl ⟨by simp, hfree.unique hs.1, ?_⟩⟩
    rw [hnext]
    exact hputs
  | swapFull current =>
    simp only [putPages] at hm
    split at hm
    · obtain ⟨rfl, hc⟩ := Prod.mk.inj hm
      obtain rfl := Control.goto.inj hc
      exact ⟨rfl, rfl, rfl, by simp, Or.inl ⟨by simp, Linked.unique hs' hs.1, hputs⟩⟩
    · cases hm
  | loadFree =>
    simp only [putPages] at hm
    split at hm
    · obtain ⟨rfl, hc⟩ := Prod.mk.inj hm
      obtain rfl := Control.goto.inj hc
      exact ⟨rfl, rfl, rfl, by simp, Or.inl ⟨by simp, Linked.unique hs' hs, hputs⟩⟩
    · cases hm
  | swapFree =>
    simp only [putPages] at hm
    split at hm
    · obtain ⟨rfl, hc⟩ := Prod.mk.inj hm
      obtain rfl := Control.goto.inj hc
      exact ⟨rfl, rfl, rfl, by simp, Or.inr ⟨rfl, hs', Linked.unique hs hputs⟩⟩
    · cases hm
  | addPages => cases hm

theorem putPages_ret {n : Nat} {first last : Addr} {pc : PutPc}
    (hm : a.putPages n first last pc = (a', .ret ())) :
    pc = .addPages ∧ a' = { a with npages := (a.npages + n) % 2 ^ 64 } := by
  cases pc with
  | addPages =>
    obtain ⟨rfl, -⟩ := Prod.mk.inj hm
    exact ⟨rfl, rfl⟩
  | loadFull | storeNext => cases hm
  | swapFull | loadFree | swapFree =>
    simp only [putPages] at hm
    split at hm <;> cases hm

/-- The call `c'` goes on with `put_pages_in_lists` where `c` was. -/
theorem putPages_books {t : Tid} {n : Nat} {lot : List Addr} {first last : Addr} {pc pc' : PutPc}
    {c c' : SharedCall}
    (hnodup : un.Nodup) (hun : ∀ q ∈ c.mine a chain bag, q ∈ un) (hsmall : a.npages < 2 ^ 64)
    (hp : Placed a.lists place listed) (hh : Holds place t (chain ++ bag))
    (hs : pc.Shape a.lists listed first last chain) (hputs : pc.Puts a.nextFree lot first)
    (hm : a.putPages n first last pc = (a', .goto pc'))
    (hs' : pc'.Shape a'.lists listed' first last chain')
    (hc : c.share chain bag = chain ++ bag ∧ c.toSub = 0 ∧ (pc ≠ .addPages → c.adding = []))
    (hc' : c'.share chain' bag = chain' ++ bag ∧ c'.toSub = 0 ∧
      c'.adding = if pc' = .addPages then lot else [])
    (hputs' : pc'.Puts a'.nextFree lot first → c'.Puts a'.nextFree) :
    ∃ un', Books a a' place' c c' (c.mine a chain bag) (c'.mine a' chain' bag) un un' := by
  obtain ⟨hshare, hsub, hadd⟩ := hc
  obtain ⟨hshare', hsub', hadd'⟩ := hc'
  obtain ⟨hsize, hnpages, htf, hpc, hstep⟩ := putPages_chain hs hputs hm hs'
  have hmine : c.mine a chain bag = a.toFree.getD [] ++ (chain ++ bag) := by
    rw [← hshare]
    rfl
  have hmine' : c'.mine a' chain' bag = a.toFree.getD [] ++ (chain' ++ bag) := by
    rw [← hshare', ← htf]
    rfl
  rcases hstep with ⟨hpc', rfl, hlot⟩ | ⟨rfl, rfl, rfl⟩
  · rw [if_neg hpc'] at hadd'
    exact ⟨un, .same hnodup hun hsmall (fun q => by rw [hmine, hmine']) (hputs' hlot) hsize hnpages
      (hadd hpc) hadd' (hsub'.trans hsub.symm)⟩
  · rw [if_pos rfl] at hadd'
    have hapart := (List.nodup_append.mp hh.nodup).2.2
    refine ⟨_, .release hnodup hun (hnpages ▸ hsmall) (List.nodup_append.mp hh.nodup).1 (fun q => ?_)
      (fun q hq => ?_) (fun q hq => ?_) (hputs' trivial) hsize hnpages (hadd hpc) hadd'
      (hsub'.trans hsub.symm)⟩
    · rw [hmine, hmine']
      simp only [List.mem_append, List.nil_append]
      exact or_left_comm
    · rw [hmine', List.nil_append, List.mem_append]
      intro hq'
      rcases hq' with hq' | hq'
      · exact hp.parked_apart hh q (List.mem_append_left _ hq) hq'
      · exact hapart q hq q hq' rfl
    · exact hp.held_lt (hh.mem (List.mem_append_left _ hq))

theorem addPages_books {n : Nat} {first last : Addr} {pc : PutPc} {c c' : SharedCall}
    (hnodup : un.Nodup) (hun : ∀ q ∈ c.mine a chain bag, q ∈ un)
    (hadds : pc = .addPages → a.npages + n < 2 ^ 64)
    (hm : a.putPages n first last pc = (a', .ret ()))
    (hmine : ∀ q, q ∈ c'.mine a' chain' bag' ↔ q ∈ c.mine a chain bag)
    (hc : c.toSub = 0 ∧ (pc = .addPages → c.toAdd = n)) (hc' : c'.toSub = 0 ∧ c'.adding = [])
    (hputs : c'.Puts a'.nextFree) :
    Books a a' place' c c' (c.mine a chain bag) (c'.mine a' chain' bag') un un := by
  obtain ⟨rfl, rfl⟩ := putPages_ret hm
  obtain ⟨hsub, hadd⟩ := hc
  have hlt := hadds rfl
  have hmod : (a.npages + n) % 2 ^ 64 = a.npages + n := Nat.mod_eq_of_lt hlt
  refine ⟨hnodup, fun q hq => hun q ((hmine q).mp hq), fun q hq _ => Or.inl ((hmine q).mpr hq),
    fun _ _ _ => Iff.rfl, fun _ => Or.inl, hputs, ?_, ?_, ?_⟩
  · rw [hc'.2]
    exact ⟨List.nodup_nil, nofun⟩
  · show a.heap.size + c'.toSub + _ = (a.npages + n) % 2 ^ 64 + c'.adding.length + un.length + _
    rw [hmod, hsub, hadd rfl, hc'.1, hc'.2, List.length_nil]
    omega
  · show (a.npages + n) % 2 ^ 64 < 2 ^ 64
    rw [hmod]
    exact hlt

theorem put_books {t : Tid} {n : Nat} {first last : Addr} {pc : PutPc} {control : Control PutPc Unit}
    (hnodup : un.Nodup) (hun : ∀ q ∈ (SharedCall.alloc (.put n first last pc)).mine a chain bag, q ∈ un)
    (hsmall : a.npages < 2 ^ 64) (hadds : pc = .addPages → a.npages + n < 2 ^ 64)
    (hp : Placed a.lists place listed) (hh : Holds place t (chain ++ bag))
    (hs : (SharedCall.alloc (.put n first last pc)).Shape a.lists place listed chain bag)
    (hputs : pc.Puts a.nextFree (downFrom last n) first) (hk : pc.Knows a)
    (hm : a.putPages n first last pc = (a', control))
    (hs' : (SharedCall.afterPut n first last control).Shape a'.lists place' listed' chain' bag') :
    ∃ un', Books a a' place' (.alloc (.put n first last pc)) (.afterPut n first last control)
      ((SharedCall.alloc (.put n first last pc)).mine a chain bag)
      ((SharedCall.afterPut n first last control).mine a' chain' bag') un un' := by
  obtain ⟨hs, rfl⟩ := hs
  cases control with
  | panic =>
    have hgo := (putPages_knows n first last hk).2.2
    rw [hm] at hgo
    rcases hgo with e | ⟨_, e, -⟩ <;> cases e
  | ret =>
    obtain ⟨rfl, rfl⟩ := putPages_ret hm
    obtain rfl : chain = [] := hs
    exact ⟨un, addPages_books hnodup hun hadds hm (fun q => Iff.rfl)
      ⟨rfl, fun _ => length_downFrom⟩ ⟨rfl, rfl⟩ trivial⟩
  | goto pc' =>
    obtain ⟨hs', rfl⟩ := hs'
    refine putPages_books hnodup hun hsmall hp hh hs hputs hm hs' ⟨rfl, rfl, fun hpc => ?_⟩
      ⟨rfl, rfl, ?_⟩ id
    · cases pc with
      | addPages => exact absurd rfl hpc
      | loadFull | storeNext | swapFull | loadFree | swapFree => rfl
    · cases pc' <;> rfl

/-! ## Parked pages that are put back -/

section
variable {t : Tid} {pc : TakePc} {control : Control TakePc Unit} {kept reinsert rest : List Addr}

theorem linkFrom_share (hne : reinsert ≠ [])
    (hl : rest = [] → Linked v.nextFree reinsert.head? reinsert)
    (hs : (SharedCall.afterTake (linkFrom kept reinsert rest)).Shape v place listed chain bag) :
    (SharedCall.afterTake (linkFrom kept reinsert rest)).share chain bag = reinsert ++ kept ∧
    (SharedCall.afterTake (linkFrom kept reinsert rest)).Puts v.nextFree ∧
    (SharedCall.afterTake (linkFrom kept reinsert rest)).adding = [] ∧
    (SharedCall.afterTake (linkFrom kept reinsert rest)).toSub = 0 := by
  cases rest with
  | cons p rest =>
    have hr : Relinked v listed chain bag kept reinsert (p :: rest) (p :: rest) := hs
    obtain ⟨rfl, rfl, -⟩ := hr
    exact ⟨rfl, trivial, rfl, rfl⟩
  | nil =>
    cases reinsert with
    | nil => exact absurd rfl hne
    | cons q l =>
      cases hlast : (q :: l).getLast? with
      | none => simp at hlast
      | some last =>
        have hgo : linkFrom kept (q :: l) [] = .goto (.put kept (q :: l) q last .loadFull) := by
          unfold linkFrom
          rw [hlast]
          rfl
        rw [hgo] at hs ⊢
        obtain ⟨rfl, ⟨hfree, -⟩, -⟩ := hs
        have e := hfree.unique (hl rfl)
        subst e
        exact ⟨rfl, hfree, rfl, rfl⟩

theorem take_books (hnodup : un.Nodup)
    (hun : ∀ q ∈ (SharedCall.alloc (.take pc)).mine a chain bag, q ∈ un)
    (hsmall : a.npages < 2 ^ 64)
    (hadds : ∀ kept reinsert first last, pc = .put kept reinsert first last .addPages →
      a.npages + reinsert.length < 2 ^ 64)
    (hp : Placed a.lists place listed) (hh : Holds place t (chain ++ bag))
    (hs : pc.Shape a.lists listed chain bag) (hputs : (SharedCall.alloc (.take pc)).Puts a.nextFree)
    (hk : pc.Knows a) (hm : a.takePages pc = (a', control))
    (hs' : (SharedCall.afterTake control).Shape a'.lists place' listed' chain' bag') :
    ∃ un', Books a a' place' (.alloc (.take pc)) (.afterTake control)
      ((SharedCall.alloc (.take pc)).mine a chain bag)
      ((SharedCall.afterTake control).mine a' chain' bag') un un' := by
  cases pc with
  | swapToFree =>
    obtain ⟨rfl, rfl⟩ := hs
    obtain ⟨rfl, hc⟩ := Prod.mk.inj hm
    cases htf : a.toFree with
    | none =>
      simp only [htf] at hc
      subst hc
      have hmine : (SharedCall.alloc (.take .swapToFree)).mine a [] [] = [] := by
        simp [SharedCall.mine, SharedCall.share, htf]
      exact ⟨un, .same hnodup hun hsmall (fun q => by rw [hmine]; rfl) trivial rfl rfl rfl rfl rfl⟩
    | some l =>
      simp only [htf] at hc
      subst hc
      obtain ⟨rfl, rfl, -⟩ := hs'
      have hmine : (SharedCall.alloc (.take .swapToFree)).mine a [] [] = bag' := by
        simp [SharedCall.mine, SharedCall.share, htf]
      exact ⟨un, .same hnodup hun hsmall (fun q => by rw [hmine]; rfl) trivial rfl rfl rfl rfl rfl⟩
  | loadPages toFree =>
    obtain ⟨rfl, rfl, -⟩ := hs
    obtain ⟨-, -, hne⟩ := hk
    obtain ⟨rfl, rfl⟩ := Prod.mk.inj hm
    have hpos := List.length_pos_iff.mpr hne
    have hdrop : bag.drop (bag.length - max a.npages 1) ≠ [] := by
      rw [Ne, List.drop_eq_nil_iff]
      omega
    obtain ⟨hshare, hputs', hadd, hsubs⟩ := linkFrom_share hdrop (fun e => absurd e hdrop) hs'
    refine ⟨un, .same hnodup hun hsmall (fun q => ?_) hputs' rfl rfl rfl hadd hsubs⟩
    unfold SharedCall.mine
    rw [hshare]
    simp only [SharedCall.share, List.mem_append, List.nil_append]
    rw [← List.mem_append (s := bag.drop _), (List.perm_append_comm.trans
      (List.Perm.of_eq (List.take_append_drop _ bag))).mem_iff]
  | linkFree kept reinsert rest =>
    obtain ⟨rfl, rfl, -⟩ := hs
    cases rest with
    | nil => exact absurd rfl hk.2.2.2
    | cons p rest =>
      obtain ⟨rfl, rfl⟩ := Prod.mk.inj hm
      have hr : Relinked _ _ chain' bag' bag chain rest (p :: rest) := hs'
      obtain ⟨rfl, rfl, -⟩ := hr
      exact ⟨un, .same hnodup hun hsmall (fun q => Iff.rfl) trivial rfl rfl rfl rfl rfl⟩
  | link kept reinsert rest =>
    obtain ⟨rfl, rfl, -⟩ := hs
    cases rest with
    | nil => exact absurd rfl hk.2.2.2
    | cons p rest =>
      obtain ⟨rfl, rfl⟩ := Prod.mk.inj hm
      obtain ⟨hr, -⟩ : Relinked _ _ chain' bag' bag chain rest rest ∧ _ := hs'
      obtain ⟨rfl, rfl, -⟩ := hr
      exact ⟨un, .same hnodup hun hsmall (fun q => Iff.rfl) trivial rfl rfl rfl rfl rfl⟩
  | setInFree kept reinsert rest =>
    cases rest with
    | nil => exact absurd rfl hk.2.2.2
    | cons p rest =>
      obtain ⟨rfl, rfl⟩ := Prod.mk.inj hm
      obtain ⟨⟨rfl, rfl, ⟨l, hl, hfree⟩, -⟩, -⟩ := hs
      have hnext : (a.setPage p { a.page p with inFreeList := true }).nextFree = a.nextFree :=
        PageOps.nextFree_set_same rfl
      have hlinked : rest = [] → Linked (a.setPage p { a.page p with inFreeList := true }).lists.nextFree
          chain.head? chain := by
        intro e
        subst e
        obtain rfl : chain = l := by simpa using hl
        show Linked (a.setPage p _).nextFree chain.head? chain
        rw [hnext]
        exact hfree.linked
      obtain ⟨hshare, hputs', hadd, hsubs⟩ := linkFrom_share hk.2.2.1 hlinked hs'
      refine ⟨un, .same hnodup hun hsmall (fun q => ?_) hputs' rfl rfl rfl hadd hsubs⟩
      unfold SharedCall.mine
      rw [hshare]
      rfl
  | put kept reinsert first last pc =>
    obtain ⟨rfl, hs, -⟩ := hs
    simp only [takePages] at hm
    cases hput : (a.putPages reinsert.length first last pc).2 with
    | panic =>
      have hgo := (putPages_knows reinsert.length first last hk.1).2.2
      rw [hput] at hgo
      rcases hgo with e | ⟨_, e, -⟩ <;> cases e
    | ret =>
      rw [hput] at hm
      obtain ⟨ha, rfl⟩ := Prod.mk.inj hm
      have hret : a.putPages reinsert.length first last pc = (a', .ret ()) := Prod.ext ha hput
      obtain ⟨rfl, rfl⟩ := putPages_ret hret
      obtain rfl : chain = [] := hs
      have hlt : PutPc.addPages = .addPages → a.npages + reinsert.length < 2 ^ 64 :=
        fun _ => hadds _ _ _ _ rfl
      by_cases hkept : bag = []
      · subst hkept
        obtain ⟨rfl, rfl⟩ := hs'
        exact ⟨un, addPages_books hnodup hun hlt hret (fun q => Iff.rfl) ⟨rfl, fun _ => rfl⟩
          ⟨rfl, rfl⟩ trivial⟩
      · simp only [ne_eq, hkept, not_false_eq_true, ite_true] at hs' ⊢
        obtain ⟨rfl, rfl, -⟩ := hs'
        exact ⟨un, addPages_books hnodup hun hlt hret (fun q => Iff.rfl) ⟨rfl, fun _ => rfl⟩
          ⟨rfl, rfl⟩ trivial⟩
    | goto pc' =>
      rw [hput] at hm
      obtain ⟨ha, rfl⟩ := Prod.mk.inj hm
      obtain ⟨rfl, hs', -⟩ := hs'
      refine putPages_books hnodup hun hsmall hp hh hs hputs (Prod.ext ha hput) hs'
        ⟨rfl, rfl, fun hpc => ?_⟩ ⟨rfl, rfl, ?_⟩ id
      · cases pc with
        | addPages => exact absurd rfl hpc
        | loadFull | storeNext | swapFull | loadFree | swapFree => rfl
      · cases pc' <;> rfl
  | storeToFree kept =>
    obtain ⟨rfl, rfl, -⟩ := hs
    obtain ⟨htf, -⟩ := hk
    simp only [takePages, htf, ite_true] at hm
    obtain ⟨rfl, rfl⟩ := Prod.mk.inj hm
    obtain ⟨rfl, rfl⟩ := hs'
    refine ⟨un, .same hnodup hun hsmall (fun q => ?_) trivial rfl rfl rfl rfl rfl⟩
    simp [SharedCall.mine, SharedCall.share, SharedCall.afterTake, htf]
  | storeDelay delay =>
    obtain ⟨rfl, rfl⟩ := hs
    obtain ⟨rfl, rfl⟩ := Prod.mk.inj hm
    exact ⟨un, .same hnodup hun hsmall (fun q => Iff.rfl) trivial rfl rfl rfl rfl rfl⟩

end

/-! ## Allocation -/

theorem afterAlloc_maybe (a : SharedArena) (guarded : Bool) (pc : MaybePc) :
    SharedCall.afterAlloc (a.findPlace (.maybeFree guarded pc)).2 =
      SharedCall.afterMaybe guarded (a.maybeFreePages pc).2 := by
  simp only [findPlace]
  cases (a.maybeFreePages pc).2 <;> rfl

theorem afterAlloc_take (a : SharedArena) (pc : TakePc) :
    SharedCall.afterAlloc (a.findPlace (.take pc)).2 = SharedCall.afterTake (a.takePages pc).2 := by
  simp only [findPlace]
  cases (a.takePages pc).2 <;> rfl

theorem afterAlloc_put (a : SharedArena) (n : Nat) (first last : Addr) (pc : PutPc) :
    SharedCall.afterAlloc (a.findPlace (.put n first last pc)).2 =
      SharedCall.afterPut n first last (a.putPages n first last pc).2 := by
  simp only [findPlace]
  cases (a.putPages n first last pc).2 <;> rfl

/-- The pages of a new list are not counted until the list is on `free_list`. -/
theorem grow_books {n : Nat} (hpos : 0 < n) (hnodup : un.Nodup)
    (hun : ∀ q ∈ (SharedCall.alloc .loadPages).mine a chain bag, q ∈ un)
    (hold : ∀ q ∈ un, q < a.heap.size) (hsmall : a.npages < 2 ^ 64)
    (hm : { a with heap := (a.heap.makeList PageSharedArena.new n).1 } = a')
    (hs' : PutPc.loadFull.Shape a'.lists listed' (a.heap.size + (n - 1)) a.heap.size chain')
    (hbag : bag' = []) :
    ∃ un', Books a a' place' (.alloc .loadPages)
      (.alloc (.put n (a.heap.size + (n - 1)) a.heap.size .loadFull))
      ((SharedCall.alloc .loadPages).mine a chain bag)
      ((SharedCall.alloc (.put n (a.heap.size + (n - 1)) a.heap.size .loadFull)).mine a' chain' bag')
      un un' := by
  subst hm hbag
  have hchain := PageOps.linked_makeList PageSharedArena.ops n a.heap
    fun p => (rfl : PageSharedArena.ops.links (PageSharedArena.new p) = _)
  rw [behind_pos hpos] at hchain
  obtain rfl := Linked.unique hs'.1 hchain.1
  refine ⟨downFrom a.heap.size n ++ un, .acquire hnodup hun hsmall nodup_downFrom (fun q hq hq' => ?_)
    (fun q hq => Or.inl (mem_downFrom.mp hq).1) (fun q => ?_)
    hchain.1 rfl ?_⟩
  · exact Nat.not_lt.mpr (mem_downFrom.mp hq).1 (hold q hq')
  · simp [SharedCall.mine, SharedCall.share]
  · rw [length_downFrom]
    show a.heap.size + n + 0 + (a.npages + 0) = a.npages + 0 + n + (a.heap.size + 0)
    omega

theorem findPlace_books {t : Tid} {pc : FindPc} {control : Control FindPc (Addr × Nat)}
    (hnodup : un.Nodup) (hun : ∀ q ∈ (SharedCall.alloc pc).mine a chain bag, q ∈ un)
    (hold : ∀ q ∈ un, q < a.heap.size) (hsmall : a.npages < 2 ^ 64)
    (hadds : a.npages + (SharedCall.alloc pc).toAdd < 2 ^ 64)
    (hp : Placed a.lists place listed) (hh : Holds place t (chain ++ bag))
    (hs : pc.Shape a.lists place listed chain bag) (hputs : (SharedCall.alloc pc).Puts a.nextFree)
    (hk : pc.Knows a) (hm : a.findPlace pc = (a', control))
    (hs' : (SharedCall.afterAlloc control).Shape a'.lists place' listed' chain' bag')
    (hgone : ∀ q, (SharedCall.alloc pc).Fetches q → place' q = .aside .gone) :
    ∃ un', Books a a' place' (.alloc pc) (.afterAlloc control)
      ((SharedCall.alloc pc).mine a chain bag) ((SharedCall.afterAlloc control).mine a' chain' bag')
      un un' := by
  cases pc with
  | loadFree =>
    simp only [findPlace] at hm
    split at hm <;> obtain ⟨rfl, rfl⟩ := Prod.mk.inj hm
    · exact ⟨un, .quiet hnodup hun hsmall rfl rfl rfl rfl rfl rfl⟩
    · exact ⟨un, .quiet hnodup hun hsmall rfl rfl rfl rfl rfl rfl⟩
  | acquire p pc =>
    simp only [findPlace] at hm
    obtain ⟨rfl, rfl⟩ := Prod.mk.inj hm
    cases (PageSharedArena.acquireFreeBlock (a.page p) pc).2 with
    | goto pc' => exact ⟨un, .quiet hnodup hun hsmall rfl rfl rfl rfl rfl rfl⟩
    | ret r => cases r <;> exact ⟨un, .quiet hnodup hun hsmall rfl rfl rfl rfl rfl rfl⟩
    | panic => exact ⟨un, .quiet hnodup hun hsmall rfl rfl rfl rfl rfl rfl⟩
  | casFree p next =>
    simp only [findPlace] at hm
    split at hm <;> obtain ⟨rfl, rfl⟩ := Prod.mk.inj hm
    · exact ⟨un, .quiet hnodup hun hsmall rfl rfl rfl rfl rfl rfl⟩
    · exact ⟨un, .quiet hnodup hun hsmall rfl rfl rfl rfl rfl rfl⟩
  | loadNext | clearInFree | swapPending | unlock =>
    obtain ⟨rfl, rfl⟩ := Prod.mk.inj hm
    exact ⟨un, .quiet hnodup hun hsmall rfl rfl rfl rfl rfl rfl⟩
  | loadWriter | swapWriter | recheckFree | loadPending =>
    obtain ⟨rfl, rfl⟩ := Prod.mk.inj hm
    split
    · exact ⟨un, .quiet hnodup hun hsmall rfl rfl rfl rfl rfl rfl⟩
    · exact ⟨un, .quiet hnodup hun hsmall rfl rfl rfl rfl rfl rfl⟩
  | loadContended =>
    simp only [findPlace] at hm
    split at hm <;> obtain ⟨rfl, rfl⟩ := Prod.mk.inj hm
    · exact ⟨un, .quiet hnodup hun hsmall rfl rfl rfl rfl rfl rfl⟩
    · obtain ⟨rfl, rfl⟩ := hs'
      exact ⟨un, .plain hnodup hun hsmall rfl rfl trivial rfl rfl rfl rfl rfl rfl⟩
  | swapFree pending =>
    simp only [findPlace] at hm
    split at hm <;> obtain ⟨rfl, rfl⟩ := Prod.mk.inj hm
    · obtain ⟨rfl, rfl⟩ := hs'
      exact ⟨un, .plain hnodup hun hsmall rfl rfl trivial rfl rfl rfl rfl rfl rfl⟩
    · exact ⟨un, .quiet hnodup hun hsmall rfl rfl rfl rfl rfl rfl⟩
  | loadToFree =>
    simp only [findPlace] at hm
    split at hm <;> obtain ⟨rfl, rfl⟩ := Prod.mk.inj hm
    · exact ⟨un, .quiet hnodup hun hsmall rfl rfl rfl rfl rfl rfl⟩
    · obtain ⟨rfl, rfl⟩ := hs'
      exact ⟨un, .plain hnodup hun hsmall rfl rfl trivial rfl rfl rfl rfl rfl rfl⟩
  | maybeFree guarded pc =>
    have ha := congrArg Prod.fst hm
    have hc := afterAlloc_maybe a guarded pc
    rw [hm] at hc
    rw [hc] at hs' ⊢
    exact ⟨un, maybeFree_books hnodup hun hsmall hs (Prod.ext ha rfl) hs' hgone⟩
  | take pc =>
    have ha := congrArg Prod.fst hm
    have hc := afterAlloc_take a pc
    rw [hm] at hc
    rw [hc] at hs' ⊢
    refine take_books hnodup hun hsmall (fun kept reinsert first last e => ?_) hp hh hs hputs hk
      (Prod.ext ha rfl) hs'
    subst e
    exact hadds
  | put n first last pc =>
    have ha := congrArg Prod.fst hm
    have hc := afterAlloc_put a n first last pc
    rw [hm] at hc
    rw [hc] at hs' ⊢
    refine put_books hnodup hun hsmall (fun e => ?_) hp hh hs hputs hk (Prod.ext ha rfl) hs'
    subst e
    have hlen : (SharedCall.alloc (.put n first last .addPages)).toAdd = n := length_downFrom
    rwa [hlen] at hadds
  | loadPages =>
    obtain ⟨ha, rfl⟩ := Prod.mk.inj hm
    exact grow_books (growth_pos _) hnodup hun hold hsmall ha hs'.1 hs'.2

/-! ## Shrinking -/

theorem retainFrom_hides (start : Ptr) (kept rest : List Addr) :
    (SharedCall.shrink (retainFrom start kept rest)).hides = false ∧
    (SharedCall.shrink (retainFrom start kept rest)).toSub = 0 := by
  cases rest <;> exact ⟨rfl, rfl⟩

theorem sub_pages {npages n : Nat} (hn : n ≤ npages) (hlt : npages < 2 ^ 64) :
    (npages + (2 ^ 64 - n % 2 ^ 64)) % 2 ^ 64 + n = npages := by
  omega

theorem shrinkToFit_books {t : Tid} {pc : ShrinkPc} {control : Control ShrinkPc Bool}
    (hnodup : un.Nodup) (hun : ∀ q ∈ (SharedCall.shrink pc).mine a chain bag, q ∈ un)
    (hhid : ∀ q ∈ un, place q = .held t → q ∈ (SharedCall.shrink pc).share chain bag)
    (hsmall : a.npages < 2 ^ 64) (hsub : (SharedCall.shrink pc).toSub ≤ a.npages)
    (hh : Holds place t (chain ++ bag)) (hs : pc.Shape a.lists listed chain bag) (hk : pc.Knows a)
    (hm : a.shrinkToFit pc = (a', control))
    (hs' : (SharedCall.afterShrink control).Shape a'.lists place' listed' chain' bag') :
    ∃ un', Books a a' place' (.shrink pc) (.afterShrink control)
      ((SharedCall.shrink pc).mine a chain bag) ((SharedCall.afterShrink control).mine a' chain' bag')
      un un' := by
  cases pc with
  | swapShrinking | swapWriter =>
    obtain ⟨rfl, rfl⟩ := Prod.mk.inj hm
    split
    · exact ⟨un, .quiet hnodup hun hsmall rfl rfl rfl rfl rfl rfl⟩
    · exact ⟨un, .quiet hnodup hun hsmall rfl rfl rfl rfl rfl rfl⟩
  | swapFree | loadPages | walkNext | storeDelay | clearShrinking | unlock =>
    obtain ⟨rfl, rfl⟩ := Prod.mk.inj hm
    exact ⟨un, .quiet hnodup hun hsmall rfl rfl rfl rfl rfl rfl⟩
  | walk start current toDrop =>
    simp only [shrinkToFit] at hm
    split at hm <;> obtain ⟨rfl, rfl⟩ := Prod.mk.inj hm
    · exact ⟨un, .quiet hnodup hun hsmall rfl rfl rfl rfl rfl rfl⟩
    · have hr := retainFrom_hides start [] toDrop
      exact ⟨un, .quiet hnodup hun hsmall rfl hr.1 rfl rfl rfl hr.2⟩
  | retain start kept page rest =>
    obtain ⟨rfl, rfl⟩ := Prod.mk.inj hm
    have hr := retainFrom_hides start (if a.unused page then kept ++ [page] else kept) rest
    exact ⟨un, .quiet hnodup hun hsmall rfl hr.1 rfl rfl rfl hr.2⟩
  | full start toDrop current =>
    simp only [shrinkToFit] at hm
    split at hm <;> obtain ⟨rfl, rfl⟩ := Prod.mk.inj hm
    · exact ⟨un, .quiet hnodup hun hsmall rfl rfl rfl rfl rfl rfl⟩
    · split
      · exact ⟨un, .quiet hnodup hun hsmall rfl rfl rfl rfl rfl rfl⟩
      · exact ⟨un, .quiet hnodup hun hsmall rfl rfl rfl rfl rfl rfl⟩
  | walkBits | fullNext =>
    simp only [shrinkToFit] at hm
    split at hm <;> obtain ⟨rfl, rfl⟩ := Prod.mk.inj hm
    · exact ⟨un, .quiet hnodup hun hsmall rfl rfl rfl rfl rfl rfl⟩
    · exact ⟨un, .quiet hnodup hun hsmall rfl rfl rfl rfl rfl rfl⟩
  | walkCas start current value nextValue toDrop | fullCas start toDrop current value nextValue =>
    simp only [shrinkToFit] at hm
    split at hm
    · cases current <;> obtain ⟨rfl, rfl⟩ := Prod.mk.inj hm
      · exact ⟨un, .quiet hnodup hun hsmall rfl rfl rfl rfl rfl rfl⟩
      · exact ⟨un, .quiet hnodup hun hsmall rfl rfl rfl rfl rfl rfl⟩
    · obtain ⟨rfl, rfl⟩ := Prod.mk.inj hm
      exact ⟨un, .quiet hnodup hun hsmall rfl rfl rfl rfl rfl rfl⟩
  | swapToFree start toDrop =>
    obtain ⟨rfl, -, -⟩ := hs
    obtain ⟨rfl, rfl⟩ := Prod.mk.inj hm
    obtain ⟨rfl, -, -⟩ := hs'
    refine ⟨bag ++ un, .acquire hnodup hun hsmall (List.nodup_append.mp hh.nodup).2.1
      (fun q hq hq' => ?_) (fun q hq => Or.inr hq) (fun q => ?_) trivial rfl ?_⟩
    · have hshare := hhid q hq' (hh.mem (List.mem_append_right _ hq))
      cases hshare
    · simp [SharedCall.mine, SharedCall.share, SharedCall.afterShrink]
    · show a.heap.size + bag.length + (a.npages + 0) = a.npages + 0 + bag.length + (a.heap.size + 0)
      omega
  | storeToFree start nfreed toFree =>
    obtain ⟨rfl, -, -⟩ := hs
    obtain ⟨-, htf, -⟩ := hk
    simp only [shrinkToFit, htf, ite_true] at hm
    obtain ⟨rfl, rfl⟩ := Prod.mk.inj hm
    refine ⟨un, .same hnodup hun hsmall (fun q => ?_) trivial rfl rfl rfl rfl rfl⟩
    simp [SharedCall.mine, SharedCall.share, SharedCall.afterShrink, htf]
  | restore start nfreed =>
    have hfree : a.freeList = none := hk
    simp only [shrinkToFit, hfree, ite_true] at hm
    obtain ⟨rfl, rfl⟩ := Prod.mk.inj hm
    exact ⟨un, .quiet hnodup hun hsmall rfl rfl rfl rfl rfl rfl⟩
  | subPages nfreed =>
    obtain ⟨rfl, rfl⟩ := Prod.mk.inj hm
    have hnpages := sub_pages hsub hsmall
    refine ⟨un, hnodup, fun q hq => hun q hq, fun q hq _ => Or.inl hq, fun _ _ _ => Iff.rfl,
      fun _ => Or.inl, trivial, ⟨List.nodup_nil, List.forall_mem_nil _⟩, ?_,
      Nat.mod_lt _ (by decide)⟩
    show a.heap.size + 0 + (a.npages + 0 + un.length) =
      (a.npages + (2 ^ 64 - nfreed % 2 ^ 64)) % 2 ^ 64 + 0 + un.length + (a.heap.size + nfreed)
    have hnpages : _ + nfreed = a.npages := hnpages
    omega

end SharedArena

/-! ## The invariant -/

theorem SharedCall.Puts.frame {strict : Prop} {t u : Tid} {writes : Bool} {v v' : Lists}
    {place place' : Addr → Place Tid Shelf} {listed listed' : List Addr} {c : SharedCall}
    (h : c.Puts v.nextFree) (hst : c.Stands v place listed u)
    (hm : Moved strict t writes v v' place place' listed listed') (hu : u ≠ t) :
    c.Puts v'.nextFree := by
  obtain ⟨chain, bag, hh, hs⟩ := hst
  have hput : ∀ {pc : PutPc} {lot : List Addr} {first last : Addr},
      pc.Shape v listed first last chain → pc.Puts v.nextFree lot first →
      pc.Puts v'.nextFree lot first := by
    intro pc lot first last hshape hputs
    have hn : ∀ q ∈ chain, v'.nextFree q = v.nextFree q :=
      fun q hq => hm.nextFree u hu q (hh.mem (List.mem_append_left _ hq))
    cases pc with
    | addPages => trivial
    | loadFull | storeNext | swapFull =>
      rw [← Linked.unique hshape.1 hputs]
      exact Linked.congr hn hshape.1
    | loadFree | swapFree =>
      rw [← Linked.unique hshape hputs]
      exact Linked.congr hn hshape
  unfold Puts at h ⊢
  split at h
  · exact hput hs.1 h
  · exact hput hs.2.1 h
  · trivial

theorem SharedCall.writes_of_adding {c : SharedCall} {q : Addr} (h : q ∈ c.adding) :
    c.writes = true := by
  unfold adding at h
  split at h
  · rfl
  · rfl
  · cases h

theorem SharedCall.writes_of_parks {c : SharedCall} {q : Addr} (h : c.Parks q) : c.writes = true := by
  unfold Parks at h
  split at h
  · rfl
  · exact h.elim

theorem SharedCall.fetches_iff {c : SharedCall} {q : Addr} :
    c.Fetches q ↔ ∃ guarded rest, c = .alloc (.maybeFree guarded (.dropPage q rest .fetch)) := by
  constructor
  · intro h
    unfold Fetches at h
    split at h
    · subst h
      exact ⟨_, _, rfl⟩
    · exact h.elim
  · rintro ⟨guarded, rest, rfl⟩
    rfl

structure Counted (s : SharedState) (place : Addr → Place Tid Shelf) (listed un : List Addr) :
    Prop where
  lists : SharedListsInv False s place listed
  uncounted : Uncounted s place un
  puts : ∀ t, (s.threads.get t).Puts s.arena.nextFree
  adds : ∀ t, (s.threads.get t).adding.Nodup ∧
    ∀ q ∈ (s.threads.get t).adding, q ∉ un ∧ q < s.arena.heap.size
  count : s.arena.heap.size + s.threads.total SharedCall.toSub =
    s.arena.npages + s.threads.total SharedCall.toAdd + un.length
  small : s.arena.npages < 2 ^ 64
  bits : ∀ q, place q ≠ .aside .gone → (s.arena.word q).getLsbD 63 = true

def Recount (t : Tid) (s s' : SharedState) (un : List Addr) : Prop :=
  ∃ place' listed' un', Counted s' place' listed' un' ∧
    ∀ q ∈ un', q ∈ un ∨ s.arena.heap.size ≤ q ∨ (s.threads.get t).Parks q

namespace Counted

variable {s s' : SharedState} {arena : SharedArena} {handles : List (Addr × Nat)} {t : Tid}
  {c : SharedCall} {place place' : Addr → Place Tid Shelf} {listed listed' un un' : List Addr}

theorem lt_size (h : Counted s place listed un) : ∀ q ∈ un, q < s.arena.heap.size := by
  intro q hq
  apply Nat.lt_of_not_le
  intro hle
  have hfresh : place q = .aside .fresh := (h.lists.placed.fresh q).mpr hle
  rcases h.uncounted.aside q hq with e | e | ⟨t, e, -⟩ <;> rw [hfresh] at e <;> cases e

theorem length_le (h : Counted s place listed un) : un.length ≤ s.arena.heap.size := by
  have hsub : un ⊆ List.range s.arena.heap.size :=
    fun q hq => List.mem_range.mpr (h.lt_size q hq)
  have hle := (h.uncounted.nodup.subperm hsub).length_le
  rwa [List.length_range] at hle

theorem total_toAdd (hg : GuardInv s) (ht : (s.threads.get t).writes = true) :
    s.threads.total SharedCall.toAdd = (s.threads.get t).toAdd := by
  have hset := Store.total_set (f := SharedCall.toAdd) rfl s.threads t .idle
  have hzero : (s.threads.set t .idle).total SharedCall.toAdd = 0 := by
    apply Store.total_eq_zero
    intro u
    rw [Store.get_set]
    split
    · rfl
    · rename_i hu
      apply List.length_eq_zero_iff.mpr
      apply List.eq_nil_iff_forall_not_mem.mpr
      intro q hq
      exact hu (hg.lock.one u t (SharedCall.writes_of_adding hq) ht)
  rw [hzero] at hset
  exact hset.symm.trans (Nat.zero_add _)

/-- The pages that `shrink_to_fit` set aside are still in `npages`. -/
theorem toSub_le (h : Counted s place listed un) (hg : GuardInv s)
    (ht : (s.threads.get t).writes = true) (hadd : (s.threads.get t).adding = []) :
    (s.threads.get t).toSub ≤ s.arena.npages := by
  have hcount := h.count
  have hle := h.length_le
  have hsub := Store.le_total (f := SharedCall.toSub) rfl s.threads t
  have hzero : (s.threads.get t).toAdd = 0 := List.length_eq_zero_iff.mpr hadd
  rw [total_toAdd hg ht, hzero] at hcount
  omega

theorem mine_iff {a : SharedArena} {chain bag : List Addr} (h : Placed a.lists place listed)
    (hh : Holds place t (chain ++ bag)) (hs : c.Shape a.lists place listed chain bag) (q : Addr) :
    q ∈ c.mine a chain bag ↔ place q = .aside .parked ∨ place q = .held t ∧ c.Hides q := by
  unfold SharedCall.mine
  rw [List.mem_append, h.parked q, SharedCall.hides_iff hh hs q]
  rfl

theorem thread {chain bag chain' bag' : List Addr} (h : Counted s place listed un) (hg : GuardInv s)
    (hlists : SharedListsInv False { arena, handles, threads := s.threads.set t c } place' listed')
    (hm : Moved False t (s.threads.get t).writes s.arena.lists arena.lists place place' listed listed')
    (hh : Holds place t (chain ++ bag))
    (hs : (s.threads.get t).Shape s.arena.lists place listed chain bag)
    (hh' : Holds place' t (chain' ++ bag')) (hs' : c.Shape arena.lists place' listed' chain' bag')
    (hb : Books s.arena arena place' (s.threads.get t) c ((s.threads.get t).mine s.arena chain bag)
      (c.mine arena chain' bag') un un')
    (hsize : s.arena.heap.size ≤ arena.heap.size)
    (hbits : ∀ q, place' q ≠ .aside .gone → (arena.word q).getLsbD 63 = true) :
    Counted { arena, handles, threads := s.threads.set t c } place' listed' un' := by
  have hself : (s.threads.set t c).get t = c := Store.get_set_self _ _ _
  have hother : ∀ u, u ≠ t → (s.threads.set t c).get u = s.threads.get u :=
    fun u hu => Store.get_set_ne _ _ hu
  refine ⟨hlists, ?_, fun u => ?_, fun u => ?_, ?_, hb.small, hbits⟩
  · exact h.uncounted.turn hm (mine_iff h.lists.placed hh hs) (mine_iff hlists.placed hh' hs')
      hb.nodup hb.within hb.out hb.rest
  · show ((s.threads.set t c).get u).Puts arena.nextFree
    by_cases e : u = t
    · rw [e, hself]
      exact hb.puts
    · rw [hother u e]
      exact SharedCall.Puts.frame (h.puts u) (h.lists.stands u) hm e
  · show ((s.threads.set t c).get u).adding.Nodup ∧
      ∀ q ∈ ((s.threads.set t c).get u).adding, q ∉ un' ∧ q < arena.heap.size
    by_cases e : u = t
    · rw [e, hself]
      exact hb.adds
    · rw [hother u e]
      obtain ⟨hnodup, hout⟩ := h.adds u
      refine ⟨hnodup, fun q hq => ⟨fun hq' => ?_, Nat.lt_of_lt_of_le (hout q hq).2 hsize⟩⟩
      rcases hb.grows q hq' with hq' | hq' | hq'
      · exact (hout q hq).1 hq'
      · exact Nat.not_lt.mpr hq' (hout q hq).2
      · -- there is one writer
        exact e (hg.lock.one u t (SharedCall.writes_of_adding hq) (SharedCall.writes_of_parks hq'))
  · show arena.heap.size + (s.threads.set t c).total SharedCall.toSub =
      arena.npages + (s.threads.set t c).total SharedCall.toAdd + un'.length
    have hsub := Store.total_set (f := SharedCall.toSub) rfl s.threads t c
    have hadd := Store.total_set (f := SharedCall.toAdd) rfl s.threads t c
    have hcount := h.count
    have hbooks := hb.count
    omega

def Gone (s : SharedState) (t : Tid) (place' : Addr → Place Tid Shelf) : Prop :=
  ∀ q, (s.threads.get t).Fetches q → place' q = .aside .gone

theorem turn (h : SharedListsInv False s place listed) (hg : GuardInv s) {a : SharedAct}
    (hpop : s.popsCurrent a = true) (hm : SharedState.Moves s a s') :
    ∃ place' listed', SharedListsInv False s' place' listed' ∧
      Moved False a.thread (s.threads.get a.thread).writes s.arena.lists s'.arena.lists place place'
        listed listed' ∧ Gone s a.thread place' := by
  by_cases hf : ∃ p, (s.threads.get a.thread).Fetches p
  · obtain ⟨p, hf⟩ := hf
    obtain ⟨guarded, rest, ht⟩ := SharedCall.fetches_iff.mp hf
    cases hm with
    | startAlloc ht' | startShrink ht' | startDrop ht' =>
      have e := ht.symm.trans ht'
      cases e
    | shrink ht' | giveBlock ht' | freeBlock ht' | push ht' =>
      have e := ht.symm.trans ht'
      cases e
    | @alloc t pc arena control ht' hs =>
      have ht : s.threads.get t = _ := ht
      obtain rfl := SharedCall.alloc.inj (ht'.symm.trans ht)
      obtain ⟨chain, bag, hh, hshape⟩ := h.stands t
      rw [ht] at hshape
      obtain ⟨rfl, rfl, hb⟩ := hshape
      obtain ⟨hout, hafter⟩ := fetch_gone h.placed (by simpa using hh) hb
      have harena := congrArg Prod.fst hs
      have hcontrol := congrArg Prod.snd hs
      subst harena hcontrol
      refine ⟨_, _, h.of_moved hg hout.placed hout.moved ⟨[], rest, hout.holds, hafter⟩, hout.moved,
        fun q hq => ?_⟩
      have hq : (s.threads.get t).Fetches q := hq
      rw [ht] at hq
      obtain rfl : p = q := hq
      exact relocate_mem (by simp)
  · obtain ⟨place', listed', h', hmoved⟩ := h.turn hg hpop (fun e => e.elim) hm
    exact ⟨place', listed', h', hmoved, fun q hq => absurd ⟨q, hq⟩ hf⟩

theorem recount {c₀ : SharedCall} (h : Counted s place listed un) (hg : GuardInv s)
    (ht : s.threads.get t = c₀) (hsize : s.arena.heap.size ≤ arena.heap.size)
    (hword : ∀ q, (s.arena.word q).getLsbD 63 = true → ¬ c₀.Fetches q →
      (arena.word q).getLsbD 63 = true)
    (hturn : ∃ place' listed',
      SharedListsInv False { arena, handles, threads := s.threads.set t c } place' listed' ∧
      Moved False t (s.threads.get t).writes s.arena.lists arena.lists place place' listed listed' ∧
      Gone s t place')
    (hb : ∀ {place' listed' chain bag chain' bag'}, Holds place t (chain ++ bag) →
      c₀.Shape s.arena.lists place listed chain bag →
      c.Shape arena.lists place' listed' chain' bag' → Gone s t place' →
      (∀ q ∈ c₀.mine s.arena chain bag, q ∈ un) →
      ∃ un', Books s.arena arena place' c₀ c (c₀.mine s.arena chain bag)
        (c.mine arena chain' bag') un un') :
    Recount t s { arena, handles, threads := s.threads.set t c } un := by
  subst ht
  obtain ⟨place', listed', hlists, hm, hgone⟩ := hturn
  obtain ⟨chain, bag, hh, hs⟩ := h.lists.stands t
  obtain ⟨chain', bag', hh', hs'⟩ := hlists.stands t
  have hself : (s.threads.set t c).get t = c := Store.get_set_self _ _ _
  have hs' : c.Shape arena.lists place' listed' chain' bag' := by
    have hs' : ((s.threads.set t c).get t).Shape arena.lists place' listed' chain' bag' := hs'
    rwa [hself] at hs'
  have hun : ∀ q ∈ (s.threads.get t).mine s.arena chain bag, q ∈ un := by
    intro q hq
    rcases (mine_iff h.lists.placed hh hs q).mp hq with hq | ⟨hq, hc⟩
    · exact h.uncounted.parked q hq
    · exact h.uncounted.hidden t q hq hc
  obtain ⟨un', hbooks⟩ := hb hh hs hs' hgone hun
  refine ⟨place', listed', un', h.thread hg hlists hm hh hs hh' hs' hbooks hsize fun q hq => ?_,
    hbooks.grows⟩
  exact hword q (h.bits q fun e => hq (hm.gone q e)) fun e => hq (hgone q e)

theorem recount_quiet {c₀ : SharedCall} (h : Counted s place listed un) (hg : GuardInv s)
    (ht : s.threads.get t = c₀)
    (hword : ∀ q, (s.arena.word q).getLsbD 63 = true → ¬ c₀.Fetches q →
      (arena.word q).getLsbD 63 = true)
    (hturn : ∃ place' listed',
      SharedListsInv False { arena, handles, threads := s.threads.set t c } place' listed' ∧
      Moved False t (s.threads.get t).writes s.arena.lists arena.lists place place' listed listed' ∧
      Gone s t place')
    (hold : c₀.hides = false) (hnew : c.hides = false) (hsub : c.toSub = c₀.toSub)
    (htf : arena.toFree = s.arena.toFree)
    (hsize : arena.heap.size = s.arena.heap.size) (hnpages : arena.npages = s.arena.npages) :
    Recount t s { arena, handles, threads := s.threads.set t c } un :=
  h.recount hg ht (Nat.le_of_eq hsize.symm) hword hturn fun _ _ _ _ hun =>
    ⟨un, .quiet h.uncounted.nodup hun h.small hold hnew htf hsize hnpages hsub⟩

end Counted

/-- What a step adds to `npages` fits. -/
def SharedState.addsFit (s : SharedState) : SharedAct → Bool
  | .step t => s.arena.npages + (s.threads.get t).toAdd < 2 ^ 64
  | _ => true

namespace Counted

variable {s s' : SharedState} {place : Addr → Place Tid Shelf} {listed un : List Addr}

theorem step (h : Counted s place listed un) (hg : GuardInv s) (hblocks : SharedBlocksInv s)
    {a : SharedAct} (hpop : s.popsCurrent a = true) (hfit : s.addsFit a = true)
    (hm : SharedState.Moves s a s') : Recount a.thread s s' un := by
  have hturn := turn h.lists hg hpop hm
  have hword : ∀ {c : SharedCall}, s.threads.get a.thread = c → ∀ q,
      (s.arena.word q).getLsbD 63 = true → ¬ c.Fetches q → (s'.arena.word q).getLsbD 63 = true := by
    rintro _ rfl q h63 hq
    exact hblocks.arenaBit hm h63 hq
  cases hm with
  | startAlloc ht | startShrink ht | startDrop ht =>
    exact h.recount_quiet hg ht (hword ht) hturn rfl rfl rfl rfl rfl rfl
  | @alloc t pc arena control ht hs =>
    have hk := hg.knows t
    have hputs := h.puts t
    have hfit : s.arena.npages + (s.threads.get t).toAdd < 2 ^ 64 := of_decide_eq_true hfit
    rw [ht] at hk hputs hfit
    refine h.recount hg ht (findPlace_word hs).2 (hword ht) hturn fun hh hshape hshape' hgone hun => ?_
    exact findPlace_books h.uncounted.nodup hun h.lt_size h.small hfit h.lists.placed hh hshape hputs
      hk hs hshape' fun q hq =>
        hgone q (show (s.threads.get t).Fetches q by rw [ht]; exact hq)
  | @shrink t pc arena control ht hs =>
    have hk := hg.knows t
    rw [ht] at hk
    have hsub : (SharedCall.shrink pc).toSub ≤ s.arena.npages := by
      by_cases hw : pc.writes = true
      · have hle := h.toSub_le (t := t) hg (by rw [ht]; exact hw) (by rw [ht]; rfl)
        rwa [ht] at hle
      · cases pc with
        | swapShrinking | swapWriter => exact Nat.zero_le _
        | _ => exact absurd rfl hw
    refine h.recount hg ht (Nat.le_of_eq (shrinkToFit_word hs).2.symm) (hword ht) hturn
      fun hh hshape hshape' _ hun => ?_
    have hhid := SharedCall.hides_iff hh hshape
    refine shrinkToFit_books h.uncounted.nodup hun (fun q hq hp => (hhid q).mp ⟨hp, ?_⟩) h.small hsub
      hh hshape hk hs hshape'
    rcases h.uncounted.aside q hq with e | e | ⟨u, e, hc⟩
    · rw [hp] at e
      cases e
    · rw [hp] at e
      cases e
    · have e : t = u := Place.held.inj (hp.symm.trans e)
      subst e
      rwa [ht] at hc
  | giveBlock ht hg' =>
    obtain ⟨rfl, -⟩ := Prod.mk.inj hg'
    exact h.recount_quiet hg ht (hword ht) hturn rfl rfl rfl rfl rfl rfl
  | freeBlock ht =>
    exact h.recount_quiet hg ht (hword ht) hturn rfl rfl rfl rfl rfl rfl
  | @push t p i pc links pending control ht hp =>
    refine h.recount_quiet hg ht (hword ht) hturn rfl ?_ ?_ rfl rfl rfl
    · cases control <;> rfl
    · cases control <;> rfl

theorem start {cap : Nat} (hcap : cap < 2 ^ 64) :
    ∃ place listed, Counted (.start cap) place listed [] := by
  obtain ⟨place, listed, hlists⟩ : ∃ place listed, SharedListsInv False (.start cap) place listed :=
    SharedListsInv.start cap
  have hthread : ∀ t, (SharedState.start cap).threads.get t = .idle := Store.get_empty
  refine ⟨place, listed, hlists, ⟨List.nodup_nil, nofun, fun q hq => ?_, fun t q _ hq => ?_⟩,
    fun t => ?_, fun t => ?_, ?_, ?_, fun q _ => (UnshrunkInv.start cap).arenaBit q⟩
  · exact (hlists.placed.parked q).mp hq
  · rw [hthread] at hq
    exact hq.elim
  · rw [hthread]
    trivial
  · rw [hthread]
    exact ⟨List.nodup_nil, nofun⟩
  · show 0 + pagesFor cap + 0 = pagesFor cap + 0 + 0
    omega
  · have hle : pagesFor cap ≤ max cap 1 := by
      unfold pagesFor
      rw [blockPerPage_eq]
      omega
    show pagesFor cap < 2 ^ 64
    omega

end Counted

end MemoryPools
