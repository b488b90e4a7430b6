import MemoryPools.SharedArena
import MemoryPools.Lists

/-!
# Where the pages of a shared arena are

The lists of an arena without its words and flags, and the moves of pages between
them and the hands of the threads. Every page is in one place; a move of thread `t`
leaves what the other threads hold.
-/

namespace MemoryPools

open Interleave

structure Lists where
  nextFree : Addr → Ptr
  next : Addr → Ptr
  inFreeList : Addr → Bool
  free : Ptr
  pending : Ptr
  full : Ptr
  toFree : Option (List Addr)
  size : Nat
  freed : List Freed

/-- Why a page is on neither list and in nobody's hands. -/
inductive Shelf
  | fresh
  -- in `to_free`
  | parked
  -- dropped by `retain` after it was taken out of the free list
  | lost
  | gone
  deriving DecidableEq

structure Placed (v : Lists) (place : Addr → Place Tid Shelf) (listed : List Addr) : Prop where
  circulates : Circulates v.nextFree v.inFreeList v.free v.pending place
  fresh : ∀ q, place q = .aside .fresh ↔ v.size ≤ q
  parked : ∀ q, place q = .aside .parked ↔ q ∈ v.toFree.getD []
  nodup : (v.toFree.getD []).Nodup
  full : Linked v.next v.full listed
  listed : ∀ q ∈ listed, place q ≠ .aside .fresh ∧ place q ≠ .aside .parked ∧ place q ≠ .aside .gone
  freed : ∀ q, .dropPage q ∈ v.freed → place q = .aside .gone

/-- What a move of thread `t` leaves to the others. A thread that is not the writer leaves
`full_list`. -/
structure Moved (strict : Prop) (t : Tid) (writes : Bool) (v v' : Lists)
    (place place' : Addr → Place Tid Shelf) (listed listed' : List Addr) : Prop where
  held : ∀ u, u ≠ t → ∀ q, place' q = .held u ↔ place q = .held u
  nextFree : ∀ u, u ≠ t → ∀ q, place q = .held u → v'.nextFree q = v.nextFree q
  unlisted : ∀ u, u ≠ t → ∀ q, place q = .held u → q ∈ listed' → q ∈ listed
  gone : ∀ q, place q = .aside .gone → place' q = .aside .gone
  lost : strict → ∀ q, place' q = .aside .lost → place q = .aside .lost
  quiet : writes = false → v'.full = v.full ∧ v'.next = v.next ∧ listed' = listed

variable {strict : Prop} {t : Tid} {writes : Bool} {v v' : Lists}
  {place place' : Addr → Place Tid Shelf}
  {listed listed' chain l : List Addr} {p : Addr} {x : Place Tid Shelf}

theorem Moved.refl : Moved strict t writes v v place place listed listed :=
  ⟨fun _ _ _ => Iff.rfl, fun _ _ _ _ => rfl, fun _ _ _ _ h => h, fun _ h => h, fun _ _ h => h,
    fun _ => ⟨rfl, rfl, rfl⟩⟩

/-! ## Moves that put no page aside -/

theorem Placed.shift (h : Placed v place listed) (hf : Frame t place place')
    (hcirc : Circulates v'.nextFree v'.inFreeList v'.free v'.pending place')
    (hsize : v'.size = v.size) (htf : v'.toFree = v.toFree) (hfreed : v'.freed = v.freed)
    (hfull : Linked v'.next v'.full listed')
    (hlisted : ∀ q ∈ listed', q ∈ listed ∨ place q = .held t) : Placed v' place' listed' := by
  refine ⟨hcirc, fun q => ?_, fun q => ?_, by rw [htf]; exact h.nodup, hfull, fun q hq => ?_,
    fun q hq => ?_⟩
  · rw [hf.aside, hsize]; exact h.fresh q
  · rw [hf.aside, htf]; exact h.parked q
  · rw [Ne, Ne, Ne, hf.aside, hf.aside, hf.aside]
    rcases hlisted q hq with hq | hq
    · exact h.listed q hq
    · rw [hq]; simp
  · rw [hfreed] at hq
    rw [hf.aside]; exact h.freed q hq

theorem Moved.shift (hf : Frame t place place')
    (hn : ∀ q, place q ≠ .held t → v'.nextFree q = v.nextFree q)
    (hlisted : ∀ q ∈ listed', q ∈ listed ∨ place q = .held t)
    (hquiet : writes = false → v'.full = v.full ∧ v'.next = v.next ∧ listed' = listed) :
    Moved strict t writes v v' place place' listed listed' := by
  refine ⟨hf.held, fun u hu q hq => hn q (by rw [hq]; simpa using hu), fun u hu q hq hq' => ?_,
    fun q => (hf.aside _ q).mpr,
    fun _ q => (hf.aside _ q).mp, hquiet⟩
  rcases hlisted q hq' with hq' | hq'
  · exact hq'
  · rw [hq] at hq'; exact absurd (Place.held.inj hq') hu

/-! ## Moves between the hands of a thread and a shelf -/

def Shelved (t : Tid) (r : Shelf) (place place' : Addr → Place Tid Shelf) : Prop :=
  ∀ y, y ≠ .aside r → y ≠ .held t → ∀ q, place' q = y ↔ place q = y

namespace Shelved

variable {r : Shelf}

theorem take (hl : ∀ q ∈ l, place q = .aside r) : Shelved t r place (relocate place l (.held t)) :=
  fun _ hy hy' => relocate_other (fun q hq => by rw [hl q hq]; exact Ne.symm hy) (Ne.symm hy')

theorem put (hl : ∀ q ∈ l, place q = .held t) : Shelved t r place (relocate place l (.aside r)) :=
  fun _ hy hy' => relocate_other (fun q hq => by rw [hl q hq]; exact Ne.symm hy') (Ne.symm hy)

theorem circulates (h : Shelved t r place place')
    (hc : Circulates v.nextFree v.inFreeList v.free v.pending place) :
    Circulates v.nextFree v.inFreeList v.free v.pending place' :=
  hc.retag (h _ (by simp) (by simp)) (h _ (by simp) (by simp)) (h _ (by simp) (by simp))

theorem aside (h : Shelved t r place place') {x : Shelf} (hx : x ≠ r) (q : Addr) :
    place' q = .aside x ↔ place q = .aside x := h _ (by simpa using hx) (by simp) q

theorem moved (h : Shelved t r place place')
    (hn : ∀ u q, place q = .held u → v'.nextFree q = v.nextFree q)
    (hgone : r = .gone → ∀ q, place q = .aside .gone → place' q = .aside .gone)
    (hlost : r = .lost → ¬ strict) (hquiet : writes = false → v'.full = v.full ∧ v'.next = v.next) :
    Moved strict t writes v v' place place' listed listed := by
  refine ⟨fun u hu => h _ (by simp) (by simpa using hu), fun u _ q hq => hn u q hq,
    fun _ _ _ _ hq => hq, fun q hq => ?_,
    fun hs q hq => ?_, fun hw => ⟨(hquiet hw).1, (hquiet hw).2, rfl⟩⟩
  · by_cases e : r = .gone
    · exact hgone e q hq
    · exact (h.aside (Ne.symm e) q).mpr hq
  · by_cases e : r = .lost
    · exact absurd hs (hlost e)
    · exact (h.aside (Ne.symm e) q).mp hq

end Shelved

structure Outcome (strict : Prop) (t : Tid) (writes : Bool) (v v' : Lists)
    (place : Addr → Place Tid Shelf) (listed : List Addr) (held : List Addr)
    (place' : Addr → Place Tid Shelf) (listed' : List Addr) : Prop where
  placed : Placed v' place' listed'
  moved : Moved strict t writes v v' place place' listed listed'
  holds : Holds place' t held

namespace Placed

theorem pop (h : Placed v place listed) (ht : Holds place t l) (hp : v.free = some p) :
    Outcome strict t writes v { v with free := v.nextFree p } place listed (p :: l)
    (relocate place [p] (.held t))
      listed := by
  have hcirc := h.circulates
  rw [hp] at hcirc
  have hfree := hcirc.head_free
  have hl : ∀ q ∈ [p], (place q).movable t = true := by
    intro q hq
    rw [List.mem_singleton.mp hq, hfree]; rfl
  have hf := Frame.relocate (w := t) (x := .held t) hl (by simp [Place.movable])
  refine ⟨h.shift hf ?_ rfl rfl rfl h.full fun q hq => Or.inl hq,
    .shift hf (fun _ _ => rfl) (fun q hq => Or.inl hq) fun _ => ⟨rfl, rfl, rfl⟩,
    ht.take (List.nodup_singleton p) fun q hq => ?_⟩
  · rw [relocate_single]; exact hcirc.pop t
  · rw [List.mem_singleton.mp hq, hfree]; simp

theorem letOut (h : Placed v place listed) (ht : Holds place t (p :: l)) :
    Outcome strict t writes v { v with inFreeList := Function.update v.inFreeList p false }
    place listed l
      (relocate place [p] .out) listed := by
  have hp := ht.mem (p := p) (by simp)
  have hl : ∀ q ∈ [p], (place q).movable t = true := by
    intro q hq
    rw [List.mem_singleton.mp hq, hp]; simp [Place.movable]
  have hf := Frame.relocate (w := t) (x := .out) hl rfl
  refine ⟨h.shift hf ?_ rfl rfl rfl h.full fun q hq => Or.inl hq,
    .shift hf (fun _ _ => rfl) (fun q hq => Or.inl hq) fun _ => ⟨rfl, rfl, rfl⟩, Holds.put
      (l := [p]) ht (by simp)⟩
  rw [relocate_single]
  exact h.circulates.letOut hp

theorem takePending (h : Placed v place listed) (ht : Holds place t l) :
    ∃ chain, Linked v.nextFree v.pending chain ∧
      Outcome strict t writes v { v with pending := none } place listed (chain ++ l)
      (relocate place chain (.held t))
        listed := by
  obtain ⟨P, hP, hp⟩ := h.circulates.pending
  have hl : ∀ q ∈ P, (place q).movable t = true := by
    intro q hq
    rw [(hp q).mp hq]; rfl
  have hf := Frame.relocate (w := t) (x := .held t) hl (by simp [Place.movable])
  refine ⟨P, hP, h.shift hf ?_ rfl rfl rfl h.full fun q hq => Or.inl hq,
    .shift hf (fun _ _ => rfl) (fun q hq => Or.inl hq) fun _ => ⟨rfl, rfl, rfl⟩, ht.take hP.nodup
      fun q hq => ?_⟩
  · rw [relocate_eq_sweep hp]; exact h.circulates.takePending t
  · rw [(hp q).mp hq]; simp

theorem takeFree (h : Placed v place listed) (ht : Holds place t l) :
    ∃ chain, Linked v.nextFree v.free chain ∧
      Outcome strict t writes v { v with free := none } place listed (chain ++ l)
      (relocate place chain (.held t))
        listed := by
  obtain ⟨F, hF, hm⟩ := h.circulates.free
  have hl : ∀ q ∈ F, (place q).movable t = true := by
    intro q hq
    rw [(hm q).mp hq]; rfl
  have hf := Frame.relocate (w := t) (x := .held t) hl (by simp [Place.movable])
  refine ⟨F, hF, h.shift hf ?_ rfl rfl rfl h.full fun q hq => Or.inl hq,
    .shift hf (fun _ _ => rfl) (fun q hq => Or.inl hq) fun _ => ⟨rfl, rfl, rfl⟩, ht.take hF.nodup
      fun q hq => ?_⟩
  · rw [relocate_eq_sweep hm]; exact h.circulates.takeFree t
  · rw [(hm q).mp hq]; simp

theorem giveFree (h : Placed v place listed) {head : Ptr} (ht : Holds place t (chain ++ l))
    (hfree : v.free = none) (hc : Linked v.nextFree head chain) :
    Outcome strict t writes v { v with free := head } place listed l
    (relocate place chain .free) listed := by
  have hheld : ∀ q ∈ chain, place q = .held t := fun q hq => ht.mem (by simp [hq])
  have hl : ∀ q ∈ chain, (place q).movable t = true := by
    intro q hq
    rw [hheld q hq]; simp [Place.movable]
  have hcirc := h.circulates
  rw [hfree] at hcirc
  have hf := Frame.relocate (w := t) (x := .free) hl rfl
  exact ⟨h.shift hf (hcirc.giveFree hc hheld) rfl rfl rfl h.full fun q hq => Or.inl hq,
    .shift hf (fun _ _ => rfl) (fun q hq => Or.inl hq) fun _ => ⟨rfl, rfl, rfl⟩, ht.put (by simp)⟩

theorem writeFree (h : Placed v place listed) (ht : Holds place t l) (hp : p ∈ l) (c : Ptr) :
    Outcome strict t writes v { v with nextFree := Function.update v.nextFree p c } place listed l
    place listed := by
  have hheld := ht.mem hp
  refine ⟨h.shift (t := t) Frame.refl (h.circulates.write hheld c) rfl rfl rfl h.full
    fun q hq => Or.inl hq,
    .shift Frame.refl (fun q hq => ?_) (fun q hq => Or.inl hq) fun _ => ⟨rfl, rfl, rfl⟩, ht⟩
  refine Function.update_of_ne (fun e => ?_) _ _
  rw [e] at hq; exact hq hheld

theorem setFull (h : Placed v place listed) (ht : Holds place t l) {next : Addr → Ptr} {full : Ptr}
    (hfull : Linked next full listed') (hlisted : ∀ q ∈ listed', q ∈ listed ∨ q ∈ l) :
    Outcome strict t true v { v with next, full } place listed l place listed' := by
  have hlisted' : ∀ q ∈ listed', q ∈ listed ∨ place q = .held t :=
    fun q hq => (hlisted q hq).imp_right ht.mem
  exact ⟨h.shift Frame.refl h.circulates rfl rfl rfl hfull hlisted',
    .shift Frame.refl (fun _ _ => rfl) hlisted' (by simp), ht⟩

theorem grow (h : Placed v place listed) (ht : Holds place t []) {n : Nat}
    (hlinks : ∀ q : Nat, q < v.size → v'.nextFree q = v.nextFree q ∧ v'.next q = v.next q)
    (hflag : v'.inFreeList = v.inFreeList)
    (hlists : v'.free = v.free ∧ v'.pending = v.pending ∧ v'.full = v.full ∧ v'.toFree = v.toFree)
    (hsize : v'.size = v.size + n) (hfreed : v'.freed = v.freed) :
    Outcome strict t true v v' place listed (downFrom v.size n)
    (relocate place (downFrom v.size n) (.held t))
      listed := by
  obtain ⟨hfree, hpending, hfull, htf⟩ := hlists
  have hnew : ∀ q ∈ downFrom v.size n, place q = .aside .fresh :=
    fun q hq => (h.fresh q).mpr (mem_downFrom.mp hq).1
  have hold : ∀ q : Nat, place q ≠ .aside .fresh → q < v.size :=
    fun q hq => Nat.lt_of_not_le fun hle => hq ((h.fresh q).mpr hle)
  have hs : Shelved t .fresh place (relocate place (downFrom v.size n) (.held t)) := .take hnew
  refine ⟨⟨?_, fun q => ?_, fun q => ?_, by rw [htf]; exact h.nodup, ?_, fun q hq => ?_,
    fun q hq => ?_⟩, ?_, ?_⟩
  · rw [hflag, hfree, hpending]
    refine (hs.circulates h.circulates).congr fun q hq => (hlinks q (hold q fun e => ?_)).1
    rw [hs _ (by simp) (by simp), hs _ (by simp) (by simp), e] at hq
    rcases hq with hq | hq
    · cases hq
    · cases hq
  · by_cases hq : q ∈ downFrom v.size n
    · have := (mem_downFrom.mp hq).2
      rw [relocate_mem hq, hsize]
      simp only [reduceCtorEq, false_iff]
      exact Nat.not_le.mpr this
    · rw [relocate_not_mem hq, h.fresh q, hsize]
      rw [mem_downFrom] at hq
      constructor
      · intro hle
        exact Nat.le_of_not_lt fun hlt => hq ⟨hle, hlt⟩
      · intro hle
        exact Nat.le_trans (Nat.le_add_right _ _) hle
  · rw [hs.aside (by simp), htf]
    exact h.parked q
  · rw [hfull]
    exact h.full.congr fun q hq => (hlinks q (hold q (h.listed q hq).1)).2
  · rw [relocate_not_mem fun hq' => (h.listed q hq).1 (hnew q hq')]
    exact h.listed q hq
  · rw [hfreed] at hq
    exact (hs.aside (by simp) q).mpr (h.freed q hq)
  · exact hs.moved (fun u q hq => (hlinks q (hold q (by simp [hq]))).1) (by simp)
      (by simp) (by simp)
  · have := ht.take nodup_downFrom fun q hq => by rw [hnew q hq]; simp
    rwa [List.append_nil] at this

theorem parked_unlisted (h : Placed v place listed) : ∀ q ∈ v.toFree.getD [], q ∉ listed :=
  fun q hq hq' => (h.listed q hq').2.1 ((h.parked q).mpr hq)

theorem takeToFree (h : Placed v place listed) (ht : Holds place t l) :
    Outcome strict t writes v { v with toFree := none } place listed (v.toFree.getD [] ++ l)
      (relocate place (v.toFree.getD []) (.held t)) listed := by
  have hp : ∀ q ∈ v.toFree.getD [], place q = .aside .parked := fun q hq => (h.parked q).mpr hq
  have hs : Shelved t .parked place (relocate place (v.toFree.getD []) (.held t)) := .take hp
  refine ⟨⟨hs.circulates h.circulates, fun q => (hs.aside (by simp) q).trans (h.fresh q),
    fun q => ?_, List.nodup_nil,
    h.full, fun q hq => ?_, fun q hq => (hs.aside (by simp) q).mpr (h.freed q hq)⟩,
    hs.moved (fun _ _ _ => rfl) (by simp) (by simp) fun _ => ⟨rfl, rfl⟩,
    ht.take h.nodup fun q hq => by rw [hp q hq]; simp⟩
  · by_cases hq : q ∈ v.toFree.getD []
    · simp [relocate_mem hq]
    · rw [relocate_not_mem hq, h.parked q]
      simp [hq]
  · have := h.listed q hq
    rw [relocate_not_mem fun hq' => this.2.1 (hp q hq')]
    exact this

theorem storeToFree (h : Placed v place listed) (ht : Holds place t (l ++ chain))
    (hfree : v.toFree = none) (hl : ∀ q ∈ l, q ∉ listed) :
    Outcome strict t writes v { v with toFree := some l } place listed chain
    (relocate place l (.aside .parked))
      listed := by
  have hnone : ∀ q, place q ≠ .aside .parked := by
    intro q hq
    have := (h.parked q).mp hq
    simp [hfree] at this
  have hs : Shelved t .parked place (relocate place l (.aside .parked)) :=
    .put fun q hq => ht.mem (by simp [hq])
  refine ⟨⟨hs.circulates h.circulates, fun q => (hs.aside (by simp) q).trans
    (h.fresh q), fun q => ?_,
    (List.nodup_append.mp ht.nodup).1, h.full, fun q hq => ?_, fun q hq =>
      (hs.aside (by simp) q).mpr (h.freed q hq)⟩,
    hs.moved (fun _ _ _ => rfl) (by simp) (by simp) fun _ => ⟨rfl, rfl⟩, ht.put (by simp)⟩
  · by_cases hq : q ∈ l
    · simp [relocate_mem hq, hq]
    · simp [relocate_not_mem hq, hq, hnone q]
  · rw [relocate_not_mem fun hq' => hl q hq' hq]
    exact h.listed q hq

theorem giveUp (h : Placed v place listed) (ht : Holds place t (p :: l)) (hp : p ∉ listed) :
    Outcome strict t writes v v place listed l (relocate place [p] (.aside .gone)) listed := by
  have hs : Shelved t .gone place (relocate place [p] (.aside .gone)) :=
    .put fun q hq => ht.mem (by simp [List.mem_singleton.mp hq])
  have hgone : ∀ q, place q = .aside .gone → relocate place [p] (.aside .gone) q =
    .aside .gone := by
    intro q hq
    unfold relocate
    split
    · rfl
    · exact hq
  refine ⟨⟨hs.circulates h.circulates, fun q => (hs.aside (by simp) q).trans (h.fresh q),
    fun q => (hs.aside (by simp) q).trans (h.parked q), h.nodup, h.full, fun q hq => ?_,
    fun q hq => hgone q (h.freed q hq)⟩,
    hs.moved (fun _ _ _ => rfl) (fun _ => hgone) (by simp) fun _ => ⟨rfl, rfl⟩, Holds.put
      (l := [p]) ht (by simp)⟩
  have hne : q ∉ [p] := fun e => hp (List.mem_singleton.mp e ▸ hq)
  rw [relocate_not_mem hne]
  exact h.listed q hq

theorem lose (h : Placed v place listed) (ht : Holds place t (p :: l)) (hstrict : ¬ strict) :
    Outcome strict t writes v v place listed l (relocate place [p] (.aside .lost)) listed := by
  have hs : Shelved t .lost place (relocate place [p] (.aside .lost)) :=
    .put fun q hq => ht.mem (by simp [List.mem_singleton.mp hq])
  refine ⟨⟨hs.circulates h.circulates, fun q => (hs.aside (by simp) q).trans (h.fresh q),
    fun q => (hs.aside (by simp) q).trans (h.parked q), h.nodup, h.full, fun q hq => ?_,
    fun q hq => (hs.aside (by simp) q).mpr (h.freed q hq)⟩,
    hs.moved (fun _ _ _ => rfl) (by simp) (fun _ => hstrict) fun _ => ⟨rfl, rfl⟩, Holds.put
      (l := [p]) ht (by simp)⟩
  rw [Ne, Ne, Ne, hs.aside (by simp), hs.aside (by simp), hs.aside (by simp)]
  exact h.listed q hq

theorem free (h : Placed v place listed) (ht : Holds place t l) (hp : place p = .aside .gone) :
    Outcome strict t writes v { v with freed := .dropPage p :: v.freed } place listed l
    place listed := by
  refine ⟨⟨h.circulates, h.fresh, h.parked, h.nodup, h.full, h.listed, fun q hq => ?_⟩, ?_, ht⟩
  · rcases List.mem_cons.mp hq with e | hq
    · rw [Freed.dropPage.inj e]; exact hp
    · exact h.freed q hq
  · exact .shift Frame.refl (fun _ _ => rfl) (fun q hq => Or.inl hq) fun _ => ⟨rfl, rfl, rfl⟩

theorem freeBlock (h : Placed v place listed) (ht : Holds place t l) :
    Outcome strict t writes v { v with freed := .dropBlock p :: v.freed } place listed l
    place listed := by
  refine ⟨⟨h.circulates, h.fresh, h.parked, h.nodup, h.full, h.listed, fun q hq => ?_⟩, ?_, ht⟩
  · rcases List.mem_cons.mp hq with e | hq
    · cases e
    · exact h.freed q hq
  · exact .shift Frame.refl (fun _ _ => rfl) (fun q hq => Or.inl hq) fun _ => ⟨rfl, rfl, rfl⟩

end Placed

end MemoryPools
