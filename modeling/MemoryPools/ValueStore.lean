import MemoryPools.SessionSound

/-!
# The store of values that a pool stands for

A value gets an identity when it is allocated, and is dropped with its last handle. There
are no pages, blocks or counters here, and nothing for `shrink_to_fit` to do. Every
session of a pool refines a store.
-/

namespace MemoryPools

open Interleave

/-- An identity is a place in `values`. -/
structure ValueStore (V : Type) where
  alive : Bool
  handles : List (AllocKind × Nat)
  values : List V
  dropped : List Nat

/-- The handles with `Clone`; the others can be written through. -/
def AllocKind.counted : AllocKind → Bool
  | .alloc => false
  | .allocRc => true
  | .allocArc => true

namespace ValueStore

variable {V : Type}

def start : ValueStore V where
  alive := true
  handles := []
  values := []
  dropped := []

def ids (st : ValueStore V) : List Nat := st.handles.map Prod.snd

def deref (st : ValueStore V) (k : Nat) : Option V := st.ids[k]?.bind fun i => st.values[i]?

def alloc (st : ValueStore V) (kind : AllocKind) (value : V) : ValueStore V :=
  { st with
    handles := (kind, st.values.length) :: st.handles
    values := st.values ++ [value] }

def drop (st : ValueStore V) (k i : Nat) : ValueStore V :=
  { st with
    handles := st.handles.eraseIdx k
    dropped := if i ∈ (st.handles.eraseIdx k).map Prod.snd then st.dropped else st.dropped ++ [i] }

def step (st : ValueStore V) : SessionAct V → Option (ValueStore V)
  | .alloc kind value => if st.alive then some (st.alloc kind value) else none
  | .clone k =>
    match st.handles[k]? with
    | some (kind, i) =>
      if kind.counted then some { st with handles := (kind, i) :: st.handles } else none
    | none => none
  | .write k value =>
    match st.handles[k]? with
    | some (kind, i) =>
      if kind.counted then none else some { st with values := st.values.set i value }
    | none => none
  | .drop k =>
    match st.handles[k]? with
    | some (_, i) => some (st.drop k i)
    | none => none
  | .shrink => if st.alive then some st else none
  | .release => if st.alive then some { st with alive := false } else none

def machine (V : Type) : Machine (ValueStore V) (SessionAct V) where
  init st := st = start
  step := step

/-! ## Values are dropped once -/

structure Sound (st : ValueStore V) : Prop where
  known : ∀ i ∈ st.ids, i < st.values.length
  once : st.dropped.Nodup
  dropped : ∀ i, i ∈ st.dropped ↔ i < st.values.length ∧ i ∉ st.ids

variable {st st' : ValueStore V} {act : SessionAct V}

theorem Sound.start : (start : ValueStore V).Sound where
  known i hi := by cases hi
  once := List.nodup_nil
  dropped i := by simp [ValueStore.start]

theorem ids_perm {k i : Nat} {kind : AllocKind} (hh : st.handles[k]? = some (kind, i)) :
    (i :: (st.handles.eraseIdx k).map Prod.snd).Perm st.ids := by
  obtain ⟨hk, e⟩ := List.getElem?_eq_some_iff.mp hh
  have hperm := (List.getElem_cons_eraseIdx_perm hk).map Prod.snd
  rw [e] at hperm
  exact hperm

theorem mem_ids {k i : Nat} {kind : AllocKind} (hh : st.handles[k]? = some (kind, i)) :
    i ∈ st.ids := (ids_perm hh).mem_iff.mp List.mem_cons_self

theorem Sound.alloc (h : st.Sound) (kind : AllocKind) (value : V) : (st.alloc kind value).Sound where
  known i hi := by
    show i < (st.values ++ [value]).length
    rw [List.length_append, List.length_singleton]
    rcases List.mem_cons.mp hi with rfl | hi
    · exact Nat.lt_succ_self _
    · exact Nat.lt_succ_of_lt (h.known i hi)
  once := h.once
  dropped i := by
    show i ∈ st.dropped ↔ i < (st.values ++ [value]).length ∧ i ∉ st.values.length :: st.ids
    rw [h.dropped i, List.length_append, List.length_singleton, List.mem_cons]
    constructor
    · rintro ⟨hlt, hnot⟩
      refine ⟨by omega, ?_⟩
      rintro (rfl | hi)
      · exact Nat.lt_irrefl _ hlt
      · exact hnot hi
    · rintro ⟨hlt, hnot⟩
      exact ⟨by omega, fun hi => hnot (Or.inr hi)⟩

theorem Sound.clone (h : st.Sound) {k i : Nat} {kind : AllocKind}
    (hh : st.handles[k]? = some (kind, i)) :
    { st with handles := (kind, i) :: st.handles }.Sound := by
  have hmem : ∀ j, j ∈ i :: st.ids ↔ j ∈ st.ids := by
    intro j
    rw [List.mem_cons, or_iff_right_of_imp]
    rintro rfl
    exact mem_ids hh
  exact ⟨fun j hj => h.known j ((hmem j).mp hj), h.once,
    fun j => (h.dropped j).trans (and_congr_right' (not_congr (hmem j).symm))⟩

theorem Sound.write (h : st.Sound) (i : Nat) (value : V) :
    { st with values := st.values.set i value }.Sound := by
  have hlen : (st.values.set i value).length = st.values.length := List.length_set
  refine ⟨fun j hj => ?_, h.once, fun j => ?_⟩
  · show j < (st.values.set i value).length
    rw [hlen]
    exact h.known j hj
  · show j ∈ st.dropped ↔ j < (st.values.set i value).length ∧ j ∉ st.ids
    rw [hlen]
    exact h.dropped j

theorem Sound.drop (h : st.Sound) {k i : Nat} {kind : AllocKind}
    (hh : st.handles[k]? = some (kind, i)) : (st.drop k i).Sound := by
  have hperm := ids_perm hh
  have hmem : ∀ j, j ∈ st.ids ↔ j = i ∨ j ∈ (st.handles.eraseIdx k).map Prod.snd := by
    intro j
    rw [← hperm.mem_iff, List.mem_cons]
  have hi := h.known i (mem_ids hh)
  refine ⟨fun j hj => h.known j ((hmem j).mpr (Or.inr hj)), ?_, fun j => ?_⟩
  · show (if _ then _ else _ : List Nat).Nodup
    by_cases hlast : i ∈ (st.handles.eraseIdx k).map Prod.snd
    · rw [if_pos hlast]
      exact h.once
    · rw [if_neg hlast]
      apply List.nodup_append.mpr
      refine ⟨h.once, List.nodup_singleton i, ?_⟩
      rintro j hj l hl rfl
      obtain rfl := List.mem_singleton.mp hl
      exact ((h.dropped j).mp hj).2 (mem_ids hh)
  · show j ∈ (if _ then _ else _ : List Nat) ↔
      j < st.values.length ∧ j ∉ (st.handles.eraseIdx k).map Prod.snd
    have hj := h.dropped j
    rw [hmem j] at hj
    by_cases hlast : i ∈ (st.handles.eraseIdx k).map Prod.snd
    · rw [if_pos hlast, hj, not_or]
      constructor
      · exact fun hj => ⟨hj.1, hj.2.2⟩
      · rintro ⟨hlt, hnot⟩
        refine ⟨hlt, ?_, hnot⟩
        rintro rfl
        exact hnot hlast
    · rw [if_neg hlast, List.mem_append, List.mem_singleton, hj, not_or]
      constructor
      · rintro (hj | rfl)
        · exact ⟨hj.1, hj.2.2⟩
        · exact ⟨hi, hlast⟩
      · rintro ⟨hlt, hnot⟩
        by_cases e : j = i
        · exact Or.inr e
        · exact Or.inl ⟨hlt, e, hnot⟩

theorem Sound.step (h : st.Sound) (hs : st.step act = some st') : st'.Sound := by
  cases act with
  | alloc kind value =>
    simp only [ValueStore.step, Option.ite_none_right_eq_some, Option.some.injEq] at hs
    exact hs.2 ▸ h.alloc kind value
  | clone k =>
    simp only [ValueStore.step] at hs
    cases hk : st.handles[k]? with
    | none => simp [hk] at hs
    | some x =>
      simp only [hk, Option.ite_none_right_eq_some, Option.some.injEq] at hs
      exact hs.2 ▸ h.clone hk
  | write k value =>
    simp only [ValueStore.step] at hs
    cases hk : st.handles[k]? with
    | none => simp [hk] at hs
    | some x =>
      simp only [hk, Option.ite_none_left_eq_some, Option.some.injEq] at hs
      exact hs.2 ▸ h.write x.2 value
  | drop k =>
    simp only [ValueStore.step] at hs
    cases hk : st.handles[k]? with
    | none => simp [hk] at hs
    | some x =>
      simp only [hk, Option.some.injEq] at hs
      exact hs ▸ h.drop hk
  | shrink =>
    simp only [ValueStore.step, Option.ite_none_right_eq_some, Option.some.injEq] at hs
    exact hs.2 ▸ h
  | release =>
    simp only [ValueStore.step, Option.ite_none_right_eq_some, Option.some.injEq] at hs
    exact hs.2 ▸ ⟨h.known, h.once, h.dropped⟩

theorem Sound.of_reach {C : ValueStore V → SessionAct V → Prop} (h : (machine V).Reach C st) :
    st.Sound := by
  apply h.invariant
  · rintro st rfl
    exact .start
  · exact fun _ _ _ _ hs _ he => hs.step he

end ValueStore

/-! ## The refinement -/

section
variable {V : Type} {t : PageKind}

/-- `place` says in which block the value of an identity is. -/
structure Refines (t : PageKind) (s : Session t.Arena V) (st : ValueStore V) (place : Nat → Block) :
    Prop where
  alive : s.alive = st.alive
  handles : s.handles.map (fun h => (some h.1, h.2)) =
    st.handles.map fun h => (t.calls.handle h.1, place h.2)
  apart : ∀ i ∈ st.ids, ∀ j ∈ st.ids, place i = place j → i = j
  value : ∀ i ∈ st.ids, s.value (place i) = st.values[i]?
  dropped : s.dropped = st.dropped.map fun i => st.values[i]?

theorem PageKind.cloneable_eq {kind : AllocKind} {handle : HandleKind}
    (h : t.calls.handle kind = some handle) : handle.cloneable = kind.counted := by
  cases t with
  | sharedArena | arena =>
    cases kind with
    | alloc | allocRc | allocArc =>
      obtain rfl := Option.some.inj h
      rfl
  | pool =>
    cases kind with
    | alloc | allocRc =>
      obtain rfl := Option.some.inj h
      rfl
    | allocArc => cases h

namespace Refines

variable {s s' : Session t.Arena V} {st : ValueStore V} {place : Nat → Block} {b b' : Book}
  {act : SessionAct V} {k : Nat}

theorem blocks_eq (h : Refines t s st place) : s.blocks = st.ids.map place := by
  have e := congrArg (List.map Prod.snd) h.handles
  rw [List.map_map, List.map_map] at e
  show s.handles.map Prod.snd = (st.handles.map Prod.snd).map place
  rw [List.map_map]
  exact e

theorem handle (h : Refines t s st place) {x : HandleKind} {block : Block}
    (hh : s.handles[k]? = some (x, block)) :
    ∃ kind i, st.handles[k]? = some (kind, i) ∧ t.calls.handle kind = some x ∧ place i = block := by
  have e := congrArg (fun l => l[k]?) h.handles
  simp only [List.getElem?_map, hh, Option.map_some] at e
  cases hk : st.handles[k]? with
  | none =>
    rw [hk] at e
    cases e
  | some y =>
    rw [hk] at e
    obtain ⟨ekind, eblock⟩ := Prod.mk.inj (Option.some.inj e)
    exact ⟨y.1, y.2, rfl, ekind.symm, eblock.symm⟩

theorem deref_eq (h : Refines t s st place) (k : Nat) : s.deref k = st.deref k := by
  unfold Session.deref ValueStore.deref
  rw [h.blocks_eq, List.getElem?_map]
  cases hk : st.ids[k]? with
  | none => rfl
  | some i => exact h.value i (List.mem_of_getElem? hk)

theorem erase (h : Refines t s st place) (k : Nat) :
    (s.handles.eraseIdx k).map (fun h => (some h.1, h.2)) =
      (st.handles.eraseIdx k).map fun h => (t.calls.handle h.1, place h.2) := by
  rw [← List.eraseIdx_map, ← List.eraseIdx_map, h.handles]

theorem count_eq (h : Refines t s st place) {i : Nat} (hi : i ∈ st.ids) :
    s.blocks.count (place i) = st.ids.count i := by
  rw [h.blocks_eq, List.count_eq_countP, List.countP_map, List.count_eq_countP]
  apply List.countP_congr
  intro j hj
  simp only [Function.comp_apply, beq_iff_eq]
  constructor
  · exact fun e => h.apart j hj i hi e
  · rintro rfl
    rfl

theorem start (t : PageKind) (cap : Nat) (place : Nat → Block) :
    Refines t (Session.start t.calls cap : Session t.Arena V) .start place where
  alive := rfl
  handles := rfl
  apart i hi := by cases hi
  value i hi := by cases hi
  dropped := rfl

theorem alloc (h : Refines t s st place) (hst : st.Sound) {arena : t.Arena} {kind : AllocKind}
    {x : HandleKind} {value : V} {block : Block} {counter : Block → Nat}
    (hx : t.calls.handle kind = some x) (hnew : block ∉ s.blocks) :
    Refines t
      { s with
        arena
        value := Function.update s.value block (some value)
        counter
        handles := (x, block) :: s.handles }
      (st.alloc kind value) (Function.update place st.values.length block) := by
  have hfresh : ∀ i ∈ st.ids, i ≠ st.values.length := by
    rintro i hi rfl
    exact Nat.lt_irrefl _ (hst.known _ hi)
  have hplace : ∀ i ∈ st.ids, Function.update place st.values.length block i = place i :=
    fun i hi => Function.update_of_ne (hfresh i hi) _ _
  have hother : ∀ i ∈ st.ids, place i ≠ block := by
    rintro i hi rfl
    apply hnew
    rw [h.blocks_eq]
    exact List.mem_map_of_mem hi
  have hvalues : ∀ i, i < st.values.length → (st.values ++ [value])[i]? = st.values[i]? :=
    fun i hi => List.getElem?_append_left hi
  refine ⟨h.alive, ?_, ?_, ?_, ?_⟩
  · show (some x, block) :: s.handles.map _ = (t.calls.handle kind, _) :: st.handles.map _
    rw [hx, Function.update_self, h.handles]
    congr 1
    apply List.map_congr_left
    intro y hy
    rw [hplace y.2 (List.mem_map_of_mem hy)]
  · intro i hi j hj e
    rcases List.mem_cons.mp hi with rfl | hi
    · rcases List.mem_cons.mp hj with rfl | hj
      · rfl
      · rw [Function.update_self, hplace j hj] at e
        exact absurd e.symm (hother j hj)
    · rcases List.mem_cons.mp hj with rfl | hj
      · rw [Function.update_self, hplace i hi] at e
        exact absurd e (hother i hi)
      · rw [hplace i hi, hplace j hj] at e
        exact h.apart i hi j hj e
  · intro i hi
    show Function.update s.value block (some value) _ = (st.values ++ [value])[i]?
    rcases List.mem_cons.mp hi with rfl | hi
    · rw [Function.update_self, Function.update_self]
      simp
    · rw [hplace i hi, Function.update_of_ne (hother i hi), hvalues i (hst.known i hi), h.value i hi]
  · show s.dropped = st.dropped.map fun i => (st.values ++ [value])[i]?
    rw [h.dropped]
    apply List.map_congr_left
    intro i hi
    rw [hvalues i ((hst.dropped i).mp hi).1]

theorem clone (h : Refines t s st place) {kind : AllocKind} {x : HandleKind} {i : Nat}
    {block : Block} {counter : Block → Nat} (hh : st.handles[k]? = some (kind, i))
    (hx : t.calls.handle kind = some x) (hplace : place i = block) :
    Refines t { s with counter, handles := (x, block) :: s.handles }
      { st with handles := (kind, i) :: st.handles } place := by
  have hmem : ∀ j ∈ i :: st.ids, j ∈ st.ids := by
    intro j hj
    rcases List.mem_cons.mp hj with rfl | hj
    · exact ValueStore.mem_ids hh
    · exact hj
  refine ⟨h.alive, ?_, fun j hj l hl => h.apart j (hmem j hj) l (hmem l hl),
    fun j hj => h.value j (hmem j hj), h.dropped⟩
  show (some x, block) :: s.handles.map _ = (t.calls.handle kind, place i) :: st.handles.map _
  rw [hx, hplace, h.handles]

theorem write (h : Refines t s st place) (hst : st.Sound) {kind : AllocKind} {i : Nat} {value : V}
    (hh : st.handles[k]? = some (kind, i)) :
    Refines t (s.write (place i) value) { st with values := st.values.set i value } place := by
  have hi := ValueStore.mem_ids hh
  refine ⟨h.alive, h.handles, h.apart, fun j hj => ?_, ?_⟩
  · show Function.update s.value (place i) (some value) (place j) = (st.values.set i value)[j]?
    by_cases e : j = i
    · rw [e, Function.update_self, List.getElem?_set_self (hst.known i hi)]
    · rw [Function.update_of_ne fun e' => e (h.apart j hj i hi e'),
        List.getElem?_set_ne fun e' => e e'.symm, h.value j hj]
  · show s.dropped = st.dropped.map fun j => (st.values.set i value)[j]?
    rw [h.dropped]
    apply List.map_congr_left
    intro j hj
    rw [List.getElem?_set_ne]
    rintro rfl
    exact ((hst.dropped i).mp hj).2 hi

theorem drop (h : Refines t s st place) {kind : AllocKind} {i : Nat} {arena : t.Arena}
    {counter : Block → Nat} {dropped : List (Option V)} (hh : st.handles[k]? = some (kind, i))
    (hdropped : dropped = if s.blocks.count (place i) = 1 then s.dropped ++ [s.value (place i)]
      else s.dropped) :
    Refines t { s with arena, counter, handles := s.handles.eraseIdx k, dropped } (st.drop k i)
      place := by
  have hperm := ValueStore.ids_perm hh
  have hi := ValueStore.mem_ids hh
  have hsub : ∀ j ∈ (st.handles.eraseIdx k).map Prod.snd, j ∈ st.ids :=
    fun j hj => hperm.mem_iff.mp (List.mem_cons_of_mem _ hj)
  have hlast : s.blocks.count (place i) = 1 ↔ i ∉ (st.handles.eraseIdx k).map Prod.snd := by
    rw [h.count_eq hi, ← hperm.count_eq, List.count_cons_self, ← List.count_eq_zero]
    omega
  refine ⟨h.alive, h.erase k, fun j hj l hl => h.apart j (hsub j hj) l (hsub l hl),
    fun j hj => h.value j (hsub j hj), ?_⟩
  show dropped = (if _ then _ else _ : List Nat).map _
  rw [hdropped, h.dropped, h.value i hi]
  by_cases hin : i ∈ (st.handles.eraseIdx k).map Prod.snd
  · rw [if_neg fun e => hlast.mp e hin, if_pos hin]
    rfl
  · rw [if_pos (hlast.mpr hin), if_neg hin, List.map_append]
    rfl

theorem moves (h : Refines t s st place) (hst : st.Sound) (hs : t.calls.Sound s b)
    (hm : t.calls.Moves s b act s' b') :
    ∃ st' place', st.step act = some st' ∧ Refines t s' st' place' := by
  cases hm with
  | @alloc kind x value n b₁ p i rest arena ha hh hf hfree hi hnew hk hsize =>
    have hnew' : (p, i) ∉ s.blocks := by
      rw [← hs.live, ← hf.live]
      exact hnew
    refine ⟨_, _, ?_, h.alloc hst hh hnew'⟩
    simp only [ValueStore.step, ← h.alive, ha, ite_true]
  | @clone k x block hh hc =>
    obtain ⟨kind, i, hh', hx, hplace⟩ := h.handle hh
    refine ⟨_, _, ?_, h.clone hh' hx hplace⟩
    simp only [ValueStore.step, hh', ← PageKind.cloneable_eq hx, hc, ite_true]
  | @write k x block value hh hc =>
    obtain ⟨kind, i, hh', hx, rfl⟩ := h.handle hh
    refine ⟨_, _, ?_, h.write hst hh'⟩
    simp only [ValueStore.step, hh', ← PageKind.cloneable_eq hx, hc, Bool.false_eq_true, ite_false]
  | @dropHandle k x block hh hmany =>
    obtain ⟨kind, i, hh', hx, rfl⟩ := h.handle hh
    refine ⟨_, _, ?_, h.drop hh' (if_neg (by omega)).symm⟩
    simp only [ValueStore.step, hh']
  | @dropBlock k x block arena hh hlast ha hk hsize =>
    obtain ⟨kind, i, hh', hx, rfl⟩ := h.handle hh
    refine ⟨_, _, ?_, h.drop hh' (if_pos hlast).symm⟩
    simp only [ValueStore.step, hh']
  | @dropLast k x block arena hh hlast ha hl hcall hsize =>
    obtain ⟨kind, i, hh', hx, rfl⟩ := h.handle hh
    refine ⟨_, _, ?_, h.drop hh' (if_pos hlast).symm⟩
    simp only [ValueStore.step, hh']
  | shrink ha hk hsize =>
    refine ⟨st, place, ?_, ⟨h.alive, h.handles, h.apart, h.value, h.dropped⟩⟩
    simp only [ValueStore.step, ← h.alive, ha, ite_true]
  | release ha hl hsize =>
    refine ⟨{ st with alive := false }, place, ?_, ⟨rfl, h.handles, h.apart, h.value, h.dropped⟩⟩
    simp only [ValueStore.step, ← h.alive, ha, ite_true]

/-- What the store offers and the pool has a function for is an operation of the session. -/
theorem offered (h : Refines t s st place) (hs : (st.step act).isSome)
    (hkind : ∀ kind value, act = .alloc kind value → (t.calls.handle kind).isSome) :
    s.Offered t.calls act := by
  have hhandle : ∀ (k : Nat) (kind : AllocKind) (i : Nat), st.handles[k]? = some (kind, i) →
      ∃ x : HandleKind, s.handles[k]? = some (x, place i) ∧ t.calls.handle kind = some x := by
    intro k kind i hh
    have e := congrArg (fun l => l[k]?) h.handles
    simp only [List.getElem?_map, hh, Option.map_some] at e
    cases hk : s.handles[k]? with
    | none =>
      rw [hk] at e
      cases e
    | some y =>
      rw [hk] at e
      obtain ⟨ekind, eblock⟩ := Prod.mk.inj (Option.some.inj e)
      refine ⟨y.1, ?_, ekind.symm⟩
      rw [← eblock]
  cases act with
  | alloc kind value =>
    simp only [ValueStore.step] at hs
    refine ⟨?_, Option.isSome_iff_exists.mp (hkind kind value rfl)⟩
    rw [h.alive]
    by_contra hne
    simp [hne] at hs
  | clone k =>
    simp only [ValueStore.step] at hs
    cases hk : st.handles[k]? with
    | none => simp [hk] at hs
    | some y =>
      obtain ⟨x, hx, hkind⟩ := hhandle k y.1 y.2 hk
      refine ⟨x, _, hx, ?_⟩
      rw [PageKind.cloneable_eq hkind]
      by_contra hne
      simp [hk, hne] at hs
  | write k value =>
    simp only [ValueStore.step] at hs
    cases hk : st.handles[k]? with
    | none => simp [hk] at hs
    | some y =>
      obtain ⟨x, hx, hkind⟩ := hhandle k y.1 y.2 hk
      refine ⟨x, _, hx, ?_⟩
      rw [PageKind.cloneable_eq hkind]
      by_contra hne
      simp [hk, hne] at hs
  | drop k =>
    simp only [ValueStore.step] at hs
    cases hk : st.handles[k]? with
    | none => simp [hk] at hs
    | some y =>
      obtain ⟨x, hx, -⟩ := hhandle k y.1 y.2 hk
      exact ⟨x, _, hx⟩
  | shrink | release =>
    simp only [ValueStore.step] at hs
    show s.alive = true
    rw [h.alive]
    by_contra hne
    simp [hne] at hs

theorem of_trace {cap : Nat} {acts : List (SessionAct V)}
    (h : (sessionMachine t.calls cap V).Trace Prod.snd s acts) :
    ∃ st, (ValueStore.machine V).Trace id st acts ∧ st.Sound ∧ ∃ place, Refines t s st place := by
  have hsim : ∃ st, (ValueStore.machine V).Trace id st acts ∧ st.Sound ∧
      ∃ place, Refines t s st place := by
    refine h.simulates (R := fun s st => st.Sound ∧ ∃ place, Refines t s st place) ?_ ?_
    · rintro s ⟨rfl, -⟩
      exact ⟨.start, rfl, .start, fun _ => (0, 0), start t cap _⟩
    · rintro s s' label st hr ⟨hst, place, hrel⟩ he
      obtain ⟨b, hs⟩ := Kind.Sound.of_reach t.lawful hr
      obtain ⟨b', hm, -⟩ := hs.step t.lawful he
      obtain ⟨st', place', hstep, hrel'⟩ := hrel.moves hst hs hm
      exact ⟨label.2, st', rfl, hstep, hst.step hstep, place', hrel'⟩
  exact hsim

end Refines

/-- Every session of a pool is a run of the store: its handles are at the values of the
store, on pages that exist and in a block for each value, and the values that were dropped
are those that the store dropped, each of them once and when its last handle was. An
operation that the store offers returns. -/
theorem refines_value_store {cap : Nat} {s : Session t.Arena V} {acts : List (SessionAct V)}
    (h : (sessionMachine t.calls cap V).Trace Prod.snd s acts) :
    ∃ st, (ValueStore.machine V).Trace id st acts ∧
      s.panicked = false ∧
      s.handles.map (fun h => some h.1) = st.handles.map (fun h => t.calls.handle h.1) ∧
      (∀ k < s.handles.length, ∃ value, s.deref k = some value ∧ st.deref k = some value) ∧
      (∀ x ∈ s.blocks, x.1 < (t.calls.view s.arena).size ∧
        x.1 ∉ (t.calls.view s.arena).freed.map Freed.page) ∧
      (∀ k < s.handles.length, ∀ l < s.handles.length,
        s.blocks[k]? = s.blocks[l]? ↔ st.ids[k]? = st.ids[l]?) ∧
      s.dropped = st.dropped.map (fun i => st.values[i]?) ∧
      st.dropped.Nodup ∧ (∀ i, i ∈ st.dropped ↔ i < st.values.length ∧ i ∉ st.ids) ∧
      ∀ act, (st.step act).isSome →
        (∀ kind value, act = .alloc kind value → (t.calls.handle kind).isSome) →
        ∃ n s', ∀ fuel, n ≤ fuel → s.exec t.calls fuel act = some s' := by
  obtain ⟨st, htrace, hst, place, hrel⟩ := Refines.of_trace h
  obtain ⟨b, hs⟩ := Kind.Sound.of_reach t.lawful h.reach
  have hlen : st.ids.length = s.handles.length := by
    have e := congrArg List.length hrel.handles
    rw [List.length_map, List.length_map] at e
    rw [e]
    exact List.length_map _
  refine ⟨st, htrace, hs.panicked, ?_, fun k hk => ?_, fun x hx => hs.page_kept hx,
    fun k hk l hl => ?_, hrel.dropped, hst.once, hst.dropped, fun act hact hkind => ?_⟩
  · have e := congrArg (List.map Prod.fst) hrel.handles
    rw [List.map_map, List.map_map] at e
    exact e
  · have hk' : k < st.ids.length := by rw [hlen]; exact hk
    have hi := hst.known st.ids[k] (List.getElem_mem hk')
    have hderef : st.deref k = some st.values[st.ids[k]] := by
      unfold ValueStore.deref
      rw [List.getElem?_eq_getElem hk', Option.bind_some, List.getElem?_eq_getElem hi]
    exact ⟨_, (hrel.deref_eq k).trans hderef, hderef⟩
  · have hk' : k < st.ids.length := by rw [hlen]; exact hk
    have hl' : l < st.ids.length := by rw [hlen]; exact hl
    rw [hrel.blocks_eq, List.getElem?_map, List.getElem?_map, List.getElem?_eq_getElem hk',
      List.getElem?_eq_getElem hl', Option.map_some, Option.map_some, Option.some.injEq,
      Option.some.injEq]
    constructor
    · exact fun e => hrel.apart _ (List.getElem_mem hk') _ (List.getElem_mem hl') e
    · exact fun e => congrArg place e
  · obtain ⟨s', -, -, hy⟩ := hs.moves t.lawful (hrel.offered hact hkind)
    obtain ⟨n, hn⟩ := hy.enough
    exact ⟨n, s', hn⟩

/-- A clone and a value that is written, and handles that outlive the arena. -/
theorem refines_value_store_outlived : ∃ (s : Session SharedArena Nat) (st : ValueStore Nat),
    (ValueStore.machine Nat).Trace id st [.alloc .allocRc 5, .clone 0, .alloc .alloc 6, .write 0 7,
      .release, .drop 1, .drop 0, .drop 0] ∧
      s.dropped = st.dropped.map (fun i => st.values[i]?) ∧ s.dropped = [some 7, some 5] := by
  have hrun : ((sessionMachine SharedArena.kind 1 Nat).run (.start SharedArena.kind 1)
      [(9, .alloc .allocRc 5), (9, .clone 0), (9, .alloc .alloc 6), (9, .write 0 7), (9, .release),
        (9, .drop 1), (9, .drop 0), (9, .drop 0)]).any
      (fun s => s.dropped = [some 7, some 5]) = true := by decide +kernel
  have hinit : (sessionMachine SharedArena.kind 1 Nat).init (.start SharedArena.kind 1) :=
    ⟨rfl, by decide +kernel⟩
  obtain ⟨s, h, hdropped⟩ := Machine.Trace.exists_of_run (f := Prod.snd) hinit hrun
  obtain ⟨st, htrace, -, -, -, -, -, hvalues, -⟩ := refines_value_store (t := .sharedArena) h
  exact ⟨s, st, htrace, hvalues, of_decide_eq_true hdropped⟩

end

end MemoryPools
