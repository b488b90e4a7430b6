import MemoryPools.Placing

/-!
# Destructors that panic

`drop_block` calls `drop_in_place` before it gives the bit of the block back. When the
destructor panics the call unwinds there: the counter is already zero, and the bit stays
clear for good.
-/

namespace MemoryPools

open Interleave

/-! ## Blocks that can be handed out again -/

def Kind.Roomy {σ : Type} (K : Kind σ) (a : σ) : Prop :=
  pageBytes * ((K.view a).size - (K.view a).freed.length) ≤ 2 ^ 64

/-- Further calls of `find_place` come to return the block. -/
inductive Kind.Hands {σ : Type} (K : Kind σ) : σ → Block → Prop
  | now {a a' : σ} {x : Block} : Completes K.findPlace a a' x → Hands K a x
  | later {a a' : σ} {x y : Block} : Completes K.findPlace a a' y → K.Roomy a' → Hands K a' x →
    Hands K a x

namespace Kind.Alive

variable {σ : Type} {K : Kind σ} {a : σ} {b : Book}

theorem not_hands (hK : K.Lawful) (h : K.Alive a b) (hroom : K.Roomy a) {x : Block}
    (hx : x ∈ b.live) : ¬ K.Hands a x := by
  intro hh
  induction hh generalizing b with
  | now hcall =>
    obtain ⟨n, b', p, i, -, a', hf, -, -, hnew, hcall', -, -⟩ :=
      hK.findPlace h (h.length_listed_le hroom)
    obtain ⟨-, rfl⟩ := hcall.unique hcall'
    rw [hf.live] at hnew
    exact hnew hx
  | later hcall hroom' hh ih =>
    obtain ⟨n, b', p, i, -, a', hf, -, -, -, hcall', hk, -⟩ :=
      hK.findPlace h (h.length_listed_le hroom)
    obtain ⟨rfl, rfl⟩ := hcall.unique hcall'
    apply ih hk hroom'
    rw [Book.live_take, hf.live]
    exact List.mem_cons_of_mem _ hx

/-- A free block of a listed page is. Until then the pool does not grow. -/
theorem hands (hK : K.Lawful) (h : K.Alive a b) (hroom : K.Roomy a) {p : Addr} {i : Nat}
    (hp : p ∈ b.listed) (hi : i < 63) (hx : (p, i) ∉ b.live) : K.Hands a (p, i) := by
  generalize hn : 63 * b.listed.length - b.live.length = n
  induction n using Nat.strongRecOn generalizing a b with
  | ind n ih =>
    obtain ⟨m, b', q, j, rest, a', hf, hfree, hj, hnew, hcall, hk, hsize⟩ :=
      hK.findPlace h (h.length_listed_le hroom)
    have hsame : b'.listed = b.listed ∧ b'.parked.length ≤ b.parked.length := by
      have hall : b.live.length ≠ 63 * b.listed.length := by
        intro e
        have hfull := Book.full_iff.mp (h.tidy.length_live_eq_iff.mp e p hp) i hi
        exact hx hfull
      cases hf with
      | found => exact ⟨rfl, Nat.le_refl _⟩
      | pending hempty hne hparked =>
        refine ⟨rfl, ?_⟩
        rcases hparked with e | e <;> simp [e]
      | unpark hempty hpending => exact absurd (h.tidy.all_full hempty hpending) hall
      | grow hempty hpending => exact absurd (h.tidy.all_full hempty hpending) hall
    by_cases e : (q, j) = (p, i)
    · rw [← e]
      exact .now hcall
    · have hroom' : K.Roomy a' := by
        unfold Kind.Roomy at hroom ⊢
        rw [h.pages_eq] at hroom
        rw [hk.pages_eq]
        have hlisted : (b'.take (q, j)).listed.length = b.listed.length :=
          congrArg List.length hsame.1
        have hparked : (b'.take (q, j)).parked.length ≤ b.parked.length := hsame.2
        have hle : (b'.take (q, j)).listed.length + (b'.take (q, j)).parked.length ≤
          b.listed.length + b.parked.length := by omega
        exact Nat.le_trans (Nat.mul_le_mul_left _ hle) hroom
      have hle := hk.tidy.length_live_le
      have hlisted : (b'.take (q, j)).listed = b.listed := hsame.1
      have hlive : (b'.take (q, j)).live = (q, j) :: b.live := by rw [Book.live_take, hf.live]
      rw [hlisted, hlive, List.length_cons] at hle
      refine .later hcall hroom' (ih _ ?_ hk hroom' ?_ ?_ rfl)
      · rw [hlisted, hlive, List.length_cons]
        omega
      · rw [hlisted]
        exact hp
      · rw [hlive, List.mem_cons]
        rintro (e' | hm)
        · exact e e'.symm
        · exact hx hm

end Kind.Alive

/-! ## The call -/

structure Leaky (σ V : Type) where
  session : Session σ V
  leaked : List Block

namespace Session

variable {σ V : Type}

/-- The drop of a handle, where the destructor of the values of `panics` unwinds. The result
says whether it did. -/
def dropMay (panics : V → Bool) (K : Kind σ) (fuel : Nat) (s : Session σ V) (k : Nat)
    (handle : HandleKind) (block : Block) : Option (Session σ V × Bool) :=
  match bounded handle.drop .load fuel (s.counter block) with
  | (counter, .ret last) =>
    let s := { s with
      counter := Function.update s.counter block counter
      handles := s.handles.eraseIdx k }
    if last then
      -- `drop_in_place` unwinds, and the rest of `drop_block` is not run
      if (s.value block).any panics then
        some ({ s with dropped := s.dropped ++ [s.value block] }, true)
      else (s.dropBlock K fuel block).map (·, false)
    else some (s, false)
  | (_, .panic) => some ({ s with panicked := true }, false)
  | (_, .goto ()) => none

end Session

namespace Leaky

variable {σ V : Type}

def exec (panics : V → Bool) (K : Kind σ) (fuel : Nat) (st : Leaky σ V) :
    SessionAct V → Option (Leaky σ V)
  | .drop k =>
    match st.session.handles[k]? with
    | some (handle, block) =>
      (st.session.dropMay panics K fuel k handle block).map fun (session, unwound) =>
        { session, leaked := if unwound then block :: st.leaked else st.leaked }
    | none => none
  | act => (st.session.exec K fuel act).map ({ st with session := · })

def step (panics : V → Bool) (K : Kind σ) (st : Leaky σ V) (label : Nat × SessionAct V) :
    Option (Leaky σ V) :=
  if st.session.panicked then none
  else
    match st.exec panics K label.1 label.2 with
    | some st' => if st'.session.Fits K then some st' else none
    | none => none

def machine (panics : V → Bool) (K : Kind σ) (cap : Nat) : Machine (Leaky σ V) (Nat × SessionAct V) where
  init st := st = { session := Session.start K cap, leaked := [] } ∧ st.session.Fits K
  step := step panics K

end Leaky

/-! ## What a drop does -/

namespace Session

variable {σ V : Type} {panics : V → Bool} {K : Kind σ} {s : Session σ V} {k : Nat}
  {handle : HandleKind} {arena : σ} {x : Block}

theorem dropMay_many (hc : handle.cloneable = true) (hmany : 1 < s.counter x)
    (hlt : s.counter x < isizeMax) :
    Yields (fun fuel => s.dropMay panics K fuel k handle x)
      ({ s with
        counter := Function.update s.counter x (s.counter x - 1)
        handles := s.handles.eraseIdx k }, false) := by
  apply (HandleKind.drop_completes_of_many hc hmany hlt).yields
  · intro fuel c e
    simp only [dropMay, e]
  · intro fuel e
    simp only [dropMay, e, Bool.false_eq_true, ite_false]
    rfl
  · exact .now fun _ => rfl

theorem dropMay_last (hd : Completes (K.dropBlock s.alive x) s.arena arena ())
    (hone : s.counter x = 1) (hp : (s.value x).any panics = false) :
    Yields (fun fuel => s.dropMay panics K fuel k handle x)
      ({ s with
        arena
        counter := Function.update s.counter x 0
        handles := s.handles.eraseIdx k
        dropped := s.dropped ++ [s.value x] }, false) := by
  have hh := handle.drop_completes
  rw [← hone] at hh
  apply hh.yields
  · intro fuel c e
    simp only [dropMay, e]
  · intro fuel e
    simp only [dropMay, e, hp, ite_true, Bool.false_eq_true, ite_false]
    rfl
  · exact (dropBlock_yields (s := { s with
      counter := Function.update s.counter x 0, handles := s.handles.eraseIdx k }) hd).map (·, false)

theorem dropMay_unwinds (hone : s.counter x = 1) (hp : (s.value x).any panics = true) :
    Yields (fun fuel => s.dropMay panics K fuel k handle x)
      ({ s with
        counter := Function.update s.counter x 0
        handles := s.handles.eraseIdx k
        dropped := s.dropped ++ [s.value x] }, true) := by
  have hh := handle.drop_completes
  rw [← hone] at hh
  apply hh.yields
  · intro fuel c e
    simp only [dropMay, e]
  · intro fuel e
    simp only [dropMay, e, hp, ite_true]
    rfl
  · exact .now fun _ => rfl

end Session

/-! ## The blocks that stay in use -/

namespace Leaky

variable {σ V : Type} {panics : V → Bool} {K : Kind σ} {st st' : Leaky σ V} {b : Book}

theorem drop_owing (hK : K.Lawful) (h : K.Owing st.session st.leaked b) {k : Nat}
    {handle : HandleKind} {x : Block} (hh : st.session.handles[k]? = some (handle, x)) :
    ∃ s' unwound, Yields (fun fuel => st.session.dropMay panics K fuel k handle x) (s', unwound) ∧
      (s'.Fits K → ∃ b', K.Owing s' (if unwound then x :: st.leaked else st.leaked) b') := by
  have hpos : 0 < st.session.blocks.count x := List.count_pos_iff.mpr (Session.mem_blocks hh)
  by_cases hmany : 1 < st.session.blocks.count x
  · have hc := h.cloneable_of_many (List.mem_of_getElem? hh) hmany
    have hmany' : 1 < st.session.counter x := by
      rw [h.counter x]
      exact hmany
    exact ⟨_, false, Session.dropMay_many hc hmany' (h.counter_lt x),
      fun hf => ⟨b, h.of_moves (.dropHandle hh hmany) hf⟩⟩
  · have hone : st.session.blocks.count x = 1 := by omega
    have hone' := (h.counter x).trans hone
    cases hp : (st.session.value x).any panics with
    | true =>
      exact ⟨_, true, Session.dropMay_unwinds hone' hp, fun hf => ⟨b, h.owe hh hone hf⟩⟩
    | false =>
      obtain ⟨arena, b', hcall, hm, -⟩ := h.gives hK hh hone
      exact ⟨_, false, Session.dropMay_last hcall hone' hp, fun hf => ⟨b', h.of_moves hm hf⟩⟩

theorem step_owing (hK : K.Lawful) (h : K.Owing st.session st.leaked b)
    {label : Nat × SessionAct V} (hs : st.step panics K label = some st') :
    ∃ b', K.Owing st'.session st'.leaked b' := by
  obtain ⟨fuel, act⟩ := label
  simp only [step, h.panicked, Bool.false_eq_true, ite_false] at hs
  cases he : st.exec panics K fuel act with
  | none => simp [he] at hs
  | some st₁ =>
    by_cases hf : st₁.session.Fits K
    · simp only [he, hf, ite_true] at hs
      obtain rfl := Option.some.inj hs
      cases act with
      | drop k =>
        cases hh : st.session.handles[k]? with
        | none => simp [exec, hh] at he
        | some x =>
          obtain ⟨s', unwound, hy, howing⟩ := @drop_owing _ _ panics _ _ _ hK h _ _ _ hh
          simp only [exec, hh] at he
          obtain ⟨r, hr, rfl⟩ := Option.map_eq_some_iff.mp he
          obtain rfl := hy.eq_of_some hr
          exact howing hf
      | alloc | clone | write | shrink | release =>
        obtain ⟨s', hexec, rfl⟩ := Option.map_eq_some_iff.mp he
        obtain ⟨s₁, b', hm, hy⟩ := h.moves hK (Session.offered_of_exec hexec)
        obtain rfl := hy.eq_of_some hexec
        exact ⟨b', h.of_moves hm hf⟩
    · simp [he, hf] at hs

theorem of_reach (hK : K.Lawful) {cap : Nat} (h : (machine panics K cap).Reach Machine.always st) :
    ∃ b, K.Owing st.session st.leaked b := by
  apply h.invariant
  · rintro st ⟨rfl, hf⟩
    obtain ⟨pages, hs, -⟩ := Kind.Sound.start hK hf
    exact ⟨_, hs.owing⟩
  · rintro st label st' - ⟨b, hs⟩ - he
    exact step_owing hK hs he

end Leaky

/-! ## Blocks that are free again -/

section
variable {t : PageKind} {V : Type} {s : Session t.Arena V} {owed : List Block} {b : Book} {p : Addr}
  {i : Nat}

/-- The bit of the block is set, unless its page was deallocated, and the pool comes to hand
the block out. -/
def FreeAgain (t : PageKind) (arena : t.Arena) (alive : Bool) (p : Addr) (i : Nat) : Prop :=
  (p ∉ (t.calls.view arena).freed.map Freed.page → (t.word arena p).getLsbD i = true) ∧
    (alive = true → t.calls.Hands arena (p, i))

theorem Kind.Owing.roomy (h : t.calls.Owing s owed b) : t.calls.Roomy s.arena := by
  have hf : _ ≤ _ := h.fits
  unfold Session.pages at hf
  unfold Kind.Roomy
  omega

/-- The block of a destructor that panicked. -/
theorem Kind.Owing.not_freeAgain (h : t.calls.Owing s owed b) (hx : (p, i) ∈ b.live) :
    ¬ FreeAgain t s.arena s.alive p i := by
  intro hfree
  by_cases ha : s.alive = true
  · exact (h.alive ha).not_hands t.lawful h.roomy hx (hfree.2 ha)
  · -- only the bit is left to tell
    have hbit := hfree.1 (h.page_kept hx).2
    have hheld := ((h.gone (by simpa using ha)).held p ⟨i, hx⟩ i).mpr hx
    rw [t.held_iff, hbit] at hheld
    cases hheld.2

theorem Kind.Owing.freeAgain (h : t.calls.Owing s owed b) {k : Nat} {handle : HandleKind}
    (hh : s.handles[k]? = some (handle, (p, i))) (hone : s.blocks.count (p, i) = 1) :
    ∃ arena, Completes (t.calls.dropBlock s.alive (p, i)) s.arena arena () ∧
      FreeAgain t arena s.alive p i := by
  have hx : (p, i) ∈ b.live := (h.live _).mpr (Or.inl (Session.mem_blocks hh))
  obtain ⟨arena, b', hcall, hm, hlive, hlisted, hparked, hsize, hgone⟩ := h.gives t.lawful hh hone
  have hnot : (p, i) ∉ b'.live := by
    rw [hlive]
    exact h.nodup.not_mem_erase
  refine ⟨arena, hcall, ?_⟩
  by_cases ha : s.alive = true
  · have hk' : t.calls.Alive arena b' := h.alive_of_moves hm ha
    have hk := h.alive ha
    obtain ⟨hhome, hi⟩ := hk.tidy.home p i hx
    rw [← hlisted] at hhome
    have hkept := (hk'.shows.kept p).mp (List.mem_append_left _ hhome)
    refine ⟨fun _ => (hk'.bit_iff hkept.1 hkept.2 hi).mpr hnot, fun _ => ?_⟩
    have hroom : t.calls.Roomy arena := by
      have hroom := h.roomy
      unfold Kind.Roomy at hroom ⊢
      rw [hk.pages_eq] at hroom
      rw [hk'.pages_eq, hlisted, hparked]
      exact hroom
    exact hk'.hands t.lawful hroom hhome hi hnot
  · have ha : s.alive = false := by simpa using ha
    have hl' := hgone ha
    have hi := (h.gone ha).lt p i hx
    refine ⟨fun hkept => ?_, fun hg => ?_⟩
    · by_contra hclear
      -- another block of the page is in use: the page is read through the book
      by_cases hother : ∃ j, (p, j) ∈ b'.live
      · apply hnot
        rw [← hl'.held p hother i, t.held_iff]
        exact ⟨hi, by simpa using hclear⟩
      · have hlt := (h.page_kept hx).1
        rw [← hsize] at hlt
        exact hother ((hl'.kept p).mpr ⟨hlt, hkept⟩)
    · rw [ha] at hg
      cases hg

end

/-- Once the last handle of a value was dropped its counter is zero, and its block is free
again exactly if the destructor did not panic. When the pool and all handles are gone, the
pages without such a destructor were deallocated, and no others. -/
theorem panicking_destructor {t : PageKind} {V : Type} {cap : Nat} {panics : V → Bool}
    {st : Leaky t.Arena V} (h : (Leaky.machine panics t.calls cap).Reach Machine.always st) :
    (∀ k handle p i, st.session.handles[k]? = some (handle, (p, i)) →
      st.session.blocks.count (p, i) = 1 →
      ∃ s' unwound, Yields (fun fuel => st.session.dropMay panics t.calls fuel k handle (p, i))
          (s', unwound) ∧
        s'.counter (p, i) = 0 ∧ (unwound = true ↔ (st.session.value (p, i)).any panics = true) ∧
        (FreeAgain t s'.arena s'.alive p i ↔ (st.session.value (p, i)).any panics = false)) ∧
    (st.session.alive = false → st.session.handles = [] →
      ∀ p < (t.calls.view st.session.arena).size,
        p ∈ (t.calls.view st.session.arena).freed.map Freed.page ↔ ∀ i, (p, i) ∉ st.leaked) := by
  obtain ⟨b, hs⟩ := Leaky.of_reach t.lawful h
  refine ⟨fun k handle p i hh hone => ?_, fun hg hnil p hp => ?_⟩
  · have hone' := (hs.counter (p, i)).trans hone
    cases hpanics : (st.session.value (p, i)).any panics with
    | true =>
      have hx : (p, i) ∈ b.live := (hs.live _).mpr (Or.inl (Session.mem_blocks hh))
      refine ⟨_, true, Session.dropMay_unwinds hone' hpanics, Function.update_self .., by simp, ?_⟩
      simp only [Bool.true_eq_false, iff_false]
      exact hs.not_freeAgain hx
    | false =>
      obtain ⟨arena, hcall, hfree⟩ := hs.freeAgain hh hone
      refine ⟨_, false, Session.dropMay_last hcall hone' hpanics, Function.update_self .., by simp, ?_⟩
      simp only [iff_true]
      exact hfree
  · have hblocks : st.session.blocks = [] := by
      unfold Session.blocks
      rw [hnil, List.map_nil]
    have hlive : ∀ i, (p, i) ∈ b.live ↔ (p, i) ∈ st.leaked := by
      intro i
      rw [hs.live, hblocks]
      simp
    have hkept := (hs.gone hg).kept p
    simp only [hlive, hp, true_and] at hkept
    rw [← not_iff_not, ← hkept]
    simp

/-- The destructors of the values of a page that panic and that do not. -/
theorem panicking_destructor_mixed : ∃ st : Leaky SharedArena Nat,
    st.session.alive = false ∧ st.session.handles = [] ∧ st.leaked = [(0, 1)] ∧
      0 ∉ ((SharedArena.kind.view st.session.arena).freed.map Freed.page) := by
  have hrun : ((Leaky.machine (· = 6) SharedArena.kind 1).run
      { session := .start SharedArena.kind 1, leaked := [] }
      [(9, .alloc .alloc 5), (9, .alloc .allocRc 6), (9, .drop 0), (9, .drop 0), (9, .release)]).any
      (fun st => st.session.alive = false ∧ st.session.handles = [] ∧ st.leaked = [(0, 1)] ∧
        st.session.arena.heap.size = 1) = true := by decide +kernel
  have hinit : (Leaky.machine (· = 6) SharedArena.kind 1).init
      { session := .start SharedArena.kind 1, leaked := [] } := ⟨rfl, by decide +kernel⟩
  obtain ⟨st, h, hend⟩ := Machine.Trace.exists_of_run (f := Prod.snd) hinit hrun
  obtain ⟨hg, hnil, hleaked, hsize⟩ := of_decide_eq_true hend
  have hiff := (panicking_destructor (t := .sharedArena) h.reach).2 hg hnil 0 (by
    show 0 < st.session.arena.heap.size
    omega)
  refine ⟨st, hg, hnil, hleaked, fun hm => ?_⟩
  have := hiff.mp hm 1
  rw [hleaked] at this
  exact this (by simp)

/-- One value whose destructor panics, and then the pool is dropped: the counter of the block
is zero, its bit is clear, and the page stays allocated. -/
theorem panicking_destructor_leaks : ∃ st : Leaky Pool Nat,
    (Leaky.machine (· = 6) Pool.kind 1).Reach Machine.always st ∧
      st.session.alive = false ∧ st.session.handles = [] ∧ st.session.dropped = [some 6] ∧
      st.session.counter (0, 0) = 0 ∧ (st.session.arena.word 0).getLsbD 0 = false ∧
      (Pool.kind.view st.session.arena).freed = [] := by
  have hrun : ((Leaky.machine (· = 6) Pool.kind 1).run
      { session := .start Pool.kind 1, leaked := [] }
      [(9, .alloc .alloc 6), (9, .drop 0), (9, .release)]).any
      (fun st => st.session.alive = false ∧ st.session.handles = [] ∧
        st.session.dropped = [some 6] ∧ st.session.counter (0, 0) = 0 ∧
        (st.session.arena.word 0).getLsbD 0 = false ∧
        (Pool.kind.view st.session.arena).freed = []) = true := by decide +kernel
  have hinit : (Leaky.machine (· = 6) Pool.kind 1).init
      { session := .start Pool.kind 1, leaked := [] } := ⟨rfl, by decide +kernel⟩
  obtain ⟨st, h, hend⟩ := Machine.Trace.exists_of_run (f := Prod.snd) hinit hrun
  exact ⟨st, h.reach, of_decide_eq_true hend⟩

end MemoryPools
