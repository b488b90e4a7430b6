import MemoryPools.Placing
import MemoryPools.Interleave.Trace

/-!
# Destructors that use their pool

`drop_block` calls the destructor in its middle, and the destructor may drop other
handles, allocate, or drop the pool itself. The same operations are compared with a
program that does the inner ones first and then drops a value whose destructor does
nothing.
-/

namespace MemoryPools

open Interleave

/-- A program inside of calls of `drop_block`, the innermost first. -/
structure Nested (σ V : Type) where
  session : Session σ V
  outer : List (HandleKind × Block)

/-- `enter` drops a handle; if it was the last one, the destructor of its value runs up to
`leave`. An `act` has no destructor to run. -/
inductive NestedAct (V : Type)
  | act (act : SessionAct V)
  | enter (k : Nat)
  | leave
  deriving DecidableEq

namespace Nested

variable {σ V : Type}

def owed (n : Nested σ V) : List Block := n.outer.map Prod.snd

def Fits (K : Kind σ) (n : Nested σ V) : Prop :=
  pageBytes * n.session.pages K + handleBytes * (n.session.handles.length + n.outer.length) ≤ 2 ^ 64

instance (K : Kind σ) (n : Nested σ V) : Decidable (n.Fits K) := Nat.decLe _ _

def start (K : Kind σ) (cap : Nat) : Nested σ V where
  session := .start K cap
  outer := []

def exec (K : Kind σ) (fuel : Nat) (n : Nested σ V) : NestedAct V → Option (Nested σ V)
  | .act act => (n.session.exec K fuel act).map ({ n with session := · })
  | .enter k =>
    match n.session.handles[k]? with
    | some (handle, block) =>
      match bounded handle.drop .load fuel (n.session.counter block) with
      | (counter, .ret last) =>
        let session := { n.session with
          counter := Function.update n.session.counter block counter
          handles := n.session.handles.eraseIdx k }
        -- `Block::drop_block` was called and the destructor starts
        if last then some { session, outer := (handle, block) :: n.outer }
        else some { n with session }
      | (_, .panic) => some { n with session := { n.session with panicked := true } }
      | (_, .goto ()) => none
    | none => none
  | .leave =>
    match n.outer with
    | (_, block) :: outer => (n.session.dropBlock K fuel block).map ({ session := ·, outer })
    | [] => none

/-- The inner operations first: a last handle is put aside, and dropped after them. -/
def execFirst (K : Kind σ) (fuel : Nat) (n : Nested σ V) : NestedAct V → Option (Nested σ V)
  | .act act => (n.session.exec K fuel act).map ({ n with session := · })
  | .enter k =>
    match n.session.handles[k]? with
    | some (handle, block) =>
      if n.session.counter block = 1 then
        some {
          session := { n.session with handles := n.session.handles.eraseIdx k }
          outer := (handle, block) :: n.outer }
      else (n.session.drop K fuel k handle block).map ({ n with session := · })
    | none => none
  | .leave =>
    match n.outer with
    | (handle, block) :: outer =>
      let session := { n.session with handles := (handle, block) :: n.session.handles }
      (session.drop K fuel 0 handle block).map ({ session := ·, outer })
    | [] => none

def step (exec : Kind σ → Nat → Nested σ V → NestedAct V → Option (Nested σ V)) (K : Kind σ)
    (n : Nested σ V) (label : Nat × NestedAct V) : Option (Nested σ V) :=
  if n.session.panicked then none
  else
    match exec K label.1 n label.2 with
    | some n' => if n'.Fits K then some n' else none
    | none => none

def machine (K : Kind σ) (cap : Nat) (V : Type) : Machine (Nested σ V) (Nat × NestedAct V) where
  init n := n = .start K cap ∧ n.Fits K
  step := step exec K

def machineFirst (K : Kind σ) (cap : Nat) (V : Type) :
    Machine (Nested σ V) (Nat × NestedAct V) where
  init n := n = .start K cap ∧ n.Fits K
  step := step execFirst K

def Offered (K : Kind σ) (n : Nested σ V) : NestedAct V → Prop
  | .act act => n.session.Offered K act
  | .enter k => ∃ handle block, n.session.handles[k]? = some (handle, block)
  | .leave => n.outer ≠ []

end Nested

/-! ## Counters of blocks that are put aside -/

namespace Session

variable {σ V : Type} {K : Kind σ} {s : Session σ V} {owed : List Block} {b : Book}

def lift (owed : List Block) (s : Session σ V) : Session σ V :=
  { s with counter := fun x => s.counter x + owed.count x }

theorem counter_lift {x : Block} (hx : x ∉ owed) : (s.lift owed).counter x = s.counter x := by
  simp [lift, List.count_eq_zero.mpr hx]

theorem lift_write {x : Block} (hx : x ∉ owed) (n : Nat) (handles : List (HandleKind × Block)) :
    { s.lift owed with counter := Function.update (s.lift owed).counter x n, handles } =
      lift owed { s with counter := Function.update s.counter x n, handles } := by
  have hcounter : Function.update (s.lift owed).counter x n =
      fun y => Function.update s.counter x n y + owed.count y := by
    funext y
    by_cases e : y = x
    · subst e
      simp [List.count_eq_zero.mpr hx]
    · simp [lift, e]
  rw [hcounter]
  rfl

/-- A last handle that is put aside instead of being dropped. -/
theorem lift_aside {x : Block} (hx : x ∉ owed) (hone : s.counter x = 1)
    (handles : List (HandleKind × Block)) :
    { s.lift owed with handles } =
      lift (x :: owed) { s with counter := Function.update s.counter x 0, handles } := by
  have hcounter : (fun y => s.counter y + owed.count y) =
      fun y => Function.update s.counter x 0 y + (x :: owed).count y := by
    funext y
    by_cases e : y = x
    · subst e
      simp [hone, List.count_eq_zero.mpr hx]
    · simp [e, Ne.symm e]
  simp only [lift, hcounter]

/-- A handle that was put aside is dropped. -/
theorem lift_settled {x : Block} (hx : x ∉ owed) (hzero : s.counter x = 0) (arena : σ)
    (dropped : List (Option V)) :
    { s.lift (x :: owed) with
      arena, dropped, counter := Function.update (s.lift (x :: owed)).counter x 0 } =
      lift owed { s with arena, dropped } := by
  have hcounter : Function.update (s.lift (x :: owed)).counter x 0 =
      fun y => s.counter y + owed.count y := by
    funext y
    by_cases e : y = x
    · subst e
      simp [hzero, List.count_eq_zero.mpr hx]
    · simp [lift, e, Ne.symm e]
  rw [hcounter]
  rfl

theorem dropBlock_lift (fuel : Nat) (x : Block) :
    (s.lift owed).dropBlock K fuel x = (s.dropBlock K fuel x).map (lift owed) := by
  simp only [dropBlock, lift]
  split <;> rfl

theorem drop_lift {x : Block} (hx : x ∉ owed) (fuel k : Nat) (handle : HandleKind) :
    (s.lift owed).drop K fuel k handle x = (s.drop K fuel k handle x).map (lift owed) := by
  simp only [drop, counter_lift hx]
  rcases bounded handle.drop .load fuel (s.counter x) with ⟨counter, control⟩
  cases control with
  | goto | panic => rfl
  | ret last =>
    have e := lift_write (s := s) hx counter (s.handles.eraseIdx k)
    cases last with
    | false => exact congrArg some e
    | true =>
      refine Eq.trans ?_ (dropBlock_lift fuel x)
      exact congrArg (fun s : Session σ V => s.dropBlock K fuel x) e

theorem alloc_lift {handle : HandleKind} {value : V} (fuel : Nat)
    (hx : ∀ arena x, K.findPlace fuel s.arena = (arena, .ret x) → x ∉ owed) :
    (s.lift owed).alloc K fuel handle value = (s.alloc K fuel handle value).map (lift owed) := by
  have harena : (s.lift owed).arena = s.arena := rfl
  simp only [alloc, harena]
  cases hf : K.findPlace fuel s.arena with
  | mk arena control =>
    cases control with
    | goto | panic => rfl
    | ret x =>
      have hx := hx arena x hf
      simp only [counter_lift hx]
      rcases bounded handle.new .load fuel (s.counter x) with ⟨counter, control⟩
      cases control with
      | goto | panic => rfl
      | ret =>
        have e := lift_write (s := { s with
          arena, value := Function.update s.value x (some value) }) hx counter
          ((handle, x) :: s.handles)
        exact congrArg some e

theorem clone_lift {x : Block} (hx : x ∉ owed) (handle : HandleKind) :
    (s.lift owed).clone handle x = lift owed (s.clone handle x) := by
  simp only [clone, counter_lift hx]
  rcases handle.clone (s.counter x) with ⟨counter, kept⟩
  cases kept with
  | false =>
    have e := lift_write (s := s) hx counter s.handles
    exact congrArg (fun s : Session σ V => { s with panicked := true }) e
  | true => exact lift_write (s := s) hx counter ((handle, x) :: s.handles)

theorem exec_lift (hK : K.Lawful) (h : K.Owing s owed b) (fuel : Nat) (act : SessionAct V) :
    (s.lift owed).exec K fuel act = (s.exec K fuel act).map (lift owed) := by
  have hout : ∀ {k handle x}, s.handles[k]? = some (handle, x) → x ∉ owed :=
    fun hh hm => h.apart _ hm (mem_blocks hh)
  have hhandles : (s.lift owed).handles = s.handles := rfl
  have halive : (s.lift owed).alive = s.alive := rfl
  cases act with
  | alloc kind value =>
    simp only [exec, halive]
    cases hh : K.handle kind with
    | none => rfl
    | some handle =>
      by_cases ha : s.alive = true
      · simp only [ha, ite_true]
        apply alloc_lift
        intro arena x hf hm
        obtain ⟨n, b', p, i, rest, arena', hfetch, -, -, hnew, hcall, -⟩ :=
          hK.findPlace (h.alive ha) (h.length_listed_le ha)
        rcases hcall.cases fuel with e | e
        · rw [hf] at e
          cases e
        · rw [hf] at e
          obtain ⟨-, e⟩ := Prod.mk.inj e
          obtain rfl := Control.ret.inj e
          apply hnew
          rw [hfetch.live]
          exact (h.live _).mpr (Or.inr hm)
      · simp [ha]
  | clone k =>
    simp only [exec, hhandles]
    cases hh : s.handles[k]? with
    | none => rfl
    | some x =>
      by_cases hc : x.1.cloneable = true
      · simp only [hc, ite_true, clone_lift (hout hh)]
        rfl
      · simp [hc]
  | write k value =>
    simp only [exec, hhandles]
    cases hh : s.handles[k]? with
    | none => rfl
    | some x =>
      by_cases hc : x.1.cloneable = true
      · simp [hc]
      · simp only [hc, Bool.false_eq_true, ite_false]
        rfl
  | drop k =>
    simp only [exec, hhandles]
    cases hh : s.handles[k]? with
    | none => rfl
    | some x => exact drop_lift (hout hh) fuel k x.1
  | shrink =>
    simp only [exec, shrink, lift]
    by_cases ha : s.alive = true
    · simp only [ha, ite_true]
      split <;> rfl
    · simp [ha]
  | release =>
    simp only [exec, release, lift]
    by_cases ha : s.alive = true
    · simp only [ha, ite_true]
      split <;> rfl
    · simp [ha]

end Session

/-! ## One operation -/

namespace Kind.Owing

variable {σ V : Type} {K : Kind σ} {s : Session σ V} {owed : List Block} {b : Book} {x : Block}

/-- The rest of `drop_block`, with what its destructor left of the pool. -/
theorem settle (hK : K.Lawful) (h : K.Owing s (x :: owed) b) (hx : x ∉ owed) :
    ∃ arena b', Completes (K.dropBlock s.alive x) s.arena arena () ∧
      ∀ dropped : List (Option V), { s with arena, dropped }.Fits K →
        K.Owing { s with arena, dropped } owed b' := by
  have hlive : x ∈ b.live := (h.live x).mpr (Or.inr List.mem_cons_self)
  have hout : x ∉ s.blocks := h.apart x List.mem_cons_self
  have hmem : ∀ y, y ∈ b.live.erase x ↔ y ∈ s.blocks ∨ y ∈ owed := by
    intro y
    rw [h.nodup.mem_erase_iff, h.live y, List.mem_cons]
    constructor
    · intro ⟨hne, hy⟩
      tauto
    · intro hy
      refine ⟨fun e => ?_, by tauto⟩
      subst e
      tauto
  have hapart : ∀ y ∈ owed, y ∉ s.blocks := fun y hy => h.apart y (List.mem_cons_of_mem _ hy)
  by_cases ha : s.alive = true
  · obtain ⟨arena, hcall, hk, -⟩ := hK.dropBlock (h.alive ha) hlive
    rw [← ha] at hcall
    refine ⟨arena, b.give K.onFree x, hcall, fun dropped hf => ?_⟩
    refine ⟨fun _ => hk, fun hg => ?_, fun y => ?_, hapart, h.counter, h.same, h.single, h.panicked, hf⟩
    · have hg : s.alive = false := hg
      rw [ha] at hg
      cases hg
    · rw [Book.live_give]
      exact hmem y
  · have hg : s.alive = false := by simpa using ha
    obtain ⟨arena, hcall, hl, -⟩ := hK.dropLast (h.gone hg) hlive
    rw [← hg] at hcall
    refine ⟨arena, { b with live := b.live.erase x }, hcall, fun dropped hf => ?_⟩
    exact ⟨fun ha' => absurd ha' ha, fun _ => hl, hmem, hapart, h.counter, h.same, h.single,
      h.panicked, hf⟩

end Kind.Owing

namespace Nested

variable {σ V : Type} {K : Kind σ} {n n' m m' : Nested σ V} {a : NestedAct V}

structure Matches (K : Kind σ) (n m : Nested σ V) : Prop where
  outer : m.outer = n.outer
  session : m.session = n.session.lift n.owed
  owing : ∃ b, K.Owing n.session n.owed b
  nodup : n.owed.Nodup
  fits : n.Fits K

theorem Matches.fits_iff (ho : m.outer = n.outer) (hs : m.session = n.session.lift n.owed) :
    m.Fits K ↔ n.Fits K := by
  unfold Fits
  rw [ho, hs]
  exact Iff.rfl

theorem fits_session (h : n.Fits K) : n.session.Fits K := by
  unfold Fits at h
  unfold Session.Fits
  have := Nat.mul_le_mul_left handleBytes (Nat.le_add_right n.session.handles.length n.outer.length)
  omega

theorem Matches.moves (hK : K.Lawful) (h : Matches K n m) (ho : n.Offered K a) :
    ∃ n' m', Yields (fun fuel => n.exec K fuel a) n' ∧ Yields (fun fuel => m.execFirst K fuel a) m' ∧
      m'.outer = n'.outer ∧ m'.session = n'.session.lift n'.owed ∧ n'.owed.Nodup ∧
      (n'.session.Fits K → ∃ b, K.Owing n'.session n'.owed b) := by
  obtain ⟨m, outer⟩ := m
  obtain ⟨hout, hsession, ⟨b, hb⟩, hnodup, -⟩ := h
  obtain rfl := hout
  obtain rfl := hsession
  cases a with
  | act act =>
    obtain ⟨s', b', hm, hy⟩ := hb.moves hK ho
    refine ⟨{ n with session := s' }, { session := s'.lift n.owed, outer := n.outer }, hy.map _, ?_,
      rfl, rfl, hnodup, fun hf => ⟨b', hb.of_moves hm hf⟩⟩
    simp only [execFirst, Session.exec_lift hK hb]
    exact (hy.map (Session.lift n.owed)).map _
  | enter k =>
    obtain ⟨handle, x, hh⟩ := ho
    have hx : x ∉ n.owed := fun hm => hb.apart x hm (Session.mem_blocks hh)
    have hh' : (n.session.lift n.owed).handles[k]? = some (handle, x) := hh
    have hpos : 0 < n.session.blocks.count x := List.count_pos_iff.mpr (Session.mem_blocks hh)
    by_cases hmany : 1 < n.session.blocks.count x
    · have hc := hb.cloneable_of_many (List.mem_of_getElem? hh) hmany
      have hmany' : 1 < n.session.counter x := by
        rw [hb.counter x]
        exact hmany
      have hne : ¬ n.session.counter x = 1 := by omega
      obtain ⟨s', hs'⟩ : ∃ s', s' = { n.session with
        counter := Function.update n.session.counter x (n.session.counter x - 1)
        handles := n.session.handles.eraseIdx k } := ⟨_, rfl⟩
      have hm : K.Moves n.session b (.drop k) s' b := by
        rw [hs']
        exact .dropHandle hh hmany
      refine ⟨{ n with session := s' }, { session := s'.lift n.owed, outer := n.outer }, ?_, ?_, rfl,
        rfl, hnodup, fun hf => ⟨b, hb.of_moves hm hf⟩⟩
      · apply (HandleKind.drop_completes_of_many hc hmany' (hb.counter_lt x)).yields
        · intro fuel c e
          simp only [exec, hh, e]
        · intro fuel e
          simp only [exec, hh, e, Bool.false_eq_true, ite_false]
          rfl
        · exact .now fun _ => by rw [hs']
      · simp only [execFirst, hh', Session.counter_lift hx, hne, ite_false, Session.drop_lift hx]
        rw [hs']
        exact ((Session.drop_yields_many hc hmany' (hb.counter_lt x)).map _).map _
    · have hone : n.session.blocks.count x = 1 := by omega
      have hone' : n.session.counter x = 1 := (hb.counter x).trans hone
      refine ⟨{
          session := { n.session with
            counter := Function.update n.session.counter x 0
            handles := n.session.handles.eraseIdx k }
          outer := (handle, x) :: n.outer }, {
          session := { n.session.lift n.owed with handles := n.session.handles.eraseIdx k }
          outer := (handle, x) :: n.outer }, ?_, .now fun fuel => ?_, rfl, ?_, ?_,
        fun (hf : Session.Fits _ _) => ⟨b, hb.owe hh hone hf⟩⟩
      · have hd := handle.drop_completes
        rw [← hone'] at hd
        apply hd.yields
        · intro fuel c e
          simp only [exec, hh, e]
        · intro fuel e
          simp only [exec, hh, e, ite_true]
          rfl
        · exact .now fun _ => rfl
      · simp only [execFirst, hh', Session.counter_lift hx, hone', ite_true]
        rfl
      · exact Session.lift_aside hx hone' _
      · exact List.nodup_cons.mpr ⟨hx, hnodup⟩
  | leave =>
    obtain ⟨s, outer⟩ := n
    cases outer with
    | nil => exact absurd rfl ho
    | cons o outer =>
      obtain ⟨handle, x⟩ := o
      obtain ⟨hx, hnodup'⟩ := List.nodup_cons.mp hnodup
      obtain ⟨arena, b', hcall, howing⟩ := hb.settle hK hx
      have hzero : s.counter x = 0 := by
        rw [hb.counter x, List.count_eq_zero]
        exact hb.apart x List.mem_cons_self
      have hone : (s.lift (x :: outer.map Prod.snd)).counter x = 1 := by
        simp [Session.lift, hzero, List.count_eq_zero.mpr hx]
      have hdrop := @Session.drop_yields_last _ _ _ { s.lift (x :: outer.map Prod.snd) with
        handles := (handle, x) :: s.handles } 0 handle _ _ hcall hone
      refine ⟨{ session := { s with arena, dropped := s.dropped ++ [s.value x] }, outer },
        { session := Session.lift (outer.map Prod.snd)
            { s with arena, dropped := s.dropped ++ [s.value x] }, outer },
        (Session.dropBlock_yields hcall).map _, ?_, rfl, rfl, hnodup', fun hf => ⟨b', howing _ hf⟩⟩
      rw [← Session.lift_settled hx hzero arena]
      exact hdrop.map _

/-! ## Runs -/

theorem offered_of_exec {fuel : Nat} (h : n.exec K fuel a = some n') : n.Offered K a := by
  cases a with
  | act act =>
    obtain ⟨s', hs, -⟩ := Option.map_eq_some_iff.mp h
    exact Session.offered_of_exec hs
  | enter k =>
    simp only [exec] at h
    cases hh : n.session.handles[k]? with
    | none => simp [hh] at h
    | some x => exact ⟨x.1, x.2, hh⟩
  | leave =>
    intro hnil
    simp [exec, hnil] at h

theorem offered_of_execFirst {fuel : Nat} (h : m.execFirst K fuel a = some m') : m.Offered K a := by
  cases a with
  | act act =>
    obtain ⟨s', hs, -⟩ := Option.map_eq_some_iff.mp h
    exact Session.offered_of_exec hs
  | enter k =>
    simp only [execFirst] at h
    cases hh : m.session.handles[k]? with
    | none => simp [hh] at h
    | some x => exact ⟨x.1, x.2, hh⟩
  | leave =>
    intro hnil
    simp [execFirst, hnil] at h

theorem step_eq_some_iff {f : Kind σ → Nat → Nested σ V → NestedAct V → Option (Nested σ V)}
    {label : Nat × NestedAct V} : step f K n label = some n' ↔
      n.session.panicked = false ∧ f K label.1 n label.2 = some n' ∧ n'.Fits K := by
  unfold step
  by_cases hp : n.session.panicked = true
  · simp [hp]
  · simp only [hp, Bool.false_eq_true, ite_false]
    cases f K label.1 n label.2 with
    | none => simp
    | some n₁ =>
      by_cases hf : n₁.Fits K
      · simp only [hf, ite_true, Option.some.injEq]
        constructor
        · rintro rfl
          exact ⟨by simp, rfl, hf⟩
        · exact fun h => h.2.1
      · simp only [hf, ite_false, reduceCtorEq, false_iff]
        rintro ⟨-, e, hf'⟩
        exact hf (Option.some.inj e ▸ hf')

namespace Matches

theorem offered_iff (h : Matches K n m) : m.Offered K a ↔ n.Offered K a := by
  obtain ⟨ho, hs⟩ := h
  cases a with
  | act act =>
    simp only [Offered, hs]
    cases act <;> exact Iff.rfl
  | enter k =>
    simp only [Offered, hs]
    exact Iff.rfl
  | leave => simp only [Offered, ho]

theorem panicked (h : Matches K n m) : n.session.panicked = false ∧ m.session.panicked = false := by
  obtain ⟨b, hb⟩ := h.owing
  refine ⟨hb.panicked, ?_⟩
  rw [h.session]
  exact hb.panicked

theorem step (hK : K.Lawful) (h : Matches K n m) {fuel : Nat}
    (hs : Nested.step exec K n (fuel, a) = some n') :
    ∃ label' m', label'.2 = a ∧ Nested.step execFirst K m label' = some m' ∧ Matches K n' m' := by
  obtain ⟨-, he, hf⟩ := step_eq_some_iff.mp hs
  obtain ⟨n₁, m', hy, hy', hout, hsession, hnodup, howing⟩ := h.moves hK (offered_of_exec he)
  obtain rfl := hy.eq_of_some he
  obtain ⟨fuel', hfuel⟩ := hy'.enough
  refine ⟨(fuel', a), m', rfl, step_eq_some_iff.mpr ⟨h.panicked.2, hfuel fuel' (Nat.le_refl _), ?_⟩,
    hout, hsession, howing (fits_session hf), hnodup, hf⟩
  exact (fits_iff hout hsession).mpr hf

theorem stepFirst (hK : K.Lawful) (h : Matches K n m) {fuel : Nat}
    (hs : Nested.step execFirst K m (fuel, a) = some m') :
    ∃ label' n', label'.2 = a ∧ Nested.step exec K n label' = some n' ∧ Matches K n' m' := by
  obtain ⟨-, he, hf⟩ := step_eq_some_iff.mp hs
  obtain ⟨n', m₁, hy, hy', hout, hsession, hnodup, howing⟩ :=
    h.moves hK (h.offered_iff.mp (offered_of_execFirst he))
  obtain rfl := hy'.eq_of_some he
  obtain ⟨fuel', hfuel⟩ := hy.enough
  have hf := (fits_iff hout hsession).mp hf
  exact ⟨(fuel', a), n', rfl, step_eq_some_iff.mpr ⟨h.panicked.1, hfuel fuel' (Nat.le_refl _), hf⟩,
    hout, hsession, howing (fits_session hf), hnodup, hf⟩

theorem eq (h : Matches K n m) (hnil : n.outer = []) : m = n := by
  obtain ⟨s, outer⟩ := n
  obtain rfl : outer = [] := hnil
  have hsession := h.session
  have hout := h.outer
  obtain ⟨s', outer'⟩ := m
  simp only [owed, List.map_nil, Session.lift, List.count_nil, Nat.add_zero] at hsession hout
  rw [hsession, hout]

end Matches

/-- A program that does its inner operations first, and is inside of no call. -/
theorem matches_self {b : Book} (hb : K.Owing n.session n.owed b) (hf : n.Fits K)
    (hnil : n.outer = []) : Matches K n n := by
  obtain ⟨s, outer⟩ := n
  obtain rfl : outer = [] := hnil
  exact ⟨rfl, rfl, ⟨b, hb⟩, List.nodup_nil, hf⟩

theorem of_reach (hK : K.Lawful) {cap : Nat} (h : (machine K cap V).Reach Machine.always n) :
    ∃ m, Matches K n m := by
  apply h.invariant
  · rintro n ⟨rfl, hf⟩
    obtain ⟨pages, hs, -⟩ := Kind.Sound.start hK (fits_session hf)
    exact ⟨_, matches_self hs.owing hf rfl⟩
  · rintro n ⟨fuel, a⟩ n' - ⟨m, hm⟩ - hs
    obtain ⟨-, m', -, -, hm'⟩ := hm.step hK hs
    exact ⟨m', hm'⟩

end Nested

/-! ## Drops inside of drops -/

/-- A program whose destructors drop handles, allocate or drop the pool, to any depth, ends
with the same memory as one that does these operations first: all bits, lists and
deallocated pages agree. On the way the lists hold each page once and each page with a free
block, no page is deallocated under a call of `drop_block`, and every operation returns. -/
theorem reentrant_drops {t : PageKind} {V : Type} {cap : Nat} {n : Nested t.Arena V}
    (h : (Nested.machine t.calls cap V).Reach Machine.always n) :
    (n.outer = [] → ∀ acts n', n'.outer = [] →
      ((∃ labels, labels.map Prod.snd = acts ∧
          (Nested.machine t.calls cap V).run n labels = some n') ↔
        ∃ labels, labels.map Prod.snd = acts ∧
          (Nested.machineFirst t.calls cap V).run n labels = some n')) ∧
    (n.session.alive = true → ∃ free pending full,
      (t.calls.view n.session.arena).Lists free pending full ∧ full.Nodup ∧
        (free ++ pending).Nodup ∧ (∀ p ∈ free ++ pending, p ∈ full) ∧
        ∀ p ∈ full, ∀ i < 63, (t.word n.session.arena p).getLsbD i = true → p ∈ free ++ pending) ∧
    (∀ x ∈ n.outer, x.2.1 ∉ (t.calls.view n.session.arena).freed.map Freed.page) ∧
    n.session.panicked = false ∧
    ∀ a, n.Offered t.calls a → ∃ n', Yields (fun fuel => n.exec t.calls fuel a) n' := by
  obtain ⟨m, hm⟩ := Nested.of_reach t.lawful h
  obtain ⟨b, hb⟩ := hm.owing
  refine ⟨fun hnil acts n' hnil' => ?_, fun ha => ?_, fun x hx => ?_, hb.panicked, fun a ho => ?_⟩
  · have hself := Nested.matches_self hb hm.fits hnil
    constructor
    · intro ⟨labels, hacts, hr⟩
      obtain ⟨labels', m', hmap, hr', hm'⟩ := Machine.run_follows
        (R := Nested.Matches t.calls) (N := Nested.machineFirst t.calls cap V) (f := Prod.snd)
        (g := Prod.snd) (fun hm hs => hm.step t.lawful hs) hself hr
      rw [hm'.eq hnil'] at hr'
      exact ⟨labels', hmap.trans hacts, hr'⟩
    · intro ⟨labels, hacts, hr⟩
      obtain ⟨labels', n₁, hmap, hr', hm'⟩ := Machine.run_follows
        (R := fun m n => Nested.Matches t.calls n m) (N := Nested.machine t.calls cap V)
        (f := Prod.snd) (g := Prod.snd) (fun hm hs => hm.stepFirst t.lawful hs) hself hr
      rw [← hm'.eq (hm'.outer.symm.trans hnil')] at hr'
      exact ⟨labels', hmap.trans hacts, hr'⟩
  · have hk := hb.alive ha
    refine ⟨b.free, b.pending, b.listed, hk.shows.lists, hk.tidy.listed, hk.tidy.lists, hk.tidy.sub,
      fun p hp i hi hbit => ?_⟩
    apply hk.tidy.room p hp
    obtain ⟨hlt, hkept⟩ := (hk.shows.kept p).mp (List.mem_append_left _ hp)
    rw [hk.bit_iff hlt hkept hi] at hbit
    exact Book.full_eq_false_iff.mpr ⟨i, hi, hbit⟩
  · have hlive : x.2 ∈ b.live := (hb.live x.2).mpr (Or.inr (List.mem_map_of_mem hx))
    exact (hb.page_kept hlive).2
  · obtain ⟨n', -, hy, -⟩ := hm.moves t.lawful ho
    exact ⟨n', hy⟩

/-- A destructor drops the other value of its page and then the pool: the page stays until
`drop_block` goes on. -/
theorem reentrant_drops_gone : ∃ n : Nested Pool Nat, n.outer = [(.poolBox, (0, 1))] ∧
    n.session.handles = [] ∧ n.session.alive = false ∧
      0 ∉ (Pool.kind.view n.session.arena).freed.map Freed.page := by
  have hrun : ((Nested.machine Pool.kind 1 Nat).run (.start Pool.kind 1)
      [(9, .act (.alloc .alloc 5)), (9, .act (.alloc .alloc 6)), (9, .enter 0), (9, .act (.drop 0)),
        (9, .act .release)]).any
      (fun n => n.outer = [(.poolBox, (0, 1))] ∧ n.session.handles = [] ∧
        n.session.alive = false) = true := by decide +kernel
  have hinit : (Nested.machine Pool.kind 1 Nat).init (.start Pool.kind 1) := ⟨rfl, by decide +kernel⟩
  obtain ⟨n, h, hend⟩ := Machine.Trace.exists_of_run (f := Prod.snd) hinit hrun
  obtain ⟨houter, hhandles, hg⟩ := of_decide_eq_true hend
  have hkept := (reentrant_drops (t := .pool) h.reach).2.2.1 (.poolBox, (0, 1)) (by rw [houter]; simp)
  exact ⟨n, houter, hhandles, hg, hkept⟩

end MemoryPools
