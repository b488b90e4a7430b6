import MemoryPools.Placing

/-!
# Allocation with an initializer

`alloc_with`, `alloc_rc_with` and `alloc_arc_with` make the handle and then call the
initializer. When the initializer panics, or returns a reference other than its
parameter, the handle is dropped on the way out, and the destructor runs on whatever the
block holds.
-/

namespace MemoryPools

open Interleave

structure Initializer (V : Type) where
  -- what it writes to its parameter, if it does
  writes : Option V
  -- whether the reference is its parameter; `none` if it panics
  returns : Option Bool
  deriving DecidableEq

namespace Session

variable {σ V : Type}

def runInitializer (s : Session σ V) (block : Block) (init : Initializer V) : Session σ V :=
  match init.writes with
  | some value => { s with value := Function.update s.value block (some value) }
  | none => s

/-- The result says whether the call returned; otherwise it unwinds to its caller. -/
def allocWith (K : Kind σ) (fuel : Nat) (s : Session σ V) (handle : HandleKind)
    (init : Initializer V) : Option (Session σ V × Bool) :=
  match K.findPlace fuel s.arena with
  | (arena, .ret block) =>
    match bounded handle.new .load fuel (s.counter block) with
    | (counter, .ret ()) =>
      let s := { s with
        arena
        counter := Function.update s.counter block counter
        handles := (handle, block) :: s.handles }
      let s := s.runInitializer block init
      if init.returns = some true then some (s, true)
      -- `result` is dropped
      else (s.drop K fuel 0 handle block).map (·, false)
    | (_, .panic) => some ({ s with arena, panicked := true }, false)
    | (_, .goto ()) => none
  | (arena, .panic) => some ({ s with arena, panicked := true }, false)
  | (_, .goto ()) => none

end Session

inductive ProgramAct (V : Type)
  | act (act : SessionAct V)
  | allocWith (kind : AllocKind) (init : Initializer V)

def Session.stepProgram {σ V : Type} (K : Kind σ) (s : Session σ V)
    (label : Nat × ProgramAct V) : Option (Session σ V) :=
  match label.2 with
  | .act act => s.step K (label.1, act)
  | .allocWith kind init =>
    match K.handle kind with
    | some handle =>
      if s.alive ∧ s.panicked = false then
        match s.allocWith K label.1 handle init with
        | some (s', _) => if s'.Fits K then some s' else none
        | none => none
      else none
    | none => none

def programMachine {σ : Type} (K : Kind σ) (cap : Nat) (V : Type) :
    Machine (Session σ V) (Nat × ProgramAct V) where
  init s := s = Session.start K cap ∧ s.Fits K
  step := Session.stepProgram K

/-! ## The call -/

namespace Session

variable {σ V : Type} {K : Kind σ} {s : Session σ V} {handle : HandleKind} {init : Initializer V}
  {arena arena' : σ} {x : Block}

theorem runInitializer_eq (s : Session σ V) (x : Block) (init : Initializer V) : s.runInitializer x init =
    { s with value := Function.update s.value x (init.writes.or (s.value x)) } := by
  unfold runInitializer
  cases hw : init.writes with
  | some value => rfl
  | none => simp

theorem allocWith_returns (hf : Completes K.findPlace s.arena arena x) (hzero : s.counter x = 0)
    (hr : init.returns = some true) :
    Yields (fun fuel => s.allocWith K fuel handle init)
      ({ s with
        arena
        value := Function.update s.value x (init.writes.or (s.value x))
        counter := Function.update s.counter x 1
        handles := (handle, x) :: s.handles }, true) := by
  have hn := handle.new_completes
  rw [← hzero] at hn
  apply hf.yields
  · intro fuel a₁ e
    simp only [allocWith, e]
  · intro fuel e
    simp only [allocWith, e]
    rfl
  · apply hn.yields
    · intro fuel c e
      simp only [e]
    · intro fuel e
      simp only [e, hr, ite_true, runInitializer_eq]
      rfl
    · exact .now fun _ => rfl

theorem allocWith_unwinds (hf : Completes K.findPlace s.arena arena x) (hzero : s.counter x = 0)
    (hd : Completes (K.dropBlock s.alive x) arena arena' ()) (hr : init.returns ≠ some true) :
    Yields (fun fuel => s.allocWith K fuel handle init)
      ({ s with
        arena := arena'
        value := Function.update s.value x (init.writes.or (s.value x))
        dropped := s.dropped ++ [init.writes.or (s.value x)] }, false) := by
  have hn := handle.new_completes
  rw [← hzero] at hn
  have hdrop := @Session.drop_yields_last _ _ K { s with
      arena
      value := Function.update s.value x (init.writes.or (s.value x))
      counter := Function.update s.counter x 1
      handles := (handle, x) :: s.handles } 0 handle _ x hd (Function.update_self ..)
  have hcounter : Function.update (Function.update s.counter x 1) x 0 = s.counter := by
    rw [Function.update_idem, ← hzero, Function.update_eq_self]
  simp only [hcounter, Function.update_self, List.eraseIdx_cons_zero] at hdrop
  apply hf.yields
  · intro fuel a₁ e
    simp only [allocWith, e]
  · intro fuel e
    simp only [allocWith, e]
    rfl
  · apply hn.yields
    · intro fuel c e
      simp only [e]
    · intro fuel e
      simp only [e, hr, ite_false, runInitializer_eq]
      rfl
    · exact hdrop.map (·, false)

end Session

/-! ## The invariant -/

def Session.revalue {σ V W : Type} (s : Session σ V) (value : Block → Option W)
    (dropped : List (Option W)) : Session σ W where
  arena := s.arena
  alive := s.alive
  counter := s.counter
  value := value
  handles := s.handles
  dropped := dropped
  panicked := s.panicked

namespace Kind.Sound

variable {σ V : Type} {K : Kind σ} {s s' : Session σ V} {b b' : Book} {handle : HandleKind}
  {kind : AllocKind} {init : Initializer V}

/-- Values, and what became of them, are no part of the books. -/
theorem revalue {W : Type} (h : K.Sound s b) (value : Block → Option W)
    (dropped : List (Option W)) : K.Sound (s.revalue value dropped) b :=
  ⟨h.alive, h.gone, h.live, h.counter, h.same, h.single, h.panicked, h.fits⟩

theorem of_unwound (h : K.Sound s b) (ha : s.alive = true) {arena : σ}
    {value : Block → Option V} {dropped : List (Option V)} (hk : K.Alive arena b')
    (hlive : ∀ x, x ∈ b'.live ↔ x ∈ b.live) (hf : { s with arena, value, dropped }.Fits K) :
    K.Sound { s with arena, value, dropped } b' := by
  refine ⟨fun _ => hk, fun hg => ?_, fun x => (hlive x).trans (h.live x), h.counter, h.same,
    h.single, h.panicked, hf⟩
  have hg : s.alive = false := hg
  rw [ha] at hg
  cases hg

theorem allocWith (hK : K.Lawful) (h : K.Sound s b) (ha : s.alive = true)
    (hh : K.handle kind = some handle) (init : Initializer V) :
    ∃ (x : Block) (arena : σ) (b' : Book), Completes K.findPlace s.arena arena x ∧
      x ∉ b.live ∧ s.counter x = 0 ∧ x.2 < 63 ∧ x.1 ∈ b'.listed ∧ b'.live = b.live ∧
      (init.returns = some true → ∃ s', Yields (fun fuel => s.allocWith K fuel handle init)
        (s', true) ∧ (s'.Fits K → K.Sound s' (b'.take x))) ∧
      (init.returns ≠ some true → ∃ arena', K.Alive arena' ((b'.take x).give K.onFree x) ∧
        Yields (fun fuel => s.allocWith K fuel handle init)
          ({ s with
            arena := arena'
            value := Function.update s.value x (init.writes.or (s.value x))
            dropped := s.dropped ++ [init.writes.or (s.value x)] }, false)) := by
  obtain ⟨n, b', p, i, rest, arena, hf, hfree, hi, hnew, hcall, hk, hsize⟩ :=
    hK.findPlace (h.alive ha) (h.length_listed_le ha)
  have hlisted : p ∈ b'.listed := ((h.alive ha).tidy.fetch hf).free_listed (by simp [hfree])
  have hnew' : (p, i) ∉ b.live := by rwa [← hf.live]
  have hzero := h.counter_zero hnew'
  refine ⟨(p, i), arena, b', hcall, hnew', hzero, hi, hlisted, hf.live,
    fun hr => ?_, fun hr => ?_⟩
  · refine ⟨_, Session.allocWith_returns hcall hzero hr, fun hfits => ?_⟩
    have hunit := h.revalue (fun _ => some ()) []
    have hm := @Kind.Moves.alloc _ _ K (s.revalue (fun _ => some ()) []) b _ _ () _ _ _ _ _ _
      ha hh hf hfree hi hnew hk hsize
    exact (hunit.of_moves hm hfits).revalue _ _
  · obtain ⟨arena', hd, hk', -⟩ := hK.dropBlock hk (x := (p, i)) List.mem_cons_self
    refine ⟨arena', hk', Session.allocWith_unwinds hcall hzero ?_ hr⟩
    rw [ha]
    exact hd

theorem stepProgram (hK : K.Lawful) (h : K.Sound s b) {label : Nat × ProgramAct V}
    (hs : s.stepProgram K label = some s') : ∃ b', K.Sound s' b' := by
  obtain ⟨fuel, act⟩ := label
  cases act with
  | act act =>
    obtain ⟨b', -, h'⟩ := h.step hK hs
    exact ⟨b', h'⟩
  | allocWith kind init =>
    simp only [Session.stepProgram] at hs
    cases hh : K.handle kind with
    | none => simp [hh] at hs
    | some handle =>
      simp only [hh] at hs
      by_cases ha : s.alive = true ∧ s.panicked = false
      · rw [if_pos ha] at hs
        cases he : s.allocWith K fuel handle init with
        | none => simp [he] at hs
        | some r =>
          obtain ⟨s₁, returned⟩ := r
          simp only [he] at hs
          by_cases hf : s₁.Fits K
          · rw [if_pos hf] at hs
            obtain rfl := Option.some.inj hs
            obtain ⟨x, arena, b', -, hnew, -, -, -, hlive, hret, hunw⟩ := h.allocWith hK ha.1 hh init
            by_cases hr : init.returns = some true
            · obtain ⟨s₂, hy, hsound⟩ := hret hr
              obtain rfl := congrArg Prod.fst (hy.eq_of_some he)
              exact ⟨_, hsound hf⟩
            · obtain ⟨arena', hk, hy⟩ := hunw hr
              obtain rfl := congrArg Prod.fst (hy.eq_of_some he)
              refine ⟨_, h.of_unwound ha.1 hk (fun y => ?_) hf⟩
              rw [Book.live_give, Book.live_take, List.erase_cons_head, hlive]
          · simp [hf] at hs
      · simp [ha] at hs

theorem of_program (hK : K.Lawful) {cap : Nat}
    (h : (programMachine K cap V).Reach Machine.always s) : ∃ b, K.Sound s b := by
  apply h.invariant
  · rintro s ⟨rfl, hf⟩
    obtain ⟨pages, hs, -⟩ := start hK hf
    exact ⟨_, hs⟩
  · rintro s label s' - ⟨b, hs⟩ - he
    exact hs.stepProgram hK he

end Kind.Sound

/-! ## Initializers that fail -/

/-- When the initializer of `alloc_with`, `alloc_rc_with` or `alloc_arc_with` panics or
returns another reference, the block is free again and the rest of the pool is as it was.
The destructor has run once on the block, on the value that the initializer wrote or
else on what the block held before. -/
theorem failing_initializer {t : PageKind} {V : Type} {cap : Nat} {s : Session t.Arena V}
    (h : (programMachine t.calls cap V).Reach Machine.always s) (ha : s.alive = true)
    {kind : AllocKind} {handle : HandleKind} (hh : t.calls.handle kind = some handle)
    {init : Initializer V} (hr : init.returns ≠ some true) :
    ∃ (s' : Session t.Arena V) (p : Addr) (i : Nat),
      Yields (fun fuel => s.allocWith t.calls fuel handle init) (s', false) ∧
      (∃ arena, Completes t.calls.findPlace s.arena arena (p, i)) ∧
      (p, i) ∉ s.blocks ∧ (t.word s'.arena p).getLsbD i = true ∧ s'.counter (p, i) = 0 ∧
      (∃ used free free', Completes t.calls.stats s.arena s.arena (used, free) ∧
        Completes t.calls.stats s'.arena s'.arena (used, free')) ∧
      s'.handles = s.handles ∧ s'.counter = s.counter ∧
      (∀ x ∈ s.blocks, s'.value x = s.value x ∧ (t.word s'.arena x.1).getLsbD x.2 = false) ∧
      s'.dropped = s.dropped ++ [init.writes.or (s.value (p, i))] ∧
      s'.alive = true ∧ s'.panicked = false := by
  obtain ⟨b, hs⟩ := Kind.Sound.of_program t.lawful h
  obtain ⟨⟨p, i⟩, arena, b', hcall, hnew, hzero, hi, hlisted, hlive, -, hunw⟩ :=
    hs.allocWith t.lawful ha hh init
  obtain ⟨arena', hk, hy⟩ := hunw hr
  have hlive' : ((b'.take (p, i)).give t.calls.onFree (p, i)).live = b.live := by
    rw [Book.live_give, Book.live_take, List.erase_cons_head, hlive]
  have hout : (p, i) ∉ s.blocks := fun hm => hnew ((hs.live _).mpr hm)
  have hlisted' : p ∈ ((b'.take (p, i)).give t.calls.onFree (p, i)).listed := by
    rw [Book.listed_give]
    exact hlisted
  have hkept := (hk.shows.kept p).mp (List.mem_append_left _ hlisted')
  have hstats := t.lawful.stats hk
  rw [hlive'] at hstats
  refine ⟨_, p, i, hy, ⟨arena, hcall⟩, hout, ?_, hzero,
    ⟨_, _, _, t.lawful.stats (hs.alive ha), hstats⟩, rfl, rfl, fun x hx => ⟨?_, ?_⟩, rfl, ha,
    hs.panicked⟩
  · rw [hk.bit_iff hkept.1 hkept.2 hi, hlive']
    exact hnew
  · have hne : x ≠ (p, i) := fun e => hout (e ▸ hx)
    exact Function.update_of_ne hne ..
  · have hin : (x.1, x.2) ∈ ((b'.take (p, i)).give t.calls.onFree (p, i)).live := by
      rw [hlive', hs.live]
      exact hx
    obtain ⟨hhome, -⟩ := hk.tidy.home x.1 x.2 hin
    exact ((t.held_iff arena').mp ((hk.shows.held x.1 (List.mem_append_left _ hhome) x.2).mpr hin)).2

/-- The initializer writes its value and returns another reference. -/
theorem failing_initializer_again : ∃ (s s' : Session SharedArena Nat) (p : Addr) (i : Nat),
    s.handles.length = 1 ∧ s'.handles = s.handles ∧ s'.counter (p, i) = 0 ∧
      s'.dropped = s.dropped ++ [some 7] := by
  have hrun : ((programMachine SharedArena.kind 1 Nat).run (.start SharedArena.kind 1)
      [(9, .act (.alloc .allocRc 5)), (9, .allocWith .alloc ⟨some 6, some false⟩)]).any
      (fun s => s.alive = true ∧ s.handles.length = 1) = true := by decide +kernel
  have hinit : (programMachine SharedArena.kind 1 Nat).init (.start SharedArena.kind 1) :=
    ⟨rfl, by decide +kernel⟩
  obtain ⟨s, h, hend⟩ := Machine.Trace.exists_of_run (f := Prod.snd) hinit hrun
  obtain ⟨ha, hlen⟩ := of_decide_eq_true hend
  obtain ⟨s', p, i, -, -, -, -, hzero, -, hhandles, -, -, hdropped, -⟩ :=
    @failing_initializer .sharedArena _ _ _ h.reach ha .allocArc _ rfl ⟨some 7, some false⟩
      (by decide)
  exact ⟨s, s', p, i, hlen, hhandles, hzero, hdropped⟩

/-- The initializer panics before it writes: the destructor runs on memory that was never
written. -/
theorem initializer_unwritten : ∃ s s' : Session Pool Nat,
    (programMachine Pool.kind 1 Nat).Reach Machine.always s ∧
      s.allocWith Pool.kind 9 .poolBox ⟨none, none⟩ = some (s', false) ∧
      s'.dropped = s.dropped ++ [none] := by
  have hinit : (programMachine Pool.kind 1 Nat).init (.start Pool.kind 1) := ⟨rfl, by decide +kernel⟩
  have hcall : ((Session.start Pool.kind 1 : Session Pool Nat).allocWith Pool.kind 9 .poolBox
      ⟨none, none⟩).any (fun r => r.2 = false ∧ r.1.dropped = [none]) = true := by decide +kernel
  obtain ⟨⟨s', returned⟩, hs, hend⟩ := (Option.any_eq_true ..).mp hcall
  obtain ⟨hret, hdropped⟩ := of_decide_eq_true hend
  obtain rfl : returned = false := hret
  exact ⟨_, s', .init hinit, hs, hdropped⟩

end MemoryPools