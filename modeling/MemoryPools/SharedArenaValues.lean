import MemoryPools.ValuesDropped
import MemoryPools.SharedArenaReclaim

/-!
# Values in a shared arena

A shared arena lends its blocks: without `shrink_to_fit` also where the free list was set to a page
that it had already left, and with it where `drop_page` waits for the readers of its page. So the
values and their counters are what any lender gives. Its handles stay after the arena was dropped.
-/

namespace MemoryPools

open Interleave

namespace SharedArena

def grant (s : SharedState) : SharedAct → Option (Addr × Nat)
  | .step t =>
    match s.threads.get t with
    | .alloc pc =>
      match (s.arena.findPlace pc).2 with
      | .ret block => some block
      | _ => none
    | _ => none
  | _ => none

def asking (s : SharedState) (t : Tid) : Bool :=
  match s.threads.get t with
  | .alloc _ => true
  | _ => false

def lender : Lender SharedState SharedAct (Addr × Nat) where
  machine := machine
  part
    | .alloc t => .asks t
    | .shrink t => .begins t
    | .drop t page index => .givesBack t (page, index)
    | .step t => .goesOn t
  grant := grant
  lent := SharedState.handles
  asking := asking
  rests s t := s.threads.get t = .idle

section
variable {s : SharedState} {arena : SharedArena} {handles : List (Addr × Nat)} {t : Tid} {c : SharedCall}

theorem asking_set (u : Tid) :
    asking { arena, handles, threads := s.threads.set t c } u =
      if u = t then (match c with | .alloc _ => true | _ => false) else asking s u := by
  simp only [asking, Store.get_set]
  by_cases hu : u = t
  · simp [hu]
  · simp [hu]

/-- A call that is not an `alloc` begins or goes on. -/
theorem asking_mono (hc : ∀ pc, c ≠ .alloc pc) (u : Tid)
    (hu : asking { arena, handles, threads := s.threads.set t c } u = true) :
    asking s u = true ∧ u ≠ t := by
  rw [asking_set] at hu
  by_cases e : u = t
  · rw [if_pos e] at hu
    split at hu
    · rename_i pc
      exact absurd rfl (hc pc)
    · cases hu
  · rw [if_neg e] at hu
    exact ⟨hu, e⟩

theorem asking_alloc {pc : FindPc} (h : s.threads.get t = .alloc pc) : asking s t = true := by
  simp [asking, h]

end

theorem grant_step {s : SharedState} {t : Tid} (h : ∀ pc, s.threads.get t ≠ .alloc pc) :
    grant s (.step t) = none := by
  simp only [grant]

theorem lender_effect {s s' : SharedState} {a : SharedAct} (hb : SharedBlocksInv s)
    (hm : SharedState.Moves s a s') : lender.Effect s s' a := by
  cases hm with
  | @startAlloc t h =>
    refine ⟨rfl, fun u hu => ?_⟩
    by_cases e : u = t
    · exact .inl e
    · rw [show lender.asking = asking from rfl, asking_set, if_neg e] at hu
      exact .inr hu
  | startShrink h => exact ⟨rfl, fun u hu => (asking_mono (by simp) u hu).1⟩
  | startDrop h hi =>
    exact ⟨List.perm_cons_erase hi, fun u hu => (asking_mono (by simp) u hu).1⟩
  | @alloc t pc arena control h hs =>
    cases control with
    | goto pc' =>
      refine .of_none (t := t) rfl (by simp [lender, grant, h, hs]) rfl fun u hu => ?_
      rw [show lender.asking = asking from rfl, asking_set] at hu
      by_cases e : u = t
      · exact e ▸ asking_alloc h
      · rwa [if_neg e] at hu
    | panic =>
      exact .of_none (t := t) rfl (by simp [lender, grant, h, hs]) rfl
        fun u hu => (asking_mono (by simp [SharedCall.afterAlloc]) u hu).1
    | ret x =>
      exact .of_some (t := t) rfl (by simp [lender, grant, h, hs])
        (fun hm => hb.not_live hs (.inl hm)) rfl (asking_alloc h)
        fun u hu => asking_mono (by simp [SharedCall.afterAlloc]) u hu
  | @shrink t pc arena control h hs =>
    refine .of_none (t := t) rfl (grant_step (by simp [h])) rfl
      fun u hu => (asking_mono ?_ u hu).1
    cases control <;> simp [SharedCall.afterShrink]
  | @giveBlock t p i page last h hg =>
    exact .of_none (t := t) rfl (grant_step (by simp [h])) rfl
      fun u hu => (asking_mono (by simp) u hu).1
  | @freeBlock t p i h =>
    exact .of_none (t := t) rfl (grant_step (by simp [h])) rfl
      fun u hu => (asking_mono (by simp) u hu).1
  | @push t p i pc links pending control h hp =>
    refine .of_none (t := t) rfl (grant_step (by simp [h])) rfl
      fun u hu => (asking_mono ?_ u hu).1
    cases control <;> simp [SharedCall.afterDrop, Control.map]

theorem not_asking_start (cap : Nat) (t : Tid) : asking (.start cap) t = false := by
  simp [asking, SharedState.start, default]

def lenderIf (ok : SharedState → SharedAct → Bool) : Lender SharedState SharedAct (Addr × Nat) :=
  { lender with machine := machine.restrict ok }

theorem lenderIf_lawful (ok : SharedState → SharedAct → Bool) : (lenderIf ok).Lawful where
  init s hs := by
    obtain ⟨cap, rfl⟩ := hs
    exact ⟨rfl, not_asking_start cap⟩
  step {s s' a} hr hstep := by
    obtain ⟨-, hstep⟩ := Machine.restrict_step hstep
    exact lender_effect (SharedState.pointers_blocks hr.of_restrict).2 (SharedState.moves_of_step hstep)

/-- Any number of threads allocate in a shared arena, shrink it, and send, clone and drop their
handles, in runs without `shrink_to_fit` or where the pops are current and `drop_page` waits for the
readers of its page. A handle always reads the value that was written for it, in a block whose bit is
clear in a page that exists and was not deallocated; each value is dropped once, when its last
handle is. The cells of a deallocated page stay in the model, and its address is not used again. -/
theorem shared_values_sound {ok : SharedState → SharedAct → Bool}
    (hok : (∀ s a, ok s a = true → a.noShrink = true) ∨
      ∀ s a, ok s a = true → s.popsCurrent a = true ∧ s.quietDrop a = true)
    {s : ValueState SharedState (Addr × Nat)}
    (h : (valueMachine (lenderIf ok) arenaKinds).Reach ValueState.fewHandles s) :
    s.Sound (lenderIf ok) ∧
    ∀ g ∈ s.handles, g.block.1 < s.arena.arena.heap.size ∧
      g.block.1 ∉ s.arena.arena.heap.freed.map Freed.page ∧ g.block.2 < 63 ∧
      (s.arena.arena.word g.block.1).getLsbD g.block.2 = false := by
  obtain ⟨hc, hand, hi⟩ := ValueState.invs_of_reach (lenderIf_lawful ok) h
  have hsound := ValueState.sound hc hi
  have hreach : machine.Reach (fun s a => ok s a = true) s.arena := hc.arena.of_restrict
  obtain ⟨-, hb⟩ := SharedState.pointers_blocks hreach
  obtain ⟨-, hunused⟩ := SharedState.freed_unused (hok.imp hreach.mono hreach.mono)
  refine ⟨hsound, fun g hg => ?_⟩
  have hlive : s.arena.Live g.block.1 g.block.2 := .inl (hsound.reads g hg).2
  obtain ⟨hlt, hindex, hbit⟩ := hb.live _ _ hlive
  exact ⟨hlt, fun hp => (hunused _ hp).1 _ hlive, hindex, hbit⟩

/-- A run of the arena in which every block that is asked for is for an `ArenaArc`. -/
def askingFor (as : List SharedAct) : List (ValueAct SharedAct (Addr × Nat)) :=
  as.map fun
    | .alloc t => .alloc .arenaArc (.alloc t)
    | a => .arena a

/-- Page 1 is parked and deallocated while thread 4 fills a block of page 0, and thread 2 drops the
last clone of its handle. -/
theorem shared_values_sound_reclaimed : ∃ s : ValueState SharedState (Addr × Nat), s.written = 1 ∧
    s.dropped = [0] ∧ s.arena.arena.heap.freed.map Freed.page = [1] ∧
    s.Sound (lenderIf fun s a => s.popsCurrent a && s.quietDrop a) := by
  have hstart : (valueMachine (lenderIf fun s a => s.popsCurrent a && s.quietDrop a)
    arenaKinds).init (.start (.start 126)) := ⟨_, ⟨126, rfl⟩, rfl⟩
  obtain ⟨s, hs, hp⟩ := Machine.Reach.exists_of_runIf hstart (fun s a => decide (s.fewHandles a))
    (askingFor (SharedAct.shrinkThenRefill ++ SharedAct.steps 4 4) ++ [.step 4, .step 4] ++
      [.clone ⟨4, .arenaArc, (0, 0), 0⟩ 2, .drop ⟨4, .arenaArc, (0, 0), 0⟩] ++
      [.drop ⟨2, .arenaArc, (0, 0), 0⟩, .step 2])
    (fun s => s.written = 1 ∧ s.dropped = [0] ∧ s.arena.arena.heap.freed.map Freed.page = [1])
    (fun s a ha => of_decide_eq_true ha) (by decide +kernel)
  obtain ⟨hw, hd, hf⟩ := of_decide_eq_true hp
  exact ⟨s, hw, hd, hf, (shared_values_sound (.inr fun s a ha => by simpa using ha) hs).1⟩

/-! ## Values that outlive their arena -/

/-- Thread `o` has the last reference to the arena. -/
def lifeLender (o : Tid) : Lender SharedLife SharedLifeAct (Addr × Nat) where
  machine := lifeMachine.restrict fun _ a => a.noShrink
  part
    | .act a => lender.part a
    | .release => .begins o
    | .stepRelease => .goesOn o
    | .stepDrop t _ => .goesOn t
  grant
    | s, .act a => grant s.state a
    | _, _ => none
  lent s := s.state.handles
  asking s := asking s.state
  rests s t := lender.rests s.state t && (t ≠ o || s.ending = .alive || s.ending = .gone)

theorem lifeLender_lawful (o : Tid) : (lifeLender o).Lawful where
  init s hs := by
    obtain ⟨cap, rfl⟩ := hs
    exact ⟨rfl, not_asking_start cap⟩
  step {s s' a} hr hstep := by
    obtain ⟨-, hstep⟩ := Machine.restrict_step hstep
    have hb := (SharedLifeInv.of_reach hr.of_restrict).blocks
    cases a with
    | act a =>
      simp only [lifeMachine, SharedLife.step] at hstep
      split at hstep
      · obtain ⟨state, hstate, rfl⟩ := Option.map_eq_some_iff.mp hstep
        exact lender_effect hb (SharedState.moves_of_step hstate)
      · cases hstep
    | release =>
      simp only [lifeMachine, SharedLife.step] at hstep
      split at hstep
      · obtain rfl := Option.some.inj hstep
        exact ⟨rfl, fun u hu => hu⟩
      · cases hstep
    | stepRelease =>
      obtain ⟨arena, e⟩ := SharedLife.stepRelease_state hstep
      refine .of_none (t := o) rfl rfl ?_ fun u hu => ?_
      · show s'.state.handles = s.state.handles
        rw [e]
      · have hu : asking s'.state u = true := hu
        rwa [e] at hu
    | stepDrop t upgraded =>
      obtain ⟨p, i, pc, arena, control, ht, e⟩ := SharedLife.stepDrop_state hstep
      refine .of_none (t := t) rfl rfl ?_ fun u hu => ?_
      · show s'.state.handles = s.state.handles
        rw [e]
      · have hu : asking s'.state u = true := hu
        rw [e] at hu
        refine (asking_mono ?_ u hu).1
        cases control <;> simp [SharedCall.afterDrop]

/-- Threads allocate in a shared arena, send, clone and drop their handles, and one of them drops
the arena at last. A handle always reads the value that was written for it, in a block whose bit
is clear in a page that was not deallocated; each value is dropped once, when its last handle is.
The cells of a deallocated page, which a late drop may still use, stay in the model, and its address
is not used again. -/
theorem outliving_values_sound {o : Tid} {s : ValueState SharedLife (Addr × Nat)}
    (h : (valueMachine (lifeLender o) arenaKinds).Reach ValueState.fewHandles s) :
    s.Sound (lifeLender o) ∧
    ∀ g ∈ s.handles, g.block.1 < s.arena.state.arena.heap.size ∧ g.block.2 < 63 ∧
      (s.arena.state.arena.word g.block.1).getLsbD g.block.2 = false ∧
      g.block.1 ∉ s.arena.state.arena.heap.freed.map Freed.page := by
  obtain ⟨hc, hand, hi⟩ := ValueState.invs_of_reach (lifeLender_lawful o) h
  have hsound := ValueState.sound hc hi
  have hlife := SharedLifeInv.of_reach hc.arena.of_restrict
  refine ⟨hsound, fun g hg => ?_⟩
  have hlive : s.arena.state.Live g.block.1 g.block.2 := .inl (hsound.reads g hg).2
  obtain ⟨hlt, hindex, hbit⟩ := hlife.blocks.live _ _ hlive
  exact ⟨hlt, hindex, hbit, hlife.not_freed hlive⟩

/-- A clone of an `ArenaArc` is dropped by thread 1 when the arena is gone. -/
theorem outliving_values_sound_arc : ∃ s : ValueState SharedLife (Addr × Nat),
    s.arena.ending = .gone ∧ s.dropped = [0] ∧
    s.arena.state.arena.heap.freed = [.dropBlock 0] ∧ s.Sound (lifeLender 0) := by
  have hstart : (valueMachine (lifeLender 0) arenaKinds).init (.start (.start 1)) :=
    ⟨_, ⟨1, rfl⟩, rfl⟩
  obtain ⟨s, hs, hp⟩ := Machine.Reach.exists_of_runIf hstart (fun s a => decide (s.fewHandles a))
    ([.alloc .arenaArc (.act (.alloc 0))] ++ List.replicate 3 (.arena (.act (.step 0))) ++
      [.step 0, .step 0, .clone ⟨0, .arenaArc, (0, 0), 0⟩ 1, .drop ⟨0, .arenaArc, (0, 0), 0⟩] ++
      [.arena .release] ++ List.replicate 4 (.arena .stepRelease) ++
      [.drop ⟨1, .arenaArc, (0, 0), 0⟩, .step 1] ++
      [.arena (.act (.drop 1 0 0)), .arena (.stepDrop 1 false), .arena (.stepDrop 1 false)])
    (fun s => s.arena.ending = .gone ∧ s.dropped = [0] ∧
      s.arena.state.arena.heap.freed = [.dropBlock 0])
    (fun s a ha => of_decide_eq_true ha) (by decide +kernel)
  obtain ⟨hgone, hd, hf⟩ := of_decide_eq_true hp
  exact ⟨s, hgone, hd, hf, (outliving_values_sound hs).1⟩

end SharedArena

end MemoryPools
