import MemoryPools.ValuesDropped
import MemoryPools.ArenaLifetime

/-!
# Values in an arena

The thread that has the arena allocates; handles go to other threads, and stay after the arena
was dropped.
-/

namespace MemoryPools

open Interleave

namespace Arena

def grant (s : ArenaState) : ArenaAct → Option (Addr × Nat)
  | .stepOwner =>
    match s.owner with
    | .alloc pc =>
      match (s.arena.findPlace pc).2 with
      | .ret block => some block
      | _ => none
    | _ => none
  | _ => none

def asking (s : ArenaState) : Bool :=
  match s.owner with
  | .alloc _ => true
  | _ => false

/-- Thread `o` has the arena. -/
def lender (o : Tid) : Lender ArenaState ArenaAct (Addr × Nat) where
  machine := machine
  part
    | .alloc => .asks o
    | .shrink | .release => .begins o
    | .stepOwner => .goesOn o
    | .drop t page index => .givesBack t (page, index)
    | .step t _ => .goesOn t
  grant := grant
  lent := ArenaState.handles
  asking s t := t = o && asking s
  rests s t := s.threads.get t = .idle && (t ≠ o || s.owner = .idle || s.owner = .released)

variable {o : Tid} {s s' : ArenaState}

theorem asking_lender (u : Tid) : (lender o).asking s u = true ↔ u = o ∧ asking s = true := by
  simp [lender]

theorem not_asking {arena : Arena} {handles : List (Addr × Nat)} {owner : ArenaCall}
    {threads : Store DropThread} (h : ∀ pc, owner ≠ .alloc pc) :
    asking { arena, handles, owner, threads } = false := by
  simp only [asking]

theorem asking_alloc {pc : FindPc} (h : s.owner = .alloc pc) : asking s = true := by
  simp [asking, h]

theorem effect_owner (hg : grant s .stepOwner = none) (hl : s'.handles = s.handles)
    (ha : asking s' = true → asking s = true) : (lender o).Effect s s' .stepOwner := by
  refine .of_none (t := o) rfl hg hl fun u hu => ?_
  rw [asking_lender] at hu ⊢
  exact ⟨hu.1, ha hu.2⟩

theorem effect_thread {t : Tid} {upgraded : Bool} (hl : s'.handles = s.handles)
    (ho : s'.owner = s.owner) : (lender o).Effect s s' (.step t upgraded) := by
  refine .of_none (t := t) rfl rfl hl fun u hu => ?_
  rw [asking_lender] at hu ⊢
  refine ⟨hu.1, ?_⟩
  have hsame : asking s' = asking s := by
    unfold asking
    rw [ho]
  exact hsame ▸ hu.2

theorem lender_lawful (o : Tid) : (lender o).Lawful where
  init s hs := by
    obtain ⟨cap, rfl⟩ := hs
    refine ⟨rfl, fun t => ?_⟩
    simp [lender, asking, ArenaState.start]
  step {s s' a} hr hstep := by
    have hb := (ArenaInv.of_reach hr).blocks
    cases ArenaState.moves_of_step hstep with
    | startAlloc h => exact ⟨rfl, fun u hu => .inl ((asking_lender u).mp hu).1⟩
    | startShrink h | startRelease h =>
      refine ⟨rfl, fun u hu => ?_⟩
      rw [asking_lender, not_asking (by simp)] at hu
      cases hu.2
    | startDrop h hi =>
      refine ⟨List.perm_cons_erase hi, fun u hu => ?_⟩
      rw [asking_lender] at hu ⊢
      exact hu
    | @alloc pc arena control h hs =>
      cases control with
      | goto pc' => exact effect_owner (by simp [grant, h, hs]) rfl fun _ => asking_alloc h
      | panic => exact effect_owner (by simp [grant, h, hs]) rfl fun _ => asking_alloc h
      | ret x =>
        refine .of_some (t := o) rfl (by simp [lender, grant, h, hs])
          (fun hm => hb.not_live hs (.inl hm)) rfl ?_ fun u hu => ?_
        · exact (asking_lender o).mpr ⟨rfl, asking_alloc h⟩
        · rw [asking_lender] at hu
          cases hu.2
    | @shrink pc arena control h hs =>
      refine effect_owner (by simp [grant, h]) ?_ fun ha => ?_
      · cases control <;> rfl
      · cases control <;> cases ha
    | @release pc arena control h hs =>
      refine effect_owner (by simp [grant, h]) ?_ fun ha => ?_
      · cases control <;> rfl
      · cases control <;> cases ha
    | giveBlock h hg => exact effect_thread rfl rfl
    | freeBlock h => exact effect_thread rfl rfl
    | push h hp => exact effect_thread rfl rfl

/-- The handles of an arena go to any number of threads, which send, clone and drop them while
the owner allocates, shrinks the arena and drops it. A handle always reads the value that was
written for it, in a block whose bits are clear in a page that was not deallocated; each value is
dropped once, when its last handle is. The cells of a deallocated page, which a late drop may still
use, stay in the model, and its address is not used again. -/
theorem sent_values_sound {o : Tid} {s : ValueState ArenaState (Addr × Nat)}
    (h : (valueMachine (lender o) arenaKinds).Reach ValueState.fewHandles s) :
    s.Sound (lender o) ∧
    ∀ g ∈ s.handles, g.block.1 < s.arena.arena.heap.size ∧ g.block.2 < 63 ∧
      s.arena.Clear g.block.1 g.block.2 ∧
      g.block.1 ∉ s.arena.arena.heap.freed.map Freed.page := by
  obtain ⟨hc, hand, hi⟩ := ValueState.invs_of_reach (lender_lawful o) h
  have hsound := ValueState.sound hc hi
  have hb := (ArenaInv.of_reach hc.arena).blocks
  refine ⟨hsound, fun g hg => ?_⟩
  have hlive : s.arena.Live g.block.1 g.block.2 := .inl (hsound.reads g hg).2
  exact ⟨hb.lt _ _ hlive, hb.index _ _ hlive, hb.clear _ _ hlive,
    (LifetimeInv.of_reach hc.arena).dues.not_freed hlive⟩

/-- An `ArenaBox` is sent to thread 1, which drops it when the arena is gone. -/
theorem sent_values_sound_outlived : ∃ s : ValueState ArenaState (Addr × Nat),
    s.arena.owner = .released ∧ s.dropped = [0] ∧ s.arena.arena.heap.freed = [.dropBlock 0] ∧
    s.Sound (lender 0) := by
  have hstart : (valueMachine (lender 0) arenaKinds).init (.start (.start 1)) := ⟨_, ⟨1, rfl⟩, rfl⟩
  obtain ⟨s, hs, hp⟩ := Machine.Reach.exists_of_runIf hstart (fun s a => decide (s.fewHandles a))
    ([.alloc .arenaBox .alloc] ++ List.replicate 2 (.arena .stepOwner) ++ [.step 0, .step 0] ++
      [.send ⟨0, .arenaBox, (0, 0), 0⟩ 1, .drop ⟨1, .arenaBox, (0, 0), 0⟩] ++
      [.arena .release, .arena .stepOwner, .arena .stepOwner, .step 1, .arena .stepOwner, .step 1] ++
      [.arena (.drop 1 0 0), .arena (.step 1 false), .arena (.step 1 false)])
    (fun s => s.arena.owner = .released ∧ s.dropped = [0] ∧ s.arena.arena.heap.freed = [.dropBlock 0])
    (fun s a ha => of_decide_eq_true ha) (by decide +kernel)
  obtain ⟨ho, hd, hf⟩ := of_decide_eq_true hp
  exact ⟨s, ho, hd, hf, (sent_values_sound hs).1⟩

end Arena

end MemoryPools
