import MemoryPools.Common
import MemoryPools.Interleave.Machine

/-!
# Handles and the counter of their block

`arena_box.rs`, `arena_rc.rs`, `arena_arc.rs` and the `PoolBox` of `pool.rs`. The four
kinds of handles count in one `usize` of the block. A `PoolBox` and an `ArenaRc` stay
in their thread and count without atomic operations, so their calls are one step.
-/

namespace MemoryPools

open Interleave

def isizeMax : Nat := 2 ^ 63 - 1

inductive NewPc
  | load
  | store
  deriving DecidableEq

inductive HandleDropPc
  | load
  | store
  deriving DecidableEq

def newAtomic (counter : Nat) : NewPc → Nat × Control NewPc Unit
  | .load => (counter, if counter = 0 then .goto .store else .panic)
  | .store => (1, .ret ())

def newMut (counter : Nat) : Nat × Control NewPc Unit :=
  if counter = 0 then (1, .ret ()) else (counter, .panic)

/-! The result of a `drop` says whether it calls `Block::drop_block`. -/

namespace PoolBox

def new := newMut

def drop (counter : Nat) : Nat × Control HandleDropPc Bool :=
  if counter = 1 then (0, .ret true) else (counter, .panic)

end PoolBox

namespace ArenaBox

def new := newAtomic

def drop (counter : Nat) : HandleDropPc → Nat × Control HandleDropPc Bool
  | .load => (counter, if counter = 1 then .goto .store else .panic)
  | .store => (0, .ret true)

end ArenaBox

namespace ArenaRc

def new := newMut

def clone (counter : Nat) : Nat × Bool :=
  if counter < isizeMax then (counter + 1, true) else (counter, false)

/-- The decision reads the new value. -/
def drop (counter : Nat) : Nat × Control HandleDropPc Bool :=
  if counter = 0 then (counter, .panic) else (counter - 1, .ret (counter - 1 = 0))

end ArenaRc

namespace ArenaArc

def new := newAtomic

/-- The counter after `fetch_add`, and whether the assertion on the old value holds. -/
def clone (counter : Nat) : Nat × Bool := ((counter + 1) % 2 ^ 64, counter < isizeMax)

/-- The decision reads the old value of `fetch_sub`. -/
def drop (counter : Nat) : Nat × Control HandleDropPc Bool :=
  ((counter + (2 ^ 64 - 1)) % 2 ^ 64, .ret (counter = 1))

end ArenaArc

inductive HandleKind
  | poolBox
  | arenaBox
  | arenaRc
  | arenaArc
  deriving DecidableEq

namespace HandleKind

def new : HandleKind → Nat → NewPc → Nat × Control NewPc Unit
  | .poolBox, counter, _ => PoolBox.new counter
  | .arenaBox, counter, pc => ArenaBox.new counter pc
  | .arenaRc, counter, _ => ArenaRc.new counter
  | .arenaArc, counter, pc => ArenaArc.new counter pc

def cloneable : HandleKind → Bool
  | .arenaRc | .arenaArc => true
  | .poolBox | .arenaBox => false

def clone : HandleKind → Nat → Nat × Bool
  | .arenaRc, counter => ArenaRc.clone counter
  | .arenaArc, counter => ArenaArc.clone counter
  | .poolBox, counter | .arenaBox, counter => (counter, false)

def drop : HandleKind → Nat → HandleDropPc → Nat × Control HandleDropPc Bool
  | .poolBox, counter, _ => PoolBox.drop counter
  | .arenaBox, counter, pc => ArenaBox.drop counter pc
  | .arenaRc, counter, _ => ArenaRc.drop counter
  | .arenaArc, counter, _ => ArenaArc.drop counter

/-- `Send`, and `Sync`, for a `T` that has them. -/
def crosses : HandleKind → Bool
  | .arenaBox | .arenaArc => true
  | .poolBox | .arenaRc => false

end HandleKind

/-! ## What the operations do to the counter -/

namespace HandleKind

variable {kind : HandleKind} {counter : Nat}

theorem new_load : kind.new 0 .load = (1, .ret ()) ∨ kind.new 0 .load = (0, .goto .store) := by
  cases kind with
  | poolBox | arenaRc => exact Or.inl rfl
  | arenaBox | arenaArc => exact Or.inr rfl

theorem new_store : kind.new 0 .store = (1, .ret ()) := by
  cases kind <;> rfl

theorem clone_of_lt (hc : kind.cloneable = true) (h : counter < isizeMax) :
    kind.clone counter = (counter + 1, true) := by
  cases kind with
  | poolBox | arenaBox => cases hc
  | arenaRc => simp only [clone, ArenaRc.clone, h, ite_true]
  | arenaArc =>
    have hmod : (counter + 1) % 2 ^ 64 = counter + 1 := by
      apply Nat.mod_eq_of_lt
      unfold isizeMax at h
      omega
    simp only [clone, ArenaArc.clone, h, hmod, decide_true]

theorem drop_load : kind.drop 1 .load = (0, .ret true) ∨
    kind.drop 1 .load = (1, .goto .store) ∧ kind.cloneable = false := by
  cases kind with
  | poolBox | arenaRc | arenaArc => exact Or.inl rfl
  | arenaBox => exact Or.inr ⟨rfl, rfl⟩

theorem drop_store : kind.drop 1 .store = (0, .ret true) := by
  cases kind <;> rfl

/-- The old value and the new one agree on whether other handles are left. -/
theorem drop_of_pos (hc : kind.cloneable = true) (h0 : 0 < counter) (h : counter ≤ isizeMax)
    (pc : HandleDropPc) : kind.drop counter pc = (counter - 1, .ret (counter = 1)) := by
  cases kind with
  | poolBox | arenaBox => cases hc
  | arenaRc =>
    have hne : counter ≠ 0 := by omega
    have hlast : counter - 1 = 0 ↔ counter = 1 := by omega
    simp only [drop, ArenaRc.drop, hne, hlast, ite_false]
  | arenaArc =>
    have hmod : (counter + (2 ^ 64 - 1)) % 2 ^ 64 = counter - 1 := by
      unfold isizeMax at h
      omega
    simp only [drop, ArenaArc.drop, hmod]

theorem drop_of_many (hc : kind.cloneable = true) (h1 : 1 < counter) (h : counter < isizeMax)
    (pc : HandleDropPc) : kind.drop counter pc = (counter - 1, .ret false) := by
  have hlast : ¬ counter = 1 := by omega
  rw [drop_of_pos hc (by omega) (by omega) pc]
  simp only [hlast, decide_false]

end HandleKind

/-! ## The machine of one block -/

inductive HandleCall
  | idle
  | new (pc : NewPc)
  | drop (pc : HandleDropPc)
  -- the call of `Block::drop_block`
  | dropBlock
  | panicked
  deriving DecidableEq

instance : Inhabited HandleCall := ⟨.idle⟩

structure BlockState where
  counter : Nat
  kind : HandleKind
  -- the thread that owns it, for each handle
  handles : List Tid
  -- the bit of the block
  free : Bool
  lives : Nat
  -- the calls of `Block::drop_block`
  calls : Nat
  threads : Store HandleCall

inductive HandleAct
  | alloc (t : Tid) (kind : HandleKind)
  | send (t u : Tid)
  | clone (t u : Tid)
  | drop (t : Tid)
  | step (t : Tid)
  deriving DecidableEq

namespace BlockState

def afterNew (s : BlockState) (t : Tid) : Nat × Control NewPc Unit → BlockState
  | (counter, .goto pc) => { s with counter, threads := s.threads.set t (.new pc) }
  | (counter, .ret ()) =>
    { s with counter, handles := t :: s.handles, threads := s.threads.set t .idle }
  | (counter, .panic) => { s with counter, threads := s.threads.set t .panicked }

def afterClone (s : BlockState) (u : Tid) : Nat × Bool → BlockState
  | (counter, true) => { s with counter, handles := u :: s.handles }
  | (counter, false) => { s with counter, threads := s.threads.set u .panicked }

def afterDrop (s : BlockState) (t : Tid) : Nat × Control HandleDropPc Bool → BlockState
  | (counter, .goto pc) => { s with counter, threads := s.threads.set t (.drop pc) }
  | (counter, .ret last) =>
    { s with
      counter
      handles := s.handles.erase t
      threads := s.threads.set t (if last then .dropBlock else .idle) }
  | (counter, .panic) => { s with counter, threads := s.threads.set t .panicked }

def stepThread (s : BlockState) (t : Tid) : Option BlockState :=
  match s.threads.get t with
  | .new pc => some (s.afterNew t (s.kind.new s.counter pc))
  | .drop pc => some (s.afterDrop t (s.kind.drop s.counter pc))
  | .dropBlock =>
    some { s with free := true, calls := s.calls + 1, threads := s.threads.set t .idle }
  | .idle | .panicked => none

def step (s : BlockState) : HandleAct → Option BlockState
  | .alloc t kind =>
    if s.threads.get t = .idle ∧ s.free = true then
      some { s with
        kind
        free := false
        lives := s.lives + 1
        threads := s.threads.set t (.new .load) }
    else none
  | .send t u =>
    if s.threads.get t = .idle ∧ t ∈ s.handles ∧ s.kind.crosses = true then
      some { s with handles := u :: s.handles.erase t }
    else none
  | .clone t u =>
    if s.threads.get u = .idle ∧ t ∈ s.handles ∧ s.kind.cloneable = true ∧
        (t = u ∨ s.kind.crosses = true) then
      some (s.afterClone u (s.kind.clone s.counter))
    else none
  | .drop t =>
    if s.threads.get t = .idle ∧ t ∈ s.handles then
      some (s.afterDrop t (s.kind.drop s.counter .load))
    else none
  | .step t => s.stepThread t

def start : BlockState where
  counter := 0
  kind := .arenaBox
  handles := []
  free := true
  lives := 0
  calls := 0
  threads := Store.empty

end BlockState

def blockMachine : Machine BlockState HandleAct where
  init s := s = .start
  step := BlockState.step

def fewHandles (s : BlockState) : HandleAct → Prop
  | .clone _ _ => s.handles.length + 1 < isizeMax
  | _ => True

instance (s : BlockState) (a : HandleAct) : Decidable (fewHandles s a) := by
  unfold fewHandles
  split <;> infer_instance

/-! ## The law -/

inductive Phase
  | free
  | constructing (t : Tid) (pc : NewPc)
  | shared
  -- an `ArenaBox` between its load and its store
  | closing (t : Tid)
  | dropping (t : Tid)

namespace Phase

def call : Phase → Tid → HandleCall
  | .free, _ | .shared, _ => .idle
  | .constructing t pc, u => if u = t then .new pc else .idle
  | .closing t, u => if u = t then .drop .store else .idle
  | .dropping t, u => if u = t then .dropBlock else .idle

def isFree : Phase → Bool
  | .free => true
  | _ => false

def Handles : Phase → List Tid → Prop
  | .free, l | .constructing _ _, l | .dropping _, l => l = []
  | .shared, l => l ≠ []
  | .closing t, l => l = [t]

end Phase

structure CounterInv (s : BlockState) (phase : Phase) : Prop where
  counter : s.counter = s.handles.length
  small : s.handles.length < isizeMax
  sole : 1 < s.handles.length → s.kind.cloneable = true
  closing : ∀ t, phase = .closing t → s.kind.cloneable = false
  free : s.free = phase.isFree
  handles : phase.Handles s.handles
  calls : s.lives = s.calls + if s.free then 0 else 1
  threads : ∀ u, s.threads.get u = phase.call u

namespace CounterInv

variable {s s' : BlockState} {phase : Phase} {t u : Tid}

theorem start : CounterInv .start .free where
  counter := rfl
  small := by decide
  sole h := absurd h (Nat.not_lt_zero 1)
  closing t e := by cases e
  free := rfl
  handles := rfl
  calls := rfl
  threads u := Store.get_empty u

theorem threads_set {c : HandleCall} {phase' : Phase} (h : CounterInv s phase)
    (ht : phase'.call t = c) (hother : ∀ u, u ≠ t → phase'.call u = phase.call u) (u : Tid) :
    (s.threads.set t c).get u = phase'.call u := by
  rw [Store.get_set]
  by_cases e : u = t
  · rw [if_pos e, e, ht]
  · rw [if_neg e, hother u e]
    exact h.threads u

theorem shared_of_idle (h : CounterInv s phase) (hi : s.threads.get t = .idle)
    (ht : t ∈ s.handles) : phase = .shared := by
  have hhandles := h.handles
  cases phase with
  | shared => rfl
  | free | constructing | dropping =>
    rw [show s.handles = [] from hhandles] at ht
    cases ht
  | closing v =>
    rw [show s.handles = [v] from hhandles, List.mem_singleton] at ht
    have hcall := h.threads t
    rw [hi, ht] at hcall
    simp [Phase.call] at hcall

theorem counter_zero (h : CounterInv s phase) (hnil : s.handles = []) : s.counter = 0 := by
  rw [h.counter, hnil]
  rfl

theorem alloc {kind : HandleKind} (h : CounterInv s phase) (hfree : s.free = true) :
    CounterInv { s with
      kind
      free := false
      lives := s.lives + 1
      threads := s.threads.set t (.new .load) } (.constructing t .load) := by
  have hphase : phase.isFree = true := h.free ▸ hfree
  cases phase with
  | constructing | shared | closing | dropping => cases hphase
  | free =>
    have hnil : s.handles = [] := h.handles
    refine ⟨h.counter, h.small, fun h1 => ?_, fun _ e => (by cases e), rfl, hnil, ?_, ?_⟩
    · rw [hnil] at h1
      exact absurd h1 (Nat.not_lt_zero 1)
    · have hcalls := h.calls
      rw [hfree] at hcalls
      exact congrArg (· + 1) hcalls
    · apply h.threads_set
      · exact if_pos rfl
      · intro u hu
        exact if_neg hu

theorem new {pc : NewPc} (h : CounterInv s (.constructing t pc)) :
    ∃ phase, CounterInv (s.afterNew t (s.kind.new s.counter pc)) phase := by
  have hnil : s.handles = [] := h.handles
  have hmade : CounterInv (s.afterNew t (1, .ret ())) .shared := by
    have hlen : (t :: s.handles).length = 1 := by rw [hnil]; rfl
    refine ⟨hlen.symm, ?_, fun h1 => ?_, fun _ e => (by cases e), h.free, List.cons_ne_nil _ _,
      h.calls, ?_⟩
    · show (t :: s.handles).length < isizeMax
      rw [hlen]
      decide
    · have h1 : 1 < (t :: s.handles).length := h1
      omega
    · apply h.threads_set
      · rfl
      · intro u hu
        exact (if_neg hu).symm
  rw [h.counter_zero hnil]
  cases pc with
  | load =>
    rcases s.kind.new_load with e | e
    · rw [e]
      exact ⟨_, hmade⟩
    · rw [e]
      refine ⟨.constructing t .store, (h.counter_zero hnil).symm.trans h.counter, h.small, h.sole,
        fun _ e => (by cases e), h.free, hnil, h.calls, ?_⟩
      apply h.threads_set
      · exact if_pos rfl
      · intro u hu
        exact (if_neg hu).trans (if_neg hu).symm
  | store =>
    rw [s.kind.new_store]
    exact ⟨_, hmade⟩

theorem dropLast (h : CounterInv s phase) (hs : s.handles = [t]) (hfree : s.free = false)
    (hother : ∀ u, u ≠ t → phase.call u = .idle) :
    CounterInv (s.afterDrop t (0, .ret true)) (.dropping t) := by
  have hnil : s.handles.erase t = [] := by rw [hs]; simp
  refine ⟨?_, ?_, fun h1 => ?_, fun _ e => (by cases e), hfree, hnil, h.calls, ?_⟩
  · show 0 = (s.handles.erase t).length
    rw [hnil]
    rfl
  · show (s.handles.erase t).length < isizeMax
    rw [hnil]
    decide
  · have h1 : 1 < (s.handles.erase t).length := h1
    rw [hnil] at h1
    exact absurd h1 (Nat.not_lt_zero 1)
  · apply h.threads_set
    · exact if_pos rfl
    · intro u hu
      exact (if_neg hu).trans (hother u hu).symm

theorem drop (h : CounterInv s .shared) (ht : t ∈ s.handles) :
    ∃ phase, CounterInv (s.afterDrop t (s.kind.drop s.counter .load)) phase := by
  have hpos := List.length_pos_of_mem ht
  have hlen := List.length_erase_of_mem ht
  by_cases h1 : 1 < s.handles.length
  · -- other handles are left
    rw [h.counter, HandleKind.drop_of_many (h.sole h1) h1 h.small]
    refine ⟨.shared, hlen.symm, ?_, fun _ => h.sole h1, fun _ e => (by cases e), h.free, ?_,
      h.calls, ?_⟩
    · have := h.small
      show (s.handles.erase t).length < isizeMax
      omega
    · show s.handles.erase t ≠ []
      apply List.ne_nil_of_length_pos
      omega
    · exact h.threads_set rfl fun u hu => rfl
  · have hone : s.handles.length = 1 := by omega
    have hs : s.handles = [t] := by
      obtain ⟨v, hv⟩ := List.length_eq_one_iff.mp hone
      rw [hv, List.mem_singleton] at ht
      rw [hv, ht]
    rw [h.counter, hone]
    rcases s.kind.drop_load with e | ⟨e, hbox⟩
    · rw [e]
      exact ⟨_, h.dropLast hs h.free fun _ _ => rfl⟩
    · rw [e]
      refine ⟨.closing t, hone.symm, h.small, h.sole, fun _ _ => hbox, h.free, hs, h.calls, ?_⟩
      apply h.threads_set
      · exact if_pos rfl
      · intro u hu
        exact if_neg hu

theorem clone (h : CounterInv s .shared) (hc : s.kind.cloneable = true)
    (hfew : s.handles.length + 1 < isizeMax) :
    CounterInv (s.afterClone u (s.kind.clone s.counter)) .shared := by
  rw [h.counter, HandleKind.clone_of_lt hc h.small]
  exact ⟨rfl, hfew, fun _ => hc, fun _ e => (by cases e), h.free, List.cons_ne_nil _ _, h.calls,
    h.threads⟩

theorem send (h : CounterInv s .shared) (ht : t ∈ s.handles) :
    CounterInv { s with handles := u :: s.handles.erase t } .shared := by
  have hlen : (u :: s.handles.erase t).length = s.handles.length := by
    have hpos := List.length_pos_of_mem ht
    rw [List.length_cons, List.length_erase_of_mem ht]
    omega
  refine ⟨h.counter.trans hlen.symm, ?_, fun h1 => h.sole ?_, fun _ e => (by cases e), h.free,
    List.cons_ne_nil _ _, h.calls, h.threads⟩
  · show (u :: s.handles.erase t).length < isizeMax
    rw [hlen]
    exact h.small
  · rw [← hlen]
    exact h1

theorem stepThread (h : CounterInv s phase) (hs : s.stepThread t = some s') :
    ∃ phase, CounterInv s' phase := by
  unfold BlockState.stepThread at hs
  have hcall := h.threads t
  cases phase with
  | free | shared =>
    rw [show s.threads.get t = .idle from hcall] at hs
    cases hs
  | constructing v pc =>
    by_cases e : t = v
    · subst e
      rw [show s.threads.get t = .new pc from hcall.trans (if_pos rfl)] at hs
      obtain rfl := Option.some.inj hs
      exact h.new
    · rw [show s.threads.get t = .idle from hcall.trans (if_neg e)] at hs
      cases hs
  | closing v =>
    by_cases e : t = v
    · subst e
      rw [show s.threads.get t = .drop .store from hcall.trans (if_pos rfl)] at hs
      obtain rfl := Option.some.inj hs
      have hs : s.handles = [t] := h.handles
      rw [h.counter, hs]
      show ∃ phase, CounterInv (s.afterDrop t (s.kind.drop 1 .store)) phase
      rw [s.kind.drop_store]
      exact ⟨_, h.dropLast hs h.free fun u hu => if_neg hu⟩
    · rw [show s.threads.get t = .idle from hcall.trans (if_neg e)] at hs
      cases hs
  | dropping v =>
    by_cases e : t = v
    · subst e
      rw [show s.threads.get t = .dropBlock from hcall.trans (if_pos rfl)] at hs
      obtain rfl := Option.some.inj hs
      refine ⟨.free, h.counter, h.small, h.sole, fun _ e => (by cases e), rfl, h.handles, ?_, ?_⟩
      · have hcalls := h.calls
        rw [show s.free = false from h.free] at hcalls
        exact hcalls
      · apply h.threads_set
        · rfl
        · intro u hu
          exact (if_neg hu).symm
    · rw [show s.threads.get t = .idle from hcall.trans (if_neg e)] at hs
      cases hs

theorem step {a : HandleAct} (h : CounterInv s phase) (hfew : fewHandles s a)
    (hs : s.step a = some s') : ∃ phase, CounterInv s' phase := by
  cases a with
  | alloc t kind =>
    simp only [BlockState.step] at hs
    split at hs
    · rename_i hc
      obtain rfl := Option.some.inj hs
      exact ⟨_, h.alloc hc.2⟩
    · cases hs
  | send t u =>
    simp only [BlockState.step] at hs
    split at hs
    · rename_i hc
      obtain rfl := Option.some.inj hs
      obtain rfl := h.shared_of_idle hc.1 hc.2.1
      exact ⟨_, h.send hc.2.1⟩
    · cases hs
  | clone t u =>
    simp only [BlockState.step] at hs
    split at hs
    · rename_i hc
      obtain rfl := Option.some.inj hs
      obtain ⟨hidle, ht, hkind, -⟩ := hc
      cases phase with
      | free | constructing | dropping =>
        rw [show s.handles = [] from h.handles] at ht
        cases ht
      | closing v =>
        rw [h.closing v rfl] at hkind
        cases hkind
      | shared => exact ⟨_, h.clone hkind hfew⟩
    · cases hs
  | drop t =>
    simp only [BlockState.step] at hs
    split at hs
    · rename_i hc
      obtain rfl := Option.some.inj hs
      obtain rfl := h.shared_of_idle hc.1 hc.2
      exact h.drop hc.2
    · cases hs
  | step t => exact h.stepThread hs

theorem of_reach (h : blockMachine.Reach fewHandles s) : ∃ phase, CounterInv s phase := by
  apply h.invariant
  · intro s hs
    obtain rfl : s = .start := hs
    exact ⟨_, start⟩
  · intro s a s' _ hi hc hs
    obtain ⟨phase, hi⟩ := hi
    exact hi.step hc hs

end CounterInv

/-- The counter is the number of handles. `Block::drop_block` is called when no handle is
left, by one thread, once for each time that the block was allocated; it finds the counter
at zero, and so does the next constructor, whose assertion holds. -/
theorem reference_counting {s : BlockState} (h : blockMachine.Reach fewHandles s) :
    s.counter = s.handles.length ∧
    (∀ t, s.threads.get t = .dropBlock → s.handles = [] ∧ s.counter = 0 ∧
      ∀ u, u ≠ t → s.threads.get u = .idle) ∧
    (s.lives = s.calls + if s.free then 0 else 1) ∧
    (s.handles = [] → (∀ t, s.threads.get t = .idle) → s.lives = s.calls) ∧
    (∀ t pc, s.threads.get t = .new pc → s.counter = 0) ∧
    ∀ t, s.threads.get t ≠ .panicked := by
  obtain ⟨phase, hi⟩ := CounterInv.of_reach h
  refine ⟨hi.counter, fun t ht => ?_, hi.calls, fun hnil hidle => ?_, fun t pc ht => ?_,
    fun t ht => ?_⟩
  · have hcall := hi.threads t
    rw [ht] at hcall
    cases phase with
    | dropping v =>
      have hv : t = v := by
        by_contra e
        simp [Phase.call, e] at hcall
      subst hv
      exact ⟨hi.handles, hi.counter_zero hi.handles, fun u hu => (hi.threads u).trans (if_neg hu)⟩
    | free | shared => cases hcall
    | constructing | closing =>
      simp only [Phase.call] at hcall
      split at hcall <;> cases hcall
  · have hcalls := hi.calls
    have hfree := hi.free
    cases phase with
    | free =>
      rw [show s.free = true from hfree] at hcalls
      exact hcalls
    | shared => exact absurd hnil hi.handles
    | constructing v pc | closing v | dropping v =>
      have hcall := hi.threads v
      rw [hidle v] at hcall
      simp [Phase.call] at hcall
  · have hcall := hi.threads t
    rw [ht] at hcall
    cases phase with
    | constructing v pc' => exact hi.counter_zero hi.handles
    | free | shared => cases hcall
    | closing | dropping =>
      simp only [Phase.call] at hcall
      split at hcall <;> cases hcall
  · have hcall := hi.threads t
    rw [ht] at hcall
    cases phase with
    | free | shared => cases hcall
    | constructing | closing | dropping =>
      simp only [Phase.call] at hcall
      split at hcall <;> cases hcall

/-- A block is an `ArenaArc` cloned in another thread, then an `ArenaBox`. -/
theorem reference_counting_reuse : ∃ s : BlockState,
    s.threads.get 2 = .dropBlock ∧ s.lives = 2 ∧ s.calls = 1 ∧ s.handles = [] ∧ s.counter = 0 := by
  have hstart : blockMachine.init .start := rfl
  obtain ⟨s, hs, hp⟩ := Machine.Reach.exists_of_runIf hstart (fun s a => decide (fewHandles s a))
    [.alloc 0 .arenaArc, .step 0, .step 0, .clone 0 1, .drop 0, .drop 1, .step 1,
      .alloc 1 .arenaBox, .step 1, .step 1, .send 1 2, .drop 2, .step 2]
    (fun s => s.threads.get 2 = .dropBlock ∧ s.lives = 2 ∧ s.calls = 1)
    (fun _ _ h => of_decide_eq_true h) (by decide +kernel)
  obtain ⟨ht, hlives, hcalls⟩ := of_decide_eq_true hp
  obtain ⟨hnil, hcounter, -⟩ := (reference_counting hs).2.1 2 ht
  exact ⟨s, ht, hlives, hcalls, hnil, hcounter⟩

end MemoryPools
