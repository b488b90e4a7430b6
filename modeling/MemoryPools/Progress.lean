import MemoryPools.Arena
import MemoryPools.SharedArenaSound
import MemoryPools.Interleave.Progress

/-!
# Drops get on

`drop_block` has one loop, the push on the pending list. A thread goes around once more only if
the list was changed between its load and its `compare_exchange`, so another thread has
got on.
-/

namespace MemoryPools

open Interleave

/-- The operations that a push still takes if the pending list stays as it is. -/
def PushPc.left (pending : Ptr) : PushPc → Nat
  | .loadInFree => 6
  | .swapInFree => 5
  | .upgrade => 4
  | .loadPending => 3
  | .storeNextFree current => if current = pending then 2 else 5
  | .casPending current => if current = pending then 1 else 4

def DropPc.left (pending : Ptr) : DropPc → Nat
  | .fetchAdd => 7
  | .deallocate => 1
  | .push pc => pc.left pending

theorem DropPc.left_le (pc : DropPc) (pending pending' : Ptr) :
    pc.left pending' ≤ pc.left pending + 3 := by
  cases pc with
  | fetchAdd | deallocate => simp [left]
  | push pc =>
    cases pc with
    | loadInFree | swapInFree | upgrade | loadPending => simp [left, PushPc.left]
    | storeNextFree current | casPending current =>
      simp only [left, PushPc.left]
      split <;> split <;> omega

/-- Each operation of a push that goes on leaves one less. -/
theorem PageLinks.left_push {self : Addr} {upgraded : Bool} {links links' : PageLinks}
    {pending pending' : Ptr} {pc pc' : PushPc}
    (h : links.push self upgraded pending pc = (links', pending', .goto pc')) :
    pc'.left pending' + 1 ≤ pc.left pending := by
  cases pc with
  | loadInFree | swapInFree =>
    simp only [push, Prod.mk.injEq] at h
    obtain ⟨-, -, h⟩ := h
    split at h
    · cases h
    · cases h
      simp [PushPc.left]
  | upgrade =>
    simp only [push, Prod.mk.injEq] at h
    obtain ⟨-, -, h⟩ := h
    split at h
    · cases h
      simp [PushPc.left]
    · cases h
  | loadPending =>
    cases h
    simp [PushPc.left]
  | storeNextFree current =>
    cases h
    simp only [PushPc.left]
    split <;> omega
  | casPending current =>
    by_cases e : pending = current
    · simp [push, e] at h
    · simp only [push, if_neg e] at h
      cases h
      simp [PushPc.left, Ne.symm e]

theorem DropPc.left_push {self : Addr} {upgraded : Bool} {links links' : PageLinks}
    {pending pending' : Ptr} {pc : PushPc} {pc' : DropPc} {control : Control PushPc Unit}
    (h : links.push self upgraded pending pc = (links', pending', control))
    (hc : control.map DropPc.push = .goto pc') : pc'.left pending' + 1 ≤ (push pc).left pending := by
  cases control with
  | goto pc'' =>
    obtain rfl := Control.goto.inj hc
    exact PageLinks.left_push h
  | ret | panic => cases hc

theorem DropPc.left_give (last : Bool) (pending : Ptr) :
    (if last then deallocate else push .loadInFree).left pending + 1 ≤ fetchAdd.left pending := by
  cases last <;> simp [left, PushPc.left]

theorem DropPc.left_pos (pc : DropPc) (pending : Ptr) : 1 ≤ pc.left pending := by
  cases pc with
  | fetchAdd | deallocate => simp [left]
  | push pc =>
    cases pc with
    | storeNextFree | casPending =>
      simp only [left, PushPc.left]
      split <;> omega
    | loadInFree | swapInFree | upgrade | loadPending => simp [left, PushPc.left]

/-! ## In an arena -/

namespace Arena

def dropLeft (t : Tid) (s : ArenaState) : Nat :=
  match s.threads.get t with
  | .drop _ _ pc => pc.left s.arena.pendingFreeList
  | .idle => 0

def dropping (t : Tid) (s : ArenaState) : Bool :=
  match s.threads.get t with
  | .drop _ _ _ => true
  | .idle => false

def steps (t : Tid) : ArenaAct → Bool
  | .step u _ => u = t
  | _ => false

/-- Another thread changes the list of pending pages: one round of the loop. -/
def otherPush (t : Tid) (s : ArenaState) (a : ArenaAct) (s' : ArenaState) : Nat :=
  if steps t a = true ∨ s'.arena.pendingFreeList = s.arena.pendingFreeList then 0 else 3

variable {s s' : ArenaState} {t : Tid} {a : ArenaAct}

theorem dropLeft_other (hth : s'.threads.get t = s.threads.get t) (ha : steps t a = false) :
    dropLeft t s' + (if steps t a = true then 1 else 0) ≤ dropLeft t s + otherPush t s a s' := by
  unfold dropLeft otherPush
  rw [hth, ha]
  cases s.threads.get t with
  | idle => simp
  | drop p i pc =>
    by_cases e : s'.arena.pendingFreeList = s.arena.pendingFreeList
    · simp [e]
    · have := pc.left_le s.arena.pendingFreeList s'.arena.pendingFreeList
      simpa [e] using this

theorem dropLeft_own {p : Addr} {i : Nat} {pc : DropPc} {c : DropThread} {arena : Arena}
    (ha : steps t a = true) (ht : s.threads.get t = .drop p i pc)
    (hd : dropping t { s with arena, threads := s.threads.set t c } = true)
    (hc : ∀ q j pc', c = .drop q j pc' →
      pc'.left arena.pendingFreeList + 1 ≤ pc.left s.arena.pendingFreeList) :
    dropLeft t { s with arena, threads := s.threads.set t c } + (if steps t a = true then 1 else 0) ≤
      dropLeft t s + otherPush t s a { s with arena, threads := s.threads.set t c } := by
  simp only [dropping, Store.get_set_self] at hd
  cases c with
  | idle => cases hd
  | drop q j pc' =>
    have := hc q j pc' rfl
    simp only [dropLeft, Store.get_set_self, ht, ha, if_true]
    omega

theorem dropLeft_step (hm : ArenaState.Moves s a s') (hd : dropping t s = true)
    (hd' : dropping t s' = true) :
    dropLeft t s' + (if steps t a = true then 1 else 0) ≤ dropLeft t s + otherPush t s a s' := by
  cases hm with
  | startAlloc | startShrink | startRelease => exact dropLeft_other rfl rfl
  | @alloc pc arena control ho hs => exact dropLeft_other (by cases control <;> rfl) rfl
  | @shrink pc arena control ho hs => exact dropLeft_other (by cases control <;> rfl) rfl
  | @release pc arena control ho hs => exact dropLeft_other (by cases control <;> rfl) rfl
  | @startDrop u p i h hi =>
    have hne : t ≠ u := by
      intro e
      simp [dropping, e, h] at hd
    exact dropLeft_other (Store.get_set_ne _ _ hne) rfl
  | @giveBlock u upgraded p i page last h hg =>
    by_cases e : u = t
    · subst e
      refine dropLeft_own (by simp [steps]) h hd' fun q j pc' e => ?_
      cases e
      exact DropPc.left_give last _
    · exact dropLeft_other (Store.get_set_ne _ _ (Ne.symm e)) (by simp [steps, e])
  | @freeBlock u upgraded p i h =>
    by_cases e : u = t
    · subst e
      exact dropLeft_own (by simp [steps]) h hd' nofun
    · exact dropLeft_other (Store.get_set_ne _ _ (Ne.symm e)) (by simp [steps, e])
  | @push u upgraded p i pc links pending control h hp =>
    by_cases e : u = t
    · subst e
      refine dropLeft_own (by simp [steps]) h hd' fun q j pc' e => DropPc.left_push hp ?_
      cases control with
      | goto pc'' => cases e; rfl
      | ret | panic => cases e
    · exact dropLeft_other (Store.get_set_ne _ _ (Ne.symm e)) (by simp [steps, e])

theorem dropLeft_pos (hd : dropping t s = true) : 1 ≤ dropLeft t s := by
  unfold dropping at hd
  unfold dropLeft
  split at hd
  · rename_i p i pc h
    exact pc.left_pos _
  · cases hd

end Arena

/-! ## In a shared arena -/

namespace SharedArena

def dropLeft (t : Tid) (s : SharedState) : Nat :=
  match s.threads.get t with
  | .drop _ _ pc => pc.left s.arena.pendingFreeList
  | _ => 0

def dropping (t : Tid) (s : SharedState) : Bool :=
  match s.threads.get t with
  | .drop _ _ _ => true
  | _ => false

def steps (t : Tid) : SharedAct → Bool
  | .step u => u = t
  | _ => false

def otherPush (t : Tid) (s : SharedState) (a : SharedAct) (s' : SharedState) : Nat :=
  if steps t a = true ∨ s'.arena.pendingFreeList = s.arena.pendingFreeList then 0 else 3

variable {s s' : SharedState} {t u : Tid} {a : SharedAct} {arena : SharedArena}
  {handles : List (Addr × Nat)} {c : SharedCall}

theorem dropLeft_other (hth : s'.threads.get t = s.threads.get t) (ha : steps t a = false) :
    dropLeft t s' + (if steps t a = true then 1 else 0) ≤ dropLeft t s + otherPush t s a s' := by
  have hleft : ∀ c : SharedCall, (match c with | .drop _ _ pc => pc.left s'.arena.pendingFreeList | _ => 0) ≤
      (match c with | .drop _ _ pc => pc.left s.arena.pendingFreeList | _ => 0) +
        if s'.arena.pendingFreeList = s.arena.pendingFreeList then 0 else 3 := by
    intro c
    cases c with
    | idle | panicked | alloc _ | shrink _ => simp
    | drop p i pc =>
      by_cases e : s'.arena.pendingFreeList = s.arena.pendingFreeList
      · simp [e]
      · have := pc.left_le s.arena.pendingFreeList s'.arena.pendingFreeList
        simpa [e] using this
  unfold dropLeft otherPush
  rw [hth, ha]
  simpa using hleft (s.threads.get t)

theorem dropLeft_own {p : Addr} {i : Nat} {pc : DropPc} (ha : steps t a = true)
    (ht : s.threads.get t = .drop p i pc)
    (hd : dropping t { arena, handles, threads := s.threads.set t c } = true)
    (hc : ∀ q j pc', c = .drop q j pc' →
      pc'.left arena.pendingFreeList + 1 ≤ pc.left s.arena.pendingFreeList) :
    dropLeft t { arena, handles, threads := s.threads.set t c } + (if steps t a = true then 1 else 0) ≤
      dropLeft t s + otherPush t s a { arena, handles, threads := s.threads.set t c } := by
  simp only [dropping, Store.get_set_self] at hd
  cases c with
  | idle | panicked | alloc _ | shrink _ => cases hd
  | drop q j pc' =>
    have := hc q j pc' rfl
    simp only [dropLeft, Store.get_set_self, ht, ha, if_true]
    omega

theorem ne_of_dropping (hd : dropping t s = true)
    (hu : ∀ p i pc, s.threads.get u ≠ .drop p i pc) : t ≠ u := by
  intro e
  unfold dropping at hd
  split at hd
  · rename_i p i pc h
    exact hu p i pc (e ▸ h)
  · cases hd

theorem dropLeft_step (hm : SharedState.Moves s a s') (hd : dropping t s = true)
    (hd' : dropping t s' = true) :
    dropLeft t s' + (if steps t a = true then 1 else 0) ≤ dropLeft t s + otherPush t s a s' := by
  cases hm with
  | startAlloc h | startShrink h | startDrop h =>
    exact dropLeft_other (Store.get_set_ne _ _ (ne_of_dropping hd (by simp [h]))) rfl
  | @alloc u pc arena control h hs =>
    have hne := ne_of_dropping (u := u) hd (by simp [h])
    exact dropLeft_other (Store.get_set_ne _ _ hne) (by simp [steps, Ne.symm hne])
  | @shrink u pc arena control h hs =>
    have hne := ne_of_dropping (u := u) hd (by simp [h])
    exact dropLeft_other (Store.get_set_ne _ _ hne) (by simp [steps, Ne.symm hne])
  | @giveBlock u p i page last h hg =>
    by_cases e : u = t
    · subst e
      refine dropLeft_own (by simp [steps]) h hd' fun q j pc' e => ?_
      cases e
      exact DropPc.left_give last _
    · exact dropLeft_other (Store.get_set_ne _ _ (Ne.symm e)) (by simp [steps, e])
  | @freeBlock u p i h =>
    by_cases e : u = t
    · subst e
      exact dropLeft_own (by simp [steps]) h hd' nofun
    · exact dropLeft_other (Store.get_set_ne _ _ (Ne.symm e)) (by simp [steps, e])
  | @push u p i pc links pending control h hp =>
    by_cases e : u = t
    · subst e
      refine dropLeft_own (by simp [steps]) h hd' fun q j pc' e => DropPc.left_push hp ?_
      cases control with
      | goto pc'' => cases e; rfl
      | ret | panic => cases e
    · exact dropLeft_other (Store.get_set_ne _ _ (Ne.symm e)) (by simp [steps, e])

theorem dropLeft_pos (hd : dropping t s = true) : 1 ≤ dropLeft t s := by
  unfold dropping at hd
  unfold dropLeft
  split at hd
  · rename_i p i pc h
    exact pc.left_pos _
  · cases hd

end SharedArena

/-! ## The bound -/

/-- A drop is over within seven operations of its thread, and three more for each time that another
thread changes the list of pending pages meanwhile. -/
theorem drops_lock_free :
    (∀ {s s' : ArenaState} {t : Tid} {p : Addr} {i : Nat} {as : List ArenaAct},
      Arena.machine.Reach Machine.always s → s.threads.get t = .drop p i .fetchAdd →
      Arena.machine.run s as = some s' →
      7 + Arena.machine.spent (Arena.otherPush t) s as ≤ as.countP (Arena.steps t) →
      Arena.machine.Ends (Arena.dropping t) s as) ∧
    ∀ {s s' : SharedState} {t : Tid} {p : Addr} {i : Nat} {as : List SharedAct},
      SharedArena.machine.Reach Machine.always s → s.threads.get t = .drop p i .fetchAdd →
      SharedArena.machine.run s as = some s' →
      7 + SharedArena.machine.spent (SharedArena.otherPush t) s as ≤ as.countP (SharedArena.steps t) →
      SharedArena.machine.Ends (SharedArena.dropping t) s as := by
  -- the last operation ends the drop, so six are left before it
  constructor
  · intro s s' t p i as h ht hr hmany
    have hmany : 6 + Arena.machine.spent (Arena.otherPush t) s as < as.countP (Arena.steps t) := by
      omega
    refine Machine.ends_of_spent (L := fun s n => Arena.dropLeft t s ≤ n + 1) ?_ h
      (by simp [Arena.dropping, ht]) (by simp [Arena.dropLeft, DropPc.left, ht]) hr hmany
    intro s s' a n _ hs hc hc' hn
    have hstep := Arena.dropLeft_step (ArenaState.moves_of_step hs) hc hc'
    have hpos := Arena.dropLeft_pos hc'
    exact ⟨Arena.dropLeft t s' - 1, by omega, by omega⟩
  · intro s s' t p i as h ht hr hmany
    have hmany : 6 + SharedArena.machine.spent (SharedArena.otherPush t) s as <
        as.countP (SharedArena.steps t) := by omega
    refine Machine.ends_of_spent (L := fun s n => SharedArena.dropLeft t s ≤ n + 1) ?_ h
      (by simp [SharedArena.dropping, ht]) (by simp [SharedArena.dropLeft, DropPc.left, ht]) hr hmany
    intro s s' a n _ hs hc hc' hn
    have hstep := SharedArena.dropLeft_step (SharedState.moves_of_step hs) hc hc'
    have hpos := SharedArena.dropLeft_pos hc'
    exact ⟨SharedArena.dropLeft t s' - 1, by omega, by omega⟩

/-- Thread 2 pushes another page before the `compare_exchange` of thread 1, whose drop is over
within ten operations. -/
theorem drops_lock_free_retry : ∃ (s : SharedState) (as : List SharedAct),
    s.threads.get 1 = .drop 0 0 .fetchAdd ∧ as.countP (SharedArena.steps 1) = 10 ∧
    SharedArena.machine.spent (SharedArena.otherPush 1) s as = 3 ∧
    SharedArena.machine.Ends (SharedArena.dropping 1) s as := by
  have hstart : SharedArena.machine.init (.start 126) := ⟨126, rfl⟩
  let as : List SharedAct := SharedAct.steps 1 6 ++ SharedAct.drops 2 1 0 7 ++ SharedAct.steps 1 4
  have hown : as.countP (SharedArena.steps 1) = 10 := by decide
  obtain ⟨s, hs, hp⟩ := Machine.Reach.exists_of_runIf hstart (fun _ _ => true)
    (SharedAct.takes 0 63 ++ SharedAct.allocs 0 8 ++ SharedAct.takes 0 62 ++ SharedAct.allocs 0 22 ++
      [.drop 1 0 0])
    (fun s => s.threads.get 1 = .drop 0 0 .fetchAdd ∧
      SharedArena.machine.spent (SharedArena.otherPush 1) s as = 3 ∧
      (SharedArena.machine.run s as).isSome = true) (fun _ _ _ => trivial) (by decide +kernel)
  obtain ⟨ht, hcost, hr⟩ := of_decide_eq_true hp
  obtain ⟨s', hr⟩ := Option.isSome_iff_exists.mp hr
  exact ⟨s, as, ht, hown, hcost, drops_lock_free.2 hs ht hr (by rw [hcost, hown])⟩

end MemoryPools
