import MemoryPools.Handles
import MemoryPools.Interleave.Answers

/-!
# `ArenaRc` and `ArenaArc` on the same operations

The handles of one block in one thread are cloned, forgotten and dropped. The assertion of
`ArenaRc::clone` comes before the increment and that of `ArenaArc::clone` behind it, so the
two count alike up to the first clone at the limit.
-/

namespace MemoryPools

open Interleave

/-- The counter of a block, and the number of its handles. All of them point to the block, so
it does not matter which one an operation takes. -/
structure Counting where
  counter : Nat
  handles : Nat

inductive CountAct
  | clone
  -- `mem::forget`
  | forget
  | drop
  deriving DecidableEq

/-- What an operation shows: the counter before it and after it, whether it panicked, and
whether it called `Block::drop_block`. -/
structure Seen where
  before : Nat
  counter : Nat
  panicked : Bool
  dropsBlock : Bool
  deriving DecidableEq

namespace Counting

def afterClone (s : Counting) : Nat × Bool → Counting × Seen
  | (counter, true) =>
    ({ counter, handles := s.handles + 1 },
      { before := s.counter, counter, panicked := false, dropsBlock := false })
  | (counter, false) =>
    ({ s with counter },
      { before := s.counter, counter, panicked := true, dropsBlock := false })

def afterDrop (s : Counting) : Nat × Control HandleDropPc Bool → Option (Counting × Seen)
  | (counter, .ret last) =>
    some ({ counter, handles := s.handles - 1 },
      { before := s.counter, counter, panicked := false, dropsBlock := last })
  | (counter, .panic) =>
    some ({ counter, handles := s.handles - 1 },
      { before := s.counter, counter, panicked := true, dropsBlock := false })
  -- only the drop of an `ArenaBox` has a second operation
  | (_, .goto _) => none

def step (kind : HandleKind) (s : Counting) (act : CountAct) : Option (Counting × Seen) :=
  if s.handles = 0 then none
  else
    match act with
    | .clone => some (s.afterClone (kind.clone s.counter))
    | .forget =>
      some ({ s with handles := s.handles - 1 },
        { before := s.counter, counter := s.counter, panicked := false, dropsBlock := false })
    | .drop => s.afterDrop (kind.drop s.counter .load)

def start : Counting where
  counter := 1
  handles := 1

/-! ## Below the limit -/

def AtLimit (s : Counting) (act : CountAct) : Prop :=
  act = .clone ∧ 0 < s.handles ∧ isizeMax ≤ s.counter

structure Bounded (s : Counting) : Prop where
  handles : s.handles ≤ s.counter
  counter : s.counter ≤ isizeMax

def next (s : Counting) : CountAct → Counting
  | .clone => { counter := s.counter + 1, handles := s.handles + 1 }
  | .forget => { s with handles := s.handles - 1 }
  | .drop => { counter := s.counter - 1, handles := s.handles - 1 }

def shows (s : Counting) (act : CountAct) : Seen where
  before := s.counter
  counter := (s.next act).counter
  panicked := false
  dropsBlock := act = .drop ∧ s.counter = 1

variable {s s' : Counting} {kind : HandleKind} {act : CountAct} {acts : List CountAct}

theorem bounded_start : start.Bounded := ⟨Nat.le_refl 1, by decide⟩

theorem step_none (h : s.handles = 0) : s.step kind act = none := if_pos h

theorem step_next (hc : kind.cloneable = true) (hs : s.Bounded) (hpos : 0 < s.handles)
    (hlimit : ¬ s.AtLimit act) : s.step kind act = some (s.next act, s.shows act) := by
  have hne : s.handles ≠ 0 := by omega
  have hcounter : 0 < s.counter := Nat.lt_of_lt_of_le hpos hs.handles
  cases act with
  | clone =>
    have hlt : s.counter < isizeMax := by
      by_contra h
      exact hlimit ⟨rfl, hpos, by omega⟩
    simp only [step, hne, ite_false, HandleKind.clone_of_lt hc hlt]
    rfl
  | forget =>
    simp only [step, hne, ite_false]
    rfl
  | drop =>
    simp only [step, hne, ite_false, HandleKind.drop_of_pos hc hcounter hs.counter]
    simp [afterDrop, next, shows]

theorem Bounded.next (hs : s.Bounded) (hpos : 0 < s.handles) (hlimit : ¬ s.AtLimit act) :
    (s.next act).Bounded := by
  obtain ⟨hle, hmax⟩ := hs
  cases act with
  | clone =>
    have hlt : s.counter < isizeMax := by
      by_contra h
      exact hlimit ⟨rfl, hpos, by omega⟩
    exact ⟨Nat.succ_le_succ hle, hlt⟩
  | forget => exact ⟨(Nat.sub_le _ _).trans hle, hmax⟩
  | drop => exact ⟨Nat.sub_le_sub_right hle 1, (Nat.sub_le _ _).trans hmax⟩

/-! ## At the limit -/

theorem step_rc_limit (h : s.AtLimit .clone) : s.step .arenaRc .clone = some (s,
      { before := s.counter, counter := s.counter, panicked := true, dropsBlock := false }) := by
  obtain ⟨-, hpos, hmax⟩ := h
  have hne : s.handles ≠ 0 := by omega
  have hlt : ¬ s.counter < isizeMax := Nat.not_lt.mpr hmax
  simp only [step, hne, ite_false, HandleKind.clone, ArenaRc.clone, hlt]
  rfl

theorem step_arc_limit (h : s.AtLimit .clone) (hmax : s.counter ≤ isizeMax) :
    s.step .arenaArc .clone = some ({ s with counter := s.counter + 1 },
      { before := s.counter, counter := s.counter + 1, panicked := true, dropsBlock := false }) := by
  obtain ⟨-, hpos, hle⟩ := h
  have hne : s.handles ≠ 0 := by omega
  have hlt : ¬ s.counter < isizeMax := Nat.not_lt.mpr hle
  have hmod : (s.counter + 1) % 2 ^ 64 = s.counter + 1 := by
    unfold isizeMax at hmax
    omega
  simp only [step, hne, ite_false, HandleKind.clone, ArenaArc.clone, hlt, decide_false, hmod]
  rfl

theorem parts : Parts (step .arenaRc) (step .arenaArc) (fun s t => s = t ∧ s.Bounded) AtLimit where
  together := by
    rintro s _ act ⟨rfl, hs⟩ hlimit
    by_cases h0 : s.handles = 0
    · exact Or.inl ⟨step_none h0, step_none h0⟩
    · have hpos : 0 < s.handles := Nat.pos_of_ne_zero h0
      exact Or.inr ⟨_, _, _, step_next rfl hs hpos hlimit, step_next rfl hs hpos hlimit, rfl,
        hs.next hpos hlimit⟩
  apart := by
    rintro s _ act ⟨rfl, hs⟩ hlimit
    obtain rfl := hlimit.1
    refine ⟨_, _, _, _, step_rc_limit hlimit, step_arc_limit hlimit hs.counter, ?_⟩
    simp

/-! ## The limit, from the operations alone -/

/-- Where no clone panics, each operation of `acts` finds a handle, and leaves one. -/
def Handled (s : Counting) (acts : List CountAct) : Prop :=
  ∀ l, l <+: acts → l.count .forget + l.count .drop < s.handles + l.count .clone

/-- Each clone that is reached finds the counter below the limit: what it was in `s`, one more
for each clone and one less for each drop. -/
def BelowLimit (s : Counting) (acts : List CountAct) : Prop :=
  ∀ pre, pre ++ [.clone] <+: acts → s.Handled pre →
    s.counter + pre.count .clone < isizeMax + pre.count .drop

variable {l : List CountAct}

theorem next_counter (hpos : 0 < s.counter) (act : CountAct) (l : List CountAct) :
    (s.next act).counter + l.count .clone + (act :: l).count .drop =
      s.counter + (act :: l).count .clone + l.count .drop := by
  cases act with
  | clone =>
    simp [next]
    omega
  | forget => simp [next]
  | drop =>
    simp [next]
    omega

theorem next_handles (hpos : 0 < s.handles) (act : CountAct) (l : List CountAct) :
    (s.next act).handles + l.count .clone + ((act :: l).count .forget + (act :: l).count .drop) =
      s.handles + (act :: l).count .clone + (l.count .forget + l.count .drop) := by
  cases act with
  | clone | forget | drop =>
    simp [next]
    omega

theorem handled_nil : s.Handled [] ↔ 0 < s.handles := by
  constructor
  · intro h
    exact h [] (List.prefix_refl [])
  · intro h l hl
    rw [List.prefix_nil.mp hl]
    exact h

theorem handled_cons : s.Handled (act :: l) ↔ 0 < s.handles ∧ (s.next act).Handled l := by
  constructor
  · intro h
    have hpos : 0 < s.handles := h [] List.nil_prefix
    refine ⟨hpos, fun m hm => ?_⟩
    have hcons := h (act :: m) (List.cons_prefix_cons.mpr ⟨rfl, hm⟩)
    have hnext := next_handles hpos act m
    omega
  · intro ⟨hpos, h⟩ m hm
    cases m with
    | nil => exact hpos
    | cons b m =>
      obtain ⟨rfl, htail⟩ := List.cons_prefix_cons.mp hm
      have hrest := h m htail
      have hnext := next_handles hpos b m
      omega

theorem belowLimit_cons (hs : s.handles ≤ s.counter) : s.BelowLimit (act :: acts) ↔
    ¬ s.AtLimit act ∧ (0 < s.handles → (s.next act).BelowLimit acts) := by
  constructor
  · intro h
    constructor
    · rintro ⟨rfl, hpos, hmax⟩
      have hlt : s.counter < isizeMax := h [] ⟨acts, rfl⟩ (handled_nil.mpr hpos)
      omega
    · intro hpos pre hpre hh
      have hcons := h (act :: pre) (List.cons_prefix_cons.mpr ⟨rfl, hpre⟩)
        (handled_cons.mpr ⟨hpos, hh⟩)
      have hnext := next_counter (Nat.lt_of_lt_of_le hpos hs) act pre
      omega
  · intro ⟨hlimit, hrest⟩ pre hpre hh
    cases pre with
    | nil =>
      have hact : .clone = act := (List.cons_prefix_cons.mp hpre).1
      by_contra hlt
      exact hlimit ⟨hact.symm, handled_nil.mp hh, Nat.not_lt.mp hlt⟩
    | cons b pre =>
      obtain ⟨rfl, htail⟩ := List.cons_prefix_cons.mp hpre
      obtain ⟨hpos, hh⟩ := handled_cons.mp hh
      have hlt := hrest hpos pre htail hh
      have hnext := next_counter (Nat.lt_of_lt_of_le hpos hs) b pre
      omega

/-- The run of `ArenaRc` meets no failing assertion, said without the run. -/
theorem avoids_iff (hs : s.Bounded) :
    Avoids (step .arenaRc) AtLimit s acts ↔ s.BelowLimit acts := by
  induction acts generalizing s with
  | nil =>
    refine ⟨fun _ pre hpre => ?_, fun _ => trivial⟩
    simp at hpre
  | cons act acts ih =>
    rw [belowLimit_cons hs.handles]
    constructor
    · intro ⟨hlimit, hrest⟩
      refine ⟨hlimit, fun hpos => ?_⟩
      exact (ih (hs.next hpos hlimit)).mp (hrest _ _ (step_next rfl hs hpos hlimit))
    · intro ⟨hlimit, hrest⟩
      refine ⟨hlimit, fun s' c hstep => ?_⟩
      by_cases h0 : s.handles = 0
      · rw [step_none h0] at hstep
        cases hstep
      · have hpos : 0 < s.handles := Nat.pos_of_ne_zero h0
        rw [step_next rfl hs hpos hlimit] at hstep
        cases hstep
        exact (ih (hs.next hpos hlimit)).mpr (hrest hpos)

/-! ## The two kinds -/

/-- `ArenaRc` and `ArenaArc` panic at the same operations, have the same counter after each of
them and call `Block::drop_block` in the same one, and a panic leaves the counter. -/
def Alike (acts : List CountAct) : Prop :=
  answers (step .arenaRc) start acts = answers (step .arenaArc) start acts ∧
  ∀ kind, kind.cloneable = true → ∀ seen ∈ answers (step kind) start acts,
    seen.panicked = true → seen.counter = seen.before

theorem rc_panic_keeps {seen : Seen} (h : s.step .arenaRc act = some (s', seen))
    (hp : seen.panicked = true) : seen.counter = seen.before := by
  unfold step at h
  split at h
  · cases h
  · cases act with
    | clone =>
      simp only [HandleKind.clone, ArenaRc.clone] at h
      split at h
      · cases h
        cases hp
      · cases h
        rfl
    | forget =>
      cases h
      cases hp
    | drop =>
      simp only [HandleKind.drop, ArenaRc.drop] at h
      split at h
      · cases h
        rfl
      · cases h
        cases hp

/-- `ArenaRc` and `ArenaArc` count alike exactly as long as no clone is called at the limit. -/
theorem rc_arc_alike (acts : List CountAct) : Alike acts ↔ BelowLimit start acts := by
  have hpart : answers (step .arenaRc) start acts = answers (step .arenaArc) start acts ↔
      BelowLimit start acts :=
    (parts.answers_eq_iff ⟨rfl, bounded_start⟩).trans (avoids_iff bounded_start)
  have hrc : ∀ seen ∈ answers (step .arenaRc) start acts,
      seen.panicked = true → seen.counter = seen.before := answers_forall rc_panic_keeps
  constructor
  · intro h
    exact hpart.mp h.1
  · intro h
    have hsame := hpart.mpr h
    refine ⟨hsame, fun kind hc => ?_⟩
    cases kind with
    | poolBox | arenaBox => cases hc
    | arenaRc => exact hrc
    | arenaArc =>
      rw [← hsame]
      exact hrc

/-! ## At the limit and on -/

def rounds : Nat → List CountAct
  | 0 => []
  | n + 1 => .clone :: .forget :: rounds n

/-- One clone is kept and `isize::MAX - 2` are forgotten. The next clone panics; then one of the
two handles is dropped and the other one is cloned again. -/
def pastLimit : List CountAct :=
  .clone :: (rounds (isizeMax - 2) ++ [.clone, .drop, .clone])

theorem answers_rounds {n : Nat} (hpos : 0 < s.handles) (hle : s.handles ≤ s.counter)
    (hmax : s.counter + n ≤ isizeMax) (rest : List CountAct) :
    ∃ l, ∀ kind, kind.cloneable = true → answers (step kind) s (rounds n ++ rest) =
      l ++ answers (step kind) { s with counter := s.counter + n } rest := by
  induction n generalizing s with
  | zero => exact ⟨[], fun _ _ => rfl⟩
  | succ n ih =>
    have hs : s.Bounded := ⟨hle, by omega⟩
    have hlimit : ¬ s.AtLimit .clone := by
      intro h
      have := h.2.2
      omega
    have hforget : ¬ (s.next .clone).AtLimit .forget := fun h => by cases h.1
    have hs' : (s.next .clone).Bounded := hs.next hpos hlimit
    have hpos' : 0 < (s.next .clone).handles := Nat.succ_pos _
    have hmax' : s.counter + 1 + n ≤ isizeMax := by omega
    obtain ⟨l, hl⟩ := ih (s := { s with counter := s.counter + 1 }) hpos (Nat.le_succ_of_le hle)
      hmax'
    refine ⟨s.shows .clone :: (s.next .clone).shows .forget :: l, fun kind hc => ?_⟩
    have hrest := hl kind hc
    rw [Nat.add_assoc s.counter, Nat.add_comm 1 n] at hrest
    rw [rounds, List.cons_append, List.cons_append, answers_some (step_next hc hs hpos hlimit),
      answers_some (step_next hc hs' hpos' hforget), List.cons_append, List.cons_append, ← hrest]
    rfl

/-- Both kinds panic at the first clone at the limit. `ArenaArc` has counted it, so it panics
again where `ArenaRc` does not. -/
theorem answers_pastLimit :
    ∃ l, answers (step .arenaRc) start pastLimit = l ++ [
        { before := isizeMax, counter := isizeMax, panicked := true, dropsBlock := false },
        { before := isizeMax, counter := isizeMax - 1, panicked := false, dropsBlock := false },
        { before := isizeMax - 1, counter := isizeMax, panicked := false, dropsBlock := false }] ∧
      answers (step .arenaArc) start pastLimit = l ++ [
        { before := isizeMax, counter := isizeMax + 1, panicked := true, dropsBlock := false },
        { before := isizeMax + 1, counter := isizeMax, panicked := false, dropsBlock := false },
        { before := isizeMax, counter := isizeMax + 1, panicked := true, dropsBlock := false }] := by
  have hlimit : ¬ start.AtLimit .clone := fun h => absurd h.2.2 (by decide)
  have hstep : ∀ kind, kind.cloneable = true →
      step kind start .clone = some ({ counter := 2, handles := 2 }, start.shows .clone) :=
    fun kind hc => step_next hc bounded_start (Nat.zero_lt_one) hlimit
  obtain ⟨l, hl⟩ := answers_rounds (s := { counter := 2, handles := 2 }) (n := isizeMax - 2)
    Nat.zero_lt_two (Nat.le_refl 2) (by decide) [.clone, .drop, .clone]
  refine ⟨start.shows .clone :: l, ?_, ?_⟩
  · rw [pastLimit, answers_some (hstep .arenaRc rfl), hl .arenaRc rfl]
    rfl
  · rw [pastLimit, answers_some (hstep .arenaArc rfl), hl .arenaArc rfl]
    rfl

/-- The third operation from the end leaves another counter, and the last one panics for one
kind only. -/
theorem rc_arc_differ : ¬ Alike pastLimit := by
  intro h
  obtain ⟨l, hrc, harc⟩ := answers_pastLimit
  have hsame := h.1
  rw [hrc, harc] at hsame
  exact absurd (List.append_cancel_left hsame) (by decide)

/-- While the counter is above the number of handles, it does not come back to zero. -/
theorem arc_never_last (h : s.handles < s.counter)
    (hfew : s.counter + acts.count .clone < 2 ^ 64) :
    ∀ seen ∈ answers (step .arenaArc) s acts, seen.dropsBlock = false := by
  induction acts generalizing s with
  | nil =>
    intro seen hseen
    cases hseen
  | cons act acts ih =>
    by_cases h0 : s.handles = 0
    · rw [answers_none (step_none h0)]
      intro seen hseen
      cases hseen
    · -- each operation keeps the distance, and a panic makes it larger
      suffices hstep : ∃ s' seen, s.step .arenaArc act = some (s', seen) ∧
          seen.dropsBlock = false ∧ s'.handles < s'.counter ∧
          s'.counter + acts.count .clone < 2 ^ 64 by
        obtain ⟨s', seen, hs, hnot, h', hfew'⟩ := hstep
        rw [answers_some hs]
        intro seen' hseen'
        rcases List.mem_cons.mp hseen' with rfl | hseen'
        · exact hnot
        · exact ih h' hfew' seen' hseen'
      cases act with
      | clone =>
        rw [List.count_cons_self] at hfew
        have hmod : (s.counter + 1) % 2 ^ 64 = s.counter + 1 := Nat.mod_eq_of_lt (by omega)
        simp only [step, h0, ite_false, HandleKind.clone, ArenaArc.clone, hmod]
        by_cases hlt : s.counter < isizeMax
        · rw [decide_eq_true hlt]
          exact ⟨_, _, rfl, rfl, Nat.succ_lt_succ h, by simp only; omega⟩
        · rw [decide_eq_false hlt]
          exact ⟨_, _, rfl, rfl, Nat.lt_succ_of_lt h, by simp only; omega⟩
      | forget =>
        have hcount : (CountAct.forget :: acts).count .clone = acts.count .clone := by simp
        rw [hcount] at hfew
        refine ⟨_, _, if_neg h0, rfl, ?_, hfew⟩
        exact Nat.lt_of_le_of_lt (Nat.sub_le _ _) h
      | drop =>
        have hcount : (CountAct.drop :: acts).count .clone = acts.count .clone := by simp
        rw [hcount] at hfew
        have hmod : (s.counter + (2 ^ 64 - 1)) % 2 ^ 64 = s.counter - 1 := by omega
        have hne : ¬ s.counter = 1 := by omega
        simp only [step, h0, ite_false, HandleKind.drop, ArenaArc.drop, hmod, hne, decide_false]
        refine ⟨_, _, rfl, rfl, ?_, ?_⟩
        · simp only
          omega
        · simp only
          omega

/-- A clone of an `ArenaArc` that panics counts a handle that nobody has, and no drop calls
`Block::drop_block` any more, up to about `2 ^ 63` further clones. -/
theorem arc_panic_leaks (hs : s.Bounded) (hlimit : s.AtLimit .clone)
    (hfew : s.counter + (acts.count .clone + 1) < 2 ^ 64) :
    ∀ seen ∈ answers (step .arenaArc) s (.clone :: acts), seen.dropsBlock = false := by
  rw [answers_some (step_arc_limit hlimit hs.counter)]
  intro seen hseen
  rcases List.mem_cons.mp hseen with rfl | hseen
  · rfl
  · have hlt : s.handles < s.counter + 1 := Nat.lt_succ_of_le hs.handles
    exact arc_never_last hlt (by simp only; omega) seen hseen

end Counting

end MemoryPools
