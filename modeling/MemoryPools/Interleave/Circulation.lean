import MemoryPools.Interleave.Linked
import Mathlib.Logic.Function.Basic

/-!
# Cells that circulate between two chains

A free chain and a pending chain run through the same link of their cells. A cell
that is on neither is held by one of several workers, or out, or aside. The flag of
a cell is down exactly while the cell is out: the worker that raises it takes the
cell. The links of a held cell belong to its holder, so a worker can change them
without a look at the chains.
-/

namespace Interleave

inductive Place (ω ρ : Type)
  | free
  | pending
  | out
  | held (w : ω)
  | aside (r : ρ)
  deriving DecidableEq

variable {α ω ρ : Type}

structure Circulates (next : α → Option α) (flag : α → Bool) (free pending : Option α)
    (place : α → Place ω ρ) :
    Prop where
  free : ∃ l, Linked next free l ∧ ∀ p, p ∈ l ↔ place p = .free
  pending : ∃ l, Linked next pending l ∧ ∀ p, p ∈ l ↔ place p = .pending
  out : ∀ p, flag p = false ↔ place p = .out

def Carries (place : α → Place ω ρ) (w : ω) (l : List α) : Prop := ∀ p, place p = .held w ↔ p ∈ l

/-- A move of worker `w`: what the others hold stays, and what is aside. -/
structure Frame (w : ω) (place place' : α → Place ω ρ) : Prop where
  held : ∀ v, v ≠ w → ∀ p, place' p = .held v ↔ place p = .held v
  aside : ∀ r p, place' p = .aside r ↔ place p = .aside r

def Place.movable [DecidableEq ω] (w : ω) : Place ω ρ → Bool
  | .held v => v = w
  | .aside _ => false
  | _ => true

def sweep [DecidableEq ω] [DecidableEq ρ] (place : α → Place ω ρ) (a b : Place ω ρ) (p : α) :
    Place ω ρ :=
  if place p = a then b else place p

def relocate [DecidableEq α] (place : α → Place ω ρ) (l : List α) (x : Place ω ρ) (p : α) :
    Place ω ρ :=
  if p ∈ l then x else place p

structure Holds (place : α → Place ω ρ) (w : ω) (l : List α) : Prop where
  carries : Carries place w l
  nodup : l.Nodup

variable {next next' : α → Option α} {flag : α → Bool} {free pending : Option α}
  {place place' : α → Place ω ρ}
  {w v : ω} {p : α} {l : List α}

namespace Frame

theorem refl : Frame w place place := ⟨fun _ _ _ => Iff.rfl, fun _ _ => Iff.rfl⟩

theorem trans {place'' : α → Place ω ρ} (h : Frame w place place') (h' : Frame w place' place'') :
    Frame w place place'' :=
  ⟨fun v hv p => (h'.held v hv p).trans (h.held v hv p), fun r p => (h'.aside r p).trans
    (h.aside r p)⟩

theorem carries (h : Frame w place place') (hv : v ≠ w) (hc : Carries place v l) :
    Carries place' v l := by
  intro q
  rw [h.held v hv, hc q]

theorem update [DecidableEq α] [DecidableEq ω] {x : Place ω ρ} (hp : (place p).movable w = true)
    (hx : x.movable w = true) : Frame w place (Function.update place p x) := by
  refine ⟨fun v hv q => ?_, fun r q => ?_⟩
  all_goals by_cases e : q = p
  · subst e
    rw [Function.update_self]
    constructor
    · intro h; subst h; exact absurd (of_decide_eq_true hx) hv
    · intro h; rw [h] at hp; exact absurd (of_decide_eq_true hp) hv
  · rw [Function.update_of_ne e]
  · subst e
    rw [Function.update_self]
    constructor
    · intro h; subst h; cases hx
    · intro h; rw [h] at hp; cases hp
  · rw [Function.update_of_ne e]

theorem sweep [DecidableEq ω] [DecidableEq ρ] {a b : Place ω ρ} (ha : a.movable w = true)
    (hb : b.movable w = true) :
    Frame w place (sweep place a b) := by
  refine ⟨fun v hv q => ?_, fun r q => ?_⟩
  all_goals unfold Interleave.sweep; split
  · rename_i e
    constructor
    · intro h; subst h; exact absurd (of_decide_eq_true hb) hv
    · intro h; rw [h] at e; subst e; exact absurd (of_decide_eq_true ha) hv
  · exact Iff.rfl
  · rename_i e
    constructor
    · intro h; subst h; cases hb
    · intro h; rw [h] at e; subst e; cases ha
  · exact Iff.rfl

end Frame

namespace Carries

theorem single (h : Carries place w [p]) : place p = .held w := (h p).mpr (by simp)

theorem add [DecidableEq α] (h : Carries place w l) :
    Carries (Function.update place p (.held w)) w (p :: l) := by
  intro q
  by_cases e : q = p
  · subst e; simp
  · rw [Function.update_of_ne e, h q]; simp [e]

theorem remove [DecidableEq α] {x : Place ω ρ} (h : Carries place w (p :: l)) (hp : p ∉ l)
    (hx : x ≠ .held w) :
    Carries (Function.update place p x) w l := by
  intro q
  by_cases e : q = p
  · subst e; simp [hx, hp]
  · rw [Function.update_of_ne e, h q]; simp [e]

variable [DecidableEq ω] [DecidableEq ρ]

theorem sweep_in {a : Place ω ρ} (h : Carries place w []) (hl : ∀ q, q ∈ l ↔ place q = a) :
    Carries (sweep place a (.held w)) w l := by
  intro q
  unfold sweep
  rw [hl q]
  split
  · rename_i e; simp [e]
  · rename_i e
    have := h q
    simp only [List.not_mem_nil, iff_false] at this
    simp [e, this]

theorem sweep_out {b : Place ω ρ} (hb : b ≠ .held w) : Carries (sweep place (.held w) b) w [] := by
  intro q
  unfold sweep
  split
  · simp [hb]
  · rename_i e; simp [e]

end Carries

theorem Holds.perm {m : List α} (h : Holds place w l) (hp : l.Perm m) : Holds place w m :=
  ⟨fun q => (h.carries q).trans hp.mem_iff, hp.nodup_iff.mp h.nodup⟩

theorem Holds.mem (h : Holds place w l) (hp : p ∈ l) : place p = .held w := (h.carries p).mpr hp

section
variable [DecidableEq α] {x y : Place ω ρ}

theorem relocate_mem (h : p ∈ l) : relocate place l x p = x := if_pos h

theorem relocate_not_mem (h : p ∉ l) : relocate place l x p = place p := if_neg h

theorem relocate_eq_iff :
    relocate place l x p = y ↔ p ∈ l ∧ x = y ∨ p ∉ l ∧ place p = y := by
  by_cases hp : p ∈ l
  · simp [relocate_mem hp, hp]
  · simp [relocate_not_mem hp, hp]

theorem relocate_other (hl : ∀ q ∈ l, place q ≠ y) (hx : x ≠ y) (q : α) :
    relocate place l x q = y ↔ place q = y := by
  unfold relocate
  split
  · rename_i hq; simp [hx, hl q hq]
  · exact Iff.rfl

theorem relocate_single : relocate place [p] x = Function.update place p x := by
  funext q
  simp [relocate, Function.update_apply]

theorem relocate_eq_sweep [DecidableEq ω] [DecidableEq ρ] (hl : ∀ q, q ∈ l ↔ place q = y) :
    relocate place l x = sweep place y x := by
  funext q
  simp [relocate, sweep, hl]

theorem Frame.relocate [DecidableEq ω] (hl : ∀ q ∈ l, (place q).movable w = true)
    (hx : x.movable w = true) :
    Frame w place (relocate place l x) := by
  have hne : ∀ {z : Place ω ρ}, z.movable w = true → (∀ v, v ≠ w → z ≠ .held v) ∧
    ∀ r, z ≠ .aside r := by
    intro z hz
    refine ⟨fun v hv e => ?_, fun r e => ?_⟩
    · subst e; exact hv (of_decide_eq_true hz)
    · subst e; cases hz
  exact ⟨fun v hv => relocate_other (fun q hq => (hne (hl q hq)).1 v hv) ((hne hx).1 v hv),
    fun r => relocate_other (fun q hq => (hne (hl q hq)).2 r) ((hne hx).2 r)⟩

namespace Holds

variable {m : List α}

theorem take (h : Holds place w m) (hl : l.Nodup) (hne : ∀ q ∈ l, place q ≠ .held w) :
    Holds (relocate place l (.held w)) w (l ++ m) := by
  refine ⟨fun q => ?_, List.nodup_append.mpr ⟨hl, h.nodup, fun q hq r hr e => ?_⟩⟩
  · by_cases hq : q ∈ l
    · simp [relocate_mem hq, hq]
    · simp [relocate_not_mem hq, hq, h.carries q]
  · subst e
    exact hne q hq (h.mem hr)

theorem put (h : Holds place w (l ++ m)) (hx : x ≠ .held w) : Holds (relocate place l x) w m := by
  obtain ⟨hl, hm, hlm⟩ := List.nodup_append.mp h.nodup
  refine ⟨fun q => ?_, hm⟩
  by_cases hq : q ∈ l
  · have : q ∉ m := fun hq' => hlm q hq q hq' rfl
    simp [relocate_mem hq, hx, this]
  · simp [relocate_not_mem hq, h.carries q, hq]

end Holds

end

/-! ## The moves -/

section
variable {P : α → Prop} {x y a b : Place ω ρ}

theorem update_other [DecidableEq α] (h : ∀ q, P q ↔ place q = y) (hp : place p ≠ y) (hx : x ≠ y)
    (q : α) :
    P q ↔ Function.update place p x q = y := by
  rw [h q]
  by_cases e : q = p
  · subst e; simp [hp, hx]
  · rw [Function.update_of_ne e]

theorem sweep_other [DecidableEq ω] [DecidableEq ρ] (h : ∀ q, P q ↔ place q = y) (ha : a ≠ y)
    (hb : b ≠ y) (q : α) :
    P q ↔ sweep place a b q = y := by
  rw [h q]
  unfold sweep
  split
  · rename_i e; simp [e, ha, hb]
  · exact Iff.rfl

end

namespace Circulates

theorem start [DecidableEq α] (hl : Linked next free l) (hflag : ∀ p, flag p = true) (r : ρ) :
    Circulates next flag free none (relocate (fun _ => (.aside r : Place ω ρ)) l .free) where
  free := ⟨l, hl, fun p => by simp [relocate_eq_iff]⟩
  pending := ⟨[], rfl, fun p => by simp [relocate_eq_iff]⟩
  out p := by simp [relocate_eq_iff, hflag]

theorem congr (h : Circulates next flag free pending place)
    (hn : ∀ q, place q = .free ∨ place q = .pending → next' q = next q) :
    Circulates next' flag free pending place := by
  obtain ⟨F, hF, hf⟩ := h.free
  obtain ⟨P, hP, hp⟩ := h.pending
  refine ⟨⟨F, hF.congr fun q hq => ?_, hf⟩, ⟨P, hP.congr fun q hq => ?_, hp⟩, h.out⟩
  · exact hn q (Or.inl ((hf q).mp hq))
  · exact hn q (Or.inr ((hp q).mp hq))

theorem retag (h : Circulates next flag free pending place)
    (hf : ∀ q, place' q = .free ↔ place q = .free)
    (hp : ∀ q, place' q = .pending ↔ place q = .pending)
    (ho : ∀ q, place' q = .out ↔ place q = .out) :
    Circulates next flag free pending place' := by
  obtain ⟨F, hF, hf'⟩ := h.free
  obtain ⟨P, hP, hp'⟩ := h.pending
  exact ⟨⟨F, hF, fun q => (hf' q).trans (hf q).symm⟩, ⟨P, hP, fun q => (hp' q).trans (hp q).symm⟩,
    fun q => (h.out q).trans (ho q).symm⟩

theorem head_free (h : Circulates next flag (some p) pending place) : place p = .free := by
  obtain ⟨F, hF, hf⟩ := h.free
  cases F with
  | nil => cases hF
  | cons q F =>
    obtain rfl := Option.some.inj hF.1
    exact (hf _).mp (by simp)

theorem held_offChain (h : Circulates next flag free pending place) (hp : place p = .held w) :
    ¬ OnChain next free p ∧ ¬ OnChain next pending p := by
  obtain ⟨F, hF, hf⟩ := h.free
  obtain ⟨P, hP, hp'⟩ := h.pending
  rw [OnChain.iff_mem hF, OnChain.iff_mem hP, hf, hp', hp]
  simp

theorem onChain (h : Circulates next flag free pending place) (hp : flag p = true)
    (hheld : ∀ w, place p ≠ .held w) (haside : ∀ r, place p ≠ .aside r) :
    OnChain next free p ∨ OnChain next pending p := by
  obtain ⟨F, hF, hf⟩ := h.free
  obtain ⟨P, hP, hp'⟩ := h.pending
  cases hx : place p with
  | free => exact Or.inl ⟨F, hF, (hf p).mpr hx⟩
  | pending => exact Or.inr ⟨P, hP, (hp' p).mpr hx⟩
  | out =>
    rw [(h.out p).mpr hx] at hp
    cases hp
  | held w => exact absurd hx (hheld w)
  | aside r => exact absurd hx (haside r)

section
variable [DecidableEq α]

theorem pop (h : Circulates next flag (some p) pending place) (w : ω) :
    Circulates next flag (next p) pending (Function.update place p (.held w)) := by
  have hfree := h.head_free
  obtain ⟨F, hF, hf⟩ := h.free
  obtain ⟨P, hP, hp⟩ := h.pending
  cases F with
  | nil => cases hF
  | cons q F =>
    obtain rfl := Option.some.inj hF.1
    have hn := (List.nodup_cons.mp hF.nodup).1
    refine ⟨⟨F, hF.2, fun q => ?_⟩, ⟨P, hP, update_other hp (by simp [hfree]) (by simp)⟩,
      update_other h.out (by simp [hfree]) (by simp)⟩
    by_cases e : q = p
    · subst e; simp [hn]
    · rw [Function.update_of_ne e, ← hf q]; simp [e]

theorem claim (h : Circulates next flag free pending place) (hp : flag p = false) (w : ω) :
    Circulates next (Function.update flag p true) free pending
    (Function.update place p (.held w)) := by
  have hout := (h.out p).mp hp
  obtain ⟨F, hF, hf⟩ := h.free
  obtain ⟨P, hP, hp'⟩ := h.pending
  refine ⟨⟨F, hF, update_other hf (by simp [hout]) (by simp)⟩,
    ⟨P, hP, update_other hp' (by simp [hout]) (by simp)⟩,
    fun q => ?_⟩
  by_cases e : q = p
  · subst e; simp
  · rw [Function.update_of_ne e, Function.update_of_ne e, h.out q]

theorem letOut (h : Circulates next flag free pending place) (hp : place p = .held w) :
    Circulates next (Function.update flag p false) free pending (Function.update place p .out) := by
  obtain ⟨F, hF, hf⟩ := h.free
  obtain ⟨P, hP, hp'⟩ := h.pending
  refine ⟨⟨F, hF, update_other hf (by simp [hp]) (by simp)⟩,
    ⟨P, hP, update_other hp' (by simp [hp]) (by simp)⟩,
    fun q => ?_⟩
  by_cases e : q = p
  · subst e; simp
  · rw [Function.update_of_ne e, Function.update_of_ne e, h.out q]

theorem write (h : Circulates next flag free pending place) (hp : place p = .held w)
    (c : Option α) :
    Circulates (Function.update next p c) flag free pending place := by
  refine h.congr fun q hq => Function.update_of_ne (fun e => ?_) _ _
  rw [e, hp] at hq
  rcases hq with hq | hq <;> cases hq

/-- A held cell that is linked to the head of the pending chain becomes its head. -/
theorem push (h : Circulates next flag free pending place) (hp : place p = .held w)
    (hn : next p = pending) :
    Circulates next flag free (some p) (Function.update place p .pending) := by
  obtain ⟨F, hF, hf⟩ := h.free
  obtain ⟨P, hP, hp'⟩ := h.pending
  refine ⟨⟨F, hF, update_other hf (by simp [hp]) (by simp)⟩, ⟨p :: P, ⟨rfl, hn ▸ hP⟩, fun q => ?_⟩,
    update_other h.out (by simp [hp]) (by simp)⟩
  by_cases e : q = p
  · subst e; simp
  · rw [Function.update_of_ne e, ← hp' q]; simp [e]

end

theorem giveFree {head : Option α} [DecidableEq α] (h : Circulates next flag none pending place)
    (hl : Linked next head l) (hc : ∀ q ∈ l, place q = .held w) :
    Circulates next flag head pending (relocate place l .free) := by
  obtain ⟨F, hF, hf⟩ := h.free
  obtain ⟨P, hP, hp⟩ := h.pending
  have hnone : ∀ q, place q ≠ .free := by
    intro q hq
    have := (hf q).mpr hq
    cases F with
    | nil => cases this
    | cons r F => cases hF.1
  have hother : ∀ y, y ≠ .held w → y ≠ .free → ∀ q, relocate place l .free q = y ↔ place q = y :=
    fun y hy hy' => relocate_other (fun q hq => by rw [hc q hq]; exact Ne.symm hy) (Ne.symm hy')
  refine ⟨⟨l, hl, fun q => ?_⟩,
    ⟨P, hP, fun q => (hp q).trans (hother _ (by simp) (by simp) q).symm⟩,
    fun q => (h.out q).trans (hother _ (by simp) (by simp) q).symm⟩
  by_cases hq : q ∈ l
  · simp [relocate_mem hq, hq]
  · simp [relocate_not_mem hq, hq, hnone q]

section
variable [DecidableEq ω] [DecidableEq ρ]

theorem takePending (h : Circulates next flag free pending place) (w : ω) :
    Circulates next flag free none (sweep place .pending (.held w)) := by
  obtain ⟨F, hF, hf⟩ := h.free
  refine ⟨⟨F, hF, sweep_other hf (by simp) (by simp)⟩, ⟨[], rfl, fun q => ?_⟩, sweep_other h.out
    (by simp) (by simp)⟩
  unfold sweep
  split
  · simp
  · rename_i e; simp [e]

theorem takeFree (h : Circulates next flag free pending place) (w : ω) :
    Circulates next flag none pending (sweep place .free (.held w)) := by
  obtain ⟨P, hP, hp⟩ := h.pending
  refine ⟨⟨[], rfl, fun q => ?_⟩, ⟨P, hP, sweep_other hp (by simp) (by simp)⟩, sweep_other h.out
    (by simp) (by simp)⟩
  unfold sweep
  split
  · simp
  · rename_i e; simp [e]

theorem giveAll {head : Option α} [DecidableEq α] (h : Circulates next flag none pending place)
    (hl : Linked next head l) (hc : Carries place w l) :
    Circulates next flag head pending (sweep place (.held w) .free) := by
  rw [← relocate_eq_sweep fun q => (hc q).symm]
  exact h.giveFree hl fun q hq => (hc q).mpr hq

end

end Circulates

end Interleave
