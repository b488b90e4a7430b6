import MemoryPools.Page.Threads
import Mathlib.Tactic.Tauto

/-!
# The last reference to a page

A page is referenced by its live handles and by its arena. `Refs` reads these
references off the bits of a page; `Refs.Lawful` says that the read-modify-write
operations of `drop_block` and `drop_page` each give one reference back and know
whether it was the last. From that alone `deallocate_page` is executed once, by
the caller that gave back the last reference.
-/

namespace MemoryPools

open Interleave

structure Refs (π : Type) where
  Wf : π → Prop
  held : π → Nat → Prop
  owned : π → Prop

variable {π κ : Type}

structure Refs.Lawful (R : Refs π) (ops : PageOps π κ) : Prop where
  lt : ∀ {page i}, R.held page i → i < blockPerPage
  giveBlock : ∀ {page page' i last}, R.Wf page → R.held page i →
    ops.giveBlock i page = (page', last) →
    R.Wf page' ∧ (∀ j, R.held page' j ↔ R.held page j ∧ j ≠ i) ∧ (R.owned page' ↔ R.owned page) ∧
      (last = true ↔ (∀ j, ¬ R.held page' j) ∧ ¬ R.owned page')
  givePage : ∀ {page page' last}, R.Wf page → R.owned page → ops.givePage page = (page', last) →
    R.Wf page' ∧ (∀ j, R.held page' j ↔ R.held page j) ∧ ¬ R.owned page' ∧
      (last = true ↔ ∀ j, ¬ R.held page' j)
  setLinks : ∀ {page} (links : PageLinks), R.Wf page → R.Wf (ops.setLinks page links) ∧
    (∀ j, R.held (ops.setLinks page links) j ↔ R.held page j) ∧
      (R.owned (ops.setLinks page links) ↔ R.owned page)

/-! ## Live blocks, and who is about to deallocate -/

def PageThread.hand : PageThread κ → Option Nat
  | .won index | .drop index .fetchAdd => some index
  | _ => none

def PageThread.dropsOnly : PageThread κ → Bool
  | .acquire _ | .won _ => false
  | _ => true

instance : Holder (PageThread κ) Nat := ⟨PageThread.hand⟩

theorem hand_given (index : Nat) (last : Bool) :
    (PageThread.drop index (if last then .deallocate else .push .loadInFree) : PageThread κ).hand =
      none := by
  cases last <;> rfl

theorem hand_pushed (index : Nat) (control : Control PushPc Unit) :
    (PageOps.afterDrop index (control.map .push) : PageThread κ).hand = none := by
  cases control <;> rfl

def deallocates (threads : Store (PageThread κ)) (arena : ArenaStage) : Option Tid → Prop
  | some t => ∃ i, threads.get t = .drop i .deallocate
  | none => arena = .giving .deallocate

namespace PageState

def Live (s : PageState π κ) (i : Nat) : Prop := Owned s.handles (handOf s.threads) i

def ArenaOwns (s : PageState π κ) : Prop := s.arena = .owns ∨ s.arena = .giving .fetch

def Referenced (s : PageState π κ) : Prop := (∃ i, s.Live i) ∨ s.ArenaOwns

def Deallocates (s : PageState π κ) (w : Option Tid) : Prop := deallocates s.threads s.arena w

end PageState

def PageAct.caller : PageAct → Option Tid
  | .acquire t | .drop t _ | .step t _ => some t
  | .dropPage | .stepArena | .other _ _ => none

def PageAct.isAcquire : PageAct → Bool
  | .acquire _ => true
  | _ => false

def PageAct.isDropPage : PageAct → Bool
  | .dropPage => true
  | _ => false

section
variable (m : Store (PageThread κ)) (arena : ArenaStage) {t : Tid} {p : PageThread κ}

theorem deallocates_some : deallocates m arena (some t) ↔ ∃ i, m.get t = .drop i .deallocate :=
  Iff.rfl

theorem deallocates_none : deallocates m arena none ↔ arena = .giving .deallocate := Iff.rfl

theorem deallocates_set_ne (w : Option Tid) (hw : w ≠ some t) :
    deallocates (m.set t p) arena w ↔ deallocates m arena w := by
  cases w with
  | none => exact Iff.rfl
  | some u =>
    have e : u ≠ t := fun e => hw (by rw [e])
    rw [deallocates_some, deallocates_some, Store.get_set_ne _ _ e]

theorem deallocates_set_self :
    deallocates (m.set t p) arena (some t) ↔ ∃ i, p = .drop i .deallocate := by
  rw [deallocates_some, Store.get_set_self]

theorem deallocates_set_same (h0 : ¬ deallocates m arena (some t))
    (hp : ∀ i, p ≠ .drop i .deallocate) (w : Option Tid) :
    deallocates (m.set t p) arena w ↔ deallocates m arena w := by
  by_cases e : w = some t
  · subst e
    rw [deallocates_set_self]
    constructor
    · intro ⟨i, hi⟩; exact absurd hi (hp i)
    · intro h; exact absurd h h0
  · exact deallocates_set_ne m arena w e

theorem deallocates_arena {arena' : ArenaStage} (w : Option Tid) (hw : w ≠ none) :
    deallocates m arena' w ↔ deallocates m arena w := by
  cases w with
  | none => exact absurd rfl hw
  | some u => exact Iff.rfl

end

/-! ## The invariant -/

structure ReleaseInv (R : Refs π) (s : PageState π κ) : Prop where
  wf : R.Wf s.page
  drops : ∀ t, (s.threads.get t).dropsOnly = true
  ledger : Ledger s.handles (handOf s.threads)
  held : ∀ i, R.held s.page i ↔ s.Live i
  owned : R.owned s.page ↔ s.ArenaOwns
  -- while a reference is left nobody deallocates
  busy : s.Referenced → s.deallocs = 0 ∧ ∀ w, ¬ s.Deallocates w
  -- after that one caller does
  spent : ¬ s.Referenced → (s.deallocs = 1 ∧ ∀ w, ¬ s.Deallocates w) ∨
    (s.deallocs = 0 ∧ ∃ w, s.Deallocates w ∧ ∀ v, s.Deallocates v → v = w)

namespace ReleaseInv

variable {R : Refs π} {ops : PageOps π κ} {s s' : PageState π κ}

theorem keep (h : ReleaseInv R s) (hwf : R.Wf s'.page)
    (hdrops : ∀ t, (s'.threads.get t).dropsOnly = true)
    (hledger : Ledger s'.handles (handOf s'.threads)) (hlive : ∀ i, s'.Live i ↔ s.Live i)
    (harena : s'.ArenaOwns ↔ s.ArenaOwns) (hheld : ∀ i, R.held s'.page i ↔ R.held s.page i)
    (howned : R.owned s'.page ↔ R.owned s.page)
    (hdealloc : ∀ w, s'.Deallocates w ↔ s.Deallocates w) (hn : s'.deallocs = s.deallocs) :
    ReleaseInv R s' := by
  have href : s'.Referenced ↔ s.Referenced := by
    unfold PageState.Referenced; rw [harena]; simp only [hlive]
  refine ⟨hwf, hdrops, hledger, ?_, ?_, ?_, ?_⟩
  · intro i; rw [hheld, hlive, h.held]
  · rw [howned, harena, h.owned]
  · rw [href, hn]; simp only [hdealloc]; exact h.busy
  · rw [href, hn]; simp only [hdealloc]; exact h.spent

theorem drops_set (h : ReleaseInv R s) {t : Tid} {p : PageThread κ}
    (hs : s'.threads = s.threads.set t p) (hp : p.dropsOnly = true) (u : Tid) :
    (s'.threads.get u).dropsOnly = true := by
  rw [hs, Store.get_set]; split
  · exact hp
  · exact h.drops u

/-- A caller that deallocates finds no reference and no other such caller. -/
theorem sole (h : ReleaseInv R s) {w : Option Tid} (hw : s.Deallocates w) :
    ¬ s.Referenced ∧ s.deallocs = 0 ∧ ∀ v, s.Deallocates v → v = w := by
  have hr : ¬ s.Referenced := fun hr => (h.busy hr).2 w hw
  refine ⟨hr, ?_⟩
  rcases h.spent hr with ⟨_, hn⟩ | ⟨h0, x, hx, huniq⟩
  · exact absurd hw (hn w)
  · refine ⟨h0, ?_⟩
    intro v hv
    rw [huniq v hv, huniq w hw]

theorem give (h : ReleaseInv R s) (w : Option Tid) (last : Bool) (href : s.Referenced)
    (hwf : R.Wf s'.page) (hdrops : ∀ t, (s'.threads.get t).dropsOnly = true)
    (hledger : Ledger s'.handles (handOf s'.threads)) (hheld : ∀ i, R.held s'.page i ↔ s'.Live i)
    (howned : R.owned s'.page ↔ s'.ArenaOwns)
    (hlast : last = true ↔ (∀ j, ¬ R.held s'.page j) ∧ ¬ R.owned s'.page)
    (hself : s'.Deallocates w ↔ last = true)
    (hothers : ∀ v, v ≠ w → (s'.Deallocates v ↔ s.Deallocates v)) (hn : s'.deallocs = s.deallocs) :
    ReleaseInv R s' := by
  obtain ⟨h0, hnone⟩ := h.busy href
  have hnone' : ∀ v, v ≠ w → ¬ s'.Deallocates v := fun v hv => by rw [hothers v hv]; exact hnone v
  have hr : last = true ↔ ¬ s'.Referenced := by
    rw [hlast, howned]
    unfold PageState.Referenced
    simp only [hheld, not_or, not_exists]
  refine ⟨hwf, hdrops, hledger, hheld, howned, ?_, ?_⟩
  · intro hr'
    refine ⟨by rw [hn, h0], ?_⟩
    intro v
    by_cases e : v = w
    · rw [e, hself, hr]; exact fun hx => hx hr'
    · exact hnone' v e
  · intro hr'
    refine Or.inr ⟨by rw [hn, h0], w, hself.mpr (hr.mpr hr'), ?_⟩
    intro v hv
    by_cases e : v = w
    · exact e
    · exact absurd hv (hnone' v e)

theorem free (h : ReleaseInv R s) (w : Option Tid) (hw : s.Deallocates w)
    (hpage : s'.page = s.page) (hdrops : ∀ t, (s'.threads.get t).dropsOnly = true)
    (hledger : Ledger s'.handles (handOf s'.threads)) (hlive : ∀ i, s'.Live i ↔ s.Live i)
    (harena : s'.ArenaOwns ↔ s.ArenaOwns) (hself : ¬ s'.Deallocates w)
    (hothers : ∀ v, v ≠ w → (s'.Deallocates v ↔ s.Deallocates v))
    (hn : s'.deallocs = s.deallocs + 1) : ReleaseInv R s' := by
  obtain ⟨hr, h0, huniq⟩ := h.sole hw
  have hr' : ¬ s'.Referenced := by
    unfold PageState.Referenced at hr ⊢; rw [harena]; simp only [hlive]; exact hr
  refine ⟨by rw [hpage]; exact h.wf, hdrops, hledger, ?_, ?_, fun hx => absurd hx hr', ?_⟩
  · intro i; rw [hpage, hlive, h.held]
  · rw [hpage, harena, h.owned]
  · refine fun _ => Or.inl ⟨by rw [hn, h0], ?_⟩
    intro v hv
    by_cases e : v = w
    · exact hself (e ▸ hv)
    · exact e (huniq v ((hothers v e).mp hv))

theorem step (hR : R.Lawful ops) {self : Addr} {a : PageAct} (h : ReleaseInv R s)
    (ha : a.isAcquire = false) (hs : ops.stepPage self s a = some s') : ReleaseInv R s' := by
  cases ops.moves_of_stepPage hs with
  | startAcquire ht => cases ha
  | @startDrop t i ht hi =>
    have h0 : handOf s.threads t = none := handOf_get ht
    have hd : ¬ s.Deallocates (some t) := by intro ⟨j, hj⟩; rw [ht] at hj; cases hj
    refine h.keep h.wf (h.drops_set rfl rfl)
      (h.ledger.take hi (handOf_set_self _) (handOf_set_ne _))
      (fun j => owned_take h.ledger hi h0 (handOf_set_self _) (handOf_set_ne _)) Iff.rfl
        (fun _ => Iff.rfl)
      Iff.rfl (deallocates_set_same _ _ hd fun j e => by cases e) rfl
  | startDropPage harena =>
    refine h.keep h.wf h.drops h.ledger (fun _ => Iff.rfl) ?_ (fun _ => Iff.rfl) Iff.rfl
      (fun w => ?_) rfl
    · simp [PageState.ArenaOwns, harena]
    · cases w with
      | none => simp [PageState.Deallocates, deallocates_none, harena]
      | some u => exact Iff.rfl
  | @acquire t _ pc _ _ ht hc =>
    have := h.drops t
    rw [ht] at this; cases this
  | @keep t _ i ht =>
    have := h.drops t
    rw [ht] at this; cases this
  | @giveBlock t _ i page last ht hg =>
    have h0 : handOf s.threads t = some i := handOf_get ht
    have hlive : s.Live i := Or.inr ⟨t, h0⟩
    obtain ⟨hwf, hheld, howned, hlast⟩ := hR.giveBlock h.wf ((h.held i).mpr hlive) hg
    have h1 : handOf
        (s.threads.set t (.drop i (if last then .deallocate else .push .loadInFree))) t = none :=
      (handOf_set_self _).trans (hand_given i last)
    refine h.give (some t) last (Or.inl ⟨i, hlive⟩) hwf (h.drops_set rfl rfl)
      (h.ledger.give h1 (handOf_set_ne _)) (fun j => ?_) ?_ hlast ?_ (deallocates_set_ne _ _) rfl
    · rw [hheld, h.held]
      exact (owned_give h.ledger h0 h1 (handOf_set_ne _)).symm
    · rw [howned, h.owned]; exact Iff.rfl
    · unfold PageState.Deallocates
      rw [deallocates_set_self]
      cases last <;> simp
  | @freeBlock t _ i ht =>
    have h0 : handOf s.threads t = none := handOf_get ht
    refine h.free (some t) ⟨i, ht⟩ rfl (h.drops_set rfl rfl)
      (h.ledger.congr (handOf_set_same _ h0.symm))
      (fun j => owned_congr (handOf_set_same _ h0.symm)) Iff.rfl ?_ (deallocates_set_ne _ _) rfl
    unfold PageState.Deallocates
    rw [deallocates_set_self]
    intro ⟨j, hj⟩; cases hj
  | @push t _ i pc links pending control ht hp =>
    have h0 : handOf s.threads t = none := handOf_get ht
    have hd : ¬ s.Deallocates (some t) := by intro ⟨j, hj⟩; rw [ht] at hj; cases hj
    have hsame := handOf_set_same s.threads ((hand_pushed i control).trans h0.symm)
    obtain ⟨hwf, hheld, howned⟩ := hR.setLinks links h.wf
    refine h.keep hwf (h.drops_set rfl ?_) (h.ledger.congr hsame) (fun j => owned_congr hsame)
      Iff.rfl hheld howned
      (deallocates_set_same _ _ hd fun j => ?_) rfl
    · cases control <;> rfl
    · cases control <;> intro e <;> cases e
  | @givePage page last harena hg =>
    have howns : s.ArenaOwns := Or.inr harena
    obtain ⟨hwf, hheld, howned, hlast⟩ := hR.givePage h.wf (h.owned.mpr howns) hg
    refine h.give none last (Or.inr howns) hwf h.drops h.ledger (fun j => ?_) ?_ ?_ ?_
      (deallocates_arena _ _) rfl
    · rw [hheld, h.held]; exact Iff.rfl
    · refine ⟨fun x => absurd x howned, fun x => ?_⟩
      unfold PageState.ArenaOwns at x
      cases last <;> simp at x
    · exact hlast.trans ⟨fun x => ⟨x, howned⟩, fun x => x.1⟩
    · unfold PageState.Deallocates
      rw [deallocates_none]
      cases last <;> simp
  | freePage harena =>
    refine h.free none harena rfl h.drops h.ledger (fun _ => Iff.rfl) ?_ ?_
      (deallocates_arena _ _) rfl
    · simp [PageState.ArenaOwns, harena]
    · simp [PageState.Deallocates, deallocates_none]
  | @other links pending =>
    obtain ⟨hwf, hheld, howned⟩ := hR.setLinks links h.wf
    exact h.keep hwf h.drops h.ledger (fun _ => Iff.rfl) Iff.rfl hheld howned (fun _ => Iff.rfl) rfl

end ReleaseInv

/-! ## Runs on one page -/

def DropPc.touchesPage : DropPc → Bool
  | .fetchAdd | .deallocate => true
  | .push pc => pc.touchesPage

namespace PageState

variable {π κ : Type}

/-- An owned page with any set of live blocks, before any call. -/
structure Start (R : Refs π) (s : PageState π κ) : Prop where
  wf : R.Wf s.page
  nodup : s.handles.Nodup
  held : ∀ i, R.held s.page i ↔ i ∈ s.handles
  owned : R.owned s.page
  threads : s.threads = Store.empty
  arena : s.arena = .owns
  deallocs : s.deallocs = 0

def frees (s : PageState π κ) : PageAct → Bool
  | .step t _ => match s.threads.get t with
    | .drop _ .deallocate => true
    | _ => false
  | .stepArena => s.arena = .giving .deallocate
  | _ => false

/-- No `drop_block` on the page is between its `fetch_add` and its return. -/
def noPush (s : PageState π κ) : Bool := s.threads.all fun p => match p with
  | .drop _ (.push _) => false
  | _ => true

theorem noPush_iff {s : PageState π κ} :
    s.noPush = true ↔ ∀ t i pc, s.threads.get t ≠ .drop i (.push pc) := by
  unfold noPush
  rw [Store.all_iff]
  constructor
  · intro h t i pc ht
    have := h t
    rw [ht] at this; cases this
  · intro h t
    split
    · rename_i i pc ht; exact absurd ht (h t i pc)
    · rfl

end PageState

def PageOps.machine {π κ : Type} (ops : PageOps π κ) (R : Refs π) (self : Addr) :
    Machine (PageState π κ) PageAct where
  init := PageState.Start R
  step := ops.stepPage self

theorem ReleaseInv.start {π κ : Type} {R : Refs π} {s : PageState π κ} (h : PageState.Start R s) :
    ReleaseInv R s := by
  have hidle : ∀ t, s.threads.get t = .idle := by
    intro t; rw [h.threads, Store.get_empty]; rfl
  have hhand : ∀ t, handOf s.threads t = none :=
    fun t => handOf_get (hidle t)
  refine ⟨h.wf, fun t => by rw [hidle t]; rfl, ledger_empty h.nodup hhand, fun i => ?_, ?_,
    fun _ => ⟨h.deallocs, ?_⟩, ?_⟩
  · rw [h.held]; exact (owned_empty hhand).symm
  · exact ⟨fun _ => Or.inl h.arena, fun _ => h.owned⟩
  · intro w hw
    cases w with
    | none => rw [PageState.Deallocates, deallocates_none, h.arena] at hw; cases hw
    | some t =>
      rw [PageState.Deallocates, deallocates_some, hidle t] at hw
      obtain ⟨i, hi⟩ := hw; cases hi
  · intro hr
    exact absurd (Or.inr (Or.inl h.arena)) hr

theorem ReleaseInv.of_reach {π κ : Type} {R : Refs π} {ops : PageOps π κ} (hR : R.Lawful ops)
    {self : Addr} {C : PageState π κ → PageAct → Prop} (hC : ∀ s a, C s a → a.isAcquire = false)
    {s : PageState π κ} (h : (ops.machine R self).Reach C s) : ReleaseInv R s :=
  h.invariant (fun _ => ReleaseInv.start) fun s a _ _ hi hc hs => hi.step hR (hC s a hc) hs

/-- Once the page is deallocated no reference is left, and no call is about to
give one back. -/
theorem ReleaseInv.gone {π κ : Type} {R : Refs π} {s : PageState π κ} (h : ReleaseInv R s)
    (hf : s.deallocs ≠ 0) :
    ¬ s.Referenced ∧ ∀ w, ¬ s.Deallocates w := by
  have hr : ¬ s.Referenced := fun hr => hf (h.busy hr).1
  rcases h.spent hr with ⟨_, hn⟩ | ⟨h0, _⟩
  · exact ⟨hr, hn⟩
  · exact absurd h0 hf

theorem noPush_step {π κ : Type} {R : Refs π} {ops : PageOps π κ} {self : Addr}
    {s s' : PageState π κ} {a : PageAct} (h : ReleaseInv R s)
    (hq : s.frees a = true → s.noPush = true) (hn : s.deallocs ≠ 0 → s.noPush = true)
    (hs : ops.stepPage self s a = some s') (hf : s'.deallocs ≠ 0) : s'.noPush = true := by
  have hset : ∀ (t : Tid) (p : PageThread κ), (∀ i pc, p ≠ .drop i (.push pc)) → s.noPush = true →
      ∀ u i pc, (s.threads.set t p).get u ≠ .drop i (.push pc) := by
    intro t p hp hn u i pc
    rw [Store.get_set]; split
    · exact hp i pc
    · exact PageState.noPush_iff.mp hn u i pc
  cases ops.moves_of_stepPage hs with
  | startAcquire ht => exact PageState.noPush_iff.mpr (hset _ _ (fun i pc e => by cases e) (hn hf))
  | startDrop ht hi => exact PageState.noPush_iff.mpr (hset _ _ (fun i pc e => by cases e) (hn hf))
  | startDropPage harena => exact hn hf
  | @acquire t up pc page control ht hc =>
    refine PageState.noPush_iff.mpr (hset _ _ (fun i pc e => ?_) (hn hf))
    cases control with
    | ret r => cases r <;> cases e
    | goto pc => cases e
    | panic => cases e
  | keep ht => exact PageState.noPush_iff.mpr (hset _ _ (fun i pc e => by cases e) (hn hf))
  | @giveBlock t _ i page last ht hg =>
    -- a thread before its `fetch_add` holds a reference
    exact absurd (Or.inl ⟨i, Or.inr ⟨t, handOf_get ht⟩⟩) (h.gone hf).1
  | @freeBlock t up i ht =>
    have hfr : s.frees (.step t up) = true := by simp only [PageState.frees, ht]
    exact PageState.noPush_iff.mpr (hset _ _ (fun i pc e => by cases e) (hq hfr))
  | @push t _ i pc links pending control ht hp =>
    exact absurd ht (PageState.noPush_iff.mp (hn hf) t i pc)
  | givePage harena hg => exact hn hf
  | freePage harena => exact hq (decide_eq_true harena)
  | other => exact hn hf

end MemoryPools
